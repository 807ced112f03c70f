import SleepyText.Lib.Delimited
import SleepyText.System.Windows

set_option relaxedAutoImplicit false
set_option autoImplicit false

/-!
# Reading the file back

The file of a branch is a sequence of records, without separators and with lengths in the order of
the host. All the same it can be read as records in one way only.

## Main definitions

* `Tab.Short` — the changes appended for a window have texts whose lengths fit into 32 bits.

## Main results

* `delimited_stored` — the records in a file are self-delimiting.
* `file_reads_back` — the file tells what was appended, and in which order.
-/

namespace SleepyText.System

open Client (Change JsString Window blob)
open Server (Bytes Directory Memory Record SystemCalls branchFile)
open Word

/-! ## Records in a file -/

/-- A number below `2 ^ 32` is known from its bytes. -/
lemma be32_injective {m n : ℕ} (hm : m < 2 ^ 32) (hn : n < 2 ^ 32) (h : be32 m = be32 n) :
    m = n := by
  have hvalue := congrArg ofBe h
  rwa [ofBe_be32, ofBe_be32, Nat.mod_eq_of_lt hm, Nat.mod_eq_of_lt hn] at hvalue

/-- And so is its reverse. -/
lemma le32_injective {m n : ℕ} (hm : m < 2 ^ 32) (hn : n < 2 ^ 32) (h : le32 m = le32 n) :
    m = n :=
  be32_injective hm hn (List.reverse_injective h)

/-- **The records** in a file are self-delimiting: the lengths stand in front of the texts. -/
theorem delimited_stored : Delimited Record.stored where
  ne_nil r := List.cons_ne_nil _ _
  first r r' rest rest' h := by
    simp only [Record.stored, List.cons_append, List.append_assoc, List.cons.injEq,
      true_and] at h
    obtain ⟨hpos, h⟩ := List.append_inj h (by simp)
    obtain ⟨hlastlen, h⟩ := List.append_inj h (by simp)
    obtain ⟨hnowlen, h⟩ := List.append_inj h (by simp)
    have hlastlen := le32_injective r.last_lt r'.last_lt hlastlen
    have hnowlen := le32_injective r.now_lt r'.now_lt hnowlen
    obtain ⟨hlast, h⟩ := List.append_inj h hlastlen
    obtain ⟨hnow, -⟩ := List.append_inj h hnowlen
    have hpos := be32_injective r.pos.toNat_lt r'.pos.toNat_lt hpos
    cases r
    cases r'
    simp only [Record.mk.injEq]
    exact ⟨UInt32.toNat_inj.mp hpos, hlast, hnow⟩

/-! ## Runs -/

/-- The changes appended for a window have texts whose lengths fit into 32 bits. -/
def Tab.Short (t : Tab) : Prop :=
  ∀ change ∈ t.log, (blob change.last).length < 2 ^ 32 ∧ (blob change.now).length < 2 ^ 32

section Steps

variable {env : SystemCalls} {setcookie : JsString → JsString → JsString} {t : Tab}
  {dir : Directory}

/-- One event appends what has come in a request that fits. -/
lemma short_tabStep (henv : env.Works) {e : TabEvent} {t' : Tab} {dir' : Directory}
    (h : t.Kept ∧ t.Short) (hstep : tabStep env setcookie (t, dir) e = some (t', dir')) :
    t'.Kept ∧ t'.Short := by
  obtain ⟨hkept, h⟩ := h
  refine ⟨(appends_tabStep henv _ _ _ _ _ hkept hstep).1, ?_⟩
  cases tabStepped_of_step hstep with
  | arrived hs =>
    obtain ⟨w, dir', hw, rfl, -⟩ := deliveryStep_deliver henv (fun _ hw => hkept.request hw) hs
    have hshort := length_lt_of_deliver hs hw (hkept.request (List.mem_of_getElem? hw))
    intro change hchange
    rcases List.mem_append.mp hchange with hchange | hchange
    · exact h change hchange
    · obtain ⟨hlast, hnow⟩ := length_blob_le hchange
      have hlt : (Client.transferencode w.request.changes).length < 2 ^ 32 :=
        hshort.trans (by norm_num)
      exact ⟨hlast.trans_lt hlt, hnow.trans_lt hlt⟩
  | moved => exact h
  | sent => exact h
  | lost => exact h
  | answered => exact h
  | failed => exact h

end Steps

/-- **The file reads back.** In every run of any number of windows that upload to an empty file, the
file can be read as records in exactly one way: they are the changes appended for the windows, in
the order in which they were appended.

**Proof sketch.** The file is an interleaving of the logs (`Shared.run_interleaves`), whose changes
have come in requests that fit into a buffer and so are records; records are self-delimiting
(`delimited_stored`). -/
theorem file_reads_back {ι : Type*} [DecidableEq ι] {env : SystemCalls} (henv : env.Works)
    {setcookie : JsString → JsString → JsString} {cookie : ι → JsString} {dir dir' : Directory}
    (hnew : dir.content (branchFile 1337) = []) {tabs : ι → Tab} {events : List (ι × TabEvent)}
    (hrun : Run.run (Shared.step (tabStep env setcookie)) (fun i => .onload (cookie i), dir)
      events = some (tabs, dir')) :
    ∃ (stored : List (ι × Change)) (records : List Record),
      (∀ i, Interleaving.part stored i = (tabs i).log) ∧
      List.Forall₂ Sends (Interleaving.items stored) records ∧
      ∀ records' : List Record,
        dir'.content (branchFile 1337) = records'.flatMap Record.stored ↔ records' = records := by
  obtain ⟨stored, h⟩ := Shared.run_interleaves (appends_tabStep henv)
    (fun i => Tab.kept_onload (cookie i)) (fun _ => rfl) hrun
  have hshort (i : ι) : (tabs i).Short := by
    refine (Shared.run_member (I := fun t : Tab => t.Kept ∧ t.Short)
      (fun _ _ _ _ _ h hstep => short_tabStep henv h hstep) (i := i)
      ⟨Tab.kept_onload (cookie i), fun _ hchange => absurd hchange List.not_mem_nil⟩ hrun).2
  obtain ⟨records, hrecords⟩ := @exists_records (Interleaving.items stored) fun change hchange => by
    obtain ⟨⟨i, _⟩, hmem, rfl⟩ := List.mem_map.mp hchange
    apply hshort i
    rw [← h.parts i]
    exact Interleaving.mem_part.mpr hmem
  have hcontent : dir'.content (branchFile 1337) = records.flatMap Record.stored := by
    have hstore := h.store
    rw [hnew, List.nil_append] at hstore
    rw [flatMap_stored hrecords]
    exact hstore
  refine ⟨stored, records, h.parts, hrecords, fun records' => ⟨fun hread => ?_, ?_⟩⟩
  · exact delimited_stored.flatMap_injective (hread.symm.trans hcontent)
  · rintro rfl
    exact hcontent

/-- The windows of two clients with the same document. -/
theorem file_reads_back_two :
    let opened (i : Fin 2) : List (Fin 2 × TabEvent) := [
      (i, .window (.respond 0 200 [⟨2, 0, 0, 7⟩])), (i, .window (.click ⟨3, .entry 7⟩)),
      (i, .window (.mousemove (some 2) 0)), (i, .window .mouseup), (i, .window (.interval true))]
    let events : List (Fin 2 × TabEvent) := opened 0 ++ opened 1 ++ [
      (0, .window (.input [105] 0)), (1, .window (.input [98] 0)), (0, .window .tick),
      (1, .window .tick), (1, .arrive 0 [⟨0, [], [98]⟩]), (0, .arrive 0 [⟨0, [], [105]⟩])]
    ∃ (tabs : Fin 2 → Tab) (dir : Directory),
      Run.run (Shared.step (tabStep working fun _ _ => []))
        (fun _ => .onload [], fun _ => none) events = some (tabs, dir) ∧
      ∃ (stored : List (Fin 2 × Change)) (records : List Record),
        (∀ i, Interleaving.part stored i = (tabs i).log) ∧
        List.Forall₂ Sends (Interleaving.items stored) records ∧
        ∀ records' : List Record,
          dir.content (branchFile 1337) = records'.flatMap Record.stored ↔ records' = records := by
  intro opened events
  have hsome : (Run.run (Shared.step (tabStep working fun _ _ => []))
      (fun _ => .onload [], fun _ => none) events).isSome := by decide +kernel
  obtain ⟨⟨tabs, dir⟩, hrun⟩ := Option.isSome_iff_exists.mp hsome
  exact ⟨tabs, dir, hrun, file_reads_back works_working rfl hrun⟩

end SleepyText.System
