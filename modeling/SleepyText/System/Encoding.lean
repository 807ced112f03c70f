import SleepyText.System.Delivery
import SleepyText.Server.FeedTrace

set_option relaxedAutoImplicit false
set_option autoImplicit false

/-!
# The encoder and the scanner

The client encodes its changes in `transferencode`, and the upload handler of the server scans the
bytes again. The two agree on where each change stands and on what its header says, for texts of
any bytes, and for any number of changes.

## Main definitions

* `insertOf` — the header of a change.

## Main results

* `feed_meets_changes` — the handler meets the changes where the encoder put them.
-/

namespace SleepyText.System

open Client (Change transferencode changeencode blob encodeInt32)
open Server (Memory Bytes Directory SystemCalls FeedState Insert Record httpCallbackFeed feedBody
  feedStart feedTrace branchFile bslice)
open Word

/-- The header of a change: its position, and the UTF-8 sizes of its texts. -/
def insertOf (change : Change) : Insert :=
  ⟨change.pos, (blob change.last).length, (blob change.now).length⟩

lemma Sends.insert {change : Change} {r : Record} (h : Sends change r)
    (hpos : change.pos < 2 ^ 32) : r.insert = insertOf change := by
  rw [Record.insert, insertOf, h.pos, h.last, h.now, Nat.mod_eq_of_lt hpos]

/-- The records of the first changes. -/
lemma flatMap_encode_take {list : List Change} {records : List Record}
    (h : List.Forall₂ Sends list records) (k : ℕ) :
    (records.take k).flatMap Record.encode = (list.take k).flatMap changeencode :=
  flatMap_encode (List.forall₂_take k h)

/-- A record that is sent for some change. -/
lemma exists_of_mem_record {list : List Change} {records : List Record}
    (h : List.Forall₂ Sends list records) {r : Record} (hr : r ∈ records) :
    ∃ change ∈ list, Sends change r := by
  obtain ⟨k, hk, rfl⟩ := List.mem_iff_getElem.mp hr
  have hk' : k < list.length := h.length_eq ▸ hk
  exact ⟨list[k], List.getElem_mem hk', h.get hk' hk⟩

/-- A change that is sent as the record at the same place. -/
lemma getElem?_record {list : List Change} {records : List Record}
    (h : List.Forall₂ Sends list records) {k : ℕ} {change : Change}
    (hchange : list[k]? = some change) : ∃ r, records[k]? = some r ∧ Sends change r := by
  obtain ⟨hlt, rfl⟩ := List.getElem?_eq_some_iff.mp hchange
  have hlt' : k < records.length := h.length_eq ▸ hlt
  exact ⟨records[k], List.getElem?_eq_getElem hlt', h.get hlt hlt'⟩

/-- A record has at least one byte. -/
lemma length_le_flatMap_encode (records : List Record) :
    records.length ≤ (records.flatMap Record.encode).length := by
  induction records with
  | nil => rfl
  | cons r records ih =>
    rw [List.flatMap_cons, List.length_append, r.length_encode, Record.size, List.length_cons]
    omega

/-- A request is the id of the branch, and the changes. -/
lemma length_transferencode (list : List Change) :
    (transferencode list).length = 5 + (list.flatMap changeencode).length := by
  rw [transferencode, Client.encodeInt32_eq, List.length_cons, List.length_append, length_be32]
  omega

/-- The records of changes that fit into 32 bits fit as well. -/
lemma size_lt_of_sends {list : List Change} {records : List Record}
    (h : List.Forall₂ Sends list records)
    (hfits : ∀ change ∈ list, 13 + (blob change.last).length + (blob change.now).length < 2 ^ 32) :
    ∀ r ∈ records, r.size < 2 ^ 32 := by
  intro r hr
  obtain ⟨change, hchange, hsends⟩ := exists_of_mem_record h hr
  rw [Record.size, hsends.last, hsends.now]
  exact hfits change hchange

section Request

variable {mem : Memory} {payload : Bytes} {list : List Change}

lemma len_of_read_transferencode (hbody : mem.read payload = transferencode list) :
    payload.len = 5 + (list.flatMap changeencode).length := by
  rw [← Memory.length_read (m := mem) payload, hbody, length_transferencode]

/-- Behind the id of the branch stand the changes. -/
lemma read_behind_segment (hbody : mem.read payload = transferencode list) :
    mem.read ⟨payload.asVoid + 5, payload.len - 5⟩ = list.flatMap changeencode := by
  have hlen := len_of_read_transferencode hbody
  have hdrop : mem.read ⟨payload.asVoid + 5, payload.len - 5⟩ = (mem.read payload).drop 5 :=
    (Memory.drop_read (by omega)).symm
  rw [hdrop, hbody, transferencode, Client.encodeInt32_eq, List.drop_succ_cons,
    List.drop_left' (length_be32 _)]

/-- **The turn over the segment header** of a request: the file of the branch is opened, and the
handler goes to the first change. -/
lemma feedBody_segment {env : SystemCalls} (hopen : env.opens 0 = true) (hne : list ≠ [])
    (hbody : mem.read payload = transferencode list) (dir : Directory) :
    feedBody env (feedStart mem payload dir) = .inl { feedStart mem payload dir with
      file := some (branchFile 1337)
      dir := dir.create (branchFile 1337)
      calls := 1
      p := ⟨payload.asVoid + 5, payload.len - 5⟩
      commit := ⟨payload.asVoid + 5, 0⟩ } := by
  have hlen := len_of_read_transferencode hbody
  have hpos : 0 < (list.flatMap changeencode).length := by
    obtain ⟨change, list, rfl⟩ := List.exists_cons_of_ne_nil hne
    simp [changeencode]
  obtain ⟨-, hopcode, hbehind⟩ := Memory.read_eq_cons hbody
  have hbid : bslice payload 1 5 = ⟨payload.asVoid + 1, 4⟩ := by
    rw [bslice, if_neg (by omega), if_pos (by omega)]
    rfl
  have hid : Server.ntohl (mem.load32 (payload.asVoid + 1)) = (1337 : UInt32).toNat := by
    have hword : mem.read ⟨payload.asVoid + 1, 4⟩ = be32 1337 := by
      rw [List.length_append, Client.encodeInt32_eq, length_be32] at hbehind
      rw [← Memory.take_read (Nat.le_add_right 4 _), hbehind]
      exact List.take_left' (length_be32 _)
    rw [Memory.ntohl_load32, hword]
    rfl
  have hp : bslice payload 5 0 = ⟨payload.asVoid + 5, payload.len - 5⟩ := by
    rw [Server.bslice_zero, if_neg (by omega)]
  have hturn : feedBody env (feedStart mem payload dir) =
      Server.feedSegment env (feedStart mem payload dir) := by
    have hleft : (feedStart mem payload dir).p.len > 0 := show payload.len > 0 by omega
    have hb : (feedStart mem payload dir).mem (feedStart mem payload dir).p.asVoid = 98 := hopcode
    rw [feedBody, if_pos hleft, if_pos hb]
  rw [hturn, Server.feedSegment]
  simp only [feedStart, Option.isSome_none, Bool.false_eq_true, if_false, hbid, ne_eq,
    not_true_eq_false, hopen, if_true, hid, hp]
  rfl

end Request

/-- **The encoder and the scanner agree.** For changes whose positions and encoded sizes fit into
32 bits the handler accepts the request, if the file can be opened. Its loop meets one segment
header, then one record for each change, where the encoder put it and with its position and the
sizes of its texts, and then the end; what it commits to the file of the branch is all that stands
behind the first five bytes. -/
theorem feed_meets_changes {env : SystemCalls} (hopen : env.opens 0 = true) {mem : Memory}
    {payload : Bytes} {list : List Change} (hne : list ≠ [])
    (hfits : ∀ change ∈ list, change.pos < 2 ^ 32 ∧
      13 + (blob change.last).length + (blob change.now).length < 2 ^ 32)
    (hbody : mem.read payload = transferencode list) (dir : Directory) :
    ∃ (segment : FeedState) (records : List FeedState) (last : FeedState),
      httpCallbackFeed env mem payload dir = some (.ok, last.write env) ∧
      feedTrace env mem payload dir = segment :: (records ++ [last]) ∧
      (segment.p = payload ∧ segment.mem segment.p.asVoid = 98) ∧
      records.length = list.length ∧
      (∀ k change, list[k]? = some change → ∃ f : FeedState, records[k]? = some f ∧
        f.Meets (payload.asVoid + (transferencode (list.take k)).length) (insertOf change)) ∧
      last.p.len = 0 ∧ last.file = some (branchFile 1337) ∧
      last.commit = ⟨payload.asVoid + 5, payload.len - 5⟩ := by
  have hlen := len_of_read_transferencode hbody
  obtain ⟨records, hrecords⟩ := @exists_records list fun change hchange => by
    have h := (hfits change hchange).2
    omega
  have hencode := flatMap_encode hrecords
  have hsize := size_lt_of_sends hrecords fun change hchange => (hfits change hchange).2
  set start : FeedState := { feedStart mem payload dir with
    file := some (branchFile 1337)
    dir := dir.create (branchFile 1337)
    calls := 1
    p := ⟨payload.asVoid + 5, payload.len - 5⟩
    commit := ⟨payload.asVoid + 5, 0⟩ } with hstart
  have hturn : feedBody env (feedStart mem payload dir) = .inl start :=
    feedBody_segment hopen hne hbody dir
  have hread : start.mem.read start.p = records.flatMap Record.encode := by
    rw [hencode]
    exact read_behind_segment hbody
  have hfuel : records.length < 2 * payload.len + 1 := by
    have hle := length_le_flatMap_encode records
    rw [hencode] at hle
    omega
  obtain ⟨states, last, hloop, htrace, hlength, hmeets, hend, hfile, hcommit⟩ :=
    @Server.feed_records env records hsize start hread rfl _ hfuel
  obtain ⟨hloop', htrace'⟩ := @Loop.loop_turn _ _ _ (2 * payload.len + 1) _ _ hturn
  refine ⟨feedStart mem payload dir, states, last, hloop'.trans hloop, htrace'.trans ?_,
    ⟨rfl, (Memory.read_eq_cons hbody).2.1⟩, hlength.trans hrecords.length_eq.symm, ?_, hend, hfile,
    ?_⟩
  · rw [htrace]
  · intro k change hchange
    obtain ⟨r, hr, hsends⟩ := getElem?_record hrecords hchange
    obtain ⟨f, hf, hmeet⟩ := hmeets k r hr
    rw [hsends.insert (hfits change (List.mem_of_getElem? hchange)).1,
      flatMap_encode_take hrecords] at hmeet
    refine ⟨f, hf, ?_⟩
    rw [length_transferencode, ← Nat.add_assoc]
    exact hmeet
  · have hzero : start.commit.len = 0 := rfl
    rw [hcommit, hencode, Bytes.mk.injEq]
    exact ⟨rfl, by omega⟩

/-- A change whose text is the two opcodes, and one that deletes them. -/
def opcodeChanges : List Change := [⟨0, [], [98, 105]⟩, ⟨0, [98, 105], []⟩]

/-- The handler meets both changes, and does not take their texts for opcodes. -/
theorem feed_meets_opcodes :
    let mem : Memory := fun x => (transferencode opcodeChanges).getD x 0
    let payload : Bytes := ⟨0, (transferencode opcodeChanges).length⟩
    ∃ (segment : FeedState) (records : List FeedState) (last : FeedState),
      httpCallbackFeed ⟨fun _ => true, fun _ n => n⟩ mem payload (fun _ => none) =
        some (.ok, last.write ⟨fun _ => true, fun _ n => n⟩) ∧
      feedTrace ⟨fun _ => true, fun _ n => n⟩ mem payload (fun _ => none) =
        segment :: (records ++ [last]) ∧
      (segment.p = payload ∧ segment.mem segment.p.asVoid = 98) ∧
      records.length = 2 ∧
      (∀ k change, opcodeChanges[k]? = some change → ∃ f : FeedState, records[k]? = some f ∧
        f.Meets (payload.asVoid + (transferencode (opcodeChanges.take k)).length)
          (insertOf change)) ∧
      last.p.len = 0 ∧ last.file = some (branchFile 1337) ∧
      last.commit = ⟨payload.asVoid + 5, payload.len - 5⟩ :=
  @feed_meets_changes _ rfl _ _ opcodeChanges (by decide) (by decide) (by decide +kernel)
    (fun _ => none)

end SleepyText.System
