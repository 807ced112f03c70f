import SleepyText.Client.Updates
import SleepyText.Server.Listing

set_option relaxedAutoImplicit false
set_option autoImplicit false

/-!
# The branch listing, from the server to the client

The server prints a line for each branch row of the user, and the client makes branch objects of
the lines it reads.

## Main definitions

* `Row.Exact`, `Row.args` — the rows whose numbers are doubles, and the object for a row.

## Main results

* `fetchupdates_printedRows` — the client makes objects of the first, third, fifth … row.
* `listing_iff` — it makes one object of each row exactly when there is at most one row.
-/

namespace SleepyText.System

open Client (JsString BranchArgs responseText updatesRow updatesLoop fetchupdates parseInt)
open Server (Memory Bytes Row printedRows fitted httpCallbackBranches)

/-- The numbers of a row have a magnitude of at most `2 ^ 53`. -/
structure Row.Exact (r : Row) : Prop where
  id : r.id.natAbs ≤ 2 ^ 53
  parent : r.parent.natAbs ≤ 2 ^ 53
  pos : r.pos.natAbs ≤ 2 ^ 53
  document : r.document.natAbs ≤ 2 ^ 53

/-- The arguments of `new branch` for a row. -/
def Row.args (r : Row) : BranchArgs (Option ℤ) :=
  { id := some r.id, parent := some r.parent, pos := some r.pos, document := some r.document }

/-- The line of a row without the newline. -/
def Row.line (r : Row) : List UInt8 :=
  Decimal.print r.id ++ 32 :: (Decimal.print r.parent ++ 32 :: (Decimal.print r.pos ++
    32 :: Decimal.print r.document))

lemma printed_eq_line (r : Row) : r.printed = Row.line r ++ [10] := by
  simp [Row.printed, Row.line]

/-! ## The client reads what the server prints -/

/-- A printed number contains no separator. -/
lemma not_mem_print {c : UInt16} (hc : c.toNat < 33) (n : ℤ) :
    c ∉ responseText (Decimal.print n) := by
  intro hmem
  obtain ⟨d, hd, rfl⟩ := List.mem_map.mp hmem
  have hrange := Decimal.range_of_mem_print hd
  rw [Client.toNat_toUInt16] at hc
  omega

lemma not_mem_line (r : Row) : (10 : UInt16) ∉ responseText (Row.line r) := by
  have h (n : ℤ) : (10 : UInt16) ∉ responseText (Decimal.print n) := not_mem_print (by decide) n
  simp only [Row.line, responseText, List.map_append, List.map_cons, List.mem_append,
    List.mem_cons, not_or]
  exact ⟨h _, by decide, h _, by decide, h _, by decide, h _⟩

/-- **One line** becomes the object of its row. -/
lemma updatesRow_line {r : Row} (h : Row.Exact r) :
    updatesRow (responseText (Row.line r)) = Row.args r := by
  have hmem (n : ℤ) : (32 : UInt16) ∉ responseText (Decimal.print n) :=
    not_mem_print (by decide) n
  have hsplit : (responseText (Row.line r)).splitOn 32 =
      [responseText (Decimal.print r.id), responseText (Decimal.print r.parent),
        responseText (Decimal.print r.pos), responseText (Decimal.print r.document)] := by
    have hline : responseText (Row.line r) = responseText (Decimal.print r.id) ++
        32 :: (responseText (Decimal.print r.parent) ++
          32 :: (responseText (Decimal.print r.pos) ++
            32 :: responseText (Decimal.print r.document))) := by
      simp [Row.line, responseText]
    rw [hline, List.splitOn_append_cons_self_of_not_mem (hmem _),
      List.splitOn_append_cons_self_of_not_mem (hmem _),
      List.splitOn_append_cons_self_of_not_mem (hmem _), List.splitOn_eq_singleton (hmem _)]
  rw [updatesRow, hsplit]
  simp [Row.args, Client.parseInt_print h.id, Client.parseInt_print h.parent,
    Client.parseInt_print h.pos, Client.parseInt_print h.document]

/-- The first, third, fifth … element of a list. -/
def everyOther {α : Type*} : List α → List α
  | [] => []
  | [x] => [x]
  | x :: _ :: xs => x :: everyOther xs

/-- The text of a row and of those behind it is split at the newline of the row. -/
lemma splitOn_printedRows_cons (r : Row) (rows : List Row) :
    (responseText (printedRows (r :: rows))).splitOn 10 =
      responseText (Row.line r) :: (responseText (printedRows rows)).splitOn 10 := by
  have htext : responseText (printedRows (r :: rows)) =
      responseText (Row.line r) ++ 10 :: responseText (printedRows rows) := by
    simp [printedRows, printed_eq_line, responseText]
  rw [htext, List.splitOn_append_cons_self_of_not_mem (not_mem_line r)]

/-- **The objects** that the client makes of a whole listing: every other row is passed over. -/
theorem fetchupdates_printedRows {rows : List Row} (h : ∀ r ∈ rows, Row.Exact r) :
    fetchupdates (responseText (printedRows rows)) = (everyOther rows).map Row.args := by
  unfold fetchupdates
  induction rows using everyOther.induct with
  | case1 => rfl
  | case2 r =>
    have hnil : (responseText (printedRows [])).splitOn 10 = [[]] := rfl
    rw [splitOn_printedRows_cons, hnil, updatesLoop, updatesRow_line (h r List.mem_cons_self)]
    rfl
  | case3 r skipped rows ih =>
    rw [splitOn_printedRows_cons, splitOn_printedRows_cons, updatesLoop,
      updatesRow_line (h r List.mem_cons_self),
      ih fun r' hr' => h r' (List.mem_cons_of_mem _ (List.mem_cons_of_mem _ hr'))]
    rfl

/-! ## The number of objects -/

lemma count_printedRows (rows : List Row) :
    (responseText (printedRows rows)).count 10 = rows.length := by
  have h := Client.length_splitOn (responseText (printedRows rows)) 10
  have hsplit : ((responseText (printedRows rows)).splitOn 10).length = rows.length + 1 := by
    clear h
    induction rows with
    | nil => rfl
    | cons r rows ih => rw [splitOn_printedRows_cons, List.length_cons, ih, List.length_cons]
  omega

/-- What arrives of a listing has no more lines than it has rows. -/
lemma count_fitted_le (rows : List Row) :
    (responseText (fitted 0 (printedRows rows))).count 10 ≤ rows.length := by
  unfold fitted
  split_ifs with h
  · rw [count_printedRows]
  · have hzero : (responseText [0]).count 10 = 0 := by decide
    have hsub := (List.take_sublist 4095 (printedRows rows)).map UInt8.toUInt16
    rw [Nat.sub_zero, Client.responseText_append, List.count_append, hzero, Nat.add_zero,
      ← count_printedRows]
    exact hsub.count_le 10

/-- The line of one row fits into the block. -/
lemma length_printed_lt {r : Row} (h : Row.Exact r) : r.printed.length < 4096 := by
  -- a number of magnitude at most `2 ^ 53` has at most 16 digits
  have hlen {n : ℤ} (hn : n.natAbs ≤ 2 ^ 53) : (Decimal.print n).length ≤ 17 :=
    Decimal.length_print_le (by omega) (lt_of_le_of_lt hn (by norm_num))
  have hid := hlen h.id
  have hparent := hlen h.parent
  have hpos := hlen h.pos
  have hdocument := hlen h.document
  rw [printed_eq_line, Row.line]
  simp only [List.length_append, List.length_cons, List.length_nil]
  omega

/-- **The listing arrives whole** exactly when it has at most one row: from then on every other
row is passed over. -/
theorem listing_iff {user : ℤ} (huser : user ≠ 0) {rows : List Row}
    (hexact : ∀ r ∈ rows, Row.Exact r) (m : Memory) (block : ℕ)
    (hfit : (printedRows rows).length ≤ 4096) :
    (∃ m' payload, httpCallbackBranches user rows m block = (.ok, m', payload) ∧
        fetchupdates (responseText (m'.read payload)) = rows.map Row.args) ↔
      rows.length ≤ 1 := by
  obtain ⟨m', hlisting, hread⟩ :=
    Server.httpCallbackBranches_spec huser rows m block hfit
  constructor
  · rintro ⟨m₁, payload, hlisting', hobjects⟩
    rw [hlisting, Prod.mk.injEq, Prod.mk.injEq] at hlisting'
    obtain ⟨-, rfl, rfl⟩ := hlisting'
    rw [hread] at hobjects
    -- the number of objects is at most half the number of rows, rounded up
    have hlen := congrArg List.length hobjects
    rw [Client.length_fetchupdates, List.length_map] at hlen
    have hcount := count_fitted_le rows
    omega
  · intro hle
    refine ⟨m', _, hlisting, ?_⟩
    rw [hread]
    rcases rows with _ | ⟨r, _ | ⟨r', rows⟩⟩
    · rw [Server.fitted_of_lt (by decide), fetchupdates_printedRows hexact]
      rfl
    · have hlt : 0 + (printedRows [r]).length < 4096 := by
        have h := length_printed_lt (hexact r List.mem_cons_self)
        rwa [printedRows, List.flatMap_singleton, Nat.zero_add]
      rw [Server.fitted_of_lt hlt, fetchupdates_printedRows hexact]
      rfl
    · rw [List.length_cons, List.length_cons] at hle
      omega

/-- The listing of an account with one branch. -/
theorem listing_iff_one :
    (∃ m' payload, httpCallbackBranches 1 [⟨1, 0, 0, 1⟩] (fun _ => 0) 0 = (.ok, m', payload) ∧
        fetchupdates (responseText (m'.read payload)) = [⟨1, 0, 0, 1⟩].map Row.args) ↔
      [(⟨1, 0, 0, 1⟩ : Row)].length ≤ 1 :=
  listing_iff (by decide) (by
    intro r hr
    obtain rfl := List.mem_singleton.mp hr
    exact ⟨by decide, by decide, by decide, by decide⟩) _ 0 (by decide)

/-- Of two branches the client makes the first only. -/
theorem listing_skips_second :
    ∃ m' payload, httpCallbackBranches 1 [⟨1, 0, 0, 1⟩, ⟨2, 1, 5, 1⟩] (fun _ => 0) 0 =
        (.ok, m', payload) ∧
      m'.read payload = Server.ascii "1 0 0 1\n2 1 5 1\n" ∧
      fetchupdates (responseText (m'.read payload)) = [Row.args ⟨1, 0, 0, 1⟩] ∧
      fetchupdates (responseText (m'.read payload)) ≠
        [⟨1, 0, 0, 1⟩, ⟨2, 1, 5, 1⟩].map Row.args := by
  refine ⟨_, _, rfl, ?_⟩
  decide +kernel

end SleepyText.System
