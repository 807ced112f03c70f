import SleepyText.Server.Http

set_option relaxedAutoImplicit false
set_option autoImplicit false

/-!
# The branch listing

`http_callback_branches` prints a line for each branch row of the user into a block of 4096 bytes.

## Main definitions

* `Row`, `Row.printed` — a branch row and its line.
* `httpCallbackBranches` — the handler.
* `Overruns` — the text of the rows is longer than the block.
* `Print`, `branchesPrints` — the calls of `bprintf` that it makes.
* `Listed` — the listing is whole, and neither leaves the block nor its counter.

## Main results

* `httpCallbackBranches_spec` — the payload is the printed text, when it fits into the block; its
  last byte is lost when the zero behind it does not fit.
* `branches_listed_iff` — a listing is as it should be exactly when the zero fits as well.
* `branches_overrun` — a listing that is not.
-/

namespace SleepyText.Server

/-- A row of `selectbranches`. -/
structure Row where
  id : ℤ
  parent : ℤ
  pos : ℤ
  document : ℤ
  deriving DecidableEq, Repr

/-- What `"%ld %ld %ld %ld\n"` prints for a row. -/
def Row.printed (r : Row) : List UInt8 :=
  Decimal.print r.id ++ 32 :: (Decimal.print r.parent ++ 32 :: (Decimal.print r.pos ++
    32 :: (Decimal.print r.document ++ [10])))

/-- The loop over the rows. -/
def branchesLoop : List Row → Memory → Bytes → Memory × Bytes
  | [], m, resp => (m, resp)
  | r :: rows, m, resp =>
    let (m, printed, _) := bprintf m resp r.printed
    branchesLoop rows m ⟨resp.asVoid + printed.len, sizeSub resp.len printed.len⟩

/-- `http_callback_branches`, for the user that `getuserid` found and the rows that the query
returned; `balloc` returned the address `block`. -/
def httpCallbackBranches (user : ℤ) (rows : List Row) (m : Memory) (block : ℕ) :
    HttpResult × Memory × Bytes :=
  if user = 0 then (.badRequest, m, ⟨0, 0⟩)
  else
    let (m, resp) := branchesLoop rows m ⟨block, 4096⟩
    (.ok, m, ⟨block, sizeSub 4096 resp.len⟩)

/-- The text of all rows. -/
def printedRows (rows : List Row) : List UInt8 := rows.flatMap Row.printed

/-- The text of the rows is longer than the block. Then `resp.len` has been counted below zero, and
bytes are written, and handed over, that are not in the block. -/
def Overruns (rows : List Row) : Prop := 4096 < (printedRows rows).length

instance (rows : List Row) : Decidable (Overruns rows) := inferInstanceAs (Decidable (_ < _))

/-- What is left of a text in a block of which `k` of 4096 bytes are used. -/
def fitted (k : ℕ) (text : List UInt8) : List UInt8 :=
  if k + text.length < 4096 then text else text.take (4095 - k) ++ [0]

lemma Row.length_printed_pos (r : Row) : 0 < r.printed.length := by
  simp [Row.printed]

lemma printedRows_cons (r : Row) (rows : List Row) :
    printedRows (r :: rows) = r.printed ++ printedRows rows := rfl

/-- Every row prints something. -/
lemma printedRows_eq_nil {rows : List Row} (h : (printedRows rows).length = 0) : rows = [] := by
  cases rows with
  | nil => rfl
  | cons r rows =>
    have hpos := r.length_printed_pos
    rw [printedRows_cons, List.length_append] at h
    omega

lemma fitted_of_lt {k : ℕ} {text : List UInt8} (h : k + text.length < 4096) :
    fitted k text = text := if_pos h

/-- A text that leaves room is kept whole. -/
lemma fitted_append {k : ℕ} {text : List UInt8} (rest : List UInt8)
    (h : k + text.length < 4096) :
    fitted k (text ++ rest) = text ++ fitted (k + text.length) rest := by
  rw [fitted, fitted, List.length_append, Nat.add_assoc]
  split_ifs
  · rfl
  · rw [List.take_append, List.take_of_length_le (l := text) (by omega), Nat.sub_sub,
      List.append_assoc]

/-- A text printed behind `k` bytes of the block. -/
lemma read_bprintf (m : Memory) (block : ℕ) {k : ℕ} (text : List UInt8) (hk : k < 4096)
    (hfit : k + text.length ≤ 4096) :
    (bprintf m ⟨block + k, 4096 - k⟩ text).1.read ⟨block, k + text.length⟩ =
      m.read ⟨block, k⟩ ++ fitted k text := by
  set bs := text.take (4095 - k) ++ [0] with hbs
  have hlen : bs.length = min (4095 - k) text.length + 1 := by
    rw [hbs, List.length_append, List.length_take, List.length_singleton]
  have hmem : (bprintf m ⟨block + k, 4096 - k⟩ text).1 = m.store (block + k) bs := by
    rw [hbs, show 4095 - k = 4096 - k - 1 by omega]
    exact if_neg (by dsimp only; omega)
  have hfront : (m.store (block + k) bs).read ⟨block, k⟩ = m.read ⟨block, k⟩ :=
    Memory.read_store_of_disjoint (.inl le_rfl)
  have hback : (m.store (block + k) bs).read ⟨block + k, text.length⟩ = bs.take text.length := by
    rw [← Memory.take_read (n := bs.length) (by omega), Memory.read_store]
  have htake : bs.take text.length = fitted k text := by
    unfold fitted
    split_ifs with hlt
    · rw [hbs, List.take_append_of_le_length (by rw [List.length_take]; omega), List.take_take,
        List.take_of_length_le (by omega)]
    · rw [List.take_of_length_le (by omega)]
  rw [hmem, Memory.read_add, hfront, hback, htake]

/-- **The loop** over rows whose text fits, behind `k` bytes of the block. -/
theorem branchesLoop_spec (rows : List Row) (m : Memory) (block : ℕ) {k : ℕ} (hk : k < 4096)
    (hfit : k + (printedRows rows).length ≤ 4096) :
    (branchesLoop rows m ⟨block + k, 4096 - k⟩).2.len = 4096 - (k + (printedRows rows).length) ∧
      (branchesLoop rows m ⟨block + k, 4096 - k⟩).1.read ⟨block, k + (printedRows rows).length⟩ =
        m.read ⟨block, k⟩ ++ fitted k (printedRows rows) := by
  induction rows generalizing m k with
  | nil =>
    have hnil : printedRows [] = [] := rfl
    rw [hnil, fitted_of_lt (by simpa using hk)]
    simp [branchesLoop]
  | cons r rows ih =>
    rw [printedRows_cons, List.length_append] at hfit
    have hread := read_bprintf m block r.printed hk (by omega)
    have hresp : branchesLoop (r :: rows) m ⟨block + k, 4096 - k⟩ =
        branchesLoop rows (bprintf m ⟨block + k, 4096 - k⟩ r.printed).1
          ⟨block + (k + r.printed.length), 4096 - (k + r.printed.length)⟩ := by
      have hleft : sizeSub (4096 - k) r.printed.length = 4096 - (k + r.printed.length) := by
        rw [sizeSub, if_pos (by omega)]
        omega
      rw [← hleft, ← Nat.add_assoc]
      rfl
    have htotal : k + (r.printed.length + (printedRows rows).length) =
        k + r.printed.length + (printedRows rows).length := by omega
    rw [hresp, printedRows_cons, List.length_append, htotal]
    by_cases hlt : k + r.printed.length < 4096
    · -- the zero behind the row is overwritten by the next one
      obtain ⟨hlen, hloop⟩ := ih (bprintf m ⟨block + k, 4096 - k⟩ r.printed).1 hlt (by omega)
      refine ⟨hlen, ?_⟩
      rw [hloop, hread, fitted_of_lt hlt, List.append_assoc, fitted_append _ hlt]
    · -- the block is full, and no row is left
      obtain rfl : rows = [] := printedRows_eq_nil (by omega)
      have hnil : printedRows [] = [] := rfl
      rw [hnil, List.append_nil, List.length_nil, Nat.add_zero]
      exact ⟨rfl, hread⟩

/-- **The payload** is the text of the rows, when it fits into the block: a text of 4096 bytes
loses its last byte to the zero. -/
theorem httpCallbackBranches_spec {user : ℤ} (huser : user ≠ 0) (rows : List Row) (m : Memory)
    (block : ℕ) (hfit : (printedRows rows).length ≤ 4096) :
    ∃ m', httpCallbackBranches user rows m block =
        (.ok, m', ⟨block, (printedRows rows).length⟩) ∧
      m'.read ⟨block, (printedRows rows).length⟩ = fitted 0 (printedRows rows) := by
  obtain ⟨hlen, hread⟩ := branchesLoop_spec rows m block (show 0 < 4096 by omega) (by omega)
  rw [Nat.zero_add] at hlen hread
  refine ⟨_, ?_, hread⟩
  rw [httpCallbackBranches, if_neg huser]
  dsimp only [Nat.add_zero, Nat.sub_zero] at hlen ⊢
  rw [hlen, sizeSub, if_pos (by omega), Nat.sub_sub_self hfit]

/-! ## The calls of `bprintf` -/

/-- A call of `bprintf`: the range given, and what the format prints. -/
structure Print where
  range : Bytes
  text : List UInt8

/-- The number of bytes that a call writes, the final zero included. -/
def Print.written (p : Print) : ℕ :=
  if p.range.len = 0 then 0 else min (p.range.len - 1) p.text.length + 1

/-- The calls of `bprintf` in the loop over the rows, in order. -/
def branchesPrints : List Row → Bytes → List Print
  | [], _ => []
  | r :: rows, resp =>
    ⟨resp, r.printed⟩ :: branchesPrints rows
      ⟨resp.asVoid + r.printed.length, sizeSub resp.len r.printed.length⟩

/-- **The loop over the rows** makes these calls, one behind the other. -/
theorem branchesLoop_eq_foldl (rows : List Row) (m : Memory) (resp : Bytes) :
    (branchesLoop rows m resp).1 =
      (branchesPrints rows resp).foldl (fun m p => (bprintf m p.range p.text).1) m := by
  induction rows generalizing m resp with
  | nil => rfl
  | cons r rows ih =>
    rw [branchesLoop, branchesPrints, List.foldl_cons]
    exact ih _ _

/-- A call changes nothing outside the bytes that it writes. -/
lemma Print.frame (p : Print) (m : Memory) {x : ℕ}
    (h : x < p.range.asVoid ∨ p.range.asVoid + p.written ≤ x) :
    (bprintf m p.range p.text).1 x = m x := by
  unfold bprintf vsnprintf
  unfold written at h
  dsimp only
  split_ifs at h ⊢ with hlen
  · rfl
  · apply Memory.store_of_outside
    rw [List.length_append, List.length_take, List.length_singleton]
    exact h

/-- **The listing as it should be**: the payload is the text of all rows, every byte is written
within the block, and no print is longer than the counter says is left. -/
structure Listed (rows : List Row) (block : ℕ) (r : HttpResult × Memory × Bytes) : Prop where
  payload : r.2.1.read r.2.2 = printedRows rows
  inside : ∀ p ∈ branchesPrints rows ⟨block, 4096⟩, 0 < p.written →
    block ≤ p.range.asVoid ∧ p.range.asVoid + p.written ≤ block + 4096
  counter : ∀ p ∈ branchesPrints rows ⟨block, 4096⟩, p.text.length ≤ p.range.len

/-- As long as the rows fit, a call prints into what is left of the block behind the rows before
it. -/
lemma mem_branchesPrints {rows : List Row} {block k : ℕ}
    (hfit : k + (printedRows rows).length ≤ 4096) {p : Print}
    (hp : p ∈ branchesPrints rows ⟨block + k, 4096 - k⟩) :
    ∃ k', p.range = ⟨block + k', 4096 - k'⟩ ∧ k' + p.text.length ≤ 4096 := by
  induction rows generalizing k with
  | nil => exact absurd hp List.not_mem_nil
  | cons r rows ih =>
    rw [printedRows_cons, List.length_append] at hfit
    rcases List.mem_cons.mp hp with rfl | hp
    · exact ⟨k, rfl, by dsimp only; omega⟩
    · apply @ih (k + r.printed.length) (by omega)
      rw [sizeSub, if_pos (by dsimp only; omega), Nat.sub_sub, Nat.add_assoc] at hp
      exact hp

/-- When no print is longer than what is left, all of them together are not. -/
lemma length_le_of_counter {rows : List Row} {resp : Bytes}
    (h : ∀ p ∈ branchesPrints rows resp, p.text.length ≤ p.range.len) :
    (printedRows rows).length ≤ resp.len := by
  induction rows generalizing resp with
  | nil => exact Nat.zero_le _
  | cons r rows ih =>
    rw [branchesPrints, List.forall_mem_cons] at h
    obtain ⟨hfirst, hrest⟩ := h
    dsimp only at hfirst
    have hih := ih hrest
    rw [sizeSub, if_pos hfirst] at hih
    dsimp only at hih
    rw [printedRows_cons, List.length_append]
    omega

/-- A listing ends with a line feed. -/
lemma getLast?_printedRows {rows : List Row} (h : rows ≠ []) :
    (printedRows rows).getLast? = some 10 := by
  obtain ⟨rows, r, rfl⟩ : ∃ front r, rows = front ++ [r] :=
    ⟨rows.dropLast, rows.getLast h, (List.dropLast_concat_getLast h).symm⟩
  have hline : r.printed = (Decimal.print r.id ++ 32 :: (Decimal.print r.parent ++
      32 :: (Decimal.print r.pos ++ 32 :: Decimal.print r.document))) ++ [10] := by
    simp [Row.printed]
  rw [printedRows, List.flatMap_append, List.flatMap_singleton, hline, ← List.append_assoc]
  exact List.getLast?_concat

/-- A listing that is as it should be is shorter than the block. -/
lemma Listed.length_lt {user : ℤ} (huser : user ≠ 0) {rows : List Row} {m : Memory} {block : ℕ}
    (h : Listed rows block (httpCallbackBranches user rows m block)) :
    (printedRows rows).length < 4096 := by
  have hle : (printedRows rows).length ≤ 4096 := length_le_of_counter h.counter
  apply lt_of_le_of_ne hle
  intro hfull
  -- the zero has replaced the last line feed
  obtain ⟨m', hrun, hread⟩ := httpCallbackBranches_spec huser rows m block hle
  have hpayload := h.payload
  rw [hrun] at hpayload
  have hzero : (printedRows rows).getLast? = some 0 := by
    rw [← hpayload]
    dsimp only
    rw [hread, fitted, if_neg (by omega), List.getLast?_append, List.getLast?_singleton]
    rfl
  have hne : rows ≠ [] := by
    rintro rfl
    exact absurd hfull (by decide)
  rw [getLast?_printedRows hne] at hzero
  exact absurd hzero (by decide)

/-- **A listing is as it should be exactly when it is shorter than the block**: the zero that
`vsnprintf` writes behind the last row has to fit as well.

**Proof sketch.** If the rows fit, each call prints behind those before it (`mem_branchesPrints`)
and the payload is their text (`httpCallbackBranches_spec`). If they do not, either the counter
runs below zero (`length_le_of_counter`) or the last line feed is lost. -/
theorem branches_listed_iff {user : ℤ} (huser : user ≠ 0) (rows : List Row) (m : Memory)
    (block : ℕ) :
    Listed rows block (httpCallbackBranches user rows m block) ↔
      (printedRows rows).length < 4096 := by
  refine ⟨fun h => h.length_lt huser, fun hlt => ?_⟩
  obtain ⟨m', hrun, hread⟩ := httpCallbackBranches_spec huser rows m block hlt.le
  have hprint : ∀ p ∈ branchesPrints rows ⟨block, 4096⟩,
      ∃ k', p.range = ⟨block + k', 4096 - k'⟩ ∧ k' + p.text.length ≤ 4096 := fun p hp =>
    @mem_branchesPrints rows block 0 (by omega) p hp
  refine ⟨?_, fun p hp hpos => ?_, fun p hp => ?_⟩
  · rw [hrun]
    dsimp only
    rw [hread, fitted_of_lt (by omega)]
  · obtain ⟨k', hrange, hk'⟩ := hprint p hp
    rw [Print.written, hrange] at hpos ⊢
    dsimp only at hpos ⊢
    split_ifs at hpos ⊢ <;> omega
  · obtain ⟨k', hrange, hk'⟩ := hprint p hp
    rw [hrange]
    dsimp only
    omega

/-- One row is listed. -/
theorem branches_listed_iff_one :
    Listed [⟨5, 0, 0, 1⟩] 0 (httpCallbackBranches 1 [⟨5, 0, 0, 1⟩] (fun _ => 0) 0) ↔
      (printedRows [⟨5, 0, 0, 1⟩]).length < 4096 :=
  branches_listed_iff (by decide) _ _ _

/-- The listing of 512 rows of 8 bytes each loses its last byte, and the one of 513 rows runs the
counter below zero. -/
theorem branches_overrun :
    ¬ Listed (List.replicate 512 ⟨5, 0, 0, 1⟩) 0
        (httpCallbackBranches 1 (List.replicate 512 ⟨5, 0, 0, 1⟩) (fun _ => 0) 0) ∧
      ¬ Listed (List.replicate 513 ⟨5, 0, 0, 1⟩) 0
        (httpCallbackBranches 1 (List.replicate 513 ⟨5, 0, 0, 1⟩) (fun _ => 0) 0) := by
  have hlen (n : ℕ) : (printedRows (List.replicate n ⟨5, 0, 0, 1⟩)).length = n * 8 := by
    rw [printedRows, List.length_flatMap, List.map_replicate, List.sum_replicate, smul_eq_mul]
    rfl
  refine ⟨fun h => ?_, fun h => ?_⟩
  · have hlt := h.length_lt (by decide)
    rw [hlen] at hlt
    exact absurd hlt (by decide)
  · have hlt := h.length_lt (by decide)
    rw [hlen] at hlt
    exact absurd hlt (by decide)

end SleepyText.Server
