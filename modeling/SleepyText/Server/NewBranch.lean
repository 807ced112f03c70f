import SleepyText.Lib.Scan
import SleepyText.Server.Session

set_option relaxedAutoImplicit false
set_option autoImplicit false

/-!
# New branches

`http_callback_newbranch` scans three numbers from the payload into variables without an initial
value, and inserts them whatever the scan has found.

## Main definitions

* `Sqlite` — what the database answers to an insert.
* `NewbranchLocals`, `bscanf`, `httpCallbackNewbranch` — the handler.
* `newbranchBody` — what the client sends for a new document.
* `NewbranchOk` — the handler inserts what the payload begins with, and nothing else.

## Main results

* `httpCallbackNewbranch_spec` — a row is inserted for every payload.
* `newbranch_ok_iff` — the handler does what its format says exactly on the payloads that begin
  with three integers of 64 bits.
-/

namespace SleepyText.Server

/-! ## The handler -/

/-- The answers of the database to an insert: whether it is done, and the id of the new row. -/
structure Sqlite where
  inserts : Bool
  rowid : Database → ℤ

/-- The variables `parent`, `pos` and `document` of `http_callback_newbranch`. -/
structure NewbranchLocals where
  parent : ℤ
  pos : ℤ
  document : ℤ
  deriving DecidableEq, Repr

/-- The value that `%ld` stores for an integer: the nearest one of 64 bits. -/
def toLong (n : ℤ) : ℤ := max (-2 ^ 63) (min n (2 ^ 63 - 1))

/-- `bscanf` with the format `"%ld %ld %ld"`: the numbers found are stored, in order. -/
def bscanf (payload : List UInt8) (v : NewbranchLocals) : NewbranchLocals :=
  match (Scan.numbers 3 payload).map toLong with
  | [] => v
  | [parent] => { v with parent := parent }
  | [parent, pos] => { v with parent := parent, pos := pos }
  | parent :: pos :: document :: _ => ⟨parent, pos, document⟩

/-- `insert into branches(parent, pos, document, user) values(?, ?, ?, ?)`. -/
def Database.insertbranch (db : Database) (sql : Sqlite) (v : NewbranchLocals) (user : ℤ) :
    Database :=
  { db with branches := db.branches ++ [⟨⟨sql.rowid db, v.parent, v.pos, v.document⟩, user⟩] }

/-- `http_callback_newbranch`, where the variables hold `v` before the scan. -/
def httpCallbackNewbranch (sql : Sqlite) (v : NewbranchLocals) (m : Memory)
    (request : HttpRequest) (db : Database) : HttpResult × Database :=
  let user := getuserid m request.header db
  if user = 0 then (.badRequest, db)
  else
    let v := bscanf (m.read request.payload) v
    if sql.inserts then (.ok, db.insertbranch sql v user) else (.badRequest, db)

/-- What the handler for a new document sends, after it has drawn a number. -/
def newbranchBody (newdoc : ℤ) : List UInt8 := ascii "newbranch\n0 0 " ++ Decimal.print newdoc

/-- What the handler is for: a payload that begins with three integers inserts them for the user,
any other payload is rejected. -/
def NewbranchOk (sql : Sqlite) (v : NewbranchLocals) (m : Memory) (request : HttpRequest)
    (db : Database) : Prop :=
  (∀ parent pos document, Scan.Begins (m.read request.payload) [parent, pos, document] →
    httpCallbackNewbranch sql v m request db =
      (.ok, db.insertbranch sql ⟨parent, pos, document⟩ (getuserid m request.header db))) ∧
  ((¬ ∃ parent pos document, Scan.Begins (m.read request.payload) [parent, pos, document]) →
    httpCallbackNewbranch sql v m request db = (.badRequest, db))

/-! ## What is inserted -/

variable {sql : Sqlite} {v : NewbranchLocals} {m : Memory} {request : HttpRequest} {db : Database}

/-- **A row is inserted** for every payload of a user. -/
theorem httpCallbackNewbranch_spec (huser : getuserid m request.header db ≠ 0)
    (hinserts : sql.inserts = true) : httpCallbackNewbranch sql v m request db =
      (.ok, db.insertbranch sql (bscanf (m.read request.payload) v)
        (getuserid m request.header db)) := by
  rw [httpCallbackNewbranch, if_neg huser, if_pos hinserts]

/-- Three integers at the front of the payload are stored. -/
lemma bscanf_of_begins {payload : List UInt8} {parent pos document : ℤ}
    (h : Scan.Begins payload [parent, pos, document]) (v : NewbranchLocals) :
    bscanf payload v = ⟨toLong parent, toLong pos, toLong document⟩ := by
  have hscan : Scan.numbers 3 payload = [parent, pos, document] :=
    (Scan.numbers_eq_iff rfl).mpr h
  rw [bscanf, hscan]
  rfl

lemma toLong_eq_self_iff {n : ℤ} : toLong n = n ↔ -2 ^ 63 ≤ n ∧ n < 2 ^ 63 := by
  unfold toLong
  omega

/-- Rows that are inserted are different when their numbers are. -/
lemma insertbranch_injective {v v' : NewbranchLocals} {user : ℤ}
    (h : db.insertbranch sql v user = db.insertbranch sql v' user) : v = v' := by
  have hrows := congrArg Database.branches h
  simp only [Database.insertbranch, List.append_cancel_left_eq, List.cons.injEq, and_true,
    BranchRow.mk.injEq, Row.mk.injEq, true_and] at hrows
  obtain ⟨hparent, hpos, hdocument⟩ := hrows
  cases v
  cases v'
  simp only at hparent hpos hdocument
  rw [hparent, hpos, hdocument]

/-- **New branches.** For a user, and an insert that succeeds, the handler inserts what the
payload begins with, and rejects the other payloads, if and only if the payload begins with three
integers of 64 bits. The payload that the client sends for a new document begins with a letter, so
the row meant is inserted only if the variables happen to hold it before the scan.

**Proof sketch.** A row is inserted for every payload, so the payload must begin with three
integers; the values stored for these are the nearest ones of 64 bits. -/
theorem newbranch_ok_iff (huser : getuserid m request.header db ≠ 0)
    (hinserts : sql.inserts = true) :
    (NewbranchOk sql v m request db ↔
        ∃ parent pos document, Scan.Begins (m.read request.payload) [parent, pos, document] ∧
          ∀ n ∈ [parent, pos, document], -2 ^ 63 ≤ n ∧ n < 2 ^ 63) ∧
      ∀ newdoc, m.read request.payload = newbranchBody newdoc →
        (httpCallbackNewbranch sql v m request db =
            (.ok, db.insertbranch sql ⟨0, 0, newdoc⟩ (getuserid m request.header db)) ↔
          v = ⟨0, 0, newdoc⟩) := by
  have hspec := @httpCallbackNewbranch_spec sql v m request db huser hinserts
  refine ⟨⟨?_, ?_⟩, ?_⟩
  · rintro ⟨hbegins, hother⟩
    by_cases h : ∃ parent pos document, Scan.Begins (m.read request.payload) [parent, pos, document]
    · obtain ⟨parent, pos, document, h⟩ := h
      have hrow := hbegins parent pos document h
      rw [hspec, bscanf_of_begins h, Prod.mk.injEq] at hrow
      have hv := insertbranch_injective hrow.2
      rw [NewbranchLocals.mk.injEq] at hv
      refine ⟨parent, pos, document, h, ?_⟩
      simp only [List.forall_mem_cons, ← toLong_eq_self_iff]
      exact ⟨hv.1, hv.2.1, hv.2.2, by simp⟩
    · have hrejected := hother h
      rw [hspec] at hrejected
      exact absurd (Prod.mk.inj hrejected).1 (by decide)
  · rintro ⟨parent, pos, document, h, hrange⟩
    simp only [List.forall_mem_cons, ← toLong_eq_self_iff] at hrange
    obtain ⟨hparent, hpos, hdocument, -⟩ := hrange
    refine ⟨fun parent' pos' document' h' => ?_, fun hnone => absurd ⟨_, _, _, h⟩ hnone⟩
    have heq := h.unique h' rfl
    simp only [List.cons.injEq, and_true] at heq
    obtain ⟨rfl, rfl, rfl⟩ := heq
    rw [hspec, bscanf_of_begins h, hparent, hpos, hdocument]
  · intro newdoc hbody
    have hscan : bscanf (newbranchBody newdoc) v = v := rfl
    rw [hspec, hbody, hscan]
    constructor
    · intro hrow
      exact insertbranch_injective (Prod.mk.inj hrow).2
    · rintro rfl
      rfl

/-- A request of the session 5 with the given payload, and the memory that it stands in. -/
def sessionRequest (payload : List UInt8) : Memory × HttpRequest :=
  (fun x => (ascii "Cookie: session=5" ++ payload).getD x 0,
    ⟨⟨0, 17⟩, ⟨17, payload.length⟩, ⟨0, 0⟩⟩)

/-- The tables with one user, of the session 5. -/
def oneUser : Database := ⟨[⟨1, [], [], 5⟩], []⟩

/-- A payload of three numbers. -/
theorem newbranch_ok_iff_numbers :
    let r := sessionRequest (ascii "1 2 3")
    (NewbranchOk ⟨true, fun _ => 1⟩ ⟨7, 8, 9⟩ r.1 r.2 oneUser ↔
        ∃ parent pos document, Scan.Begins (r.1.read r.2.payload) [parent, pos, document] ∧
          ∀ n ∈ [parent, pos, document], -2 ^ 63 ≤ n ∧ n < 2 ^ 63) ∧
      ∀ newdoc, r.1.read r.2.payload = newbranchBody newdoc →
        (httpCallbackNewbranch ⟨true, fun _ => 1⟩ ⟨7, 8, 9⟩ r.1 r.2 oneUser =
            (.ok, oneUser.insertbranch ⟨true, fun _ => 1⟩ ⟨0, 0, newdoc⟩
              (getuserid r.1 r.2.header oneUser)) ↔
          (⟨7, 8, 9⟩ : NewbranchLocals) = ⟨0, 0, newdoc⟩) :=
  newbranch_ok_iff (by decide +kernel) rfl

/-- What the client sends for the document 1 inserts what the variables held. -/
theorem newbranch_stores_locals :
    let r := sessionRequest (newbranchBody 1)
    r.1.read r.2.payload = newbranchBody 1 ∧
      httpCallbackNewbranch ⟨true, fun _ => 1⟩ ⟨7, 8, 9⟩ r.1 r.2 oneUser =
        (.ok, ⟨oneUser.users, [⟨⟨1, 7, 8, 9⟩, 1⟩]⟩) ∧
      ¬ NewbranchOk ⟨true, fun _ => 1⟩ ⟨7, 8, 9⟩ r.1 r.2 oneUser := by
  have hrow : httpCallbackNewbranch ⟨true, fun _ => 1⟩ ⟨7, 8, 9⟩
      (sessionRequest (newbranchBody 1)).1 (sessionRequest (newbranchBody 1)).2 oneUser =
      (.ok, ⟨oneUser.users, [⟨⟨1, 7, 8, 9⟩, 1⟩]⟩) := by decide +kernel
  refine ⟨by decide +kernel, hrow, fun hok => ?_⟩
  have hnone : ¬ ∃ parent pos document,
      Scan.Begins ((sessionRequest (newbranchBody 1)).1.read
        (sessionRequest (newbranchBody 1)).2.payload) [parent, pos, document] := by
    rintro ⟨parent, pos, document, h⟩
    have hscan := (Scan.numbers_eq_iff (n := 3) rfl).mpr h
    have hempty : Scan.numbers 3 ((sessionRequest (newbranchBody 1)).1.read
        (sessionRequest (newbranchBody 1)).2.payload) = [] := by decide +kernel
    rw [hempty] at hscan
    exact absurd hscan (by simp)
  have hrejected := hok.2 hnone
  rw [hrow] at hrejected
  exact absurd (Prod.mk.inj hrejected).1 (by decide)

end SleepyText.Server
