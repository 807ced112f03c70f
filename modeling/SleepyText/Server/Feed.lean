import SleepyText.Lib.Loop
import SleepyText.Server.Http

set_option relaxedAutoImplicit false
set_option autoImplicit false

/-!
# The upload handler

`http_callback_feed` of `server.c` reads a payload of segments: a header names a branch file, and
the records behind it are appended to the file. It works on the payload where it stands, converts
the lengths of each record in place, and commits a segment when it meets the next one or the end.

## Main definitions

* `Directory`, `SystemCalls` — the branch files, and the answers of the operating system.
* `feedBody`, `httpCallbackFeed` — the handler, on memory.
* `Scan`, `scanBody` — the same on the bytes of the payload alone.

## Main results

* `scan_isSome` — the scan leaves its loop on every payload.
* `httpCallbackFeed_spec` — the handler leaves its loop on every payload, as the scan does.
-/

namespace SleepyText.Server

/-! ## Files -/

/-- Paths of files. -/
abbrev Path := List UInt8

/-- The contents of the files by their paths from the working directory; `none` where there is no
file. -/
abbrev Directory := Path → Option (List UInt8)

/-- The file that a path names: a leading `./` is the working directory. -/
def resolve : Path → Path
  | 46 :: 47 :: path => path
  | path => path

namespace Directory

/-- The content of a file, empty if there is none. -/
def content (dir : Directory) (path : Path) : List UInt8 := (dir path).getD []

/-- Append bytes to a file. -/
def append (dir : Directory) (path : Path) (bs : List UInt8) : Directory :=
  Function.update dir path (some (dir.content path ++ bs))

/-- Make an empty file if there is none. -/
def create (dir : Directory) (path : Path) : Directory := dir.append path []

lemma append_of_ne {dir : Directory} {path path' : Path} (bs : List UInt8) (h : path ≠ path') :
    dir.append path' bs path = dir path := by
  simp [append, h]

lemma append_isSome {dir : Directory} {path path' : Path} (bs : List UInt8)
    (h : (dir path).isSome) : (dir.append path' bs path).isSome := by
  by_cases hpath : path = path'
  · simp [append, hpath]
  · rwa [append_of_ne bs hpath]

lemma content_append (dir : Directory) (path path' : Path) (bs : List UInt8) :
    (dir.append path bs).content path' =
      dir.content path' ++ if path' = path then bs else [] := by
  by_cases h : path' = path
  · subst h
    simp [append, content]
  · simp [append, content, h]

@[simp] lemma content_create (dir : Directory) (path path' : Path) :
    (dir.create path).content path' = dir.content path' := by
  rw [create, content_append]
  split_ifs <;> simp

end Directory

/-- The answers of the operating system, by the number of calls made before: whether an `open`
succeeds, and how many of the bytes given to a `write` are transferred. -/
structure SystemCalls where
  opens : ℕ → Bool
  writes : ℕ → ℕ → ℕ

/-- The path that `bprintf` prints from a directory and the format `%d`. -/
def branchPath (directory : String) (id : ℤ) : Path := ascii directory ++ Decimal.print (toInt id)

/-! ## The handler -/

/-- The variables of `http_callback_feed`, where `file` is the path opened last, the memory, the
files, and the number of system calls made. -/
structure FeedState where
  mem : Memory
  p : Bytes
  commit : Bytes
  file : Option Path
  dir : Directory
  calls : ℕ

/-- `write(file, commit.as_void, commit.len)`; without a file it fails. -/
def FeedState.write (env : SystemCalls) (s : FeedState) : FeedState :=
  { s with
    calls := s.calls + 1
    dir :=
      match s.file with
      | none => s.dir
      | some path =>
        s.dir.append path ((s.mem.read s.commit).take (env.writes s.calls s.commit.len)) }

/-- The branch of the loop for `'b'`. -/
def feedSegment (env : SystemCalls) (s : FeedState) : FeedState ⊕ HttpResult × FeedState :=
  let s := if s.file.isSome then s.write env else s
  let bid := bslice s.p 1 5
  if bid.len ≠ 4 then .inr (.badRequest, s)
  else
    let id := ntohl (s.mem.load32 bid.asVoid)
    let path := resolve (branchPath "./branches/" id)
    if env.opens s.calls then
      let p := bslice s.p 5 0
      .inl { s with
        file := some path
        dir := s.dir.create path
        calls := s.calls + 1
        p := p
        commit := ⟨p.asVoid, 0⟩ }
    else .inr (.badRequest, { s with file := none, calls := s.calls + 1 })

/-- The branch of the loop for `'i'`, where `i` points at `struct insert`. -/
def feedRecord (s : FeedState) : FeedState ⊕ HttpResult × FeedState :=
  if s.file.isNone then .inr (.badRequest, s)
  else if s.p.len < 13 then .inr (.badRequest, s)
  else
    let i := s.p.asVoid + 1
    let mem := s.mem.store32 (i + 4) (ntohl (s.mem.load32 (i + 4)))
    let mem := mem.store32 (i + 8) (ntohl (mem.load32 (i + 8)))
    -- the sum is an `unsigned int`
    let len := (13 + mem.load32 (i + 4) + mem.load32 (i + 8)) % 2 ^ 32
    if s.p.len < len then .inr (.badRequest, { s with mem := mem })
    else
      .inl { s with
        mem := mem
        commit := ⟨s.commit.asVoid, s.commit.len + len⟩
        p := bslice s.p len 0 }

/-- One turn of the loop, or the end of the handler. -/
def feedBody (env : SystemCalls) (s : FeedState) : FeedState ⊕ HttpResult × FeedState :=
  if s.p.len > 0 then
    if s.mem s.p.asVoid = 98 then feedSegment env s
    else if s.mem s.p.asVoid = 105 then feedRecord s
    else .inr (.badRequest, s)
  else .inr (.ok, s.write env)

/-- `http_callback_feed` on the payload of a request. The number of turns is enough for every
payload (`httpCallbackFeed_spec`). -/
def httpCallbackFeed (env : SystemCalls) (mem : Memory) (payload : Bytes) (dir : Directory) :
    Option (HttpResult × FeedState) :=
  Loop.loop (feedBody env) (2 * payload.len + 2)
    { mem := mem
      p := payload
      commit := ⟨payload.asVoid, 0⟩
      file := none
      dir := dir
      calls := 0 }

/-! ## The scan of the bytes -/

/-- What the handler has left of the payload, what it has to commit, and the files. -/
structure Scan where
  rest : List UInt8
  region : List UInt8
  file : Option Path
  dir : Directory
  calls : ℕ

/-- Commit the region. -/
def Scan.write (env : SystemCalls) (s : Scan) : Scan :=
  { s with
    calls := s.calls + 1
    dir :=
      match s.file with
      | none => s.dir
      | some path => s.dir.append path (s.region.take (env.writes s.calls s.region.length)) }

/-- `if(file != -1) write(file, commit.as_void, commit.len)`. -/
def Scan.committed (env : SystemCalls) (s : Scan) : Scan :=
  if s.file.isSome then s.write env else s

/-- The first length in the header of a record. -/
def lastlen (rest : List UInt8) : ℕ := Word.ofBe ((rest.drop 5).take 4)

/-- The second length in the header of a record. -/
def newlen (rest : List UInt8) : ℕ := Word.ofBe ((rest.drop 9).take 4)

/-- The length of a record as the handler computes it. -/
def recordLen (rest : List UInt8) : ℕ := (13 + lastlen rest + newlen rest) % 2 ^ 32

/-- The payload after the lengths of the record in front of it were converted. -/
def swapped (rest : List UInt8) : List UInt8 :=
  rest.take 5 ++ ((rest.drop 5).take 4).reverse ++ ((rest.drop 9).take 4).reverse ++ rest.drop 13

/-- The file that a segment names; behind the payload stand the bytes `beyond`. -/
def segmentPath (beyond rest : List UInt8) : Path :=
  resolve (branchPath "./branches/" (Word.ofBe ((rest ++ beyond).take 4)))

/-- A segment header, with `rest` behind the opcode. -/
def scanSegment (env : SystemCalls) (beyond rest : List UInt8) (s : Scan) :
    Scan ⊕ HttpResult × Directory :=
  let s := s.committed env
  if rest = [] then .inr (.badRequest, s.dir)
  else if env.opens s.calls then
    .inl {
      rest := rest.drop 4
      region := []
      file := some (segmentPath beyond rest)
      dir := s.dir.create (segmentPath beyond rest)
      calls := s.calls + 1 }
  else .inr (.badRequest, s.dir)

/-- A record. -/
def scanRecord (s : Scan) : Scan ⊕ HttpResult × Directory :=
  if s.file.isNone then .inr (.badRequest, s.dir)
  else if s.rest.length < 13 then .inr (.badRequest, s.dir)
  else if s.rest.length < recordLen s.rest then .inr (.badRequest, s.dir)
  else
    .inl { s with
      rest := (swapped s.rest).drop (recordLen s.rest)
      region := s.region ++ (swapped s.rest).take (recordLen s.rest) }

/-- One turn of the scan, or its end. -/
def scanBody (env : SystemCalls) (beyond : List UInt8) (s : Scan) :
    Scan ⊕ HttpResult × Directory :=
  match s.rest with
  | [] => .inr (.ok, (s.write env).dir)
  | c :: rest =>
    if c = 98 then scanSegment env beyond rest s
    else if c = 105 then scanRecord s
    else .inr (.badRequest, s.dir)

/-- The scan at the start of a payload. -/
def Scan.start (payload : List UInt8) (dir : Directory) : Scan := ⟨payload, [], none, dir, 0⟩

/-- What one turn of the scan can do. -/
inductive Turn (env : SystemCalls) (beyond : List UInt8) (s : Scan) :
    Scan ⊕ HttpResult × Directory → Prop
  | done (hrest : s.rest = []) : Turn env beyond s (.inr (.ok, (s.write env).dir))
  | segment {rest : List UInt8} (hrest : s.rest = 98 :: rest) (hne : rest ≠ [])
      (hopen : env.opens (s.committed env).calls = true) :
      Turn env beyond s (.inl {
        rest := rest.drop 4
        region := []
        file := some (segmentPath beyond rest)
        dir := (s.committed env).dir.create (segmentPath beyond rest)
        calls := (s.committed env).calls + 1 })
  | record {rest : List UInt8} (hrest : s.rest = 105 :: rest) (hfile : s.file.isSome)
      (hheader : 13 ≤ s.rest.length) (hlen : recordLen s.rest ≤ s.rest.length) :
      Turn env beyond s (.inl { s with
        rest := (swapped s.rest).drop (recordLen s.rest)
        region := s.region ++ (swapped s.rest).take (recordLen s.rest) })
  | badSegment {rest : List UInt8} (hrest : s.rest = 98 :: rest)
      (hbad : rest = [] ∨ env.opens (s.committed env).calls = false) :
      Turn env beyond s (.inr (.badRequest, (s.committed env).dir))
  | badRecord {rest : List UInt8} (hrest : s.rest = 105 :: rest)
      (hbad : s.file.isNone ∨ s.rest.length < 13 ∨ s.rest.length < recordLen s.rest) :
      Turn env beyond s (.inr (.badRequest, s.dir))
  | badOpcode {c : UInt8} {rest : List UInt8} (hrest : s.rest = c :: rest) (hb : c ≠ 98)
      (hi : c ≠ 105) : Turn env beyond s (.inr (.badRequest, s.dir))

/-- **The turns of the scan.** -/
theorem scanBody_turn (env : SystemCalls) (beyond : List UInt8) (s : Scan) :
    Turn env beyond s (scanBody env beyond s) := by
  unfold scanBody
  cases hrest : s.rest with
  | nil => exact .done hrest
  | cons c rest =>
    dsimp only
    by_cases hb : c = 98
    · subst hb
      rw [if_pos rfl, scanSegment]
      by_cases hne : rest = []
      · rw [if_pos hne]
        exact .badSegment hrest (.inl hne)
      by_cases hopen : env.opens (s.committed env).calls = true
      · rw [if_neg hne, if_pos hopen]
        exact .segment hrest hne hopen
      · rw [if_neg hne, if_neg hopen]
        exact .badSegment hrest (.inr (by simpa using hopen))
    by_cases hi : c = 105
    · subst hi
      rw [if_neg hb, if_pos rfl, scanRecord]
      obtain hnone | ⟨hsome, hfile⟩ : s.file.isNone ∨ s.file.isSome ∧ ¬ s.file.isNone := by
        cases s.file <;> simp
      · rw [if_pos hnone]
        exact .badRecord hrest (.inl hnone)
      by_cases hheader : s.rest.length < 13
      · rw [if_neg hfile, if_pos hheader]
        exact .badRecord hrest (.inr (.inl hheader))
      by_cases hlen : s.rest.length < recordLen s.rest
      · rw [if_neg hfile, if_neg hheader, if_pos hlen]
        exact .badRecord hrest (.inr (.inr hlen))
      · rw [if_neg hfile, if_neg hheader, if_neg hlen]
        exact .record hrest hsome (by omega) (by omega)
    · rw [if_neg hb, if_neg hi]
      exact .badOpcode hrest hb hi

section Turns

variable {env : SystemCalls} {s : Scan} {rest : List UInt8} (beyond : List UInt8)

/-- The turn of the scan over a segment header. -/
lemma scanBody_segment (hrest : s.rest = 98 :: rest) (hne : rest ≠ [])
    (hopen : env.opens (s.committed env).calls = true) :
    scanBody env beyond s = .inl {
      rest := rest.drop 4
      region := []
      file := some (segmentPath beyond rest)
      dir := (s.committed env).dir.create (segmentPath beyond rest)
      calls := (s.committed env).calls + 1 } := by
  rw [scanBody, hrest]
  dsimp only
  rw [if_pos rfl, scanSegment, if_neg hne, if_pos hopen]

/-- The turn of the scan over a record. -/
lemma scanBody_record (hrest : s.rest = 105 :: rest) (hfile : s.file.isSome)
    (hheader : 13 ≤ s.rest.length) (hlen : recordLen s.rest ≤ s.rest.length) :
    scanBody env beyond s = .inl { s with
      rest := (swapped s.rest).drop (recordLen s.rest)
      region := s.region ++ (swapped s.rest).take (recordLen s.rest) } := by
  have hnone : ¬ s.file.isNone := by
    rw [Option.isNone_iff_eq_none]
    intro hnone
    rw [hnone] at hfile
    exact absurd hfile (by decide)
  have hscan : scanBody env beyond s = scanRecord s := by
    rw [scanBody, hrest]
    rfl
  rw [hscan, scanRecord, if_neg hnone, if_neg (by omega), if_neg (by omega)]

/-- The end of the scan. -/
lemma scanBody_done (hrest : s.rest = []) :
    scanBody env beyond s = .inr (.ok, (s.write env).dir) := by
  rw [scanBody, hrest]

end Turns

/-! ## The handler refines the scan -/

/-- The handler with the state `f` is where the scan with the state `s` is, in a payload that ends
at the address `stop`. -/
structure Refines (stop : ℕ) (beyond : List UInt8) (f : FeedState) (s : Scan) : Prop where
  rest : f.mem.read f.p = s.rest
  region : f.mem.read f.commit = s.region
  behind : 0 < f.p.len →
    f.commit.asVoid + f.commit.len = f.p.asVoid ∧ f.p.asVoid + f.p.len = stop
  beyond : f.mem.read ⟨stop, 3⟩ = beyond
  file : f.file = s.file
  dir : f.dir = s.dir
  calls : f.calls = s.calls

variable {stop : ℕ} {beyond : List UInt8} {f : FeedState} {s : Scan} {env : SystemCalls}

lemma Refines.write (h : Refines stop beyond f s) :
    Refines stop beyond (f.write env) (s.write env) := by
  have hlen : s.region.length = f.commit.len := by rw [← h.region, Memory.length_read]
  refine ⟨h.rest, h.region, h.behind, h.beyond, h.file, ?_, congrArg (· + 1) h.calls⟩
  rw [FeedState.write, Scan.write, h.file, h.region, h.dir, h.calls, hlen]

lemma Refines.committed (h : Refines stop beyond f s) :
    Refines stop beyond (if f.file.isSome then f.write env else f) (s.committed env) := by
  rw [h.file, Scan.committed]
  split_ifs
  · exact h.write
  · exact h

/-- What both loops leave with. -/
def SameResult (r : HttpResult × FeedState) (r' : HttpResult × Directory) : Prop :=
  r.1 = r'.1 ∧ r.2.dir = r'.2

/-- The bytes behind the opcode, when there is one. -/
lemma Refines.cons (h : Refines stop beyond f s) {n : ℕ} (hlen : f.p.len = n + 1) :
    s.rest = f.mem f.p.asVoid :: f.mem.read ⟨f.p.asVoid + 1, n⟩ := by
  rw [← h.rest, Memory.read_cons hlen]

/-- The id of a segment, when a byte of it is left of the payload. -/
lemma Refines.segmentPath (h : Refines stop beyond f s) {n : ℕ} (hlen : f.p.len = n + 2) :
    resolve (branchPath "./branches/" (ntohl (f.mem.load32 (f.p.asVoid + 1)))) =
      segmentPath beyond (f.mem.read ⟨f.p.asVoid + 1, n + 1⟩) := by
  have hstop : f.p.asVoid + 1 + (n + 1) = stop := by
    have hbehind := (h.behind (by omega)).2
    omega
  rw [Server.segmentPath, ← h.beyond, ← hstop, ← Memory.read_add, Memory.take_read (by omega),
    Memory.ntohl_load32]

lemma Refines.segment (h : Refines stop beyond f s) {n : ℕ} (hlen : f.p.len = n + 1) :
    Sum.LiftRel (Refines stop beyond) SameResult (feedSegment env f)
      (scanSegment env beyond (f.mem.read ⟨f.p.asVoid + 1, n⟩) s) := by
  have hw : Refines stop beyond (if f.file.isSome then f.write env else f) (s.committed env) :=
    h.committed
  have hp : (if f.file.isSome then f.write env else f).p = f.p := by split_ifs <;> rfl
  have hmem : (if f.file.isSome then f.write env else f).mem = f.mem := by split_ifs <;> rfl
  unfold feedSegment scanSegment
  generalize (if f.file.isSome then f.write env else f) = g at hw hp hmem
  generalize s.committed env = t at hw
  dsimp only
  rw [hp, hmem, hw.calls]
  cases n with
  | zero =>
    have hbid : bslice f.p 1 5 = ⟨f.p.asVoid, 0⟩ := by rw [bslice, if_pos (by omega)]
    rw [hbid, if_pos (by simp), if_pos Memory.read_zero]
    exact .inr ⟨rfl, hw.dir⟩
  | succ n =>
    have hbid : bslice f.p 1 5 = ⟨f.p.asVoid + 1, 4⟩ := by
      rw [bslice, if_neg (by omega), if_pos (by omega)]
      rfl
    have hne : f.mem.read ⟨f.p.asVoid + 1, n + 1⟩ ≠ [] := by
      rw [Memory.read_succ]
      exact List.cons_ne_nil _ _
    rw [hbid, if_neg (by simp), if_neg hne, h.segmentPath hlen]
    split_ifs with hopen
    · refine .inl ⟨?_, rfl, ?_, h.beyond, rfl, by rw [hw.dir], rfl⟩
      · -- what is left behind the id
        dsimp only
        rw [bslice_zero]
        split_ifs with hshort
        · rw [List.drop_eq_nil_of_le (by rw [Memory.length_read]; dsimp only; omega)]
          rfl
        · rw [Memory.drop_read (by omega), hlen]
          rfl
      · dsimp only
        intro hpos
        have hbehind := (h.behind (by omega)).2
        rw [bslice_zero] at hpos ⊢
        split_ifs at hpos ⊢ with hshort
        · exact absurd hpos (by simp)
        · dsimp only
          omega
    · exact .inr ⟨rfl, hw.dir⟩

/-- The memory after the two lengths of a record at `a` are converted. -/
def convert (m : Memory) (a : ℕ) : Memory :=
  let m := m.store32 (a + 1 + 4) (ntohl (m.load32 (a + 1 + 4)))
  m.store32 (a + 1 + 8) (ntohl (m.load32 (a + 1 + 8)))

lemma read_convert_of_disjoint (m : Memory) (a : ℕ) {b : Bytes}
    (h : b.asVoid + b.len ≤ a + 5 ∨ a + 13 ≤ b.asVoid) : (convert m a).read b = m.read b := by
  rw [convert, Memory.read_store32_of_disjoint (by omega),
    Memory.read_store32_of_disjoint (by omega)]

lemma read_convert_lastlen (m : Memory) (a : ℕ) :
    (convert m a).read ⟨a + 5, 4⟩ = (m.read ⟨a + 5, 4⟩).reverse := by
  rw [convert, Memory.read_store32_of_disjoint (by simp)]
  exact Memory.read_swapped

lemma read_convert_newlen (m : Memory) (a : ℕ) :
    (convert m a).read ⟨a + 9, 4⟩ = (m.read ⟨a + 9, 4⟩).reverse := by
  unfold convert
  apply Memory.read_swapped.trans
  rw [Memory.read_store32_of_disjoint (by simp)]

/-- The lengths that the handler reads are those of the scan. -/
lemma load32_convert (m : Memory) (a : ℕ) {n : ℕ} (hn : 13 ≤ n) :
    (convert m a).load32 (a + 1 + 4) = lastlen (m.read ⟨a, n⟩) ∧
      (convert m a).load32 (a + 1 + 8) = newlen (m.read ⟨a, n⟩) := by
  have hlast : (convert m a).load32 (a + 5) = Word.ofBe (m.read ⟨a + 5, 4⟩) := by
    rw [Memory.load32, read_convert_lastlen, List.reverse_reverse]
  have hnew : (convert m a).load32 (a + 9) = Word.ofBe (m.read ⟨a + 9, 4⟩) := by
    rw [Memory.load32, read_convert_newlen, List.reverse_reverse]
  refine ⟨?_, ?_⟩
  · rw [lastlen, Memory.drop_read (by omega), Memory.take_read (by omega)]
    exact hlast
  · rw [newlen, Memory.drop_read (by omega), Memory.take_read (by omega)]
    exact hnew

/-- The conversion reverses the bytes of the lengths, and changes nothing else. -/
lemma read_convert (m : Memory) (a : ℕ) {n : ℕ} (hn : 13 ≤ n) :
    (convert m a).read ⟨a, n⟩ = swapped (m.read ⟨a, n⟩) := by
  have hsplit (m : Memory) : m.read ⟨a, n⟩ =
      m.read ⟨a, 5⟩ ++ m.read ⟨a + 5, 4⟩ ++ m.read ⟨a + 9, 4⟩ ++ m.read ⟨a + 13, n - 13⟩ := by
    conv_lhs => rw [show n = 5 + 4 + 4 + (n - 13) by omega]
    rw [Memory.read_add, Memory.read_add, Memory.read_add]
  have hfirst : (m.read ⟨a, n⟩).take 5 = m.read ⟨a, 5⟩ := Memory.take_read (by omega)
  have hlast : ((m.read ⟨a, n⟩).drop 5).take 4 = m.read ⟨a + 5, 4⟩ := by
    rw [Memory.drop_read (by omega), Memory.take_read (by omega)]
  have hnew : ((m.read ⟨a, n⟩).drop 9).take 4 = m.read ⟨a + 9, 4⟩ := by
    rw [Memory.drop_read (by omega), Memory.take_read (by omega)]
  have hrest : (m.read ⟨a, n⟩).drop 13 = m.read ⟨a + 13, n - 13⟩ := Memory.drop_read (by omega)
  rw [swapped, hfirst, hlast, hnew, hrest, hsplit, read_convert_lastlen, read_convert_newlen,
    read_convert_of_disjoint m a (by simp), read_convert_of_disjoint m a (by simp)]

lemma Refines.record (h : Refines stop beyond f s) (hpos : 0 < f.p.len) :
    Sum.LiftRel (Refines stop beyond) SameResult (feedRecord f) (scanRecord s) := by
  have hlen : s.rest.length = f.p.len := by rw [← h.rest, Memory.length_read]
  obtain ⟨hcommit, hstop⟩ := h.behind hpos
  rw [feedRecord, scanRecord, h.file, hlen]
  by_cases hfile : s.file.isNone
  · rw [if_pos hfile, if_pos hfile]
    exact .inr ⟨rfl, h.dir⟩
  by_cases hshort : f.p.len < 13
  · rw [if_neg hfile, if_neg hfile, if_pos hshort, if_pos hshort]
    exact .inr ⟨rfl, h.dir⟩
  rw [if_neg hfile, if_neg hfile, if_neg hshort, if_neg hshort]
  have hmem :
      (f.mem.store32 (f.p.asVoid + 1 + 4) (ntohl (f.mem.load32 (f.p.asVoid + 1 + 4)))).store32
        (f.p.asVoid + 1 + 8)
        (ntohl ((f.mem.store32 (f.p.asVoid + 1 + 4)
          (ntohl (f.mem.load32 (f.p.asVoid + 1 + 4)))).load32 (f.p.asVoid + 1 + 8))) =
      convert f.mem f.p.asVoid := rfl
  obtain ⟨hlast, hnew⟩ := load32_convert f.mem f.p.asVoid (n := f.p.len) (by omega)
  rw [h.rest] at hlast hnew
  have hread : (convert f.mem f.p.asVoid).read f.p = swapped s.rest := by
    rw [← h.rest]
    exact read_convert f.mem f.p.asVoid (n := f.p.len) (by omega)
  dsimp only
  rw [hmem, hlast, hnew, ← recordLen]
  by_cases hlong : f.p.len < recordLen s.rest
  · rw [if_pos hlong, if_pos hlong]
    exact .inr ⟨rfl, h.dir⟩
  rw [if_neg hlong, if_neg hlong]
  refine .inl ⟨?_, ?_, ?_, ?_, rfl, h.dir, h.calls⟩
  · -- what is left behind the record
    dsimp only
    rw [bslice_zero, ← hread]
    split_ifs with hend
    · rw [List.drop_eq_nil_of_le (by rw [Memory.length_read]; omega)]
      rfl
    · exact (Memory.drop_read (by omega)).symm
  · -- the region grows by the record
    dsimp only
    have htake : (swapped s.rest).take (recordLen s.rest) =
        (convert f.mem f.p.asVoid).read ⟨f.p.asVoid, recordLen s.rest⟩ := by
      rw [← hread]
      exact Memory.take_read (n := f.p.len) (by omega)
    rw [Memory.read_add, hcommit, htake, ← h.region]
    exact congrArg (· ++ _) (read_convert_of_disjoint f.mem f.p.asVoid (b := f.commit) (by omega))
  · dsimp only
    intro hleft
    rw [bslice_zero] at hleft ⊢
    split_ifs at hleft ⊢ with hend
    · exact absurd hleft (by simp)
    · dsimp only
      omega
  · dsimp only
    rw [read_convert_of_disjoint _ _ (by dsimp only; omega), h.beyond]

/-- **One turn**: the handler and the scan go to the same place, or leave with the same result. -/
theorem Refines.body (h : Refines stop beyond f s) :
    Sum.LiftRel (Refines stop beyond) SameResult (feedBody env f) (scanBody env beyond s) := by
  have hlen : s.rest.length = f.p.len := by rw [← h.rest, Memory.length_read]
  unfold feedBody scanBody
  cases hn : f.p.len with
  | zero =>
    have hnil : s.rest = [] := List.eq_nil_of_length_eq_zero (by omega)
    rw [if_neg (by omega), hnil]
    exact .inr ⟨rfl, h.write.dir⟩
  | succ n =>
    rw [if_pos (by omega), h.cons hn]
    dsimp only
    split_ifs
    · exact h.segment hn
    · exact h.record (by omega)
    · exact .inr ⟨rfl, h.dir⟩

/-- Where the scan goes on, the handler does. -/
lemma Refines.turn (h : Refines stop beyond f s) {t : Scan}
    (hscan : scanBody env beyond s = .inl t) :
    ∃ g, feedBody env f = .inl g ∧ Refines stop beyond g t := by
  have hbody := @Refines.body stop beyond f s env h
  rw [hscan] at hbody
  generalize feedBody env f = x at hbody ⊢
  cases hbody with
  | inl hnext => exact ⟨_, rfl, hnext⟩

/-! ## Termination -/

/-- The bytes of a record header, and what is behind it. -/
lemma exists_header {rest : List UInt8} (h : 13 ≤ rest.length) :
    ∃ c pos lastbytes newbytes t, rest = c :: (pos ++ lastbytes ++ newbytes ++ t) ∧
      pos.length = 4 ∧ lastbytes.length = 4 ∧ newbytes.length = 4 := by
  obtain ⟨c, rest, rfl⟩ := List.exists_cons_of_length_pos (by omega : 0 < rest.length)
  simp only [List.length_cons] at h
  refine ⟨c, rest.take 4, (rest.drop 4).take 4, (rest.drop 8).take 4, rest.drop 12, ?_, ?_, ?_, ?_⟩
  · have h8 : rest.drop 8 = (rest.drop 4).drop 4 := by rw [List.drop_drop]
    have h12 : rest.drop 12 = ((rest.drop 4).drop 4).drop 4 := by
      rw [List.drop_drop, List.drop_drop]
    rw [h8, h12, List.append_assoc, List.append_assoc, List.take_append_drop,
      List.take_append_drop, List.take_append_drop]
  · rw [List.length_take]; omega
  · rw [List.length_take, List.length_drop]; omega
  · rw [List.length_take, List.length_drop]; omega

section Header

variable (c : UInt8) {pos lastbytes newbytes : List UInt8} (t : List UInt8)
  (hpos : pos.length = 4) (hlast : lastbytes.length = 4) (hnew : newbytes.length = 4)

include hpos hlast

/-- The first length in a header. -/
lemma lastlen_header :
    lastlen (c :: (pos ++ lastbytes ++ newbytes ++ t)) = Word.ofBe lastbytes := by
  rw [lastlen, List.drop_succ_cons, List.append_assoc, List.append_assoc, List.drop_left' hpos,
    List.take_left' hlast]

include hnew

/-- The second length in a header. -/
lemma newlen_header :
    newlen (c :: (pos ++ lastbytes ++ newbytes ++ t)) = Word.ofBe newbytes := by
  rw [newlen, List.drop_succ_cons, List.append_assoc, List.drop_left' (by simp [hpos, hlast]),
    List.take_left' hnew]

/-- The length of a record with the given header. -/
lemma recordLen_header : recordLen (c :: (pos ++ lastbytes ++ newbytes ++ t)) =
    (13 + Word.ofBe lastbytes + Word.ofBe newbytes) % 2 ^ 32 := by
  rw [recordLen, lastlen_header c t hpos hlast, newlen_header c t hpos hlast hnew]

/-- A record with the given header after the conversion. -/
lemma swapped_header : swapped (c :: (pos ++ lastbytes ++ newbytes ++ t)) =
    c :: (pos ++ lastbytes.reverse ++ newbytes.reverse ++ t) := by
  have hfirst : (c :: (pos ++ lastbytes ++ newbytes ++ t)).take 5 = c :: pos := by
    rw [List.take_succ_cons, List.append_assoc, List.append_assoc, List.take_left' hpos]
  have hsecond : ((c :: (pos ++ lastbytes ++ newbytes ++ t)).drop 5).take 4 = lastbytes := by
    rw [List.drop_succ_cons, List.append_assoc, List.append_assoc, List.drop_left' hpos,
      List.take_left' hlast]
  have hthird : ((c :: (pos ++ lastbytes ++ newbytes ++ t)).drop 9).take 4 = newbytes := by
    rw [List.drop_succ_cons, List.append_assoc, List.drop_left' (by simp [hpos, hlast]),
      List.take_left' hnew]
  have hrest : (c :: (pos ++ lastbytes ++ newbytes ++ t)).drop 13 = t := by
    rw [List.drop_succ_cons, List.drop_left' (by simp [hpos, hlast, hnew])]
  rw [swapped, hfirst, hsecond, hthird, hrest]
  simp

end Header

lemma length_swapped {rest : List UInt8} (h : 13 ≤ rest.length) :
    (swapped rest).length = rest.length := by
  obtain ⟨c, pos, lastbytes, newbytes, t, rfl, hpos, hlast, hnew⟩ := exists_header h
  rw [swapped_header c t hpos hlast hnew]
  simp

/-- If the lowest three bytes carry into the highest, the sum fixes the highest up to the carry. -/
private lemma highest_of_sum {s carry : ℕ} (hpos : 0 < carry) (hlt : carry < 3 * 2 ^ 24)
    (h : (s * 2 ^ 24 + carry) % 2 ^ 32 = 0) : s % 256 = 254 ∨ s % 256 = 255 := by
  have hcarry : carry % 2 ^ 24 = 0 := by omega
  obtain ⟨k, rfl⟩ : ∃ k, carry = 2 ^ 24 * k := ⟨carry / 2 ^ 24, by omega⟩
  have hk : k = 1 ∨ k = 2 := by omega
  rcases hk with rfl | rfl <;> omega

private lemma lowest_of_sum {s x : ℕ} (h : (s + 13 + 2 ^ 8 * x) % 2 ^ 32 = 0) :
    s % 256 = 243 := by
  omega

private lemma carry_bounds {s₂ s₁ s₀ : ℕ} (h₂ : s₂ ≤ 510) (h₁ : s₁ ≤ 510) (h₀ : s₀ ≤ 510) :
    0 < 13 + s₂ * 2 ^ 16 + s₁ * 2 ^ 8 + s₀ ∧
      13 + s₂ * 2 ^ 16 + s₁ * 2 ^ 8 + s₀ < 3 * 2 ^ 24 := by
  refine ⟨?_, ?_⟩
  · omega
  · linarith

/-- A sum that is a multiple of `2 ^ 32` is not one with its bytes `s₃` to `s₀` reversed. -/
private lemma sum_reversed_ne_zero {s₃ s₂ s₁ s₀ : ℕ} (h₂ : s₂ ≤ 510) (h₁ : s₁ ≤ 510)
    (h₀ : s₀ ≤ 510) (h : (s₃ * 2 ^ 24 + (13 + s₂ * 2 ^ 16 + s₁ * 2 ^ 8 + s₀)) % 2 ^ 32 = 0) :
    (s₃ + 13 + 2 ^ 8 * (s₂ + s₁ * 2 ^ 8 + s₀ * 2 ^ 16)) % 2 ^ 32 ≠ 0 := by
  intro h'
  obtain ⟨hpos, hlt⟩ := carry_bounds h₂ h₁ h₀
  have hhigh := highest_of_sum hpos hlt h
  have hlow := lowest_of_sum h'
  clear h h' hpos hlt
  omega

/-- **A record of length zero** is not met twice in a row: if the lengths of a record add up to a
multiple of `2 ^ 32`, then the lengths read after the conversion do not. -/
theorem recordLen_swapped_ne_zero {rest : List UInt8} (h : 13 ≤ rest.length)
    (hzero : recordLen rest = 0) : recordLen (swapped rest) ≠ 0 := by
  obtain ⟨c, pos, lastbytes, newbytes, t, rfl, hpos, hlast, hnew⟩ := exists_header h
  rw [recordLen_header c t hpos hlast hnew] at hzero
  rw [swapped_header c t hpos hlast hnew,
    recordLen_header c t hpos (by simpa using hlast) (by simpa using hnew)]
  clear h hpos
  match lastbytes, newbytes, hlast, hnew with
  | [a₃, a₂, a₁, a₀], [b₃, b₂, b₁, b₀], _, _ =>
    simp only [List.reverse_cons, List.reverse_nil, List.nil_append, List.cons_append,
      Word.ofBe_four] at hzero ⊢
    have hle (a b : UInt8) : a.toNat + b.toNat ≤ 510 := by
      have ha := a.toNat_lt
      have hb := b.toNat_lt
      omega
    intro hzero'
    refine @sum_reversed_ne_zero (a₃.toNat + b₃.toNat) _ _ _ (hle a₂ b₂) (hle a₁ b₁) (hle a₀ b₀)
      ?_ ?_
    · convert hzero using 2
      ring
    · convert hzero' using 2
      ring

/-- Twice the bytes left, and one more for a record that will not advance the scan. -/
def Scan.measure (s : Scan) : ℕ :=
  2 * s.rest.length + if recordLen s.rest = 0 then 1 else 0

/-- Every turn of the scan decreases the measure. -/
lemma measure_lt {s t : Scan} (h : scanBody env beyond s = .inl t) : t.measure < s.measure := by
  have hle : (if recordLen t.rest = 0 then 1 else 0) ≤ 1 := by split_ifs <;> omega
  have hturn := scanBody_turn env beyond s
  rw [h] at hturn
  rw [Scan.measure, Scan.measure]
  cases hturn with
  | segment hrest hne hopen =>
    rw [hrest]
    simp only [List.length_drop, List.length_cons] at hle ⊢
    omega
  | record hrest hfile hheader hlen =>
    dsimp only at hle ⊢
    have hswapped := length_swapped hheader
    by_cases hzero : recordLen s.rest = 0
    · have hne := recordLen_swapped_ne_zero hheader hzero
      rw [hzero, List.drop_zero, if_neg hne, if_pos rfl]
      omega
    · rw [List.length_drop]
      omega

/-- **The scan ends** on every payload. -/
theorem scan_isSome (payload : List UInt8) (dir : Directory) : ∃ r,
    Loop.loop (scanBody env beyond) (2 * payload.length + 2) (Scan.start payload dir) = some r := by
  apply Loop.loop_isSome (fun s t => measure_lt)
  have hle : (if recordLen payload = 0 then 1 else 0) ≤ 1 := by split_ifs <;> omega
  dsimp only [Scan.measure, Scan.start]
  omega

/-- The handler and the scan start at one place. -/
lemma refines_start (mem : Memory) (payload : Bytes) (dir : Directory) :
    Refines (payload.asVoid + payload.len) (mem.read ⟨payload.asVoid + payload.len, 3⟩)
      ⟨mem, payload, ⟨payload.asVoid, 0⟩, none, dir, 0⟩ (Scan.start (mem.read payload) dir) :=
  ⟨rfl, rfl, fun _ => ⟨rfl, rfl⟩, rfl, rfl, rfl, rfl⟩

/-- **The handler ends** on every payload, with the result and the files of the scan of its
bytes. -/
theorem httpCallbackFeed_spec (env : SystemCalls) (mem : Memory) (payload : Bytes)
    (dir : Directory) :
    ∃ status f, httpCallbackFeed env mem payload dir = some (status, f) ∧
      Loop.Leaves (scanBody env (mem.read ⟨payload.asVoid + payload.len, 3⟩))
        (Scan.start (mem.read payload) dir) (status, f.dir) := by
  set beyond := mem.read ⟨payload.asVoid + payload.len, 3⟩
  obtain ⟨⟨status, dir'⟩, hscan⟩ := @scan_isSome beyond env (mem.read payload) dir
  have hrel : Option.Rel SameResult (httpCallbackFeed env mem payload dir)
      (Loop.loop (scanBody env beyond) (2 * payload.len + 2) (Scan.start (mem.read payload) dir)) :=
    Loop.loop_rel (fun _ _ => Refines.body) _ (refines_start mem payload dir)
  rw [Memory.length_read] at hscan
  rw [hscan] at hrel
  generalize httpCallbackFeed env mem payload dir = x at hrel ⊢
  cases hrel with
  | some h =>
    obtain ⟨rfl, rfl⟩ := h
    exact ⟨_, _, rfl, Loop.leaves_of_loop hscan⟩

end SleepyText.Server
