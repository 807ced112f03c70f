import SleepyText.Server.Find
import SleepyText.Server.Handlers

set_option relaxedAutoImplicit false
set_option autoImplicit false

/-!
# Routing

`http_server_callback_dispatch` compares the address of a request with the first bytes of each
entry of its table, and takes as many bytes for it as the entry has, which may be more than the
address has. The byte behind an address is a space or a carriage return, which no entry contains.

## Main definitions

* `AnswersTo` — an entry of a table answers to an address.

## Main results

* `byte_behind_addr` — the byte behind the address of a request.
* `dispatch_first_match` — the first entry that answers to the address is called.
* `dispatch_pairs` — the answer of the server, by the address alone.
-/

namespace SleepyText.Server

/-- The entry `entry` of a table answers to `addr`: it is the address, or has more than one byte and
is a prefix of the address. -/
def AnswersTo (entry addr : List UInt8) : Prop := entry = addr ∨ 1 < entry.length ∧ entry <+: addr

instance (entry addr : List UInt8) : Decidable (AnswersTo entry addr) :=
  inferInstanceAs (Decidable (_ ∨ _))

/-- An entry that a table may have: not empty, and without spaces and carriage returns. -/
structure Routable (entry : List UInt8) : Prop where
  nonempty : entry ≠ []
  space : 32 ∉ entry
  cr : 13 ∉ entry

/-! ## The byte behind an address -/

variable {m : Memory}

/-- A byte in the middle of a range. -/
lemma apply_of_read {b : Bytes} {front rest : List UInt8} {c : UInt8}
    (h : m.read b = front ++ c :: rest) : m (b.asVoid + front.length) = c := by
  have hbyte : m.read ⟨b.asVoid + front.length, [c].length⟩ = [c] := Memory.read_part h
  exact (Memory.read_eq_cons hbyte).2.1

/-- What is behind the first space of a range ends where the range does. -/
lemma after_space {input : Bytes} (h : 0 < (bfind m input (ascii " ")).after.len) :
    (bfind m input (ascii " ")).after.asVoid + (bfind m input (ascii " ")).after.len =
      input.asVoid + input.len := by
  obtain ⟨-, hnone⟩ | ⟨a, b, -, hread, hsome⟩ := bfind_cases (show ascii " " ≠ [] by decide) m input
  · rw [hnone] at h
    exact absurd h (lt_irrefl 0)
  · have hlen := congrArg List.length hread
    rw [Memory.length_read, List.length_append, List.length_append] at hlen
    rw [hsome]
    dsimp only
    omega

/-- The part of a range in front of a space is followed by it, or is the whole range. -/
lemma before_space (m : Memory) (input : Bytes) :
    m ((bfind m input (ascii " ")).before.asVoid + (bfind m input (ascii " ")).before.len) = 32 ∨
      (bfind m input (ascii " ")).before = input := by
  obtain ⟨-, hnone⟩ | ⟨a, b, -, hread, hsome⟩ := bfind_cases (show ascii " " ≠ [] by decide) m input
  · rw [hnone]
    exact .inr rfl
  · have hbyte : m (input.asVoid + a.length) = 32 := apply_of_read hread
    rw [hsome]
    exact .inl hbyte

/-- **The byte behind the address** of a request is the second space of the header, or the carriage
return behind it. -/
theorem byte_behind_addr (buffer : Bytes) (h : 0 < (httpParseRequest m buffer).addr.len) :
    m ((httpParseRequest m buffer).addr.asVoid + (httpParseRequest m buffer).addr.len) = 32 ∨
      m ((httpParseRequest m buffer).addr.asVoid + (httpParseRequest m buffer).addr.len) = 13 := by
  rw [httpParseRequest] at h ⊢
  dsimp only at h ⊢
  split_ifs at h ⊢ with hend hlength
  · exact absurd h (lt_irrefl 0)
  · exact absurd h (lt_irrefl 0)
  · have hcr : m ((bfind m buffer (ascii "\r\n\r\n")).before.asVoid +
        (bfind m buffer (ascii "\r\n\r\n")).before.len) = 13 := by
      obtain ⟨-, hnone⟩ | ⟨a, b, -, hread, hsome⟩ :=
        bfind_cases (show ascii "\r\n\r\n" ≠ [] by decide) m buffer
      · rw [hnone] at hend
        exact absurd rfl hend
      · have hbyte : m (buffer.asVoid + a.length) = 13 := apply_of_read hread
        rw [hsome]
        exact hbyte
    obtain hspace | hwhole := before_space m
      (bfind m (bfind m buffer (ascii "\r\n\r\n")).before (ascii " ")).after
    · exact .inl hspace
    · rw [hwhole] at h ⊢
      rw [after_space h]
      exact .inr hcr

/-! ## The choice -/

/-- The comparison with as many bytes as the entry has tells whether it is a prefix of the
address. -/
lemma read_slice_eq_iff {addr : Bytes} {entry : List UInt8} (hentry : Routable entry)
    (hpos : 0 < addr.len)
    (hbehind : m (addr.asVoid + addr.len) = 32 ∨ m (addr.asVoid + addr.len) = 13) :
    m.read (bslice addr 0 entry.length) = entry ↔ entry <+: m.read addr := by
  have hne := List.length_pos_iff.mpr hentry.nonempty
  have hslice : bslice addr 0 entry.length = ⟨addr.asVoid, entry.length⟩ := by
    rw [bslice, if_neg (by omega), if_pos hne, sizeSub, if_pos (Nat.zero_le _)]
    rfl
  rw [hslice]
  by_cases hle : entry.length ≤ addr.len
  · rw [List.prefix_iff_eq_take, show addr = ⟨addr.asVoid, addr.len⟩ from rfl,
      Memory.take_read hle, eq_comm]
  · have hprefix : ¬ entry <+: m.read addr := by
      intro hprefix
      have hlen := hprefix.length_le
      rw [Memory.length_read] at hlen
      omega
    refine iff_of_false (fun heq => ?_) hprefix
    -- the byte behind the address would be in the entry
    have hmem : m (addr.asVoid + addr.len) ∈ entry := by
      rw [← heq, Memory.read]
      exact List.mem_map_of_mem (List.mem_range'_1.mpr ⟨Nat.le_add_right _ _, by dsimp only; omega⟩)
    rcases hbehind with hspace | hcr
    · exact hentry.space (hspace ▸ hmem)
    · exact hentry.cr (hcr ▸ hmem)

/-- The first entry that answers to the address is called, when a space or a carriage return is
behind the address. -/
lemma dispatch_eq_find? {α : Type*} {table : List (α × List UInt8)}
    (htable : ∀ e ∈ table, Routable e.2) {request : HttpRequest} (hpos : 0 < request.addr.len)
    (hbehind : m (request.addr.asVoid + request.addr.len) = 32 ∨
      m (request.addr.asVoid + request.addr.len) = 13) :
    httpServerCallbackDispatch m request table =
      (table.find? fun e => AnswersTo e.2 (m.read request.addr)).map Prod.fst := by
  induction table with
  | nil => rfl
  | cons e table ih =>
    obtain ⟨callback, entry⟩ := e
    rw [List.forall_mem_cons] at htable
    have hslice := read_slice_eq_iff htable.1 hpos hbehind
    rw [httpServerCallbackDispatch, ih htable.2]
    dsimp only at hslice
    by_cases hsame : m.read request.addr = entry
    · rw [if_pos hsame, List.find?_cons_of_pos (by simp [AnswersTo, hsame])]
      rfl
    · have hother : entry ≠ m.read request.addr := Ne.symm hsame
      rw [if_neg hsame]
      by_cases hshort : entry.length ≤ 1
      · rw [if_pos hshort, List.find?_cons_of_neg (by simp [AnswersTo, hother, hshort])]
      · rw [if_neg hshort]
        by_cases hfront : entry <+: m.read request.addr
        · rw [if_pos (hslice.mpr hfront),
            List.find?_cons_of_pos (by simp [AnswersTo, hfront, not_le.mp hshort])]
          rfl
        · rw [if_neg (mt hslice.mp hfront),
            List.find?_cons_of_neg (by simp [AnswersTo, hfront, hother])]

/-- **The first entry that answers to the address is called**, and none if there is none, whatever
stands in the memory behind the address.

**Proof sketch.** An entry that is longer than the address is compared with the byte behind it
(`byte_behind_addr`), which is not in the entry; so the comparison tells whether the entry is a
prefix of the address (`read_slice_eq_iff`). -/
theorem dispatch_first_match {α : Type*} {table : List (α × List UInt8)}
    (htable : ∀ e ∈ table, Routable e.2) {buffer : Bytes}
    (haddr : 0 < (httpParseRequest m buffer).addr.len) :
    httpServerCallbackDispatch m (httpParseRequest m buffer) table =
      (table.find? fun e => AnswersTo e.2 (m.read (httpParseRequest m buffer).addr)).map
        Prod.fst :=
  dispatch_eq_find? htable haddr (byte_behind_addr buffer haddr)

/-- A request for a branch goes to the first of two entries that answer to it, although the second
one is longer than the address. -/
theorem dispatch_first_match_branch :
    httpServerCallbackDispatch (fun x => (ascii "GET /b/5 HTTP/1.1\r\n\r\n").getD x 0)
        (httpParseRequest (fun x => (ascii "GET /b/5 HTTP/1.1\r\n\r\n").getD x 0) ⟨0, 21⟩)
        [(0, ascii "/"), (1, ascii "/b/"), (2, ascii "/b/5/6")] =
      ([(0, ascii "/"), (1, ascii "/b/"), (2, ascii "/b/5/6")].find? fun e =>
        AnswersTo e.2 (Memory.read (fun x => (ascii "GET /b/5 HTTP/1.1\r\n\r\n").getD x 0)
          (httpParseRequest (fun x => (ascii "GET /b/5 HTTP/1.1\r\n\r\n").getD x 0)
            ⟨0, 21⟩).addr)).map Prod.fst := by
  refine dispatch_first_match ?_ (by decide +kernel)
  simp only [List.forall_mem_cons, List.not_mem_nil, false_implies, implies_true, and_true]
  exact ⟨⟨by decide, by decide, by decide⟩, ⟨by decide, by decide, by decide⟩,
    ⟨by decide, by decide, by decide⟩⟩

/-- The entries of the table of `main` are as they may be. -/
lemma routable_pairs : ∀ e ∈ pairs, Routable e.2 := by
  simp only [pairs, List.forall_mem_cons, List.not_mem_nil, false_implies, implies_true, and_true]
  refine ⟨?_, ?_, ?_, ?_, ?_, ?_, ?_⟩ <;> exact ⟨by decide, by decide, by decide⟩

/-- A request is an upload when its address begins like the entry of that handler. -/
lemma dispatch_eq_feed_iff {buffer : Bytes} (haddr : 0 < (httpParseRequest m buffer).addr.len) :
    httpServerCallbackDispatch m (httpParseRequest m buffer) pairs = some .feed ↔
      ascii "/api/0/feed" <+: m.read (httpParseRequest m buffer).addr := by
  rw [dispatch_eq_find? routable_pairs haddr (byte_behind_addr buffer haddr)]
  generalize m.read (httpParseRequest m buffer).addr = addr
  constructor
  · intro hfind
    obtain ⟨⟨callback, entry⟩, hfind, hcallback⟩ := Option.map_eq_some_iff.mp hfind
    obtain rfl : callback = .feed := hcallback
    have hentry : ∀ e ∈ pairs, e.1 = .feed → e.2 = ascii "/api/0/feed" := by decide
    have hanswers := List.find?_some hfind
    rw [decide_eq_true_eq, hentry _ (List.mem_of_find?_eq_some hfind) rfl] at hanswers
    rcases hanswers with hsame | ⟨-, hfront⟩
    · exact hsame ▸ List.prefix_rfl
    · exact hfront
  · intro hfeed
    have hpairs : pairs = pairs.take 4 ++ (.feed, ascii "/api/0/feed") :: pairs.drop 5 := rfl
    -- the entries in front of it are no prefixes of its address, nor is it one of theirs
    have hothers : ∀ e ∈ pairs.take 4, ¬ ascii "/api/0/feed" <+: e.2 ∧
        (1 < e.2.length → ¬ e.2 <+: ascii "/api/0/feed") := by decide
    have hfind : pairs.find? (fun e => AnswersTo e.2 addr) = some (.feed, ascii "/api/0/feed") := by
      rw [List.find?_eq_some_iff_append]
      refine ⟨by simpa using .inr ⟨by decide, hfeed⟩, _, _, hpairs, fun e he => ?_⟩
      have hanswers : ¬ AnswersTo e.2 addr := by
        rintro (hsame | ⟨hlong, hfront⟩)
        · exact (hothers e he).1 (hsame ▸ hfeed)
        · rcases List.prefix_or_prefix_of_prefix hfeed hfront with hle | hle
          · exact (hothers e he).1 hle
          · exact (hothers e he).2 hlong hle
      simpa using hanswers
    rw [hfind]
    rfl

/-- **The answer of the server** to a request that is no handshake: the handler of the first entry
of the table of `main` that answers to the address, unless it overruns its block, or not found. -/
theorem dispatch_pairs (w : World) (buffer : Bytes) (s : ServerState)
    (haddr : 0 < (httpParseRequest m buffer).addr.len) :
    dispatch w m (httpParseRequest m buffer) s =
      match pairs.find? fun e => AnswersTo e.2 (m.read (httpParseRequest m buffer).addr) with
      | none => some (m, rawResult .notFound, s)
      | some (callback, _) =>
        if callback.Overruns m (httpParseRequest m buffer) s then none
        else callback.run w m (httpParseRequest m buffer) s := by
  rw [dispatch, dispatch_eq_find? routable_pairs haddr (byte_behind_addr buffer haddr)]
  cases pairs.find? fun e => AnswersTo e.2 (m.read (httpParseRequest m buffer).addr) <;> rfl

end SleepyText.Server
