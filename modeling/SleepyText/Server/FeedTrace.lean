import SleepyText.Server.Grammar

set_option relaxedAutoImplicit false
set_option autoImplicit false

/-!
# The turns of the upload handler

What the loop of `http_callback_feed` meets on its way through a payload, at the addresses of the
payload: in a segment one record in each turn, up to the end.

## Main definitions

* `Insert`, `FeedState.insert` — the header of a record, as the handler reads it.
* `FeedState.Meets` — a turn starts at a given record.
* `feedTrace` — the states in which the turns of the handler start.
* `FeedState.Moves` — where a turn leaves the handler, and in what memory.

## Main results

* `feed_terminates` — the loop ends on every payload, and two turns in a row consume some of it.
* `feedBody_record` — the turn over a record.
* `feed_records` — the turns over the records behind a segment header, and what is committed.
-/

namespace SleepyText.Server

open Word

/-- `struct insert`. -/
structure Insert where
  pos : ℕ
  lastlen : ℕ
  newlen : ℕ
  deriving DecidableEq, Repr

/-- The header of the record that the handler has reached: the lengths as it reads them after
their conversion, and the position read big endian. -/
def FeedState.insert (f : FeedState) : Insert :=
  let i := f.p.asVoid + 1
  let mem := convert f.mem f.p.asVoid
  ⟨ofBe (mem.read ⟨i, 4⟩), mem.load32 (i + 4), mem.load32 (i + 8)⟩

/-- A turn starts at the address `a`, on the opcode of a record with the given header. -/
structure FeedState.Meets (f : FeedState) (a : ℕ) (insert : Insert) : Prop where
  address : f.p.asVoid = a
  nonempty : 0 < f.p.len
  opcode : f.mem f.p.asVoid = 105
  header : f.insert = insert

/-- The state in which `http_callback_feed` enters its loop. -/
def feedStart (mem : Memory) (payload : Bytes) (dir : Directory) : FeedState where
  mem := mem
  p := payload
  commit := ⟨payload.asVoid, 0⟩
  file := none
  dir := dir
  calls := 0

/-- The states in which the turns of `http_callback_feed` start. -/
def feedTrace (env : SystemCalls) (mem : Memory) (payload : Bytes) (dir : Directory) :
    List FeedState :=
  Loop.trace (feedBody env) (2 * payload.len + 2) (feedStart mem payload dir)

/-- The header of a record, as a record. -/
def Record.insert (r : Record) : Insert := ⟨r.pos.toNat, r.last.length, r.now.length⟩

/-! ## Where a turn goes -/

/-- What a turn that goes on does to the payload and to what is left of it. -/
inductive FeedState.Moves (f g : FeedState) : Prop
  | segment (hopcode : f.mem f.p.asVoid = 98) (hid : 1 < f.p.len) (hmem : g.mem = f.mem)
      (hp : g.p = bslice f.p 5 0)
  | record (hopcode : f.mem f.p.asVoid = 105) (hheader : 13 ≤ f.p.len)
      (hlen : recordLen (f.mem.read f.p) ≤ f.p.len) (hmem : g.mem = convert f.mem f.p.asVoid)
      (hp : g.p = bslice f.p (recordLen (f.mem.read f.p)) 0)

/-- **The turns of the handler** that go on. -/
theorem moves_of_feedBody {env : SystemCalls} {f g : FeedState} (h : feedBody env f = .inl g) :
    f.Moves g := by
  unfold feedBody at h
  split_ifs at h with hpos hsegment hrecord
  · unfold feedSegment at h
    have hp : (if f.file.isSome then f.write env else f).p = f.p := by split_ifs <;> rfl
    have hmem : (if f.file.isSome then f.write env else f).mem = f.mem := by split_ifs <;> rfl
    generalize (if f.file.isSome then f.write env else f) = w at h hp hmem
    dsimp only at h
    split_ifs at h with hbid hopen
    obtain rfl := Sum.inl.inj h
    refine .segment hsegment ?_ hmem (by rw [← hp])
    by_contra hshort
    rw [hp, bslice, if_pos (by omega)] at hbid
    exact hbid (by simp)
  · unfold feedRecord at h
    dsimp only at h
    split_ifs at h with hfile hshort hlong
    obtain rfl := Sum.inl.inj h
    obtain ⟨hlast, hnew⟩ := load32_convert f.mem f.p.asVoid (n := f.p.len) (by omega)
    have hlen : (13 + (convert f.mem f.p.asVoid).load32 (f.p.asVoid + 1 + 4) +
        (convert f.mem f.p.asVoid).load32 (f.p.asVoid + 1 + 8)) % 2 ^ 32 =
        recordLen (f.mem.read f.p) := by
      rw [hlast, hnew, recordLen]
    refine .record hrecord (by omega) ?_ rfl ?_
    · rw [← hlen]
      exact not_lt.mp hlong
    · rw [← hlen]
      rfl

/-- A turn that goes on consumes some of the payload, or it is over a record whose length is a
multiple of `2 ^ 32` and stays where it is. -/
lemma FeedState.Moves.lt_or_stay {f g : FeedState} (h : f.Moves g) : g.p.len < f.p.len ∨
    13 ≤ f.p.len ∧ recordLen (f.mem.read f.p) = 0 ∧ g.p = f.p ∧
      g.mem.read g.p = swapped (f.mem.read f.p) := by
  cases h with
  | segment hopcode hid hmem hp =>
    left
    rw [hp, bslice_zero]
    split_ifs
    · exact Nat.zero_lt_of_lt hid
    · dsimp only
      omega
  | record hopcode hheader hlen hmem hp =>
    by_cases hzero : recordLen (f.mem.read f.p) = 0
    · have hstay : g.p = f.p := by
        rw [hp, hzero, bslice_zero, if_neg (by omega)]
        rfl
      refine .inr ⟨hheader, hzero, hstay, ?_⟩
      rw [hstay, hmem]
      exact read_convert f.mem f.p.asVoid (n := f.p.len) hheader
    · left
      rw [hp, bslice_zero]
      split_ifs
      · dsimp only
        omega
      · dsimp only
        omega

/-- **The upload handler ends** on every payload: its loop leaves, within the number of turns
given, and any two turns in a row consume some of the payload, although one may stay where it is.

**Proof sketch.** A turn that stays has converted the lengths of a record whose sum is a multiple
of `2 ^ 32`; the sum of the converted lengths is none (`recordLen_swapped_ne_zero`), so that the
next turn does not stay. -/
theorem feed_terminates (env : SystemCalls) (mem : Memory) (payload : Bytes) (dir : Directory) :
    (∃ r, Loop.loop (feedBody env) (2 * payload.len + 2) (feedStart mem payload dir) = some r ∧
      Loop.Leaves (feedBody env) (feedStart mem payload dir) r) ∧
    ∀ f g h, feedBody env f = .inl g → feedBody env g = .inl h → h.p.len < f.p.len := by
  refine ⟨?_, fun f g h hfg hgh => ?_⟩
  · obtain ⟨status, f, hfeed, -⟩ := httpCallbackFeed_spec env mem payload dir
    exact ⟨(status, f), hfeed, Loop.leaves_of_loop hfeed⟩
  · obtain hfirst | ⟨hheader, hzero, hstay, hread⟩ := (moves_of_feedBody hfg).lt_or_stay
    · obtain hsecond | ⟨-, -, hstay, -⟩ := (moves_of_feedBody hgh).lt_or_stay
      · omega
      · rwa [hstay]
    · obtain hsecond | ⟨-, hzero', -⟩ := (moves_of_feedBody hgh).lt_or_stay
      · rwa [hstay] at hsecond
      · rw [hread] at hzero'
        exact absurd hzero' (recordLen_swapped_ne_zero (by simpa using hheader) hzero)

/-! ## One record -/

section Turn

variable {env : SystemCalls} {f : FeedState} {r : Record} {rest : List UInt8}

/-- What is left of the payload, when a record stands where the handler is. -/
lemma len_of_read (hread : f.mem.read f.p = r.encode ++ rest) :
    f.p.len = r.size + rest.length := by
  have h := congrArg List.length hread
  rwa [Memory.length_read, List.length_append, r.length_encode] at h

/-- The header of a record that stands where the handler is. -/
lemma insert_of_read (hread : f.mem.read f.p = r.encode ++ rest) : f.insert = r.insert := by
  have hlen := len_of_read hread
  obtain ⟨hlast, hnew⟩ := load32_convert f.mem f.p.asVoid (n := f.p.len) (by
    rw [hlen, Record.size]
    omega)
  have hpos : (convert f.mem f.p.asVoid).read ⟨f.p.asVoid + 1, 4⟩ = be32 r.pos.toNat := by
    have hheader : f.mem.read f.p = [105] ++ (be32 r.pos.toNat ++ (be32 r.last.length ++
        (be32 r.now.length ++ (r.last ++ r.now ++ rest)))) := by
      rw [hread, r.encode_append, List.append_assoc, List.append_assoc]
      rfl
    rw [read_convert_of_disjoint _ _ (by simp)]
    exact Memory.read_part hheader
  have hposlt : ofBe (be32 r.pos.toNat) = r.pos.toNat := by
    rw [ofBe_be32, Nat.mod_eq_of_lt r.pos.toNat_lt]
  rw [show f.mem.read ⟨f.p.asVoid, f.p.len⟩ = _ from hread] at hlast hnew
  rw [FeedState.insert, Record.insert, hpos, hposlt, hlast, hnew, r.lastlen_encode,
    r.newlen_encode]

/-- The turn over a record, in terms of the header that the handler reads. -/
lemma feedBody_of_insert {len : ℕ} (hopcode : f.mem f.p.asVoid = 105) (hfile : f.file.isSome)
    (hheader : 13 ≤ f.p.len) (hsum : (13 + f.insert.lastlen + f.insert.newlen) % 2 ^ 32 = len)
    (hlen : len ≤ f.p.len) : feedBody env f = .inl { f with
      mem := convert f.mem f.p.asVoid
      commit := ⟨f.commit.asVoid, f.commit.len + len⟩
      p := bslice f.p len 0 } := by
  have hnone : ¬ f.file.isNone = true := by
    rwa [Option.isNone_iff_eq_none, ← ne_eq, Option.ne_none_iff_isSome]
  have hturn : feedBody env f = feedRecord f := by
    rw [feedBody, if_pos (by omega), hopcode]
    rfl
  subst hsum
  rw [hturn, feedRecord, if_neg hnone, if_neg (by omega)]
  exact if_neg (not_lt.mpr hlen)

/-- **The turn over a record** goes to the byte behind it, and adds it to what is to be
committed. -/
theorem feedBody_record (hread : f.mem.read f.p = r.encode ++ rest) (hfile : f.file.isSome)
    (hfits : r.size < 2 ^ 32) : feedBody env f = .inl { f with
      mem := convert f.mem f.p.asVoid
      commit := ⟨f.commit.asVoid, f.commit.len + r.size⟩
      p := bslice f.p r.size 0 } := by
  have hlen := len_of_read hread
  have hsize : 13 ≤ r.size := by
    unfold Record.size
    omega
  have hsum : (13 + f.insert.lastlen + f.insert.newlen) % 2 ^ 32 = r.size := by
    rw [insert_of_read hread]
    exact Nat.mod_eq_of_lt hfits
  exact feedBody_of_insert (Memory.read_eq_cons hread).2.1 hfile (by omega) hsum (by omega)

/-- What is left behind a record, and where it stands. -/
lemma behind_record (hread : f.mem.read f.p = r.encode ++ rest) :
    (convert f.mem f.p.asVoid).read (bslice f.p r.size 0) = rest ∧
      (rest ≠ [] → (bslice f.p r.size 0).asVoid = f.p.asVoid + r.size) := by
  have hlen := len_of_read hread
  rw [bslice_zero]
  split_ifs with hend
  · have hnil : rest = [] := List.eq_nil_of_length_eq_zero (by omega)
    exact ⟨hnil.symm, fun hne => absurd hnil hne⟩
  · refine ⟨?_, fun _ => rfl⟩
    have hdisjoint : f.p.asVoid + 13 ≤ f.p.asVoid + r.size := by
      unfold Record.size
      omega
    rw [read_convert_of_disjoint _ _ (.inr hdisjoint), ← Memory.drop_read (by omega)]
    rw [show f.mem.read ⟨f.p.asVoid, f.p.len⟩ = _ from hread, List.drop_left' r.length_encode]

end Turn

/-! ## The records of a segment -/

/-- **The records behind a segment header.** The handler takes a turn for each of them, starting
where it stands, and accepts the payload with all of them to be committed.

**Proof sketch.** Induction on the records: a turn leaves the handler on the next record
(`feedBody_record`, `behind_record`), and the last one at the end of the payload. -/
theorem feed_records {env : SystemCalls} {records : List Record}
    (hfits : ∀ r ∈ records, r.size < 2 ^ 32) {f : FeedState}
    (hread : f.mem.read f.p = records.flatMap Record.encode) (hfile : f.file.isSome) {fuel : ℕ}
    (hfuel : records.length < fuel) :
    ∃ states last, Loop.loop (feedBody env) fuel f = some (.ok, last.write env) ∧
      Loop.trace (feedBody env) fuel f = states ++ [last] ∧
      states.length = records.length ∧
      (∀ k r, records[k]? = some r → ∃ s : FeedState, states[k]? = some s ∧
        s.Meets (f.p.asVoid + ((records.take k).flatMap Record.encode).length) r.insert) ∧
      last.p.len = 0 ∧ last.file = f.file ∧ last.commit =
        ⟨f.commit.asVoid, f.commit.len + (records.flatMap Record.encode).length⟩ := by
  induction records generalizing f fuel with
  | nil =>
    obtain ⟨fuel, rfl⟩ : ∃ n, fuel = n + 1 := ⟨fuel - 1, by omega⟩
    have hlen : f.p.len = 0 := by
      rw [← Memory.length_read (m := f.mem) f.p, hread]
      rfl
    have hbody : feedBody env f = .inr (.ok, f.write env) := by
      rw [feedBody, if_neg (by omega)]
    obtain ⟨hloop, htrace⟩ := @Loop.loop_leave _ _ _ fuel _ _ hbody
    exact ⟨[], f, hloop, htrace, rfl, by simp, hlen, rfl, rfl⟩
  | cons r records ih =>
    obtain ⟨fuel, rfl⟩ : ∃ n, fuel = n + 1 := ⟨fuel - 1, by omega⟩
    rw [List.flatMap_cons] at hread
    have hbody := @feedBody_record env f r _ hread hfile (hfits r List.mem_cons_self)
    obtain ⟨hrest, haddress⟩ := behind_record hread
    obtain ⟨hloop, htrace⟩ := @Loop.loop_turn _ _ _ fuel _ _ hbody
    obtain ⟨states, last, hok, hstates, hlength, hmeets, hend, hlast, hcommit⟩ :=
      ih (fun r hr => hfits r (List.mem_cons_of_mem _ hr)) (f := { f with
        mem := convert f.mem f.p.asVoid
        commit := ⟨f.commit.asVoid, f.commit.len + r.size⟩
        p := bslice f.p r.size 0 }) hrest hfile (by simpa using hfuel)
    refine ⟨f :: states, last, hloop.trans hok, ?_, by simp [hlength], ?_, hend, hlast, ?_⟩
    · rw [htrace, hstates, List.cons_append]
    · rintro (_ | k) r' hr'
      · obtain rfl : r = r' := by simpa using hr'
        obtain ⟨hlen, hopcode, -⟩ := Memory.read_eq_cons hread
        exact ⟨f, rfl, by simp, by omega, hopcode, insert_of_read hread⟩
      · rw [List.getElem?_cons_succ] at hr'
        obtain ⟨s, hs, hmeet⟩ := hmeets k r' hr'
        refine ⟨s, hs, ?_⟩
        have hne : records.flatMap Record.encode ≠ [] := by
          intro hnil
          have h := List.flatMap_eq_nil_iff.mp hnil r' (List.mem_of_getElem? hr')
          exact absurd h (List.cons_ne_nil _ _)
        rw [haddress hne] at hmeet
        rw [List.take_succ_cons, List.flatMap_cons, List.length_append, r.length_encode,
          ← Nat.add_assoc]
        exact hmeet
    · rw [hcommit, List.flatMap_cons, List.length_append, r.length_encode, Nat.add_assoc]

end SleepyText.Server
