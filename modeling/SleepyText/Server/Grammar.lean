import SleepyText.Server.Feed

set_option relaxedAutoImplicit false
set_option autoImplicit false

/-!
# The grammar of uploads

A payload is a sequence of segments, each with the id of a branch and a sequence of records. The
upload handler accepts a payload when its scan reaches the end; this differs from the grammar in
two places, which this module makes out exactly.

## Main definitions

* `Record`, `Segment`, `WellFormed` — payloads that follow the grammar.
* `Scannable` — payloads that the scan reaches the end of.
* `RecordRun`, `Segmented` — the segments of a payload as the scan divides it.
* `Misread` — payloads on which the two differ.

## Main results

* `leaves_ok_iff` — the scan answers `http_ok` exactly on the scannable payloads.
* `feed_accepts_iff` — the handler decides the grammar exactly outside the misread payloads.
-/

namespace SleepyText.Server

open Word

/-! ## Payloads -/

/-- A record: `'i'`, the position, two lengths and two texts. -/
structure Record where
  pos : UInt32
  last : List UInt8
  now : List UInt8
  last_lt : last.length < 2 ^ 32
  now_lt : now.length < 2 ^ 32

/-- The bytes of a record. -/
def Record.encode (r : Record) : List UInt8 :=
  105 :: (be32 r.pos.toNat ++ be32 r.last.length ++ be32 r.now.length ++ (r.last ++ r.now))

/-- A segment: `'b'`, the id of a branch, and records. -/
structure Segment where
  id : UInt32
  records : List Record

/-- The bytes of a segment. -/
def Segment.encode (s : Segment) : List UInt8 :=
  98 :: (be32 s.id.toNat ++ s.records.flatMap Record.encode)

/-- A payload that is a sequence of segments. -/
def WellFormed (payload : List UInt8) : Prop :=
  ∃ segments : List Segment, payload = segments.flatMap Segment.encode

/-- The length of the record in front of `rest`, as its header tells it. -/
def trueLen (rest : List UInt8) : ℕ := 13 + lastlen rest + newlen rest

/-- What may follow in a payload, by whether a segment was started. -/
inductive Grammar : Bool → List UInt8 → Prop
  | done {opened : Bool} : Grammar opened []
  | segment {opened : Bool} {rest : List UInt8} (hid : 4 ≤ rest.length)
      (h : Grammar true (rest.drop 4)) : Grammar opened (98 :: rest)
  | record {rest : List UInt8} (hheader : 13 ≤ (105 :: rest).length)
      (hlen : trueLen (105 :: rest) ≤ (105 :: rest).length)
      (h : Grammar true ((105 :: rest).drop (trueLen (105 :: rest)))) :
      Grammar true (105 :: rest)

/-- What the scan reads to the end, by the number of system calls made and by whether a segment
was started: an id may be cut short by the end, and lengths count modulo `2 ^ 32`. -/
inductive Scannable (opens : ℕ → Bool) : ℕ → Bool → List UInt8 → Prop
  | done {calls : ℕ} {opened : Bool} : Scannable opens calls opened []
  | segment {calls : ℕ} {opened : Bool} {rest : List UInt8} (hne : rest ≠ [])
      (hopen : opens (calls + opened.toNat) = true)
      (h : Scannable opens (calls + opened.toNat + 1) true (rest.drop 4)) :
      Scannable opens calls opened (98 :: rest)
  | record {calls : ℕ} {rest : List UInt8} (hheader : 13 ≤ (105 :: rest).length)
      (hlen : recordLen (105 :: rest) ≤ (105 :: rest).length)
      (h : Scannable opens calls true
        ((swapped (105 :: rest)).drop (recordLen (105 :: rest)))) :
      Scannable opens calls true (105 :: rest)

/-- A segment in the buffer of the handler: the bytes of its id, which are less than four where the
payload ends in them, and the region of its records. -/
structure SegmentBytes where
  id : List UInt8
  region : List UInt8

/-- The bytes of a segment. -/
def SegmentBytes.encode (s : SegmentBytes) : List UInt8 := 98 :: (s.id ++ s.region)

/-- Reading records in front of some bytes gives a region and leaves some bytes. -/
inductive RecordRun : List UInt8 → List UInt8 → List UInt8 → Prop
  | done {rest : List UInt8} : RecordRun rest [] rest
  | record {rest region rest' : List UInt8} (hheader : 13 ≤ (105 :: rest).length)
      (hlen : recordLen (105 :: rest) ≤ (105 :: rest).length)
      (h : RecordRun ((swapped (105 :: rest)).drop (recordLen (105 :: rest))) region rest') :
      RecordRun (105 :: rest)
        ((swapped (105 :: rest)).take (recordLen (105 :: rest)) ++ region) rest'

/-- The bytes are a sequence of segments, each a header and records. -/
inductive Segmented : List UInt8 → List SegmentBytes → Prop
  | done : Segmented [] []
  | segment {rest region rest' : List UInt8} {segments : List SegmentBytes} (hne : rest ≠ [])
      (hrecords : RecordRun (rest.drop 4) region rest') (h : Segmented rest' segments) :
      Segmented (98 :: rest) (⟨rest.take 4, region⟩ :: segments)

/-! ## What the scan accepts -/

variable {env : SystemCalls} {beyond : List UInt8}

lemma calls_committed (s : Scan) : (s.committed env).calls = s.calls + s.file.isSome.toNat := by
  unfold Scan.committed
  cases s.file <;> rfl

/-- **Acceptance**: the scan answers `http_ok` exactly on what is scannable. -/
theorem leaves_ok_iff (s : Scan) : (∃ dir, Loop.Leaves (scanBody env beyond) s (.ok, dir)) ↔
    Scannable env.opens s.calls s.file.isSome s.rest := by
  constructor
  · rintro ⟨dir, h⟩
    generalize hr : (HttpResult.ok, dir) = r at h
    induction h with
    | leave hbody =>
      rename_i s _
      have hturn := scanBody_turn env beyond s
      rw [hbody, ← hr] at hturn
      cases hturn with
      | done hrest => rw [hrest]; exact .done
    | turn hbody _ ih =>
      rename_i s t _ _
      have hturn := scanBody_turn env beyond s
      rw [hbody] at hturn
      have ih := ih hr
      cases hturn with
      | segment hrest hne hopen =>
        rw [calls_committed] at hopen ih
        rw [hrest]
        exact .segment hne hopen ih
      | record hrest hfile hheader hlen =>
        rw [hrest] at hheader hlen ih ⊢
        dsimp only at ih
        rw [hfile] at ih ⊢
        exact .record hheader hlen ih
  · intro h
    generalize hcalls : s.calls = calls at h
    generalize hopened : s.file.isSome = opened at h
    generalize hrest : s.rest = rest at h
    induction h generalizing s with
    | done => exact ⟨_, .leave (scanBody_done beyond hrest)⟩
    | @segment calls opened rest hne hopen _ ih =>
      subst hcalls hopened
      rw [← calls_committed] at hopen ih
      obtain ⟨dir, hdir⟩ := ih ⟨_, [], some (segmentPath beyond rest), _, _⟩ rfl rfl rfl
      exact ⟨dir, .turn (scanBody_segment beyond hrest hne hopen) hdir⟩
    | @record calls rest hheader hlen _ ih =>
      rw [← hrest] at hheader hlen ih
      obtain ⟨dir, hdir⟩ := ih { s with
        rest := (swapped s.rest).drop (recordLen s.rest)
        region := s.region ++ (swapped s.rest).take (recordLen s.rest) } hcalls hopened rfl
      exact ⟨dir, .turn (scanBody_record beyond hrest hopened hheader hlen) hdir⟩

/-- The scan answers in two ways. -/
lemma leaves_ok_or_badRequest {s : Scan} {status : HttpResult} {dir : Directory}
    (h : Loop.Leaves (scanBody env beyond) s (status, dir)) :
    status = .ok ∨ status = .badRequest := by
  generalize hr : (status, dir) = r at h
  induction h with
  | leave hbody =>
    rename_i s _
    have hturn := scanBody_turn env beyond s
    rw [hbody, ← hr] at hturn
    cases hturn with
    | done => exact .inl rfl
    | badSegment | badRecord | badOpcode => exact .inr rfl
  | turn _ _ ih => exact ih hr

/-- The two answers of the scan. -/
lemma leaves_status {s : Scan} {status : HttpResult} {dir : Directory}
    (h : Loop.Leaves (scanBody env beyond) s (status, dir)) :
    (status = .ok ↔ Scannable env.opens s.calls s.file.isSome s.rest) ∧
      (status = .badRequest ↔ ¬ Scannable env.opens s.calls s.file.isSome s.rest) := by
  have hok : status = .ok ↔ Scannable env.opens s.calls s.file.isSome s.rest := by
    rw [← @leaves_ok_iff env beyond s]
    constructor
    · rintro rfl
      exact ⟨dir, h⟩
    · rintro ⟨dir', h'⟩
      exact congrArg Prod.fst (h.unique h')
  refine ⟨hok, ?_⟩
  rw [← hok]
  rcases leaves_ok_or_badRequest h with rfl | rfl <;> decide

/-! ## Records and segments in the grammar -/

/-- The number of bytes of a record. -/
def Record.size (r : Record) : ℕ := 13 + r.last.length + r.now.length

lemma Record.length_encode (r : Record) : r.encode.length = r.size := by
  simp only [Record.encode, Record.size, List.length_cons, List.length_append, length_be32]
  omega

/-- The header of a record, and what stands behind it. -/
lemma Record.encode_append (r : Record) (rest : List UInt8) : r.encode ++ rest =
    105 :: (be32 r.pos.toNat ++ be32 r.last.length ++ be32 r.now.length ++
      (r.last ++ r.now ++ rest)) := by
  simp [Record.encode]

/-- The first length in the header of a record. -/
lemma Record.lastlen_encode (r : Record) (rest : List UInt8) :
    lastlen (r.encode ++ rest) = r.last.length := by
  rw [r.encode_append, lastlen_header _ _ (length_be32 _) (length_be32 _), ofBe_be32,
    Nat.mod_eq_of_lt r.last_lt]

/-- The second length in the header of a record. -/
lemma Record.newlen_encode (r : Record) (rest : List UInt8) :
    newlen (r.encode ++ rest) = r.now.length := by
  rw [r.encode_append, newlen_header _ _ (length_be32 _) (length_be32 _) (length_be32 _),
    ofBe_be32, Nat.mod_eq_of_lt r.now_lt]

lemma Record.trueLen_encode (r : Record) (rest : List UInt8) :
    trueLen (r.encode ++ rest) = r.size := by
  rw [trueLen, r.lastlen_encode, r.newlen_encode, Record.size]

/-- Bytes that a record header says the right length of are a record. -/
lemma exists_record {rest : List UInt8} (hheader : 13 ≤ (105 :: rest).length)
    (hlen : trueLen (105 :: rest) ≤ (105 :: rest).length) :
    ∃ r : Record, 105 :: rest = r.encode ++ (105 :: rest).drop (trueLen (105 :: rest)) := by
  obtain ⟨c, pos, lastbytes, newbytes, t, heq, hpos, hlast, hnew⟩ := exists_header hheader
  obtain ⟨hposlt, hposeq⟩ := exists_be32 hpos
  obtain ⟨hlastlt, hlasteq⟩ := exists_be32 hlast
  obtain ⟨hnewlt, hneweq⟩ := exists_be32 hnew
  have hlong : trueLen (105 :: rest) = 13 + ofBe lastbytes + ofBe newbytes := by
    rw [trueLen, heq, lastlen_header _ _ hpos hlast, newlen_header _ _ hpos hlast hnew]
  have hlength : (105 :: rest).length = 13 + t.length := by
    rw [heq]
    simp only [List.length_cons, List.length_append, hpos, hlast, hnew]
    omega
  rw [hlong, hlength] at hlen
  have htake : (t.take (ofBe lastbytes)).length = ofBe lastbytes :=
    List.length_take_of_le (by omega)
  have htake' : ((t.drop (ofBe lastbytes)).take (ofBe newbytes)).length = ofBe newbytes :=
    List.length_take_of_le (by rw [List.length_drop]; omega)
  refine ⟨⟨UInt32.ofNat (ofBe pos), t.take (ofBe lastbytes),
    (t.drop (ofBe lastbytes)).take (ofBe newbytes), by omega, by omega⟩, ?_⟩
  have hpos32 : (UInt32.ofNat (ofBe pos)).toNat = ofBe pos := by
    rw [UInt32.toNat_ofNat', Nat.mod_eq_of_lt hposlt]
  have hbehind : (105 :: rest).drop 13 = t := by
    rw [heq, List.drop_succ_cons, List.drop_left' (by simp [hpos, hlast, hnew])]
  have hdrop : (105 :: rest).drop (trueLen (105 :: rest)) =
      (t.drop (ofBe lastbytes)).drop (ofBe newbytes) := by
    rw [hlong, Nat.add_assoc, ← List.drop_drop, hbehind, List.drop_drop]
  have ht : t = t.take (ofBe lastbytes) ++ (t.drop (ofBe lastbytes)).take (ofBe newbytes) ++
      (t.drop (ofBe lastbytes)).drop (ofBe newbytes) := by
    rw [List.append_assoc, List.take_append_drop, List.take_append_drop]
  rw [Record.encode_append, hdrop]
  dsimp only
  rw [hpos32, htake, htake', hposeq, hlasteq, hneweq, ← ht]
  exact heq.trans (by rw [show c = 105 from (List.cons.inj heq).1.symm])

lemma Grammar.record_encode (r : Record) {rest : List UInt8} (h : Grammar true rest) :
    Grammar true (r.encode ++ rest) := by
  have hlen := r.trueLen_encode rest
  have hdrop : (r.encode ++ rest).drop (trueLen (r.encode ++ rest)) = rest := by
    rw [hlen, List.drop_left' r.length_encode]
  rw [r.encode_append] at hlen hdrop ⊢
  have hlength : (105 :: (be32 r.pos.toNat ++ be32 r.last.length ++ be32 r.now.length ++
      (r.last ++ r.now ++ rest))).length = r.size + rest.length := by
    rw [← r.encode_append, List.length_append, r.length_encode]
  refine .record ?_ ?_ ?_
  · rw [hlength, Record.size]
    omega
  · rw [hlen, hlength]
    omega
  · rw [hdrop]
    exact h

lemma Grammar.records (records : List Record) {rest : List UInt8} (h : Grammar true rest) :
    Grammar true (records.flatMap Record.encode ++ rest) := by
  induction records with
  | nil => exact h
  | cons r records ih =>
    rw [List.flatMap_cons, List.append_assoc]
    exact .record_encode r ih

lemma grammar_segments (opened : Bool) (segments : List Segment) :
    Grammar opened (segments.flatMap Segment.encode) := by
  induction segments generalizing opened with
  | nil => exact .done
  | cons s segments ih =>
    rw [List.flatMap_cons, Segment.encode, List.cons_append, List.append_assoc]
    refine .segment (by simp) ?_
    rw [List.drop_left' (length_be32 _)]
    exact .records s.records (ih true)

/-- What the grammar derives are records and segments. -/
lemma Grammar.split {opened : Bool} {rest : List UInt8} (h : Grammar opened rest) :
    ∃ (records : List Record) (segments : List Segment), (opened = false → records = []) ∧
      rest = records.flatMap Record.encode ++ segments.flatMap Segment.encode := by
  induction h with
  | done => exact ⟨[], [], fun _ => rfl, rfl⟩
  | @segment opened rest hid _ ih =>
    obtain ⟨records, segments, -, hrest⟩ := ih
    have htake : (rest.take 4).length = 4 := List.length_take_of_le hid
    obtain ⟨hlt, hbytes⟩ := exists_be32 htake
    have hid : be32 (UInt32.ofNat (ofBe (rest.take 4))).toNat = rest.take 4 := by
      rw [UInt32.toNat_ofNat', Nat.mod_eq_of_lt hlt, hbytes]
    refine ⟨[], ⟨UInt32.ofNat (ofBe (rest.take 4)), records⟩ :: segments, fun _ => rfl, ?_⟩
    rw [List.flatMap_nil, List.nil_append, List.flatMap_cons, Segment.encode, hid,
      List.cons_append, List.append_assoc, ← hrest, List.take_append_drop]
  | @record rest hheader hlen _ ih =>
    obtain ⟨records, segments, -, hrest⟩ := ih
    obtain ⟨r, hr⟩ := exists_record hheader hlen
    refine ⟨r :: records, segments, by simp, ?_⟩
    rw [List.flatMap_cons, List.append_assoc, ← hrest, ← hr]

/-- **The grammar** derives the sequences of segments. -/
theorem grammar_iff (payload : List UInt8) : Grammar false payload ↔ WellFormed payload := by
  constructor
  · intro h
    obtain ⟨records, segments, hnil, hpayload⟩ := h.split
    rw [hnil rfl] at hpayload
    exact ⟨segments, hpayload⟩
  · rintro ⟨segments, rfl⟩
    exact grammar_segments false segments

/-! ## Where the scan and the grammar differ -/

/-- The bytes are records of a segment and segments behind them, as the scan divides them: with the
lengths of records modulo `2 ^ 32`, each in place of a converted one. -/
def Wrapped (rest : List UInt8) : Prop :=
  ∃ region rest' segments, RecordRun rest region rest' ∧ Segmented rest' segments

/-- The bytes are records of a segment and segments behind them. -/
def Continued (rest : List UInt8) : Prop :=
  ∃ (records : List Record) (segments : List Segment),
    rest = records.flatMap Record.encode ++ segments.flatMap Segment.encode

/-- Payloads on which the scan and the grammar differ: along the segments and records of the
grammar the scan meets an id that is cut short by the end of the payload, or a record whose length
exceeds 32 bits. Such a record may be longer than what is left (`cut`), and still go on behind its
length modulo `2 ^ 32`. If it is all there, either only the bytes behind the length modulo `2 ^ 32`
or only those behind the record itself go on (`onlyWrapped`, `onlyWhole`). -/
inductive Misread : Bool → List UInt8 → Prop
  | truncated {opened : Bool} {id : List UInt8} (hne : id ≠ []) (hid : id.length < 4) :
      Misread opened (98 :: id)
  | segment {opened : Bool} {rest : List UInt8} (hid : 4 ≤ rest.length)
      (h : Misread true (rest.drop 4)) : Misread opened (98 :: rest)
  | record {rest : List UInt8} (hheader : 13 ≤ (105 :: rest).length)
      (hfits : trueLen (105 :: rest) < 2 ^ 32)
      (hlen : trueLen (105 :: rest) ≤ (105 :: rest).length)
      (h : Misread true ((105 :: rest).drop (trueLen (105 :: rest)))) : Misread true (105 :: rest)
  | cut {rest : List UInt8} (hheader : 13 ≤ (105 :: rest).length)
      (hlong : 2 ^ 32 ≤ trueLen (105 :: rest))
      (hcut : (105 :: rest).length < trueLen (105 :: rest))
      (hlen : recordLen (105 :: rest) ≤ (105 :: rest).length)
      (hwrapped : Wrapped ((swapped (105 :: rest)).drop (recordLen (105 :: rest)))) :
      Misread true (105 :: rest)
  | onlyWrapped {rest : List UInt8} (hlong : 2 ^ 32 ≤ trueLen (105 :: rest))
      (hlen : trueLen (105 :: rest) ≤ (105 :: rest).length)
      (hwrapped : Wrapped ((swapped (105 :: rest)).drop (recordLen (105 :: rest))))
      (hwhole : ¬ Continued ((105 :: rest).drop (trueLen (105 :: rest)))) :
      Misread true (105 :: rest)
  | onlyWhole {rest : List UInt8} (hlong : 2 ^ 32 ≤ trueLen (105 :: rest))
      (hlen : trueLen (105 :: rest) ≤ (105 :: rest).length)
      (hwrapped : ¬ Wrapped ((swapped (105 :: rest)).drop (recordLen (105 :: rest))))
      (hwhole : Continued ((105 :: rest).drop (trueLen (105 :: rest)))) :
      Misread true (105 :: rest)

/-- When every `open` succeeds, the number of calls made does not matter. -/
lemma Scannable.of_opens {opens opens' : ℕ → Bool} (hopens : ∀ k, opens' k = true) {calls : ℕ}
    {opened : Bool} {rest : List UInt8} (h : Scannable opens calls opened rest) (calls' : ℕ) :
    Scannable opens' calls' opened rest := by
  induction h generalizing calls' with
  | done => exact .done
  | segment hne _ _ ih => exact .segment hne (hopens _) (ih _)
  | record hheader hlen _ ih => exact .record hheader hlen (ih _)

/-- Records in front of what is scannable are scannable. -/
lemma RecordRun.scannable {rest region rest' : List UInt8} (h : RecordRun rest region rest')
    (hrest : Scannable (fun _ => true) 0 true rest') : Scannable (fun _ => true) 0 true rest := by
  induction h with
  | done => exact hrest
  | record hheader hlen _ ih => exact .record hheader hlen (ih hrest)

/-- A sequence of segments is scannable. -/
lemma Segmented.scannable {rest : List UInt8} {segments : List SegmentBytes}
    (h : Segmented rest segments) (opened : Bool) : Scannable (fun _ => true) 0 opened rest := by
  induction h generalizing opened with
  | done => exact .done
  | segment hne hrecords _ ih =>
    exact .segment hne rfl ((hrecords.scannable (ih true)).of_opens (fun _ => rfl) _)

/-- What is scannable is divided into records and segments. -/
lemma Scannable.wrapped {opens : ℕ → Bool} {calls : ℕ} {opened : Bool} {rest : List UInt8}
    (h : Scannable opens calls opened rest) : Wrapped rest := by
  induction h with
  | done => exact ⟨[], [], [], .done, .done⟩
  | segment hne _ _ ih =>
    obtain ⟨region, rest', segments, hrecords, hsegments⟩ := ih
    exact ⟨[], _, _, .done, .segment hne hrecords hsegments⟩
  | record hheader hlen _ ih =>
    obtain ⟨region, rest', segments, hrecords, hsegments⟩ := ih
    exact ⟨_, rest', segments, .record hheader hlen hrecords, hsegments⟩

/-- **The scan of a started segment** goes to the end exactly when the bytes are divided. -/
theorem scannable_true_iff (rest : List UInt8) :
    Scannable (fun _ => true) 0 true rest ↔ Wrapped rest := by
  refine ⟨Scannable.wrapped, ?_⟩
  rintro ⟨region, rest', segments, hrecords, hsegments⟩
  exact hrecords.scannable (hsegments.scannable true)

/-- What the grammar derives behind a started segment. -/
lemma grammar_true_iff (rest : List UInt8) : Grammar true rest ↔ Continued rest := by
  constructor
  · intro h
    obtain ⟨records, segments, -, hrest⟩ := h.split
    exact ⟨records, segments, hrest⟩
  · rintro ⟨records, segments, rfl⟩
    exact .records records (grammar_segments true segments)

section Inversion

variable {opened : Bool} {rest : List UInt8}

lemma scannable_segment_iff : Scannable (fun _ => true) 0 opened (98 :: rest) ↔
    rest ≠ [] ∧ Scannable (fun _ => true) 0 true (rest.drop 4) := by
  constructor
  · intro h
    cases h with
    | segment hne _ h => exact ⟨hne, h.of_opens (fun _ => rfl) 0⟩
  · rintro ⟨hne, h⟩
    exact .segment hne rfl (h.of_opens (fun _ => rfl) _)

lemma scannable_record_iff : Scannable (fun _ => true) 0 opened (105 :: rest) ↔
    opened = true ∧ 13 ≤ (105 :: rest).length ∧ recordLen (105 :: rest) ≤ (105 :: rest).length ∧
      Scannable (fun _ => true) 0 true
        ((swapped (105 :: rest)).drop (recordLen (105 :: rest))) := by
  constructor
  · intro h
    cases h with
    | record hheader hlen h => exact ⟨rfl, hheader, hlen, h⟩
  · rintro ⟨rfl, hheader, hlen, h⟩
    exact .record hheader hlen h

lemma grammar_segment_iff :
    Grammar opened (98 :: rest) ↔ 4 ≤ rest.length ∧ Grammar true (rest.drop 4) := by
  constructor
  · intro h
    cases h with
    | segment hid h => exact ⟨hid, h⟩
  · rintro ⟨hid, h⟩
    exact .segment hid h

lemma grammar_record_iff : Grammar opened (105 :: rest) ↔
    opened = true ∧ 13 ≤ (105 :: rest).length ∧ trueLen (105 :: rest) ≤ (105 :: rest).length ∧
      Grammar true ((105 :: rest).drop (trueLen (105 :: rest))) := by
  constructor
  · intro h
    cases h with
    | record hheader hlen h => exact ⟨rfl, hheader, hlen, h⟩
  · rintro ⟨rfl, hheader, hlen, h⟩
    exact .record hheader hlen h

lemma misread_segment_iff : Misread opened (98 :: rest) ↔
    rest ≠ [] ∧ rest.length < 4 ∨ 4 ≤ rest.length ∧ Misread true (rest.drop 4) := by
  constructor
  · intro h
    cases h with
    | truncated hne hid => exact .inl ⟨hne, hid⟩
    | segment hid h => exact .inr ⟨hid, h⟩
  · rintro (⟨hne, hid⟩ | ⟨hid, h⟩)
    · exact .truncated hne hid
    · exact .segment hid h

lemma misread_record_iff (hfits : trueLen (105 :: rest) < 2 ^ 32) :
    Misread opened (105 :: rest) ↔ opened = true ∧ 13 ≤ (105 :: rest).length ∧
      trueLen (105 :: rest) ≤ (105 :: rest).length ∧
      Misread true ((105 :: rest).drop (trueLen (105 :: rest))) := by
  constructor
  · intro h
    cases h with
    | record hheader _ hlen h => exact ⟨rfl, hheader, hlen, h⟩
    | cut _ hlong | onlyWrapped hlong | onlyWhole hlong =>
      exact absurd hfits (not_lt.mpr hlong)
  · rintro ⟨rfl, hheader, hlen, h⟩
    exact .record hheader hfits hlen h

lemma misread_overflow_iff (hlong : 2 ^ 32 ≤ trueLen (105 :: rest)) :
    Misread opened (105 :: rest) ↔ opened = true ∧ 13 ≤ (105 :: rest).length ∧
      ¬ ((recordLen (105 :: rest) ≤ (105 :: rest).length ∧
          Wrapped ((swapped (105 :: rest)).drop (recordLen (105 :: rest)))) ↔
        (trueLen (105 :: rest) ≤ (105 :: rest).length ∧
          Continued ((105 :: rest).drop (trueLen (105 :: rest))))) := by
  have hheader (hlen : trueLen (105 :: rest) ≤ (105 :: rest).length) :
      13 ≤ (105 :: rest).length := by
    refine le_trans ?_ hlen
    rw [trueLen]
    omega
  have hrecord (hlen : trueLen (105 :: rest) ≤ (105 :: rest).length) :
      recordLen (105 :: rest) ≤ (105 :: rest).length := (Nat.mod_le _ _).trans hlen
  constructor
  · intro h
    cases h with
    | record _ hfits _ _ => exact absurd hfits (not_lt.mpr hlong)
    | cut hheader _ hcut hlen hwrapped =>
      exact ⟨rfl, hheader, fun h => absurd (h.mp ⟨hlen, hwrapped⟩).1 (not_le.mpr hcut)⟩
    | onlyWrapped _ hlen hwrapped hwhole =>
      exact ⟨rfl, hheader hlen, fun h => hwhole (h.mp ⟨hrecord hlen, hwrapped⟩).2⟩
    | onlyWhole _ hlen hwrapped hwhole =>
      exact ⟨rfl, hheader hlen, fun h => hwrapped (h.mpr ⟨hlen, hwhole⟩).2⟩
  · rintro ⟨rfl, hheader, hdiffer⟩
    by_cases hlen : trueLen (105 :: rest) ≤ (105 :: rest).length
    · simp only [hlen, hrecord hlen, true_and] at hdiffer
      by_cases hwrapped : Wrapped ((swapped (105 :: rest)).drop (recordLen (105 :: rest)))
      · exact .onlyWrapped hlong hlen hwrapped fun hwhole =>
          hdiffer (iff_of_true hwrapped hwhole)
      · exact .onlyWhole hlong hlen hwrapped (by_contra fun hwhole =>
          hdiffer (iff_of_false hwrapped hwhole))
    · simp only [hlen, false_and, iff_false, not_not] at hdiffer
      exact .cut hheader hlong (not_le.mp hlen) hdiffer.1 hdiffer.2

/-- A record whose length fits into 32 bits is skipped by the scan as by the grammar. -/
lemma drop_swapped (hheader : 13 ≤ rest.length) (hfits : trueLen rest < 2 ^ 32) :
    recordLen rest = trueLen rest ∧
      (swapped rest).drop (recordLen rest) = rest.drop (trueLen rest) := by
  have hlen : recordLen rest = trueLen rest := Nat.mod_eq_of_lt hfits
  refine ⟨hlen, ?_⟩
  obtain ⟨k, hk⟩ : ∃ k, trueLen rest = 13 + k := ⟨lastlen rest + newlen rest, by
    rw [trueLen]; omega⟩
  obtain ⟨c, pos, lastbytes, newbytes, t, rfl, hpos, hlast, hnew⟩ := exists_header hheader
  rw [hlen, hk, swapped_header c t hpos hlast hnew, ← List.drop_drop, ← List.drop_drop,
    List.drop_succ_cons, List.drop_succ_cons, List.drop_left' (by simp [hpos, hlast, hnew]),
    List.drop_left' (by simp [hpos, hlast, hnew])]

end Inversion

/-- `Misread` tells whether the scan and the grammar differ on `rest`. -/
def ToldApart (opened : Bool) (rest : List UInt8) : Prop :=
  (Scannable (fun _ => true) 0 opened rest ↔ Grammar opened rest) ↔ ¬ Misread opened rest

section Cases

variable {opened : Bool} {rest : List UInt8}

/-- A segment header: only the scan goes on at an id that is cut short. -/
lemma toldApart_segment (h : 4 ≤ rest.length → ToldApart true (rest.drop 4)) :
    ToldApart opened (98 :: rest) := by
  rw [ToldApart, scannable_segment_iff, grammar_segment_iff, misread_segment_iff]
  by_cases hid : 4 ≤ rest.length
  · have hne : rest ≠ [] := by
      rintro rfl
      exact absurd hid (by decide)
    simp only [hne, hid, ne_eq, not_false_eq_true, true_and, not_lt.mpr hid, and_false, false_or]
    exact h hid
  · have hnil : rest.drop 4 = [] := List.drop_eq_nil_of_le (by omega)
    have hdone : Scannable (fun _ => true) 0 true (rest.drop 4) := hnil ▸ .done
    simp only [hdone, hid, and_true, false_and, iff_false, or_false, not_le.mp hid]

/-- A record: one whose length fits into 32 bits is skipped alike, and a longer one is misread when
one of the two goes on and the other does not. -/
lemma toldApart_record (h : ToldApart true ((105 :: rest).drop (trueLen (105 :: rest)))) :
    ToldApart opened (105 :: rest) := by
  rw [ToldApart, scannable_record_iff, grammar_record_iff]
  by_cases hheader : 13 ≤ (105 :: rest).length
  · by_cases hfits : trueLen (105 :: rest) < 2 ^ 32
    · obtain ⟨hlen, hdrop⟩ := drop_swapped hheader hfits
      rw [misread_record_iff hfits, hdrop, hlen]
      by_cases hin : opened = true ∧ trueLen (105 :: rest) ≤ (105 :: rest).length
      · simp only [hin, hheader, true_and]
        exact h
      · have hfalse (p : Prop) : ¬ (opened = true ∧ 13 ≤ (105 :: rest).length ∧
            trueLen (105 :: rest) ≤ (105 :: rest).length ∧ p) :=
          fun ⟨ho, _, hle, _⟩ => hin ⟨ho, hle⟩
        exact iff_of_true (iff_of_false (hfalse _) (hfalse _)) (hfalse _)
    · rw [misread_overflow_iff (not_lt.mp hfits), ← scannable_true_iff, ← grammar_true_iff]
      cases opened <;> simp only [hheader, true_and, not_not, Bool.false_eq_true, false_and,
        not_false_eq_true]
  · have hfalse (p : Prop) : ¬ (opened = true ∧ 13 ≤ (105 :: rest).length ∧ p) :=
      fun ⟨_, hle, _⟩ => hheader hle
    have hmisread : ¬ Misread opened (105 :: rest) := by
      intro h
      cases h with
      | record hle | cut hle => exact hheader hle
      | onlyWrapped _ hlen | onlyWhole _ hlen =>
        rw [trueLen] at hlen
        omega
    exact iff_of_true (iff_of_false (hfalse _) (hfalse _)) hmisread

/-- Any other opcode is rejected by both. -/
lemma toldApart_opcode {c : UInt8} (hb : c ≠ 98) (hi : c ≠ 105) :
    ToldApart opened (c :: rest) := by
  have hscan : ¬ Scannable (fun _ => true) 0 opened (c :: rest) := by
    intro h
    cases h with
    | segment => exact hb rfl
    | record => exact hi rfl
  have hgrammar : ¬ Grammar opened (c :: rest) := by
    intro h
    cases h with
    | segment => exact hb rfl
    | record => exact hi rfl
  have hmisread : ¬ Misread opened (c :: rest) := by
    intro h
    cases h with
    | truncated | segment => exact hb rfl
    | record | cut | onlyWrapped | onlyWhole => exact hi rfl
  exact iff_of_true (iff_of_false hscan hgrammar) hmisread

end Cases

/-- **The difference.** The scan decides the grammar exactly outside the misread payloads.

**Proof sketch.** By induction on the length of what is left, which a segment header and a record
make shorter. -/
theorem scannable_iff_grammar_iff (opened : Bool) (rest : List UInt8) :
    (Scannable (fun _ => true) 0 opened rest ↔ Grammar opened rest) ↔ ¬ Misread opened rest := by
  induction hn : rest.length using Nat.strong_induction_on generalizing opened rest with
  | _ n ih =>
    subst hn
    match rest, ih with
    | [], _ =>
      have hmisread : ¬ Misread opened [] := by rintro ⟨⟩
      exact iff_of_true (iff_of_true .done .done) hmisread
    | c :: rest, ih =>
      by_cases hb : c = 98
      · subst hb
        refine toldApart_segment fun _ => ih _ ?_ true (rest.drop 4) rfl
        rw [List.length_drop, List.length_cons]
        omega
      by_cases hi : c = 105
      · subst hi
        refine toldApart_record (ih _ ?_ true ((105 :: rest).drop (trueLen (105 :: rest))) rfl)
        rw [List.length_drop, List.length_cons, trueLen]
        omega
      · exact toldApart_opcode hb hi

/-! ## The handler -/

/-- **The upload handler decides the grammar exactly on the payloads that are not misread**, when
every `open` succeeds. -/
theorem feed_accepts_iff {env : SystemCalls} (hopens : ∀ k, env.opens k = true) (mem : Memory)
    (payload : Bytes) (dir : Directory) :
    (∃ status f, httpCallbackFeed env mem payload dir = some (status, f) ∧
        (status = .ok ↔ WellFormed (mem.read payload)) ∧
        (status = .badRequest ↔ ¬ WellFormed (mem.read payload))) ↔
      ¬ Misread false (mem.read payload) := by
  obtain ⟨status, f, hfeed, hscan⟩ := httpCallbackFeed_spec env mem payload dir
  obtain ⟨hok, hbad⟩ := leaves_status hscan
  have hcalls : Scannable env.opens 0 false (mem.read payload) ↔
      Scannable (fun _ => true) 0 false (mem.read payload) :=
    ⟨fun h => h.of_opens (fun _ => rfl) 0, fun h => h.of_opens hopens 0⟩
  rw [← scannable_iff_grammar_iff, ← hcalls, grammar_iff]
  constructor
  · rintro ⟨status', f', hfeed', hok', -⟩
    obtain ⟨rfl, rfl⟩ := Prod.mk.inj (Option.some.inj (hfeed.symm.trans hfeed'))
    exact hok.symm.trans hok'
  · intro h
    exact ⟨status, f, hfeed, hok.trans h, hbad.trans (not_congr h)⟩

/-- One segment for branch 5, with one record that inserts a letter. -/
theorem feed_accepts_iff_record :
    ∃ status f, httpCallbackFeed ⟨fun _ => true, fun _ n => n⟩
        (fun x => [98, 0, 0, 0, 5, 105, 0, 0, 0, 0, 0, 0, 0, 0, 0, 0, 0, 1, 97].getD x 0) ⟨0, 19⟩
        (fun _ => none) = some (status, f) ∧
      (status = .ok ↔
        WellFormed [98, 0, 0, 0, 5, 105, 0, 0, 0, 0, 0, 0, 0, 0, 0, 0, 0, 1, 97]) ∧
      (status = .badRequest ↔
        ¬ WellFormed [98, 0, 0, 0, 5, 105, 0, 0, 0, 0, 0, 0, 0, 0, 0, 0, 0, 1, 97]) := by
  have hread : ¬ Misread false [98, 0, 0, 0, 5, 105, 0, 0, 0, 0, 0, 0, 0, 0, 0, 0, 0, 1, 97] := by
    rw [misread_segment_iff]
    rintro (⟨-, hid⟩ | ⟨-, h⟩)
    · exact absurd hid (by decide)
    · rw [List.drop_succ_cons, List.drop_succ_cons, List.drop_succ_cons, List.drop_succ_cons,
        List.drop_zero, misread_record_iff (by decide)] at h
      have hend : ¬ Misread true [] := by rintro ⟨⟩
      exact hend h.2.2.2
  exact (feed_accepts_iff (fun _ => rfl) _ ⟨0, 19⟩ _).mpr hread

/-- An id of one byte, at the end of the payload, is accepted. -/
theorem feed_accepts_truncated :
    ¬ ∃ status f, httpCallbackFeed ⟨fun _ => true, fun _ n => n⟩
        (fun x => [98, 1].getD x 0) ⟨0, 2⟩ (fun _ => none) = some (status, f) ∧
        (status = .ok ↔ WellFormed [98, 1]) ∧ (status = .badRequest ↔ ¬ WellFormed [98, 1]) := by
  rintro ⟨status, f, hfeed, hok, -⟩
  have hstatus : status = .ok := by
    have h : ((httpCallbackFeed ⟨fun _ => true, fun _ n => n⟩ (fun x => [98, 1].getD x 0) ⟨0, 2⟩
        fun _ => none).map Prod.fst) = some .ok := by rfl
    rw [hfeed] at h
    exact Option.some.inj h
  have hgrammar := (grammar_iff _).mpr (hok.mp hstatus)
  rw [grammar_segment_iff] at hgrammar
  exact absurd hgrammar.1 (by decide)

end SleepyText.Server
