import SleepyText.Server.FeedTrace
import SleepyText.Server.BranchLog

set_option relaxedAutoImplicit false
set_option autoImplicit false

/-!
# The segments of an accepted upload

Where the upload handler puts the records of a payload that it accepts. The segments of a payload
are read off its bytes, one record at a time, with the lengths as the handler converts and adds
them; the handler appends the region of each segment to the file of its id. A header with less
than four bytes of an id, at the end of the payload, names a file by bytes behind the payload.

## Main definitions

* `Routes` — every file receives the regions of the segments that carry its id, and no other file
  changes.
* `NamesBeyond` — a header that is cut short names a file which is not there.

## Main results

* `Segmented.unique` — a payload has one sequence of segments.
* `Leaves.segmented`, `Leaves.buffer` — the files and the buffer behind an accepted payload.
* `feed_routes_iff` — an accepted payload is routed exactly when no such file is named.
* `feed_opens_beyond` — a payload that names one.
-/

namespace SleepyText.Server

open Word

/-! ## The segments of a payload -/

/-- The file that the handler opens for a segment; behind the payload stand the bytes `beyond`. -/
def SegmentBytes.path (beyond : List UInt8) (s : SegmentBytes) : Path := segmentPath beyond s.id

/-- Segments do not start with a record. -/
lemma not_segmented_record {rest : List UInt8} {segments : List SegmentBytes} :
    ¬ Segmented (105 :: rest) segments := by
  rintro ⟨⟩

/-- Records are read up to the next segment in one way. -/
lemma RecordRun.unique {rest region rest' region₂ rest₂ : List UInt8}
    {segments segments₂ : List SegmentBytes} (h : RecordRun rest region rest')
    (hsegments : Segmented rest' segments) (h₂ : RecordRun rest region₂ rest₂)
    (hsegments₂ : Segmented rest₂ segments₂) : region = region₂ ∧ rest' = rest₂ := by
  induction h generalizing region₂ with
  | done =>
    cases h₂ with
    | done => exact ⟨rfl, rfl⟩
    | record => exact absurd hsegments not_segmented_record
  | record _ _ _ ih =>
    cases h₂ with
    | done => exact absurd hsegments₂ not_segmented_record
    | record _ _ h₂ =>
      obtain ⟨rfl, rfl⟩ := ih hsegments h₂
      exact ⟨rfl, rfl⟩

/-- **A payload has one sequence of segments.** -/
theorem Segmented.unique {rest : List UInt8} {segments segments₂ : List SegmentBytes}
    (h : Segmented rest segments) (h₂ : Segmented rest segments₂) : segments = segments₂ := by
  induction h generalizing segments₂ with
  | done =>
    cases h₂
    rfl
  | segment _ hrecords h ih =>
    cases h₂ with
    | segment _ hrecords₂ h₂ =>
      obtain ⟨rfl, rfl⟩ := hrecords.unique h hrecords₂ h₂
      rw [ih h₂]

/-- A segment whose id is cut short is the last one, and has no records. -/
lemma Segmented.cut {rest : List UInt8} {segments : List SegmentBytes}
    (h : Segmented rest segments) :
    ∀ s ∈ segments, s.id.length = 4 ∨ s.id.length < 4 ∧ s.region = [] := by
  induction h with
  | done => simp
  | @segment rest region rest' segments hne hrecords h ih =>
    rw [List.forall_mem_cons]
    refine ⟨?_, ih⟩
    dsimp only
    rw [List.length_take]
    by_cases hid : 4 ≤ rest.length
    · exact .inl (by omega)
    · rw [List.drop_eq_nil_of_le (by omega)] at hrecords
      refine .inr ⟨by omega, ?_⟩
      cases hrecords
      rfl

/-! ## Where the scan puts them -/

variable {env : SystemCalls} {beyond : List UInt8}

/-- Append bytes to a file, if there is one to append to. -/
def Directory.commit (dir : Directory) (file : Option Path) (bs : List UInt8) : Directory :=
  match file with
  | none => dir
  | some path => dir.append path bs

/-- Append the region of every segment to its file. -/
def route (beyond : List UInt8) (dir : Directory) (segments : List SegmentBytes) : Directory :=
  segments.foldl (fun dir s => dir.append (s.path beyond) s.region) dir

lemma Directory.append_create (dir : Directory) (path : Path) (bs : List UInt8) :
    (dir.create path).append path bs = dir.append path bs := by
  rw [append, content_create, create, append, append, Function.update_idem]

/-- What the scan writes when the system calls work. -/
lemma write_of_works (hworks : env.Works) (s : Scan) :
    (s.write env).dir = s.dir.commit s.file s.region := by
  rw [Scan.write, List.take_of_length_le (hworks.writes _ _)]
  rfl

lemma committed_of_works (hworks : env.Works) (s : Scan) :
    (s.committed env).dir = s.dir.commit s.file s.region := by
  unfold Scan.committed
  cases hfile : s.file with
  | none => rfl
  | some path => rw [← hfile, ← write_of_works hworks, hfile, Option.isSome_some, if_pos rfl]

/-- The file of a segment depends on the first four bytes behind the opcode. -/
lemma segmentPath_take (rest : List UInt8) :
    segmentPath beyond rest = segmentPath beyond (rest.take 4) := by
  have htake : (rest ++ beyond).take 4 = (rest.take 4 ++ beyond).take 4 := by
    rw [List.take_append, List.take_append, List.take_take, List.length_take, Nat.min_self,
      show 4 - min 4 rest.length = 4 - rest.length by omega]
  rw [segmentPath, segmentPath, htake]

/-- **The files behind an accepted payload**: the records in front are committed with the region,
and the segments behind them are routed.

**Proof sketch.** By induction on the turns of the scan. A record is the first of those in front; a
header commits the region and starts the first of the segments behind. -/
theorem Leaves.segmented (hworks : env.Works) {s : Scan} {dir : Directory}
    (h : Loop.Leaves (scanBody env beyond) s (.ok, dir)) :
    ∃ region rest segments, RecordRun s.rest region rest ∧ Segmented rest segments ∧
      (s.file = none → region = [] ∧ rest = s.rest) ∧
      dir = route beyond (s.dir.commit s.file (s.region ++ region)) segments := by
  generalize hr : (HttpResult.ok, dir) = r at h
  induction h with
  | @leave s r hbody =>
    have hturn := scanBody_turn env beyond s
    rw [hbody, ← hr] at hturn
    cases hturn with
    | done hrest =>
      refine ⟨[], [], [], by rw [hrest]; exact .done, .done, fun _ => ⟨rfl, hrest.symm⟩, ?_⟩
      rw [write_of_works hworks, List.append_nil]
      rfl
  | @turn s t r hbody _ ih =>
    have hturn := scanBody_turn env beyond s
    rw [hbody] at hturn
    obtain ⟨region, rest, segments, hrecords, hsegments, hnone, hdir⟩ := ih hr
    cases hturn with
    | @segment behind hrest hne hopen =>
      refine ⟨[], s.rest, ⟨behind.take 4, region⟩ :: segments, .done, ?_, fun _ => ⟨rfl, rfl⟩, ?_⟩
      · rw [hrest]
        exact .segment hne hrecords hsegments
      · dsimp only [Directory.commit] at hdir
        rw [hdir, List.append_nil, List.nil_append, Directory.append_create,
          committed_of_works hworks, segmentPath_take]
        rfl
    | @record behind hrest hfile hheader hlen =>
      rw [hrest] at hheader hlen hrecords hdir ⊢
      refine ⟨_, rest, segments, .record hheader hlen hrecords, hsegments, ?_, ?_⟩
      · intro hnofile
        rw [hnofile] at hfile
        exact absurd hfile (by decide)
      · rw [hdir, List.append_assoc]

/-! ## What is left in the buffer -/

/-- The end of the handler. -/
lemma feedBody_ok {f g : FeedState} (h : feedBody env f = .inr (.ok, g)) :
    f.p.len = 0 ∧ g.mem = f.mem := by
  unfold feedBody at h
  split_ifs at h with hpos
  · unfold feedSegment at h
    dsimp only at h
    split_ifs at h <;> simp at h
  · unfold feedRecord at h
    dsimp only at h
    split_ifs at h <;> simp at h
  · simp at h
  · obtain rfl : f.write env = g := congrArg Prod.snd (Sum.inr.inj h)
    exact ⟨by omega, rfl⟩

/-- A turn writes to what is left of the payload only. -/
lemma FeedState.Moves.frame {f g : FeedState} (h : f.Moves g) {b : Bytes}
    (hb : b.asVoid + b.len ≤ f.p.asVoid ∨ f.p.asVoid + f.p.len ≤ b.asVoid) :
    g.mem.read b = f.mem.read b ∧
      (b.asVoid + b.len ≤ g.p.asVoid ∨ g.p.asVoid + g.p.len ≤ b.asVoid) := by
  cases h with
  | segment hopcode hid hmem hp =>
    refine ⟨by rw [hmem], ?_⟩
    rw [hp, bslice_zero]
    split_ifs <;> dsimp only <;> omega
  | record hopcode hheader hlen hmem hp =>
    refine ⟨?_, ?_⟩
    · rw [hmem, read_convert_of_disjoint _ _ (by omega)]
    · rw [hp, bslice_zero]
      split_ifs <;> dsimp only <;> omega

/-- The handler writes to what is left of the payload only. -/
lemma Leaves.frame {f : FeedState} {r : HttpResult × FeedState}
    (h : Loop.Leaves (feedBody env) f r) (hok : r.1 = .ok) {b : Bytes}
    (hb : b.asVoid + b.len ≤ f.p.asVoid ∨ f.p.asVoid + f.p.len ≤ b.asVoid) :
    r.2.mem.read b = f.mem.read b := by
  induction h with
  | @leave f r hbody =>
    obtain ⟨status, g⟩ := r
    obtain rfl : status = .ok := hok
    rw [(feedBody_ok hbody).2]
  | turn hbody _ ih =>
    obtain ⟨hread, hb'⟩ := (moves_of_feedBody hbody).frame hb
    rw [ih hok hb', hread]

/-- What is in the buffer behind a turn is what the turn consumed and what is in the rest. -/
lemma read_behind {f g : FeedState} {r : HttpResult × FeedState} {n : ℕ}
    (hp : g.p = bslice f.p n 0) (h : Loop.Leaves (feedBody env) g r) (hok : r.1 = .ok) :
    r.2.mem.read f.p = (g.mem.read f.p).take n ++ r.2.mem.read g.p := by
  rw [bslice_zero] at hp
  split_ifs at hp with hend
  · rw [List.take_of_length_le (by rw [Memory.length_read]; exact hend), hp, Memory.read_zero,
      List.append_nil]
    exact Leaves.frame h hok (by rw [hp]; exact .inr (Nat.le_refl _))
  · have hn : n ≤ f.p.len := by omega
    have htake : (g.mem.read f.p).take n = g.mem.read ⟨f.p.asVoid, n⟩ := Memory.take_read hn
    have hsplit : r.2.mem.read f.p = r.2.mem.read ⟨f.p.asVoid, n + (f.p.len - n)⟩ := by
      rw [Nat.add_sub_cancel' hn]
    have hfront : r.2.mem.read ⟨f.p.asVoid, n⟩ = g.mem.read ⟨f.p.asVoid, n⟩ :=
      Leaves.frame h hok (by rw [hp]; exact .inl (Nat.le_refl _))
    rw [hsplit, Memory.read_add, htake, hfront, hp]

/-- **The buffer behind an accepted payload** holds the records in front and the segments behind
them. -/
theorem Leaves.buffer {f : FeedState} {r : HttpResult × FeedState}
    (h : Loop.Leaves (feedBody env) f r) (hok : r.1 = .ok) :
    ∃ region rest segments, RecordRun (f.mem.read f.p) region rest ∧ Segmented rest segments ∧
      r.2.mem.read f.p = region ++ segments.flatMap SegmentBytes.encode := by
  induction h with
  | @leave f r hbody =>
    obtain ⟨status, g⟩ := r
    obtain rfl : status = .ok := hok
    have hnil (m : Memory) : m.read f.p = [] :=
      List.eq_nil_of_length_eq_zero (by rw [Memory.length_read, (feedBody_ok hbody).1])
    exact ⟨[], [], [], by rw [hnil]; exact .done, .done, hnil _⟩
  | @turn f g r hbody hleaves ih =>
    obtain ⟨region, rest, segments, hrecords, hsegments, hbuffer⟩ := ih hok
    cases moves_of_feedBody hbody with
    | segment hopcode hid hmem hp =>
      obtain ⟨n, hn⟩ : ∃ n, f.p.len = n + 2 := ⟨f.p.len - 2, by omega⟩
      have hread : f.mem.read f.p = 98 :: f.mem.read ⟨f.p.asVoid + 1, n + 1⟩ := by
        rw [Memory.read_cons hn, hopcode]
      rw [hmem, hp, read_bslice_zero, hread, List.drop_succ_cons] at hrecords
      refine ⟨[], f.mem.read f.p,
        ⟨(f.mem.read ⟨f.p.asVoid + 1, n + 1⟩).take 4, region⟩ :: segments, .done, ?_, ?_⟩
      · rw [hread]
        exact .segment (by rw [Memory.read_succ]; exact List.cons_ne_nil _ _) hrecords hsegments
      · rw [read_behind hp hleaves hok, hmem, hread, hbuffer, List.take_succ_cons]
        simp [SegmentBytes.encode]
    | record hopcode hheader hlen hmem hp =>
      have hread : g.mem.read f.p = swapped (f.mem.read f.p) := by
        rw [hmem]
        exact read_convert f.mem f.p.asVoid (n := f.p.len) hheader
      obtain ⟨n, hn⟩ : ∃ n, f.p.len = n + 1 := ⟨f.p.len - 1, by omega⟩
      have hcons : f.mem.read f.p = 105 :: f.mem.read ⟨f.p.asVoid + 1, n⟩ := by
        rw [Memory.read_cons hn, hopcode]
      have hlength : (f.mem.read f.p).length = f.p.len := Memory.length_read _
      rw [read_behind hp hleaves hok, hread, hbuffer, ← List.append_assoc]
      rw [hp, read_bslice_zero, hread] at hrecords
      rw [hcons] at hlength hlen hrecords ⊢
      exact ⟨_, rest, segments, .record (by omega) (by omega) hrecords, hsegments, rfl⟩

/-! ## The files of the segments -/

/-- The bytes of an id are those of the number. -/
def SegmentBytes.Carries (id : UInt32) (s : SegmentBytes) : Prop := s.id = be32 id.toNat

instance (id : UInt32) : DecidablePred (SegmentBytes.Carries id) :=
  fun s => inferInstanceAs (Decidable (s.id = be32 id.toNat))

/-- **The routing of a payload with the given segments**: behind the call the buffer holds the
segments one behind the other, the file of every id has received the regions of the segments that
carry the id, in order, and the other files are as they were. -/
structure Routes (mem : Memory) (payload : Bytes) (dir : Directory) (segments : List SegmentBytes)
    (f : FeedState) : Prop where
  buffer : f.mem.read payload = segments.flatMap SegmentBytes.encode
  appended : ∀ id : UInt32, f.dir.content (branchFile id) = dir.content (branchFile id) ++
    (segments.filter (SegmentBytes.Carries id)).flatMap SegmentBytes.region
  others : ∀ path, (∀ s ∈ segments, ∀ id, s.Carries id → path ≠ branchFile id) →
    f.dir path = dir path

/-- A segment whose id is cut short names a file that is not there and that no other segment has:
the missing bytes of the id are taken from those behind the payload. -/
def NamesBeyond (beyond : List UInt8) (dir : Directory) (segments : List SegmentBytes) : Prop :=
  ∃ s ∈ segments, s.id.length < 4 ∧ dir (s.path beyond) = none ∧
    ∀ t ∈ segments, t.id.length = 4 → t.path beyond ≠ s.path beyond

lemma content_route (dir : Directory) (segments : List SegmentBytes) (path : Path) :
    (route beyond dir segments).content path = dir.content path ++
      (segments.filter fun s => s.path beyond = path).flatMap SegmentBytes.region := by
  induction segments generalizing dir with
  | nil => simp [route]
  | cons s segments ih =>
    have hih := ih (dir.append (s.path beyond) s.region)
    rw [Directory.content_append, List.append_assoc] at hih
    apply hih.trans
    by_cases h : s.path beyond = path
    · simp [h]
    · simp [h, Ne.symm h]

/-- Which files are there behind a routing. -/
lemma route_of_forall_ne (dir : Directory) {segments : List SegmentBytes} {path : Path}
    (h : ∀ s ∈ segments, s.path beyond ≠ path) : route beyond dir segments path = dir path := by
  induction segments generalizing dir with
  | nil => rfl
  | cons s segments ih =>
    rw [List.forall_mem_cons] at h
    apply (ih (dir.append (s.path beyond) s.region) h.2).trans
    exact Function.update_of_ne (Ne.symm h.1) _ _

lemma route_isSome (dir : Directory) {segments : List SegmentBytes} {path : Path}
    (h : (dir path).isSome ∨ ∃ s ∈ segments, s.path beyond = path) :
    (route beyond dir segments path).isSome := by
  induction segments generalizing dir with
  | nil => simpa [route] using h
  | cons s segments ih =>
    apply ih (dir.append (s.path beyond) s.region)
    by_cases hs : s.path beyond = path
    · subst hs
      simp [Directory.append]
    · rw [Directory.append_of_ne _ (Ne.symm hs)]
      rcases h with h | ⟨t, ht, hpath⟩
      · exact .inl h
      · rcases List.mem_cons.mp ht with rfl | ht
        · exact absurd hpath hs
        · exact .inr ⟨t, ht, hpath⟩

/-- Four bytes are the bytes of an id. -/
lemma exists_carries {s : SegmentBytes} (h : s.id.length = 4) : ∃ id, s.Carries id := by
  obtain ⟨hlt, hbytes⟩ := exists_be32 h
  refine ⟨UInt32.ofNat (ofBe s.id), ?_⟩
  rw [SegmentBytes.Carries, UInt32.toNat_ofNat', Nat.mod_eq_of_lt hlt, hbytes]

lemma SegmentBytes.Carries.length {id : UInt32} {s : SegmentBytes} (h : s.Carries id) :
    s.id.length = 4 := by
  rw [h, length_be32]

/-- The file of a segment that carries an id. -/
lemma SegmentBytes.Carries.path {id : UInt32} {s : SegmentBytes} (h : s.Carries id) :
    s.path beyond = branchFile id := by
  have hpath := @segmentPath_encode beyond id []
  rwa [List.append_nil, ← h] at hpath

/-- A segment with a whole id carries the id of its file. -/
lemma carries_iff {id : UInt32} {s : SegmentBytes} (h : s.id.length = 4) :
    s.Carries id ↔ s.path beyond = branchFile id := by
  refine ⟨fun hid => hid.path, fun hpath => ?_⟩
  obtain ⟨id', hid'⟩ := exists_carries h
  have hfile : branchFile id' = branchFile id := by
    rw [← hpath, ← @SegmentBytes.Carries.path beyond id' s hid']
  rw [← branchFile_injective hfile]
  exact hid'

/-- What the file of an id receives are the regions of the segments that carry it: a segment whose
id is cut short has none. -/
lemma flatMap_carries {rest : List UInt8} {segments : List SegmentBytes}
    (h : Segmented rest segments) (id : UInt32) :
    (segments.filter fun s => s.path beyond = branchFile id).flatMap SegmentBytes.region =
      (segments.filter (SegmentBytes.Carries id)).flatMap SegmentBytes.region := by
  have hcut := h.cut
  clear h
  induction segments with
  | nil => simp
  | cons s segments ih =>
    rw [List.forall_mem_cons] at hcut
    by_cases hid : s.id.length = 4
    · have hiff := @carries_iff beyond id s hid
      by_cases hs : s.Carries id
      · rw [List.filter_cons_of_pos (by simpa using hiff.mp hs),
          List.filter_cons_of_pos (by simpa using hs), List.flatMap_cons, List.flatMap_cons,
          ih hcut.2]
      · rw [List.filter_cons_of_neg (by simpa using mt hiff.mpr hs),
          List.filter_cons_of_neg (by simpa using hs), ih hcut.2]
    · have hs : ¬ s.Carries id := fun hs => hid hs.length
      have hregion : s.region = [] := by
        obtain hlength | ⟨-, hregion⟩ := hcut.1
        · exact absurd hlength hid
        · exact hregion
      have hcarries : (s :: segments).filter (SegmentBytes.Carries id) =
          segments.filter (SegmentBytes.Carries id) :=
        List.filter_cons_of_neg (by simpa using hs)
      rw [hcarries, ← ih hcut.2, List.filter_cons]
      split_ifs
      · rw [List.flatMap_cons, hregion, List.nil_append]
      · rfl

/-- A routing leaves the other files as they were exactly when no file is named by bytes beyond the
payload. -/
lemma route_others_iff (dir : Directory) {rest : List UInt8} {segments : List SegmentBytes}
    (h : Segmented rest segments) :
    (∀ path, (∀ s ∈ segments, ∀ id, s.Carries id → path ≠ branchFile id) →
        route beyond dir segments path = dir path) ↔ ¬ NamesBeyond beyond dir segments := by
  constructor
  · rintro hothers ⟨s, hs, -, hnone, hne⟩
    have hsome := @route_isSome beyond dir segments _ (.inr ⟨s, hs, rfl⟩)
    rw [hothers _ fun t ht id hid hpath => hne t ht hid.length (hid.path.trans hpath.symm),
      hnone] at hsome
    exact absurd hsome (by decide)
  · intro hnames path hpath
    by_cases hnamed : ∃ s ∈ segments, s.path beyond = path
    · -- only a segment whose id is cut short can have this file, and it was there
      have hshort : ∀ t ∈ segments, t.id.length = 4 → t.path beyond ≠ path := by
        intro t ht hlength heq
        obtain ⟨id, hid⟩ := exists_carries hlength
        exact hpath t ht id hid (heq.symm.trans hid.path)
      obtain ⟨s, hs, rfl⟩ := hnamed
      have hcut : s.id.length < 4 := by
        obtain hlength | ⟨hlt, -⟩ := h.cut s hs
        · exact absurd rfl (hshort s hs hlength)
        · exact hlt
      have hthere : (dir (s.path beyond)).isSome := by
        rw [Option.isSome_iff_ne_none]
        exact fun hnone => hnames ⟨s, hs, hcut, hnone, hshort⟩
      have hcontent := @content_route beyond dir segments (s.path beyond)
      have hnil : (segments.filter fun t => t.path beyond = s.path beyond).flatMap
          SegmentBytes.region = [] := by
        rw [List.flatMap_eq_nil_iff]
        intro t ht
        obtain ⟨ht, heq⟩ := List.mem_filter.mp ht
        obtain hlength | ⟨-, hregion⟩ := h.cut t ht
        · exact absurd (of_decide_eq_true heq) (hshort t ht hlength)
        · exact hregion
      have hsome := @route_isSome beyond dir segments _ (.inl hthere)
      rw [hnil, List.append_nil, Directory.content, Directory.content] at hcontent
      obtain ⟨bs, hbs⟩ := Option.isSome_iff_exists.mp hthere
      obtain ⟨bs', hbs'⟩ := Option.isSome_iff_exists.mp hsome
      rw [hbs, hbs'] at hcontent
      rw [hbs, hbs']
      exact congrArg some hcontent
    · push Not at hnamed
      exact route_of_forall_ne dir hnamed

/-! ## The handler -/

/-- **The segments of an accepted payload go to their files exactly when no file is named by bytes
beyond the payload**, when the system calls work.

**Proof sketch.** The scan tells the files (`Leaves.segmented`) and the handler the buffer
(`Leaves.buffer`), for the same segments (`Segmented.unique`). The file of every id receives the
regions of its segments (`flatMap_carries`); what may differ are the other files
(`route_others_iff`). -/
theorem feed_routes_iff {env : SystemCalls} (hworks : env.Works) {mem : Memory} {payload : Bytes}
    {dir : Directory} {f : FeedState}
    (hfeed : httpCallbackFeed env mem payload dir = some (.ok, f)) :
    ∃ segments, (∀ segments', Segmented (mem.read payload) segments' ↔ segments' = segments) ∧
      (Routes mem payload dir segments f ↔
        ¬ NamesBeyond (mem.read ⟨payload.asVoid + payload.len, 3⟩) dir segments) := by
  obtain ⟨status, g, hscanned, hscan⟩ := httpCallbackFeed_spec env mem payload dir
  obtain ⟨rfl, rfl⟩ := Prod.mk.inj (Option.some.inj (hscanned.symm.trans hfeed))
  obtain ⟨region, rest, segments, hrecords, hsegments, hnone, hdir⟩ :=
    Leaves.segmented hworks hscan
  obtain ⟨rfl, rfl⟩ := hnone rfl
  have hleaves : Loop.Leaves (feedBody env) (feedStart mem payload dir) (.ok, g) :=
    Loop.leaves_of_loop hfeed
  obtain ⟨region', rest', segments', hrecords', hsegments', hbuffer⟩ := Leaves.buffer hleaves rfl
  obtain ⟨rfl, rfl⟩ := hrecords.unique hsegments hrecords' hsegments'
  obtain rfl := hsegments.unique hsegments'
  refine ⟨segments, fun segments' => ⟨fun h => h.unique hsegments, ?_⟩, ?_⟩
  · rintro rfl
    exact hsegments
  · rw [← route_others_iff dir hsegments]
    dsimp only [Scan.start, Directory.commit] at hdir
    constructor
    · intro hroutes
      rw [← hdir]
      exact hroutes.others
    · intro hothers
      refine ⟨hbuffer, fun id => ?_, by rwa [hdir]⟩
      rw [hdir, content_route, flatMap_carries hsegments]

/-- Two segments for branch 5, with a record in the first, and one for branch 7 between them. -/
theorem feed_routes_iff_three :
    ∃ f, httpCallbackFeed ⟨fun _ => true, fun _ n => n⟩
        (fun x => [98, 0, 0, 0, 5, 105, 0, 0, 0, 0, 0, 0, 0, 0, 0, 0, 0, 0, 98, 0, 0, 0, 7,
          98, 0, 0, 0, 5].getD x 0) ⟨0, 28⟩ (fun _ => none) = some (.ok, f) ∧
      Routes (fun x => [98, 0, 0, 0, 5, 105, 0, 0, 0, 0, 0, 0, 0, 0, 0, 0, 0, 0, 98, 0, 0, 0, 7,
          98, 0, 0, 0, 5].getD x 0) ⟨0, 28⟩ (fun _ => none)
        [⟨[0, 0, 0, 5], [105, 0, 0, 0, 0, 0, 0, 0, 0, 0, 0, 0, 0]⟩, ⟨[0, 0, 0, 7], []⟩,
          ⟨[0, 0, 0, 5], []⟩] f := by
  have hrun : (httpCallbackFeed ⟨fun _ => true, fun _ n => n⟩
      (fun x => [98, 0, 0, 0, 5, 105, 0, 0, 0, 0, 0, 0, 0, 0, 0, 0, 0, 0, 98, 0, 0, 0, 7,
        98, 0, 0, 0, 5].getD x 0) ⟨0, 28⟩ (fun _ => none)).map Prod.fst = some .ok := by
    decide +kernel
  obtain ⟨⟨status, f⟩, hfeed, rfl⟩ := Option.map_eq_some_iff.mp hrun
  obtain ⟨segments, hsegments, hroutes⟩ := feed_routes_iff ⟨fun _ => rfl, fun _ _ => le_rfl⟩ hfeed
  have hthree : Segmented [98, 0, 0, 0, 5, 105, 0, 0, 0, 0, 0, 0, 0, 0, 0, 0, 0, 0, 98, 0, 0, 0, 7,
      98, 0, 0, 0, 5] [⟨[0, 0, 0, 5], [105, 0, 0, 0, 0, 0, 0, 0, 0, 0, 0, 0, 0]⟩,
        ⟨[0, 0, 0, 7], []⟩, ⟨[0, 0, 0, 5], []⟩] :=
    .segment (by decide) (.record (by decide) (by decide) .done)
      (.segment (by decide) .done (.segment (by decide) .done .done))
  obtain rfl := (hsegments _).mp hthree
  refine ⟨f, hfeed, hroutes.mpr ?_⟩
  rintro ⟨s, hs, hshort, -⟩
  revert hshort
  simp only [List.mem_cons, List.not_mem_nil, or_false] at hs
  rcases hs with rfl | rfl | rfl <;> decide

/-- An id of two bytes at the end of the payload, with the bytes 0 and 5 behind it: the payload is
accepted, and the file of branch 5 is made, whose id no segment carries. -/
theorem feed_opens_beyond :
    ∃ f, httpCallbackFeed ⟨fun _ => true, fun _ n => n⟩ (fun x => [98, 0, 0, 0, 5].getD x 0)
        ⟨0, 3⟩ (fun _ => none) = some (.ok, f) ∧
      f.dir (branchFile 5) = some [] ∧
      ∀ segments, Segmented [98, 0, 0] segments →
        (∀ s ∈ segments, ∀ id, ¬ s.Carries id) ∧
          ¬ Routes (fun x => [98, 0, 0, 0, 5].getD x 0) ⟨0, 3⟩ (fun _ => none) segments f := by
  have hrun : (httpCallbackFeed ⟨fun _ => true, fun _ n => n⟩ (fun x => [98, 0, 0, 0, 5].getD x 0)
      ⟨0, 3⟩ (fun _ => none)).map (fun r => (r.1, r.2.dir (branchFile 5))) =
        some (.ok, some []) := by decide +kernel
  obtain ⟨⟨status, f⟩, hfeed, hr⟩ := Option.map_eq_some_iff.mp hrun
  obtain ⟨rfl, hfile⟩ := Prod.mk.inj hr
  refine ⟨f, hfeed, hfile, fun segments hsegments => ?_⟩
  have hcut : Segmented [98, 0, 0] [⟨[0, 0], []⟩] := .segment (by decide) .done .done
  obtain rfl := hsegments.unique hcut
  have hnone : ∀ s ∈ [(⟨[0, 0], []⟩ : SegmentBytes)], ∀ id, ¬ s.Carries id := by
    intro s hs id hid
    obtain rfl := List.mem_singleton.mp hs
    exact absurd hid.length (by decide)
  refine ⟨hnone, fun hroutes => ?_⟩
  rw [hroutes.others _ fun s hs id hid => absurd hid (hnone s hs id)] at hfile
  exact absurd hfile (by decide)

end SleepyText.Server
