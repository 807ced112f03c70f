import SleepyText.Server.Grammar

set_option relaxedAutoImplicit false
set_option autoImplicit false

/-!
# Rejected uploads

The upload handler commits a segment when it meets the header of the next one, before it has
looked at that header or at anything behind it. A payload rejected later leaves the committed
segments in their files.

## Main definitions

* `Torn` — a segment with records is committed in front of a part that is rejected.

## Main results

* `feed_atomic_iff` — a rejected payload leaves all files unchanged exactly when it is not torn.
* `feed_not_atomic` — a payload that does not.
-/

namespace SleepyText.Server

/-- The scan commits bytes at a segment header behind which, or at which, the payload is rejected,
by the number of system calls made, whether a segment was started, and the bytes to be
committed. -/
inductive Torn (env : SystemCalls) : ℕ → Bool → ℕ → List UInt8 → Prop
  | here {calls pending : ℕ} {rest : List UInt8}
      (hwrite : 0 < min (env.writes calls pending) pending)
      (hbad : ¬ Scannable env.opens calls true (98 :: rest)) :
      Torn env calls true pending (98 :: rest)
  | segment {calls pending : ℕ} {opened : Bool} {rest : List UInt8} (hne : rest ≠ [])
      (hopen : env.opens (calls + opened.toNat) = true)
      (h : Torn env (calls + opened.toNat + 1) true 0 (rest.drop 4)) :
      Torn env calls opened pending (98 :: rest)
  | record {calls pending : ℕ} {rest : List UInt8} (hheader : 13 ≤ (105 :: rest).length)
      (hlen : recordLen (105 :: rest) ≤ (105 :: rest).length)
      (h : Torn env calls true (pending + recordLen (105 :: rest))
        ((swapped (105 :: rest)).drop (recordLen (105 :: rest)))) :
      Torn env calls true pending (105 :: rest)

variable {env : SystemCalls} {beyond : List UInt8}

/-! ## What the scan writes -/

lemma content_write (s : Scan) (path : Path) : (s.write env).dir.content path =
    s.dir.content path ++ if s.file = some path then
      s.region.take (env.writes s.calls s.region.length) else [] := by
  unfold Scan.write
  cases hfile : s.file with
  | none => simp
  | some q =>
    dsimp only
    rw [Directory.content_append]
    simp only [Option.some.injEq, eq_comm]

lemma content_committed (s : Scan) (path : Path) : (s.committed env).dir.content path =
    s.dir.content path ++ if s.file = some path then
      s.region.take (env.writes s.calls s.region.length) else [] := by
  unfold Scan.committed
  cases hfile : s.file with
  | none => simp
  | some q =>
    have h := @content_write env s path
    rw [hfile] at h
    exact h

/-- The files only grow. -/
lemma Leaves.content_le {s : Scan} {r : HttpResult × Directory}
    (h : Loop.Leaves (scanBody env beyond) s r) (path : Path) :
    (s.dir.content path).length ≤ (r.2.content path).length := by
  induction h with
  | leave hbody =>
    rename_i s r
    have hturn := scanBody_turn env beyond s
    rw [hbody] at hturn
    cases hturn with
    | done =>
      rw [content_write, List.length_append]
      omega
    | badSegment =>
      rw [content_committed, List.length_append]
      omega
    | badRecord | badOpcode => exact le_rfl
  | turn hbody _ ih =>
    rename_i s t r _
    have hturn := scanBody_turn env beyond s
    rw [hbody] at hturn
    refine le_trans ?_ ih
    cases hturn with
    | segment =>
      rw [Directory.content_create, content_committed, List.length_append]
      omega
    | record => exact le_rfl

/-- The bytes that the turn over a record adds to the region. -/
lemma length_region {s : Scan} (hheader : 13 ≤ s.rest.length)
    (hlen : recordLen s.rest ≤ s.rest.length) :
    (s.region ++ (swapped s.rest).take (recordLen s.rest)).length =
      s.region.length + recordLen s.rest := by
  rw [List.length_append, List.length_take, length_swapped hheader, Nat.min_eq_left hlen]

/-! ## Torn payloads -/

/-- At a segment header the region is committed, whatever follows. -/
lemma Leaves.committed_le {s : Scan} {r : HttpResult × Directory} {rest : List UInt8}
    (hrest : s.rest = 98 :: rest) (h : Loop.Leaves (scanBody env beyond) s r) (path : Path) :
    ((s.committed env).dir.content path).length ≤ (r.2.content path).length := by
  have hturn := scanBody_turn env beyond s
  cases h with
  | leave hbody =>
    rw [hbody] at hturn
    cases hturn with
    | done hnil => rw [hrest] at hnil; exact absurd hnil (by simp)
    | badSegment => exact le_rfl
    | badRecord hrest' => rw [hrest] at hrest'; exact absurd (List.cons.inj hrest').1 (by decide)
    | badOpcode hrest' hb => exact absurd (List.cons.inj (hrest.symm.trans hrest')).1.symm hb
  | turn hbody ht =>
    refine le_trans ?_ (Leaves.content_le ht path)
    rw [hbody] at hturn
    cases hturn with
    | segment => rw [Directory.content_create]
    | record hrest' => rw [hrest] at hrest'; exact absurd (List.cons.inj hrest').1 (by decide)

/-- **A torn payload** is rejected, and leaves a file longer than it was. -/
theorem Torn.grows {s : Scan}
    (htorn : Torn env s.calls s.file.isSome s.region.length s.rest) {r : HttpResult × Directory}
    (h : Loop.Leaves (scanBody env beyond) s r) :
    r.1 = .badRequest ∧ ∃ path, (s.dir.content path).length < (r.2.content path).length := by
  generalize hcalls : s.calls = calls at htorn
  generalize hopened : s.file.isSome = opened at htorn
  generalize hpending : s.region.length = pending at htorn
  generalize hrest : s.rest = rest at htorn
  induction htorn generalizing s with
  | @here calls pending rest hwrite hbad =>
    subst hcalls hpending
    rw [← hopened, ← hrest] at hbad
    refine ⟨(leaves_status h).2.mpr hbad, ?_⟩
    obtain ⟨path, hpath⟩ := Option.isSome_iff_exists.mp hopened
    refine ⟨path, lt_of_lt_of_le ?_ (Leaves.committed_le hrest h path)⟩
    rw [content_committed, if_pos hpath, List.length_append, List.length_take]
    omega
  | @segment calls pending opened rest hne hopen _ ih =>
    subst hcalls hopened
    rw [← calls_committed] at hopen ih
    obtain ⟨hbad, path, hlt⟩ := ih (h.of_turn (scanBody_segment beyond hrest hne hopen)) rfl rfl
      rfl rfl
    refine ⟨hbad, path, lt_of_le_of_lt ?_ hlt⟩
    rw [Directory.content_create, content_committed, List.length_append]
    omega
  | @record calls pending rest hheader hlen _ ih =>
    subst hpending
    rw [← hrest] at hheader hlen ih
    have ht := h.of_turn (scanBody_record beyond hrest hopened hheader hlen)
    have hgrows := ih ht hcalls hopened (length_region hheader hlen) rfl
    exact hgrows

/-- What is committed at a segment header, when the payload is rejected but not torn. -/
lemma content_committed_of_not_torn {s : Scan} {rest : List UInt8} (hrest : s.rest = 98 :: rest)
    (htorn : ¬ Torn env s.calls s.file.isSome s.region.length s.rest)
    (hbad : ¬ Scannable env.opens s.calls s.file.isSome s.rest) (path : Path) :
    (s.committed env).dir.content path = s.dir.content path := by
  rw [content_committed]
  split_ifs with hfile
  · have hopened : s.file.isSome = true := by rw [hfile]; rfl
    rw [hrest, hopened] at htorn hbad
    have hnone : ¬ 0 < min (env.writes s.calls s.region.length) s.region.length :=
      fun hwrite => htorn (.here hwrite hbad)
    have hnil : s.region.take (env.writes s.calls s.region.length) = [] := by
      apply List.eq_nil_of_length_eq_zero
      rw [List.length_take]
      omega
    rw [hnil, List.append_nil]
  · exact List.append_nil _

/-- **A rejected payload that is not torn** leaves all files as they were. -/
theorem Leaves.content_eq {s : Scan} {dir : Directory}
    (h : Loop.Leaves (scanBody env beyond) s (.badRequest, dir))
    (htorn : ¬ Torn env s.calls s.file.isSome s.region.length s.rest) (path : Path) :
    dir.content path = s.dir.content path := by
  generalize hr : (HttpResult.badRequest, dir) = r at h
  induction h with
  | leave hbody =>
    rename_i s r
    have hleaves : Loop.Leaves (scanBody env beyond) s (.badRequest, dir) := hr ▸ .leave hbody
    have hbad := (leaves_status hleaves).2.mp rfl
    have hturn := scanBody_turn env beyond s
    rw [hbody, ← hr] at hturn
    cases hturn with
    | badSegment hrest => exact content_committed_of_not_torn hrest htorn hbad path
    | badRecord | badOpcode => rfl
  | turn hbody ht ih =>
    rename_i s t r
    have hleaves : Loop.Leaves (scanBody env beyond) s (.badRequest, dir) := hr ▸ .turn hbody ht
    have hbad := (leaves_status hleaves).2.mp rfl
    have hturn := scanBody_turn env beyond s
    rw [hbody] at hturn
    cases hturn with
    | @segment rest hrest hne hopen =>
      have hcommit := content_committed_of_not_torn hrest htorn hbad path
      rw [ih ?_ hr, Directory.content_create, hcommit]
      intro h
      apply htorn
      rw [calls_committed] at hopen h
      rw [hrest]
      exact .segment hne hopen h
    | @record rest hrest hfile hheader hlen =>
      refine ih (fun h => htorn ?_) hr
      dsimp only at h
      rw [length_region hheader hlen, hfile, hrest] at h
      rw [hrest] at hheader hlen
      rw [hrest, hfile]
      exact .record hheader hlen h

/-- **Atomicity.** For every payload, the files are as before the call after every
`http_bad_request`, exactly when the payload is not torn. -/
theorem feed_atomic_iff (env : SystemCalls) (mem : Memory) (payload : Bytes) (dir : Directory) :
    (∃ status f, httpCallbackFeed env mem payload dir = some (status, f) ∧
        (status = .badRequest → ∀ path, f.dir.content path = dir.content path)) ↔
      ¬ Torn env 0 false 0 (mem.read payload) := by
  obtain ⟨status, f, hfeed, hscan⟩ := httpCallbackFeed_spec env mem payload dir
  constructor
  · rintro ⟨status', f', hfeed', hatomic⟩ htorn
    obtain ⟨rfl, rfl⟩ := Prod.mk.inj (Option.some.inj (hfeed.symm.trans hfeed'))
    obtain ⟨hbad, path, hlt⟩ := Torn.grows htorn hscan
    have heq := hatomic hbad path
    rw [heq] at hlt
    exact lt_irrefl _ hlt
  · intro htorn
    refine ⟨status, f, hfeed, ?_⟩
    rintro rfl path
    exact Leaves.content_eq hscan htorn path

/-- A segment with a record, and a second segment that lacks its id: the record is in the file of
the first, and the payload is rejected. -/
theorem feed_not_atomic :
    ∃ f, httpCallbackFeed ⟨fun _ => true, fun _ n => n⟩
        (fun x => [98, 0, 0, 0, 1, 105, 0, 0, 0, 0, 0, 0, 0, 0, 0, 0, 0, 0, 98].getD x 0) ⟨0, 19⟩
        (fun _ => none) = some (.badRequest, f) ∧
      f.dir.content (ascii "branches/1") ≠ [] := by
  have hrun : (httpCallbackFeed ⟨fun _ => true, fun _ n => n⟩
      (fun x => [98, 0, 0, 0, 1, 105, 0, 0, 0, 0, 0, 0, 0, 0, 0, 0, 0, 0, 98].getD x 0) ⟨0, 19⟩
      (fun _ => none)).map (fun r => (r.1, r.2.dir.content (ascii "branches/1"))) =
        some (.badRequest, [105, 0, 0, 0, 0, 0, 0, 0, 0, 0, 0, 0, 0]) := by decide +kernel
  obtain ⟨⟨status, f⟩, hfeed, hr⟩ := Option.map_eq_some_iff.mp hrun
  obtain ⟨rfl, hcontent⟩ := Prod.mk.inj hr
  exact ⟨f, hfeed, by rw [hcontent]; exact List.cons_ne_nil _ _⟩

end SleepyText.Server
