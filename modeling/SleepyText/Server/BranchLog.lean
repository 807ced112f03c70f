import SleepyText.Server.Atomicity

set_option relaxedAutoImplicit false
set_option autoImplicit false

/-!
# The log of a branch

The records uploaded for a branch, over any number of uploads, and what the download handler
`http_callback_branch` returns of them. The upload handler stores the two lengths of a record in
the order of the host, and the download handler reads once, into a buffer of `2 ^ 20` bytes.

## Main definitions

* `Record.stored` — the bytes of a record as they reach the file.
* `Upload`, `FeedCall`, `uploads` — what a payload uploads, and a sequence of accepted uploads.
* `httpCallbackBranch` — the download handler.

## Main results

* `Leaves.content_segments` — an upload appends to each file the records of its segments.
* `FeedCall.content_feed` — a call with such an upload is accepted and does so.
* `branch_log_iff` — the log is returned as it was uploaded exactly when the lengths of its
  records read the same in both orders and it fits into the buffer.
* `branch_log_differs` — a record that is not returned as it was uploaded.
-/

namespace SleepyText.Server

open Word

/-! ## What reaches the files -/

/-- The bytes of a record in the file of its branch. -/
def Record.stored (r : Record) : List UInt8 :=
  105 :: (be32 r.pos.toNat ++ le32 r.last.length ++ le32 r.now.length ++ (r.last ++ r.now))

/-- The file of a branch. -/
def branchFile (id : UInt32) : Path := resolve (branchPath "./branches/" id.toNat)

/-- The records of the segments for a file. -/
def recordsAt (path : Path) (segments : List Segment) : List Record :=
  (segments.filter fun s => branchFile s.id = path).flatMap Segment.records

/-- Every `open` succeeds and every `write` transfers everything. -/
structure SystemCalls.Works (env : SystemCalls) : Prop where
  opens : ∀ k, env.opens k = true
  writes : ∀ k n, n ≤ env.writes k n

/-- What a payload uploads: segments, and nothing or a segment header that is cut short. -/
structure Upload where
  segments : List Segment
  tail : List UInt8
  tail_cut : tail = [] ∨ ∃ id, tail = 98 :: id ∧ id ≠ [] ∧ id.length < 4

/-- The bytes of an upload. -/
def Upload.encode (u : Upload) : List UInt8 := u.segments.flatMap Segment.encode ++ u.tail

lemma Record.length_stored (r : Record) : r.stored.length = r.size := by
  simp only [Record.stored, Record.size, List.length_cons, List.length_append, length_be32,
    length_le32]
  omega

variable {env : SystemCalls} {beyond : List UInt8}

/-- **A record** in front of the scan is added to the region as it is stored. -/
lemma scanBody_encode (r : Record) (hfits : r.size < 2 ^ 32) {s : Scan} (hfile : s.file.isSome)
    {rest : List UInt8} (hrest : s.rest = r.encode ++ rest) :
    scanBody env beyond s = .inl { s with rest := rest, region := s.region ++ r.stored } := by
  have hlen : recordLen s.rest = r.size := by
    rw [hrest, recordLen, ← trueLen, r.trueLen_encode, Nat.mod_eq_of_lt hfits]
  have hlength : s.rest.length = r.size + rest.length := by
    rw [hrest, List.length_append, r.length_encode]
  have hheader : 13 ≤ s.rest.length := by
    rw [hlength, Record.size]
    omega
  have hswapped : swapped s.rest = r.stored ++ rest := by
    rw [hrest, r.encode_append, swapped_header _ _ (length_be32 _) (length_be32 _) (length_be32 _)]
    simp [Record.stored, le32]
  have hturn := @scanBody_record env s _ beyond (hrest.trans (r.encode_append rest)) hfile
    hheader (by omega)
  rw [hturn, hswapped, hlen, List.drop_left' r.length_stored, List.take_left' r.length_stored]

/-- Records in front of the scan are added to the region as they are stored. -/
lemma Leaves.records {records : List Record} (hfits : ∀ r ∈ records, r.size < 2 ^ 32) {s : Scan}
    (hfile : s.file.isSome) {rest : List UInt8}
    (hrest : s.rest = records.flatMap Record.encode ++ rest) {r : HttpResult × Directory}
    (h : Loop.Leaves (scanBody env beyond) s r) :
    Loop.Leaves (scanBody env beyond)
      { s with rest := rest, region := s.region ++ records.flatMap Record.stored } r := by
  induction records generalizing s with
  | nil =>
    obtain ⟨_, region, file, dir, calls⟩ := s
    obtain rfl : _ = rest := hrest
    simpa using h
  | cons r records ih =>
    rw [List.flatMap_cons, List.append_assoc] at hrest
    have hturn := @scanBody_encode env beyond r (hfits r List.mem_cons_self) s hfile _ hrest
    have ht := ih (fun r hr => hfits r (List.mem_cons_of_mem _ hr))
      (s := { s with
        rest := records.flatMap Record.encode ++ rest
        region := s.region ++ r.stored }) hfile rfl (h.of_turn hturn)
    rw [List.flatMap_cons, ← List.append_assoc]
    exact ht

/-- What is committed when the system calls work. -/
lemma content_committed_of_works (hworks : env.Works) (s : Scan) (path : Path) :
    (s.committed env).dir.content path =
      s.dir.content path ++ if s.file = some path then s.region else [] := by
  rw [content_committed, List.take_of_length_le (hworks.writes _ _)]

lemma segmentPath_encode (id : UInt32) (rest : List UInt8) :
    segmentPath beyond (be32 id.toNat ++ rest) = branchFile id := by
  rw [segmentPath, List.append_assoc, List.take_left' (length_be32 _), ofBe_be32,
    Nat.mod_eq_of_lt id.toNat_lt, branchFile]

lemma recordsAt_cons (path : Path) (s : Segment) (segments : List Segment) :
    recordsAt path (s :: segments) =
      (if branchFile s.id = path then s.records else []) ++ recordsAt path segments := by
  rw [recordsAt, recordsAt]
  by_cases h : branchFile s.id = path
  · rw [List.filter_cons_of_pos (by simpa using h), List.flatMap_cons, if_pos h]
  · rw [List.filter_cons_of_neg (by simpa using h), if_neg h, List.nil_append]

/-- The end of the scan. -/
lemma Leaves.done (hworks : env.Works) {s : Scan} (hrest : s.rest = []) {status : HttpResult}
    {dir : Directory} (h : Loop.Leaves (scanBody env beyond) s (status, dir)) :
    status = .ok ∧ ∀ path, dir.content path =
      s.dir.content path ++ if s.file = some path then s.region else [] := by
  obtain ⟨rfl, rfl⟩ := Prod.mk.inj (h.unique (.leave (scanBody_done beyond hrest)))
  refine ⟨rfl, fun path => ?_⟩
  rw [content_write, List.take_of_length_le (hworks.writes _ _)]

/-- The turn over a segment header, when the system calls work. -/
lemma Leaves.header (hworks : env.Works) {s : Scan} {rest : List UInt8} (hne : rest ≠ [])
    (hrest : s.rest = 98 :: rest) {r : HttpResult × Directory}
    (h : Loop.Leaves (scanBody env beyond) s r) :
    Loop.Leaves (scanBody env beyond)
      { rest := rest.drop 4
        region := []
        file := some (segmentPath beyond rest)
        dir := (s.committed env).dir.create (segmentPath beyond rest)
        calls := (s.committed env).calls + 1 } r :=
  h.of_turn (scanBody_segment beyond hrest hne (hworks.opens _))

/-- **Segments** are appended to their files, each behind what was to be committed before.

**Proof sketch.** By induction on the segments. The turn over a header commits the region, the
turns over the records (`Leaves.records`) collect the next one. -/
theorem Leaves.content_segments (hworks : env.Works) {segments : List Segment}
    (hfits : ∀ s ∈ segments, ∀ r ∈ s.records, r.size < 2 ^ 32) {tail : List UInt8}
    (htail : tail = [] ∨ ∃ id, tail = 98 :: id ∧ id ≠ [] ∧ id.length < 4) {s : Scan}
    (hrest : s.rest = segments.flatMap Segment.encode ++ tail) {status : HttpResult}
    {dir : Directory} (h : Loop.Leaves (scanBody env beyond) s (status, dir)) :
    status = .ok ∧ ∀ path, dir.content path = s.dir.content path ++
      (if s.file = some path then s.region else []) ++
      (recordsAt path segments).flatMap Record.stored := by
  induction segments generalizing s with
  | nil =>
    rcases htail with rfl | ⟨id, rfl, hne, hcut⟩
    · obtain ⟨hok, hcontent⟩ := Leaves.done hworks hrest h
      refine ⟨hok, fun path => ?_⟩
      rw [hcontent]
      simp [recordsAt]
    · -- a header cut short opens a file, and commits nothing to it
      have hnil : id.drop 4 = [] := List.drop_eq_nil_of_le (by omega)
      obtain ⟨hok, hcontent⟩ := Leaves.done hworks hnil (Leaves.header hworks hne hrest h)
      refine ⟨hok, fun path => ?_⟩
      rw [hcontent, Directory.content_create, content_committed_of_works hworks]
      simp [recordsAt]
  | cons seg segments ih =>
    have hhead : s.rest = 98 :: (be32 seg.id.toNat ++
        (seg.records.flatMap Record.encode ++ (segments.flatMap Segment.encode ++ tail))) := by
      rw [hrest, List.flatMap_cons, Segment.encode]
      simp
    have ht := Leaves.header hworks (by simp [be32]) hhead h
    rw [segmentPath_encode, List.drop_left' (length_be32 _)] at ht
    have ht' := Leaves.records (hfits seg List.mem_cons_self) rfl rfl ht
    obtain ⟨hok, hcontent⟩ := ih (fun s hs => hfits s (List.mem_cons_of_mem _ hs)) rfl ht'
    refine ⟨hok, fun path => ?_⟩
    rw [hcontent, Directory.content_create, content_committed_of_works hworks, recordsAt_cons,
      List.flatMap_append]
    by_cases hpath : branchFile seg.id = path
    · simp [hpath]
    · simp [hpath]

/-! ## Sequences of uploads -/

/-- A call of the upload handler. -/
structure FeedCall where
  env : SystemCalls
  mem : Memory
  payload : Bytes

/-- The files after a call, if it is answered with 200. -/
def FeedCall.accepted (c : FeedCall) (dir : Directory) : Option Directory :=
  match httpCallbackFeed c.env c.mem c.payload dir with
  | some (.ok, f) => some f.dir
  | _ => none

/-- The files after a sequence of calls that are all answered with 200. -/
def uploads : List FeedCall → Directory → Option Directory
  | [], dir => some dir
  | c :: calls, dir => (c.accepted dir).bind (uploads calls)

/-- The payload of a call is an upload. -/
def FeedCall.Uploads (c : FeedCall) (u : Upload) : Prop := c.mem.read c.payload = u.encode

/-- The records that uploads have for an id, in order. -/
def recordsFor (id : UInt32) (us : List Upload) : List Record :=
  us.flatMap fun u => (u.segments.filter fun s => s.id = id).flatMap Segment.records

/-- A record of an upload is not longer than its payload. -/
lemma Upload.size_le (u : Upload) {s : Segment} (hs : s ∈ u.segments) {r : Record}
    (hr : r ∈ s.records) : r.size ≤ u.encode.length := by
  have hrecord : r.encode.length ≤ (s.records.flatMap Record.encode).length := by
    rw [List.length_flatMap]
    exact List.single_le_sum (by simp) _ (List.mem_map_of_mem hr)
  have hsegment : s.encode.length ≤ (u.segments.flatMap Segment.encode).length := by
    rw [List.length_flatMap]
    exact List.single_le_sum (by simp) _ (List.mem_map_of_mem hs)
  rw [r.length_encode] at hrecord
  rw [Segment.encode, List.length_cons, List.length_append] at hsegment
  rw [Upload.encode, List.length_append]
  omega

/-- **One upload** is accepted, and appends its records to their files. -/
theorem FeedCall.content_feed {c : FeedCall} (hworks : c.env.Works)
    (hsize : c.payload.len < 2 ^ 32) {u : Upload} (hu : c.Uploads u) (dir : Directory) :
    ∃ f, httpCallbackFeed c.env c.mem c.payload dir = some (.ok, f) ∧ ∀ path,
      f.dir.content path =
        dir.content path ++ (recordsAt path u.segments).flatMap Record.stored := by
  obtain ⟨status, f, hfeed, hscan⟩ := httpCallbackFeed_spec c.env c.mem c.payload dir
  have hlen : u.encode.length = c.payload.len := by rw [← hu, Memory.length_read]
  have hfits : ∀ s ∈ u.segments, ∀ r ∈ s.records, r.size < 2 ^ 32 := fun s hs r hr =>
    lt_of_le_of_lt (u.size_le hs hr) (by omega)
  have hrest : (Scan.start (c.mem.read c.payload) dir).rest =
      u.segments.flatMap Segment.encode ++ u.tail := hu
  obtain ⟨rfl, hcontent⟩ := Leaves.content_segments hworks hfits u.tail_cut hrest hscan
  refine ⟨f, hfeed, fun path => ?_⟩
  rw [hcontent path]
  simp [Scan.start]

lemma FeedCall.content_accepted {c : FeedCall} (hworks : c.env.Works)
    (hsize : c.payload.len < 2 ^ 32) {u : Upload} (hu : c.Uploads u) {dir dir' : Directory}
    (h : c.accepted dir = some dir') (path : Path) : dir'.content path =
      dir.content path ++ (recordsAt path u.segments).flatMap Record.stored := by
  obtain ⟨f, hfeed, hcontent⟩ := FeedCall.content_feed hworks hsize hu dir
  rw [FeedCall.accepted, hfeed] at h
  obtain rfl := Option.some.inj h
  exact hcontent path

/-- **Accepted uploads** append their records to their files, one behind the other. -/
theorem content_uploads {calls : List FeedCall} (hworks : ∀ c ∈ calls, c.env.Works)
    (hsize : ∀ c ∈ calls, c.payload.len < 2 ^ 32) {us : List Upload}
    (hus : List.Forall₂ FeedCall.Uploads calls us) {dir dir' : Directory}
    (h : uploads calls dir = some dir') (path : Path) :
    dir'.content path = dir.content path ++
      (us.flatMap fun u => recordsAt path u.segments).flatMap Record.stored := by
  induction hus generalizing dir with
  | nil =>
    obtain rfl := Option.some.inj h
    simp
  | cons hu _ ih =>
    obtain ⟨dir₁, haccepted, hrest⟩ := Option.bind_eq_some_iff.mp h
    rw [ih (fun c hc => hworks c (List.mem_cons_of_mem _ hc))
      (fun c hc => hsize c (List.mem_cons_of_mem _ hc)) hrest,
      FeedCall.content_accepted (hworks _ List.mem_cons_self) (hsize _ List.mem_cons_self) hu
        haccepted, List.flatMap_cons, List.flatMap_append, List.append_assoc]

/-! ## The download -/

/-- `http_callback_branch`: the payload is `none` where the length that `read` returns is -1,
because the file could not be opened. -/
def httpCallbackBranch (mem : Memory) (addr : Bytes) (dir : Directory) :
    HttpResult × Option (List UInt8) :=
  let blobid := btoi (mem.read (bslice addr (ascii "/api/0/branch/").length 0))
  let path := resolve (branchPath "branches/" blobid)
  (.ok, (dir path).map fun content => content.take (2 ^ 20))

lemma toInt_range (n : ℤ) : -2 ^ 31 ≤ toInt n ∧ toInt n < 2 ^ 31 := by
  have hle := Int.le_bmod (x := n) (m := 2 ^ 32) (by norm_num)
  have hlt := Int.bmod_lt (x := n) (m := 2 ^ 32) (by norm_num)
  unfold toInt
  omega

lemma branchFile_eq (id : UInt32) :
    branchFile id = ascii "branches/" ++ Decimal.print (toInt id.toNat) := rfl

/-- Different ids have different files. -/
lemma branchFile_injective {id id' : UInt32} (h : branchFile id = branchFile id') : id = id' := by
  have hint : toInt id.toNat = toInt id'.toNat :=
    Decimal.print_injective (List.append_cancel_left h)
  have hmod : (id.toNat : ℤ) % 2 ^ 32 = id'.toNat % 2 ^ 32 := by
    have hid : toInt id.toNat % 2 ^ 32 = id.toNat % 2 ^ 32 := Int.bmod_emod
    have hid' : toInt id'.toNat % 2 ^ 32 = id'.toNat % 2 ^ 32 := Int.bmod_emod
    rw [← hid, ← hid', hint]
  have hlt := id.toNat_lt
  have hlt' := id'.toNat_lt
  apply UInt32.toNat_inj.mp
  omega

/-- The records at the file of an id are those uploaded for the id. -/
lemma recordsAt_branchFile (id : UInt32) (us : List Upload) :
    us.flatMap (fun u => recordsAt (branchFile id) u.segments) = recordsFor id us := by
  have heq (s : Segment) : branchFile s.id = branchFile id ↔ s.id = id :=
    ⟨branchFile_injective, fun h => by rw [h]⟩
  simp only [recordsAt, recordsFor, heq]

/-- The download of a branch, under the address with the decimal form of its id. -/
lemma httpCallbackBranch_eq (id : UInt32) (dir : Directory) {mem : Memory} {addr : Bytes}
    (haddr : mem.read addr = ascii "/api/0/branch/" ++ Decimal.print (toInt id.toNat)) :
    httpCallbackBranch mem addr dir =
      (.ok, (dir (branchFile id)).map fun content => content.take (2 ^ 20)) := by
  have hslice : mem.read (bslice addr (ascii "/api/0/branch/").length 0) =
      Decimal.print (toInt id.toNat) := by
    rw [read_bslice_zero, haddr, List.drop_left]
  have hblobid : btoi (Decimal.print (toInt id.toNat)) = toInt id.toNat :=
    btoi_print (toInt_range _).1 (toInt_range _).2
  have hpath : resolve (branchPath "branches/" (toInt id.toNat)) = branchFile id := by
    rw [branchFile_eq, branchPath, toInt_of_range (toInt_range _).1 (toInt_range _).2]
    rfl
  rw [httpCallbackBranch, hslice, hblobid, hpath]

/-! ## The log -/

/-- The bytes of a word read the same in both orders. -/
def Palindrome (n : ℕ) : Prop := le32 n = be32 n

instance (n : ℕ) : Decidable (Palindrome n) := inferInstanceAs (Decidable (le32 n = be32 n))

lemma Record.stored_eq_encode_iff (r : Record) :
    r.stored = r.encode ↔ Palindrome r.last.length ∧ Palindrome r.now.length := by
  rw [Record.stored, Record.encode, List.cons.injEq, List.append_left_inj]
  constructor
  · rintro ⟨-, h⟩
    obtain ⟨h, hnow⟩ := List.append_inj h (by simp)
    exact ⟨List.append_cancel_left h, hnow⟩
  · rintro ⟨hlast, hnow⟩
    exact ⟨rfl, by rw [hlast, hnow]⟩

/-- Records are stored as they were uploaded only if each of them is. -/
lemma stored_eq_encode_iff (records : List Record) :
    records.flatMap Record.stored = records.flatMap Record.encode ↔
      ∀ r ∈ records, Palindrome r.last.length ∧ Palindrome r.now.length := by
  induction records with
  | nil => simp
  | cons r records ih =>
    rw [List.flatMap_cons, List.flatMap_cons, List.forall_mem_cons, ← ih,
      ← r.stored_eq_encode_iff]
    constructor
    · exact fun h => List.append_inj h (by rw [r.length_stored, r.length_encode])
    · rintro ⟨hr, hrest⟩
      rw [hr, hrest]

lemma length_flatMap_stored (records : List Record) :
    (records.flatMap Record.stored).length = (records.flatMap Record.encode).length := by
  induction records with
  | nil => rfl
  | cons r records ih =>
    rw [List.flatMap_cons, List.flatMap_cons, List.length_append, List.length_append, ih,
      r.length_stored, r.length_encode]

/-- A log read into a buffer of `2 ^ 20` bytes. -/
lemma take_stored_eq_encode_iff (records : List Record) :
    (records.flatMap Record.stored).take (2 ^ 20) = records.flatMap Record.encode ↔
      (∀ r ∈ records, Palindrome r.last.length ∧ Palindrome r.now.length) ∧
        (records.flatMap Record.encode).length ≤ 2 ^ 20 := by
  rw [← stored_eq_encode_iff]
  have hlen := length_flatMap_stored records
  constructor
  · intro h
    have hle : (records.flatMap Record.encode).length ≤ 2 ^ 20 := by
      rw [← h, List.length_take]
      exact Nat.min_le_left _ _
    refine ⟨?_, hle⟩
    rwa [List.take_of_length_le (by rw [hlen]; exact hle)] at h
  · rintro ⟨h, hle⟩
    rw [List.take_of_length_le (by rw [hlen]; exact hle), h]

/-- **The log of a branch**, after any sequence of accepted uploads into a new branch file. The
download returns the records as they were uploaded, for some reading of the payloads as uploads,
exactly when for some such reading the lengths of all records of the branch are palindromes and
the log is not longer than the buffer. -/
theorem branch_log_iff {calls : List FeedCall} (hworks : ∀ c ∈ calls, c.env.Works)
    (hsize : ∀ c ∈ calls, c.payload.len < 2 ^ 32) {dir dir' : Directory} (id : UInt32)
    (hnew : dir.content (branchFile id) = []) (huploads : uploads calls dir = some dir')
    (hopen : (dir' (branchFile id)).isSome) {mem : Memory} {addr : Bytes}
    (haddr : mem.read addr = ascii "/api/0/branch/" ++ Decimal.print (toInt id.toNat)) :
    (∃ us, List.Forall₂ FeedCall.Uploads calls us ∧ httpCallbackBranch mem addr dir' =
        (.ok, some ((recordsFor id us).flatMap Record.encode))) ↔
      ∃ us, List.Forall₂ FeedCall.Uploads calls us ∧
        (∀ r ∈ recordsFor id us, Palindrome r.last.length ∧ Palindrome r.now.length) ∧
        ((recordsFor id us).flatMap Record.encode).length ≤ 2 ^ 20 := by
  obtain ⟨content, hcontent⟩ := Option.isSome_iff_exists.mp hopen
  refine exists_congr fun us => and_congr_right fun hus => ?_
  have hstored : content = (recordsFor id us).flatMap Record.stored := by
    have h := content_uploads hworks hsize hus huploads (branchFile id)
    rw [hnew, List.nil_append, recordsAt_branchFile, Directory.content, hcontent] at h
    exact h
  rw [httpCallbackBranch_eq id dir' haddr, hcontent, Option.map_some, hstored, Prod.mk.injEq,
    Option.some.injEq, take_stored_eq_encode_iff]
  exact ⟨fun h => h.2, fun h => ⟨rfl, h⟩⟩

/-- A call with the given payload, for which all system calls work. -/
def FeedCall.of (payload : List UInt8) : FeedCall :=
  ⟨⟨fun _ => true, fun _ n => n⟩, fun x => payload.getD x 0, ⟨0, payload.length⟩⟩

/-- The log of branch 1 after the upload of one record with two empty texts. -/
theorem branch_log_iff_empty_texts :
    ∃ dir', uploads [.of [98, 0, 0, 0, 1, 105, 0, 0, 0, 0, 0, 0, 0, 0, 0, 0, 0, 0]]
        (fun _ => none) = some dir' ∧
      ((∃ us, List.Forall₂ FeedCall.Uploads
          [.of [98, 0, 0, 0, 1, 105, 0, 0, 0, 0, 0, 0, 0, 0, 0, 0, 0, 0]] us ∧
          httpCallbackBranch (fun x => (ascii "/api/0/branch/1").getD x 0) ⟨0, 15⟩ dir' =
            (.ok, some ((recordsFor 1 us).flatMap Record.encode))) ↔
        ∃ us, List.Forall₂ FeedCall.Uploads
            [.of [98, 0, 0, 0, 1, 105, 0, 0, 0, 0, 0, 0, 0, 0, 0, 0, 0, 0]] us ∧
          (∀ r ∈ recordsFor 1 us, Palindrome r.last.length ∧ Palindrome r.now.length) ∧
          ((recordsFor 1 us).flatMap Record.encode).length ≤ 2 ^ 20) := by
  have hsome : ((uploads [.of [98, 0, 0, 0, 1, 105, 0, 0, 0, 0, 0, 0, 0, 0, 0, 0, 0, 0]]
      (fun _ => none)).bind fun dir => dir (branchFile 1)) =
        some [105, 0, 0, 0, 0, 0, 0, 0, 0, 0, 0, 0, 0] := by decide +kernel
  obtain ⟨dir', huploads, hopen⟩ := Option.bind_eq_some_iff.mp hsome
  refine ⟨dir', huploads, branch_log_iff ?_ ?_ 1 rfl huploads (by rw [hopen]; rfl) ?_⟩
  · simpa [FeedCall.of] using (⟨fun _ => rfl, fun _ _ => le_rfl⟩ : SystemCalls.Works _)
  · simp [FeedCall.of]
  · decide +kernel

/-- A record that inserts one letter, uploaded for branch 1, is returned with the length of the
letter in the other order. -/
theorem branch_log_differs :
    ∃ (dir' : Directory) (r : Record) (u : Upload),
      uploads [.of [98, 0, 0, 0, 1, 105, 0, 0, 0, 0, 0, 0, 0, 0, 0, 0, 0, 1, 97]]
        (fun _ => none) = some dir' ∧
      (FeedCall.of [98, 0, 0, 0, 1, 105, 0, 0, 0, 0, 0, 0, 0, 0, 0, 0, 0, 1, 97]).Uploads u ∧
      recordsFor 1 [u] = [r] ∧
      httpCallbackBranch (fun x => (ascii "/api/0/branch/1").getD x 0) ⟨0, 15⟩ dir' =
        (.ok, some [105, 0, 0, 0, 0, 0, 0, 0, 0, 1, 0, 0, 0, 97]) ∧
      httpCallbackBranch (fun x => (ascii "/api/0/branch/1").getD x 0) ⟨0, 15⟩ dir' ≠
        (.ok, some ((recordsFor 1 [u]).flatMap Record.encode)) := by
  have hsome : ((uploads [.of [98, 0, 0, 0, 1, 105, 0, 0, 0, 0, 0, 0, 0, 0, 0, 0, 0, 1, 97]]
      (fun _ => none)).map fun dir => httpCallbackBranch
        (fun x => (ascii "/api/0/branch/1").getD x 0) ⟨0, 15⟩ dir) =
      some (.ok, some [105, 0, 0, 0, 0, 0, 0, 0, 0, 1, 0, 0, 0, 97]) := by decide +kernel
  obtain ⟨dir', huploads, hbranch⟩ := Option.map_eq_some_iff.mp hsome
  refine ⟨dir', ⟨0, [], [97], by decide, by decide⟩,
    ⟨[⟨1, [⟨0, [], [97], by decide, by decide⟩]⟩], [], .inl rfl⟩, huploads, ?_, rfl, hbranch, ?_⟩
  · unfold FeedCall.Uploads
    decide +kernel
  · rw [hbranch]
    decide +kernel

end SleepyText.Server
