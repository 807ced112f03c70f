import SleepyText.Server.Handlers

set_option relaxedAutoImplicit false
set_option autoImplicit false

/-!
# Isolation of users

The four endpoints for branch data each have their own way of choosing the rows and the files that
they read and write: by the user of the session, by a number in the address, or by the ids inside
the payload.

## Main definitions

* `Endpoint.handle` — the handlers for branch data, by what they answer.
* `Agree` — states that differ in the rows and the files of other users only.
* `Isolated` — a request touches and shows nothing of other users, and nothing without a session.
* `Reaches` — the files that the segments of a payload name.

## Main results

* `isolated_iff` — the exact condition under which a request is isolated, for each endpoint.
* `request_without_session_not_isolated` — a download and an upload without a session.
-/

namespace SleepyText.Server

/-! ## The endpoints -/

/-- The endpoints for branch data. -/
inductive Endpoint where
  | branch
  | branches
  | newbranch
  | feed
  deriving DecidableEq, Repr

/-- The handler of an endpoint. -/
def Endpoint.callback : Endpoint → Callback
  | .branch => .branch
  | .branches => .branches
  | .newbranch => .newbranch
  | .feed => .feed

/-- The response of an endpoint to a request, and the state after it. -/
def Endpoint.handle (w : World) (m : Memory) (request : HttpRequest) (s : ServerState)
    (e : Endpoint) : Option (Response × ServerState) :=
  (e.callback.run w m request s).map fun (m', raw, s') => (raw.read m', s')

/-! ## Isolation -/

/-- The file that the handlers keep for the id of a branch row. -/
def BranchRow.file (r : BranchRow) : Path := resolve (branchPath "./branches/" r.id)

/-- The ids of the branch rows are distinct. -/
def Database.KeysOk (db : Database) : Prop := (db.branches.map fun r => r.id).Nodup

/-- The file belongs to a branch of the user. -/
def OwnFile (db : Database) (user : ℤ) (path : Path) : Prop :=
  ∃ r ∈ db.branches, r.user = user ∧ r.file = path

/-- The file belongs to a branch of another user. -/
def OthersFile (db : Database) (user : ℤ) (path : Path) : Prop :=
  ∃ r ∈ db.branches, r.user ≠ user ∧ r.file = path

/-- For a request with the given header both states have the same user, the same rows of this user
and the same files, except those of other users. -/
structure Agree (m : Memory) (header : Bytes) (s s' : ServerState) : Prop where
  keys : s'.db.KeysOk
  user : getuserid m header s'.db = getuserid m header s.db
  rows : s'.db.branches.filter (fun r => r.user = getuserid m header s.db) =
    s.db.branches.filter fun r => r.user = getuserid m header s.db
  files : ∀ path, OwnFile s.db (getuserid m header s.db) path ∨
    ¬ OthersFile s.db (getuserid m header s.db) path ∧
      ¬ OthersFile s'.db (getuserid m header s.db) path → s'.dir path = s.dir path

/-- Users are isolated for the request, whatever the files are: it changes no row and no file of a
user other than that of its session, its response does not depend on these, and without a session
it neither changes nor reads any row or file of a branch. -/
structure Isolated (e : Endpoint) (m : Memory) (request : HttpRequest) (db : Database) :
    Prop where
  rows : ∀ x dir response s', e.handle x m request ⟨db, dir⟩ = some (response, s') →
    s'.db.branches.filter (fun r => r.user ≠ getuserid m request.header db) =
      db.branches.filter fun r => r.user ≠ getuserid m request.header db
  files : ∀ x dir response s', e.handle x m request ⟨db, dir⟩ = some (response, s') →
    ∀ path, OthersFile db (getuserid m request.header db) path → s'.dir path = dir path
  responses : ∀ x dir s', Agree m request.header ⟨db, dir⟩ s' →
    (e.handle x m request s').map Prod.fst = (e.handle x m request ⟨db, dir⟩).map Prod.fst
  changesNothing : getuserid m request.header db = 0 → ∀ x dir response s',
    e.handle x m request ⟨db, dir⟩ = some (response, s') →
      s'.db.branches = db.branches ∧ s'.dir = dir
  readsNothing : getuserid m request.header db = 0 → ∀ x dir s', s'.db.KeysOk →
    getuserid m request.header s'.db = 0 →
      (e.handle x m request s').map Prod.fst = (e.handle x m request ⟨db, dir⟩).map Prod.fst

/-- The files named by the segments that the scan of a payload reaches when each `open` succeeds, by
whether a segment was started; behind the payload stand the bytes `beyond`. -/
inductive Reaches (beyond : List UInt8) : Bool → List UInt8 → Path → Prop
  | here {opened : Bool} {rest : List UInt8} (hne : rest ≠ []) :
      Reaches beyond opened (98 :: rest) (segmentPath beyond rest)
  | segment {opened : Bool} {rest : List UInt8} {path : Path} (hne : rest ≠ [])
      (h : Reaches beyond true (rest.drop 4) path) : Reaches beyond opened (98 :: rest) path
  | record {rest : List UInt8} {path : Path} (hheader : 13 ≤ (105 :: rest).length)
      (hlen : recordLen (105 :: rest) ≤ (105 :: rest).length)
      (h : Reaches beyond true ((swapped (105 :: rest)).drop (recordLen (105 :: rest))) path) :
      Reaches beyond true (105 :: rest) path

/-- The request is for branch data of its user: the file downloaded belongs to a branch of the user
of the session, and no segment of an upload names a file of another user, or any file without a
session. -/
def ForOwnBranches (m : Memory) (request : HttpRequest) (db : Database) : Endpoint → Prop
  | .branch => getuserid m request.header db ≠ 0 ∧
      OwnFile db (getuserid m request.header db) (downloadPath m request.addr)
  | .branches | .newbranch => True
  | .feed => ∀ path,
      Reaches (m.read ⟨request.payload.asVoid + request.payload.len, 3⟩) false
        (m.read request.payload) path →
      getuserid m request.header db ≠ 0 ∧ ¬ OthersFile db (getuserid m request.header db) path

/-! ## The endpoints that ask for the user -/

variable {m : Memory} {request : HttpRequest} {db : Database}

/-- An endpoint that changes nothing is isolated when its responses are. -/
lemma isolated_of_unchanged {e : Endpoint}
    (hstate : ∀ x dir response s', e.handle x m request ⟨db, dir⟩ = some (response, s') →
      s' = ⟨db, dir⟩)
    (hresponses : ∀ x dir s', Agree m request.header ⟨db, dir⟩ s' →
      (e.handle x m request s').map Prod.fst = (e.handle x m request ⟨db, dir⟩).map Prod.fst)
    (hreads : getuserid m request.header db = 0 → ∀ x dir s', s'.db.KeysOk →
      getuserid m request.header s'.db = 0 →
        (e.handle x m request s').map Prod.fst = (e.handle x m request ⟨db, dir⟩).map Prod.fst) :
    Isolated e m request db := by
  refine ⟨?_, ?_, hresponses, ?_, hreads⟩
  · intro x dir response s' h
    rw [hstate x dir response s' h]
  · intro x dir response s' h path _
    rw [hstate x dir response s' h]
  · intro _ x dir response s' h
    rw [hstate x dir response s' h]
    exact ⟨rfl, rfl⟩

/-- **The listing** shows the rows of the user only. -/
lemma isolated_branches : Isolated .branches m request db := by
  have hhandle (x : World) (s : ServerState) :
      (Endpoint.handle x m request s .branches).map Prod.fst =
        let user := getuserid m request.header s.db
        let r := httpCallbackBranches user (s.db.selectbranches user) m x.block
        some (RawResponse.read r.2.1 { rawResult r.1 with payload := r.2.2 }) := rfl
  apply isolated_of_unchanged
  · intro x dir response s' h
    exact (congrArg Prod.snd (Option.some.inj h)).symm
  · intro x dir s' hagree
    simp only [hhandle, hagree.user, Database.selectbranches, hagree.rows]
  · intro huser x dir s' _ huser'
    rw [hhandle, hhandle, huser, huser']
    rfl

/-- An insert leaves the rows of the others. -/
lemma filter_insertbranch (db : Database) (sql : Sqlite) (v : NewbranchLocals) (user : ℤ) :
    (db.insertbranch sql v user).branches.filter (fun r => r.user ≠ user) =
      db.branches.filter fun r => r.user ≠ user := by
  simp [Database.insertbranch]

/-- **A new branch** is a row of the user. -/
lemma isolated_newbranch : Isolated .newbranch m request db := by
  have hhandle (x : World) (s : ServerState) :
      Endpoint.handle x m request s .newbranch =
        let r := httpCallbackNewbranch x.sql x.locals m request s.db
        some ((r.1, some []), { s with db := r.2 }) := rfl
  have hstatus (x : World) (db : Database) :
      (httpCallbackNewbranch x.sql x.locals m request db).1 =
        if getuserid m request.header db = 0 then .badRequest
        else if x.sql.inserts then .ok else .badRequest := by
    rw [httpCallbackNewbranch]
    split_ifs <;> rfl
  refine ⟨?_, ?_, ?_, ?_, ?_⟩
  · intro x dir response s' h
    rw [hhandle, Option.some.injEq, Prod.mk.injEq] at h
    rw [← h.2]
    dsimp only
    rw [httpCallbackNewbranch]
    split_ifs
    · rfl
    · exact filter_insertbranch _ _ _ _
    · rfl
  · intro x dir response s' h path _
    rw [hhandle, Option.some.injEq, Prod.mk.injEq] at h
    rw [← h.2]
  · intro x dir s' hagree
    simp only [hhandle, Option.map_some, hstatus, hagree.user]
  · intro huser x dir response s' h
    rw [hhandle, Option.some.injEq, Prod.mk.injEq] at h
    rw [← h.2]
    dsimp only
    rw [httpCallbackNewbranch, if_pos huser]
    exact ⟨rfl, rfl⟩
  · intro huser x dir s' _ huser'
    simp only [hhandle, Option.map_some, hstatus, huser, huser']

/-! ## The download -/

lemma toInt_toInt (n : ℤ) : toInt (toInt n) = toInt n := by
  simp [toInt]

/-- The download of a file. -/
lemma handle_branch (x : World) (s : ServerState) : Endpoint.handle x m request s .branch = some
    ((.ok, (x.readable s.dir (downloadPath m request.addr)).map fun content =>
      content.take (2 ^ 20)), s) := by
  have htake (content : Option (List UInt8)) : (content.map fun c => c.take (2 ^ 20)).map
      (fun c => c.take (2 ^ 20)) = content.map fun c => c.take (2 ^ 20) := by
    cases content <;> simp [List.take_take]
  have hread := read_readPage m x.block
    ((x.readable s.dir (downloadPath m request.addr)).map fun content => content.take (2 ^ 20)) .ok
  rw [htake] at hread
  exact congrArg (fun response => some (response, s)) hread

/-- The row whose file is downloaded. -/
def downloadRow (m : Memory) (addr : Bytes) (user : ℤ) : BranchRow :=
  ⟨⟨toInt (btoi (m.read (bslice addr (ascii "/api/0/branch/").length 0))), 0, 0, 0⟩, user⟩

lemma file_downloadRow (m : Memory) (addr : Bytes) (user : ℤ) :
    (downloadRow m addr user).file = downloadPath m addr := by
  rw [BranchRow.file, downloadRow, downloadPath, branchPath, branchPath, toInt_toInt]
  rfl

/-- A file that is none of the user can be different in a state that agrees on the user: it may be
the file of another one. -/
lemma exists_agree_of_not_ownFile (hkeys : db.KeysOk) (m : Memory) (header : Bytes)
    {row : BranchRow} (hne : row.user ≠ getuserid m header db)
    (hown : ¬ OwnFile db (getuserid m header db) row.file) :
    ∃ s', Agree m header ⟨db, fun _ => none⟩ s' ∧ s'.dir row.file = some [] := by
  let dir : Directory := Function.update (fun _ => none) row.file (some [])
  have hdir : ∀ path ≠ row.file, dir path = none := fun path hpath => by simp [dir, hpath]
  by_cases hother : OthersFile db (getuserid m header db) row.file
  · -- it is the file of another user
    refine ⟨⟨db, dir⟩, ⟨hkeys, rfl, rfl, fun path hpath => ?_⟩, by simp [dir]⟩
    apply hdir path
    rintro rfl
    exact hpath.elim hown fun h => h.1 hother
  · -- it is the file of no user yet
    have hfresh : ∀ r ∈ db.branches, r.id ≠ row.id := by
      intro r hr hid
      have hfile : r.file = row.file := by rw [BranchRow.file, BranchRow.file, hid]
      by_cases huser : r.user = getuserid m header db
      · exact hown ⟨r, hr, huser, hfile⟩
      · exact hother ⟨r, hr, huser, hfile⟩
    let db' : Database := ⟨db.users, db.branches ++ [row]⟩
    have hkeys' : db'.KeysOk := by
      rw [Database.KeysOk, List.map_append, List.nodup_append]
      refine ⟨hkeys, by simp, fun id hid id' hid' heq => ?_⟩
      obtain ⟨r, hr, rfl⟩ := List.mem_map.mp hid
      obtain rfl : id' = row.id := by simpa using hid'
      exact hfresh r hr heq
    refine ⟨⟨db', dir⟩, ⟨hkeys', rfl, ?_, fun path hpath => ?_⟩, by simp [dir]⟩
    · simp [db', List.filter_append, hne]
    · apply hdir path
      rintro rfl
      exact hpath.elim hown fun h => h.2 ⟨row, by simp [db'], hne, rfl⟩

/-- **A download** is isolated exactly when the file is one of the user. -/
lemma isolated_branch_iff (hkeys : db.KeysOk) : Isolated .branch m request db ↔
    getuserid m request.header db ≠ 0 ∧
      OwnFile db (getuserid m request.header db) (downloadPath m request.addr) := by
  have hdiffer (s' : ServerState) (hs' : s'.dir (downloadPath m request.addr) = some []) :
      (Endpoint.handle goodAnswers m request s' .branch).map Prod.fst ≠
        (Endpoint.handle goodAnswers m request ⟨db, fun _ => none⟩ .branch).map Prod.fst := by
    simp [handle_branch, World.readable, goodAnswers, hs']
  constructor
  · intro hisolated
    refine ⟨fun hzero => ?_, ?_⟩
    · exact hdiffer ⟨db, fun _ => some []⟩ rfl
        (hisolated.readsNothing hzero goodAnswers (fun _ => none) _ hkeys hzero)
    · by_contra hown
      let row := downloadRow m request.addr (getuserid m request.header db + 1)
      have hrow : row.file = downloadPath m request.addr := file_downloadRow _ _ _
      rw [← hrow] at hown
      obtain ⟨s', hagree, hs'⟩ := exists_agree_of_not_ownFile hkeys m request.header
        (by simp [row, downloadRow]) hown
      exact hdiffer s' (hrow ▸ hs') (hisolated.responses goodAnswers (fun _ => none) s' hagree)
  · rintro ⟨hne, hown⟩
    apply isolated_of_unchanged
    · intro x dir response s' h
      rw [handle_branch, Option.some.injEq, Prod.mk.injEq] at h
      exact h.2.symm
    · intro x dir s' hagree
      have hsame : x.readable s'.dir (downloadPath m request.addr) =
          x.readable dir (downloadPath m request.addr) := by
        rw [World.readable, World.readable, hagree.files _ (.inl hown)]
      rw [handle_branch, handle_branch, Option.map_some, Option.map_some, hsame]
    · exact fun hzero => absurd hzero hne

/-! ## The upload -/

section Upload

variable {env : SystemCalls} {beyond : List UInt8} {path : Path}

/-- A write leaves the other files. -/
lemma write_of_ne {s : Scan} (h : s.file ≠ some path) : (s.write env).dir path = s.dir path := by
  rw [Scan.write]
  cases hfile : s.file with
  | none => rfl
  | some path' => exact Directory.append_of_ne _ fun heq => h (by rw [hfile, heq])

lemma committed_of_ne {s : Scan} (h : s.file ≠ some path) :
    (s.committed env).dir path = s.dir path := by
  rw [Scan.committed]
  split_ifs
  · exact write_of_ne h
  · rfl

/-- A write removes no file. -/
lemma write_isSome {s : Scan} (h : (s.dir path).isSome) : ((s.write env).dir path).isSome := by
  rw [Scan.write]
  cases hfile : s.file with
  | none => exact h
  | some path' => exact Directory.append_isSome _ h

lemma committed_isSome {s : Scan} (h : (s.dir path).isSome) :
    ((s.committed env).dir path).isSome := by
  rw [Scan.committed]
  split_ifs
  · exact write_isSome h
  · exact h

/-- **Files that no segment names** stay as they are. -/
lemma Leaves.dir_of_not_reaches {s : Scan} {r : HttpResult × Directory}
    (h : Loop.Leaves (scanBody env beyond) s r) (hfile : s.file ≠ some path)
    (hnot : ¬ Reaches beyond s.file.isSome s.rest path) : r.2 path = s.dir path := by
  induction h with
  | leave hbody =>
    rename_i s r
    have hturn := scanBody_turn env beyond s
    rw [hbody] at hturn
    cases hturn with
    | done => exact write_of_ne hfile
    | badSegment => exact committed_of_ne hfile
    | badRecord | badOpcode => rfl
  | turn hbody _ ih =>
    rename_i s t r _
    have hturn := scanBody_turn env beyond s
    rw [hbody] at hturn
    cases hturn with
    | segment hrest hne hopen =>
      rw [hrest] at hnot
      have hpath : path ≠ segmentPath beyond _ := fun heq => hnot (heq ▸ .here hne)
      rw [ih (by simpa using Ne.symm hpath) fun hreaches => hnot (.segment hne hreaches)]
      exact (Directory.append_of_ne [] hpath).trans (committed_of_ne hfile)
    | record hrest hsome hheader hlen =>
      refine ih hfile fun hreaches => hnot ?_
      rw [hrest] at hheader hlen hreaches ⊢
      rw [hsome] at hreaches ⊢
      exact .record hheader hlen hreaches

/-- A scan removes no file. -/
lemma Leaves.dir_isSome {s : Scan} {r : HttpResult × Directory}
    (h : Loop.Leaves (scanBody env beyond) s r) (hsome : (s.dir path).isSome) :
    (r.2 path).isSome := by
  induction h with
  | leave hbody =>
    rename_i s r
    have hturn := scanBody_turn env beyond s
    rw [hbody] at hturn
    cases hturn with
    | done => exact write_isSome hsome
    | badSegment => exact committed_isSome hsome
    | badRecord | badOpcode => exact hsome
  | turn hbody _ ih =>
    rename_i s t r _
    have hturn := scanBody_turn env beyond s
    rw [hbody] at hturn
    cases hturn with
    | segment => exact ih (Directory.append_isSome [] (committed_isSome hsome))
    | record => exact ih hsome

/-- **Files that a segment names** are there after the scan, when every `open` succeeds. -/
lemma Leaves.dir_of_reaches (hopens : ∀ k, env.opens k = true) {opened : Bool}
    {rest : List UInt8} (hreaches : Reaches beyond opened rest path) {s : Scan}
    (hopened : s.file.isSome = opened) (hrest : s.rest = rest) {r : HttpResult × Directory}
    (h : Loop.Leaves (scanBody env beyond) s r) : (r.2 path).isSome := by
  induction hreaches generalizing s with
  | @here _ rest hne =>
    apply Leaves.dir_isSome (h.of_turn (scanBody_segment beyond hrest hne (hopens _)))
    simp [Directory.create, Directory.append]
  | segment hne _ ih => exact ih rfl rfl (h.of_turn (scanBody_segment beyond hrest hne (hopens _)))
  | record hheader hlen _ ih =>
    rw [← hrest] at hheader hlen ih
    have ht := h.of_turn (scanBody_record beyond hrest hopened hheader hlen)
    exact ih (by exact hopened) rfl ht

end Upload

/-- What an upload leaves with. -/
lemma handle_feed (x : World) (m : Memory) (request : HttpRequest) (s : ServerState) :
    ∃ status dir', Endpoint.handle x m request s .feed =
        some ((status, some []), { s with dir := dir' }) ∧
      Loop.Leaves (scanBody x.env (m.read ⟨request.payload.asVoid + request.payload.len, 3⟩))
        (Scan.start (m.read request.payload) s.dir) (status, dir') := by
  obtain ⟨status, f, hfeed, hleaves⟩ := httpCallbackFeed_spec x.env m request.payload s.dir
  refine ⟨status, f.dir, ?_, hleaves⟩
  unfold Endpoint.handle Endpoint.callback Callback.run
  rw [hfeed]
  rfl

/-- The response to an upload does not depend on the state. -/
lemma handle_feed_response (x : World) (m : Memory) (request : HttpRequest)
    (s s' : ServerState) : (Endpoint.handle x m request s' .feed).map Prod.fst =
      (Endpoint.handle x m request s .feed).map Prod.fst := by
  obtain ⟨status, dir, hhandle, hleaves⟩ := handle_feed x m request s
  obtain ⟨status', dir', hhandle', hleaves'⟩ := handle_feed x m request s'
  have hstatus : status' = status := by
    obtain ⟨hok, hbad⟩ := leaves_status hleaves
    obtain ⟨hok', hbad'⟩ := leaves_status hleaves'
    by_cases hscan : Scannable x.env.opens 0 false (m.read request.payload)
    · rw [hok.mpr hscan, hok'.mpr hscan]
    · rw [hbad.mpr hscan, hbad'.mpr hscan]
  rw [hhandle, hhandle', hstatus]
  rfl

/-- **An upload** is isolated exactly when its segments name no file of another user, and none
without a session. -/
lemma isolated_feed_iff : Isolated .feed m request db ↔ ∀ path,
    Reaches (m.read ⟨request.payload.asVoid + request.payload.len, 3⟩) false
      (m.read request.payload) path →
    getuserid m request.header db ≠ 0 ∧ ¬ OthersFile db (getuserid m request.header db) path := by
  constructor
  · intro hisolated path hreaches
    obtain ⟨status, dir, hhandle, hleaves⟩ := handle_feed goodAnswers m request ⟨db, fun _ => none⟩
    have hmade : (dir path).isSome :=
      Leaves.dir_of_reaches (fun _ => rfl) hreaches rfl rfl hleaves
    refine ⟨fun hzero => ?_, fun hother => ?_⟩
    · have hkept : dir = fun _ => none :=
        (hisolated.changesNothing hzero goodAnswers (fun _ => none) _ _ hhandle).2
      simp [hkept] at hmade
    · have hkept : dir path = none :=
        hisolated.files goodAnswers (fun _ => none) _ _ hhandle path hother
      simp [hkept] at hmade
  · intro hreaches
    have hkept (x : World) (dir : Directory) (response : Response) (s' : ServerState)
        (h : Endpoint.handle x m request ⟨db, dir⟩ .feed = some (response, s')) :
        s'.db = db ∧ ∀ path, ¬ Reaches (m.read ⟨request.payload.asVoid + request.payload.len, 3⟩)
          false (m.read request.payload) path → s'.dir path = dir path := by
      obtain ⟨status, dir', hhandle, hleaves⟩ := handle_feed x m request ⟨db, dir⟩
      rw [hhandle, Option.some.injEq, Prod.mk.injEq] at h
      rw [← h.2]
      exact ⟨rfl, fun path hnot => Leaves.dir_of_not_reaches hleaves (by simp [Scan.start]) hnot⟩
    refine ⟨?_, ?_, ?_, ?_, ?_⟩
    · intro x dir response s' h
      rw [(hkept x dir response s' h).1]
    · intro x dir response s' h path hother
      exact (hkept x dir response s' h).2 path fun h => (hreaches path h).2 hother
    · intro x dir s' _
      exact handle_feed_response x m request _ s'
    · intro hzero x dir response s' h
      obtain ⟨hdb, hdir⟩ := hkept x dir response s' h
      refine ⟨by rw [hdb], funext fun path => hdir path fun h => (hreaches path h).1 hzero⟩
    · intro _ x dir s' _ _
      exact handle_feed_response x m request _ s'

/-! ## All endpoints -/

/-- **Isolation.** A request is isolated if and only if it is for branch data of its user: the
listing and new branches always are; a download is, when the file belongs to a branch of the user of
the session; an upload is, when no segment of it names a file of another user, or any file without
a session.

**Proof sketch.** The listing and new branches ask for the user. A download does not, so a file
that is none of the user can be different in a state that agrees on the user
(`exists_agree_of_not_ownFile`). An upload does not either; it leaves the files that no segment
names, and makes those that one names (`Leaves.dir_of_not_reaches`, `Leaves.dir_of_reaches`). -/
theorem isolated_iff (hkeys : db.KeysOk) (e : Endpoint) (m : Memory) (request : HttpRequest) :
    Isolated e m request db ↔ ForOwnBranches m request db e := by
  cases e with
  | branch => exact isolated_branch_iff hkeys
  | branches => exact iff_of_true isolated_branches trivial
  | newbranch => exact iff_of_true isolated_newbranch trivial
  | feed => exact isolated_feed_iff

/-- The tables with one user, of the session 5, and a branch. -/
def oneBranch : Database := ⟨[⟨1, [], [], 5⟩], [⟨⟨1, 0, 0, 1⟩, 1⟩]⟩

/-- An upload of the user of the session 5 to the branch 1. -/
theorem isolated_iff_upload :
    let r := sessionRequest [98, 0, 0, 0, 1]
    Isolated .feed r.1 r.2 oneBranch ↔ ForOwnBranches r.1 r.2 oneBranch .feed :=
  isolated_iff (show (oneBranch.branches.map fun r => r.id).Nodup by decide) _ _ _

/-- The download of the branch 1, and an upload to it, without a session. -/
theorem request_without_session_not_isolated :
    let text := ascii "GET /api/0/branch/1 HTTP/1.1"
    let download : HttpRequest := ⟨⟨0, 28⟩, ⟨28, 0⟩, ⟨4, 15⟩⟩
    let text' := ascii "POST /api/0/feed HTTP/1.1" ++ [98, 0, 0, 0, 1]
    let upload : HttpRequest := ⟨⟨0, 25⟩, ⟨25, 5⟩, ⟨5, 11⟩⟩
    let m : Memory := fun x => text.getD x 0
    let m' : Memory := fun x => text'.getD x 0
    OthersFile oneBranch 0 (ascii "branches/1") ∧
      getuserid m download.header oneBranch = 0 ∧
      (∀ x dir, Endpoint.handle x m download ⟨oneBranch, dir⟩ .branch = some
        ((.ok, (x.readable dir (ascii "branches/1")).map fun content =>
          content.take (2 ^ 20)), ⟨oneBranch, dir⟩)) ∧
      ¬ Isolated .branch m download oneBranch ∧
      getuserid m' upload.header oneBranch = 0 ∧
      Reaches (m'.read ⟨30, 3⟩) false (m'.read upload.payload) (ascii "branches/1") ∧
      ¬ Isolated .feed m' upload oneBranch := by
  intro text download text' upload m m'
  have hkeys : oneBranch.KeysOk :=
    show (oneBranch.branches.map fun r => r.id).Nodup by decide
  have huser : getuserid m download.header oneBranch = 0 := by decide +kernel
  have huser' : getuserid m' upload.header oneBranch = 0 := by decide +kernel
  have hpath : downloadPath m download.addr = ascii "branches/1" := by decide +kernel
  have hfile : segmentPath (m'.read ⟨30, 3⟩) [0, 0, 0, 1] = ascii "branches/1" := by decide +kernel
  have hpayload : m'.read upload.payload = 98 :: [0, 0, 0, 1] := by decide +kernel
  have hreaches :
      Reaches (m'.read ⟨30, 3⟩) false (m'.read upload.payload) (ascii "branches/1") := by
    rw [hpayload, ← hfile]
    exact .here (by simp)
  refine ⟨⟨⟨⟨1, 0, 0, 1⟩, 1⟩, by decide, by decide, by decide +kernel⟩, huser, fun x dir => ?_,
    fun hisolated => ?_, huser', hreaches, fun hisolated => ?_⟩
  · rw [handle_branch, hpath]
  · exact ((isolated_branch_iff hkeys).mp hisolated).1 huser
  · exact (isolated_feed_iff.mp hisolated _ hreaches).1 huser'

end SleepyText.Server
