import SleepyText.Server.Ledger

set_option relaxedAutoImplicit false
set_option autoImplicit false

/-!
# Answers from the log

What a request is answered with depends on the requests that have been answered before it. The log
tells what each of them has left in the tables and in the files.

## Main definitions

* `contribution`, `Exchange.uploads` — what an upload appends to a file.
* `Exchange.registers` — the account that an exchange has registered.

## Main results

* `downloads_read_uploads` — a download is what has been uploaded.
* `listings_read_branches` — a listing is what has been created.
* `logins_read_registrations` — a login is checked against the first registration of its name.
-/

namespace SleepyText.Server

variable {accept : List UInt8 → List UInt8}

/-! ## Uploads -/

/-- What an upload appends to a file. -/
def contribution (env : SystemCalls) (beyond payload : List UInt8) (path : Path) : List UInt8 :=
  ((Loop.loop (scanBody env beyond) (2 * payload.length + 2)
    (Scan.start payload fun _ => none)).map fun r => r.2.content path).getD []

/-- To the files of `c` and `c'` the same has been appended. -/
def SameAppends (c c' dir dir' : Directory) : Prop :=
  ∀ path, ∃ bs, dir.content path = c.content path ++ bs ∧ dir'.content path = c'.content path ++ bs

section Uploads

variable {env : SystemCalls} {beyond : List UInt8} {c c' : Directory}

/-- The same is appended once more. -/
lemma SameAppends.trans {dir dir' e e' : Directory} (h : SameAppends c c' dir dir')
    (h' : SameAppends dir dir' e e') : SameAppends c c' e e' := by
  intro path
  obtain ⟨bs, hdir, hdir'⟩ := h path
  obtain ⟨bs', he, he'⟩ := h' path
  exact ⟨bs ++ bs', by rw [he, hdir, List.append_assoc], by rw [he', hdir', List.append_assoc]⟩

/-- What is written does not depend on the files. -/
lemma sameAppends_write (s : Scan) (dir : Directory) :
    SameAppends s.dir dir (s.write env).dir (Scan.write env { s with dir := dir }).dir :=
  fun path => ⟨_, content_write s path, content_write { s with dir := dir } path⟩

/-- A segment that is committed. -/
lemma sameAppends_committed (s : Scan) (dir : Directory) :
    SameAppends s.dir dir (s.committed env).dir (Scan.committed env { s with dir := dir }).dir :=
  fun path => ⟨_, content_committed s path, content_committed { s with dir := dir } path⟩

/-- Scans of the same bytes, to whose files the same has been appended. -/
def Alike (c c' : Directory) (s t : Scan) : Prop :=
  ∃ dir, t = { s with dir := dir } ∧ SameAppends c c' s.dir dir

/-- The number of calls does not depend on the files. -/
lemma calls_committed_dir (s : Scan) (dir : Directory) :
    (Scan.committed env { s with dir := dir }).calls = (s.committed env).calls := by
  unfold Scan.committed Scan.write
  split_ifs <;> rfl

/-- **One turn** does not depend on the files. -/
lemma alike_body {s t : Scan} (h : Alike c c' s t) :
    Sum.LiftRel (Alike c c') (fun r r' => r.1 = r'.1 ∧ SameAppends c c' r.2 r'.2)
      (scanBody env beyond s) (scanBody env beyond t) := by
  obtain ⟨dir, rfl, hdir⟩ := h
  have hcalls := @calls_committed_dir env s dir
  have hcommitted := hdir.trans (@sameAppends_committed env s dir)
  have hwrite := hdir.trans (@sameAppends_write env s dir)
  rcases s with ⟨_ | ⟨b, rest⟩, region, file, files, calls⟩
  · exact .inr ⟨rfl, hwrite⟩
  · unfold scanBody
    dsimp only at hcalls hcommitted ⊢
    split_ifs
    · unfold scanSegment
      dsimp only
      rw [hcalls]
      split_ifs
      · exact .inr ⟨rfl, hcommitted⟩
      · refine .inl ⟨_, rfl, hcommitted.trans fun path => ⟨[], ?_⟩⟩
        simp
      · exact .inr ⟨rfl, hcommitted⟩
    · unfold scanRecord
      dsimp only
      split_ifs
      · exact .inr ⟨rfl, hdir⟩
      · exact .inr ⟨rfl, hdir⟩
      · exact .inr ⟨rfl, hdir⟩
      · exact .inl ⟨dir, rfl, hdir⟩
    · exact .inr ⟨rfl, hdir⟩

/-- **An upload** appends its contribution, whatever the files are. -/
lemma content_loop {payload : List UInt8} {dir : Directory} {r : HttpResult × Directory}
    (h : Loop.loop (scanBody env beyond) (2 * payload.length + 2) (Scan.start payload dir) = some r)
    (path : Path) :
    r.2.content path = dir.content path ++ contribution env beyond payload path := by
  have hrel := Loop.loop_rel (fun s t => @alike_body env beyond dir (fun _ => none) s t)
    (2 * payload.length + 2) (s := Scan.start payload dir) (t := Scan.start payload fun _ => none)
    ⟨fun _ => none, rfl, fun path => ⟨[], by simp [Scan.start]⟩⟩
  rw [h] at hrel
  unfold contribution
  generalize Loop.loop (scanBody env beyond) _ (Scan.start payload fun _ => none) = x at hrel
  cases hrel with
  | some hsame =>
    obtain ⟨bs, hcontent, hcontent'⟩ := hsame.2 path
    rw [hcontent, Option.map_some, Option.getD_some, hcontent']
    rfl

end Uploads

/-! ## What each exchange leaves -/

/-- What an exchange has appended to a file. -/
def Exchange.uploads (path : Path) (x : Exchange) : List UInt8 :=
  if x.To .feed then contribution x.world.env x.beyond x.request.payload path else []

/-- The account that an exchange has registered: a request for a new user that was accepted. -/
def Exchange.registers (x : Exchange) : Option (List UInt8 × List UInt8 × ℤ) :=
  if x.To .user ∧ x.status = .ok then
    some (Search.before [10] x.request.payload, Search.after [10] x.request.payload,
      x.world.random)
  else none

section Exchanges

variable {w : World} {beyond tail : List UInt8} {r : Parsed} {a : Reply} {s t : ServerState}

/-- What one request leaves in a file. -/
lemma content_reply (h : reply accept w beyond tail r s = some (a, t)) (path : Path) :
    t.dir.content path = s.dir.content path ++ (a.exchange r w beyond).uploads path := by
  have hsame : t.dir = s.dir → ¬ (a.exchange r w beyond).To .feed →
      t.dir.content path = s.dir.content path ++ (a.exchange r w beyond).uploads path := by
    intro hdir hnot
    rw [Exchange.uploads, if_neg hnot, hdir, List.append_nil]
  obtain ⟨callback, hto, h⟩ | ⟨hnot, rfl⟩ := reply_cases h
  · by_cases heq : callback = .feed
    · subst heq
      obtain ⟨status, hloop⟩ := reply_feed h
      rw [Exchange.uploads, if_pos hto]
      exact content_loop hloop path
    · exact hsame ((reply_frame h).2.2 heq) fun hfeed => heq (hto.unique hfeed)
  · exact hsame rfl (hnot _)

/-- The accounts in the table of users. -/
def Database.accounts (db : Database) : List (List UInt8 × List UInt8 × ℤ) :=
  db.users.map fun u => (u.login, u.password, u.session)

/-- What one request leaves in the table of users. -/
lemma accounts_reply (h : reply accept w beyond tail r s = some (a, t)) :
    t.db.accounts = s.db.accounts ++ (a.exchange r w beyond).registers.toList := by
  have hsame : t.db.users = s.db.users →
      ¬ ((a.exchange r w beyond).To .user ∧ a.status = .ok) →
        t.db.accounts = s.db.accounts ++ (a.exchange r w beyond).registers.toList := by
    intro husers hnot
    have hregisters : (a.exchange r w beyond).registers = none := if_neg hnot
    rw [hregisters, Database.accounts, Database.accounts, husers]
    simp
  obtain ⟨callback, hto, h⟩ | ⟨hnot, rfl⟩ := reply_cases h
  · by_cases heq : callback = .user
    · subst heq
      obtain ⟨hok, id, hinsert⟩ | ⟨hbad, rfl⟩ := reply_user h
      · have hregisters : (a.exchange r w beyond).registers = some (Search.before [10] r.payload,
            Search.after [10] r.payload, w.random) := if_pos ⟨hto, hok⟩
        rw [hregisters, Database.accounts, Database.accounts, hinsert, List.map_append]
        rfl
      · exact hsame rfl fun hnot => hbad hnot.2
    · exact hsame ((reply_frame h).1 heq) fun huser => heq (hto.unique huser.1)
  · exact hsame rfl fun huser => hnot _ huser.1

end Exchanges

/-! ## What a log leaves -/

section Logs

variable {s t : ServerState} {xs : List Exchange}

/-- A file is what was uploaded to it, in the order of the requests. -/
lemma content_serial (h : Serial accept s xs t) (path : Path) :
    t.dir.content path = s.dir.content path ++ xs.flatMap (Exchange.uploads path) := by
  induction h with
  | nil => simp
  | cons beyond tail hreply _ ih =>
    rw [ih, content_reply hreply path, List.append_assoc, List.flatMap_cons]

/-- The accounts are those registered, in the order of the requests. -/
lemma accounts_serial (h : Serial accept s xs t) :
    t.db.accounts = s.db.accounts ++ xs.filterMap Exchange.registers := by
  induction h with
  | nil => simp
  | @cons s t u w r a xs beyond tail hreply _ ih =>
    rw [ih, accounts_reply hreply, List.append_assoc, List.filterMap_cons]
    cases (a.exchange r w beyond).registers <;> rfl

/-- **An exchange of a log**: what it was answered with, in the state that the ones in front of it
have left. -/
lemma Serial.middle {pre post : List Exchange} {x : Exchange}
    (h : Serial accept s (pre ++ x :: post) t) : ∃ u v a tail, Serial accept s pre u ∧
      reply accept x.world x.beyond tail x.request u = some (a, v) ∧
      x = a.exchange x.request x.world x.beyond ∧ Serial accept v post t := by
  induction pre generalizing s with
  | nil =>
    cases h with
    | cons beyond tail hreply hrest => exact ⟨s, _, _, tail, .nil _, hreply, rfl, hrest⟩
  | cons y pre ih =>
    cases h with
    | cons beyond tail hreply hrest =>
      obtain ⟨u, v, a, tail', hpre, hx⟩ := ih hrest
      exact ⟨u, v, a, tail', .cons beyond tail hreply hpre, hx⟩

end Logs

/-! ## The answers -/

section Runs

variable {m : Memory} {state : ServerState} {es : List ServerEvent} {s : Process}
  {pre post : List (ℕ × Exchange)} {i : ℕ} {x : Exchange}

/-- An exchange in the log of a run. -/
lemma middle_of_run
    (hallocated : Run.Guarded (serverStep accept) Process.Allocated (.init m state) es)
    (hrun : Run.run (serverStep accept) (.init m state) es = some s)
    (hlog : s.log = pre ++ (i, x) :: post) :
    ∃ u v a tail, Serial accept state (pre.map Prod.snd) u ∧
      reply accept x.world x.beyond tail x.request u = some (a, v) ∧
      x = a.exchange x.request x.world x.beyond ∧
      Serial accept v (post.map Prod.snd) s.state := by
  obtain ⟨xs, hxs, hserial⟩ := serial_of_run (sound_init m state) hallocated hrun
  have hxs' : s.log = xs := hxs
  rw [← hxs', hlog, List.map_append, List.map_cons] at hserial
  exact hserial.middle

/-- The answer of the handler that the request of an exchange went to. -/
lemma reply_of_to {w : World} {beyond tail : List UInt8} {r : Parsed} {a : Reply}
    {s t : ServerState} {callback : Callback}
    (h : reply accept w beyond tail r s = some (a, t))
    (hto : (a.exchange r w beyond).To callback) : callback.reply w beyond r s = some (a, t) := by
  obtain ⟨callback', hto', hreply⟩ | ⟨hnot, -⟩ := reply_cases h
  · rwa [hto.unique hto']
  · exact absurd hto (hnot _)

/-- A client registers, logs in, creates a document, uploads a change to it, and asks for its
branches and for the document. -/
def oneSession : List ServerEvent :=
  [.accept 4,
    .ondata 4 (.of 1 (ascii "POST /api/0/user HTTP/1.1\r\nContent-Length: 3\r\n\r\na\nb")),
    .ondata 4 (.of (1 + 2 ^ 21)
      (ascii "POST /api/0/login HTTP/1.1\r\nContent-Length: 3\r\n\r\na\nb")),
    .ondata 4 (.of (1 + 2 ^ 22) (ascii ("POST /api/0/newbranch HTTP/1.1\r\nCookie: session=5\r\n" ++
      "Content-Length: 5\r\n\r\n0 0 7"))),
    .ondata 4 (.of (1 + 3 * 2 ^ 21)
      (ascii "POST /api/0/feed HTTP/1.1\r\nContent-Length: 19\r\n\r\n" ++
        [98, 0, 0, 0, 1, 105, 0, 0, 0, 0, 0, 0, 0, 0, 0, 0, 0, 1, 120])),
    .ondata 4 (.of (1 + 2 ^ 23)
      (ascii "GET /api/0/branches HTTP/1.1\r\nCookie: session=5\r\n\r\n")),
    .ondata 4 (.of (1 + 5 * 2 ^ 21) (ascii "GET /api/0/branch/1 HTTP/1.1\r\n\r\n"))]

/-- The blocks of this run lie one behind the other. -/
lemma takenFrom_oneSession : TakenFrom 1 oneSession := by
  simp [TakenFrom, oneSession, ServerEvent.TakenFrom, ServerEvent.next, Call.of]

/-- An entry of the log of this run. -/
lemma entry_oneSession {α : Type*} (f : ServerState → Exchange → α) {k : ℕ} {a : α}
    (h : (Run.run (serverStep acceptNoKey) (.init (fun _ => 0) ⟨⟨[], []⟩, fun _ => none⟩)
      oneSession).bind (fun s => s.log[k]?.map fun e => f s.state e.2) = some a) :
    ∃ s pre i x post, Run.run (serverStep acceptNoKey)
        (.init (fun _ => 0) ⟨⟨[], []⟩, fun _ => none⟩) oneSession = some s ∧
      s.log = pre ++ (i, x) :: post ∧ f s.state x = a := by
  obtain ⟨s, hrun, hentry⟩ := Option.bind_eq_some_iff.mp h
  obtain ⟨⟨i, x⟩, hget, heq⟩ := Option.map_eq_some_iff.mp hentry
  obtain ⟨hlt, hget⟩ := List.getElem?_eq_some_iff.mp hget
  refine ⟨s, s.log.take k, i, x, s.log.drop (k + 1), hrun, ?_, heq⟩
  rw [← hget, List.getElem_cons_drop, List.take_append_drop]

/-- **A download** is answered with what was in the file of the branch at the start, and behind it
what the uploads that were answered before have appended to it, up to 2^20 bytes; when the file
cannot be opened or read, with nothing, of the length -1. -/
theorem downloads_read_uploads
    (hallocated : Run.Guarded (serverStep accept) Process.Allocated (.init m state) es)
    (hrun : Run.run (serverStep accept) (.init m state) es = some s)
    (hlog : s.log = pre ++ (i, x) :: post) (hto : x.To .branch) :
    let path := resolve (branchPath "branches/"
      (btoi (x.request.addr.drop (ascii "/api/0/branch/").length)))
    x.status = .ok ∧
      if x.world.env.opens 0 && x.world.reads then
        x.payload = (state.dir.content path ++
          (pre.map Prod.snd).flatMap (Exchange.uploads path)).take (2 ^ 20)
      else x.payload = [] ∧ x.payloadLen = -1 := by
  intro path
  obtain ⟨u, v, a, tail, hpre, hreply, hx, -⟩ := middle_of_run hallocated hrun hlog
  rw [hx] at hto
  have hbranch := reply_of_to hreply hto
  obtain ⟨rfl, rfl⟩ := Prod.mk.inj (Option.some.inj hbranch)
  rw [← content_serial hpre path, hx]
  refine ⟨rfl, ?_⟩
  unfold Reply.exchange Reply.body Reply.payloadLen World.readable
  dsimp only
  split_ifs with hreadable
  · unfold Directory.content
    change ((u.dir path).map _).getD [] = _
    cases u.dir path <;> simp
  · exact ⟨rfl, by decide⟩

/-- The change as it is stored: its lengths are in the order of the machine. -/
theorem downloads_read_uploads_oneSession :
    ∃ (pre : List (ℕ × Exchange)) (x : Exchange),
      (x.world.env.opens 0 && x.world.reads) = true ∧
      x.payload = [105, 0, 0, 0, 0, 0, 0, 0, 0, 1, 0, 0, 0, 120] ∧
      let path := resolve (branchPath "branches/"
        (btoi (x.request.addr.drop (ascii "/api/0/branch/").length)))
      x.status = .ok ∧
        if x.world.env.opens 0 && x.world.reads then
          x.payload = (Directory.content (fun _ => none) path ++
            (pre.map Prod.snd).flatMap (Exchange.uploads path)).take (2 ^ 20)
        else x.payload = [] ∧ x.payloadLen = -1 := by
  have h : (Run.run (serverStep acceptNoKey) (.init (fun _ => 0) ⟨⟨[], []⟩, fun _ => none⟩)
      oneSession).bind (fun s => s.log[5]?.map fun e => (decide (e.2.To .branch),
        e.2.world.env.opens 0 && e.2.world.reads, e.2.payload)) =
          some (true, true, [105, 0, 0, 0, 0, 0, 0, 0, 0, 1, 0, 0, 0, 120]) := by decide +kernel
  obtain ⟨s, pre, i, x, post, hrun, hlog, heq⟩ := entry_oneSession (fun _ x =>
    (decide (x.To .branch), x.world.env.opens 0 && x.world.reads, x.payload)) h
  obtain ⟨hto, heq⟩ := Prod.mk.inj heq
  obtain ⟨hopens, hpayload⟩ := Prod.mk.inj heq
  exact ⟨pre, x, hopens, hpayload, downloads_read_uploads
    (allocated_init _ _ takenFrom_oneSession) hrun hlog (of_decide_eq_true hto)⟩

/-- What a login is answered with: the password is compared with that of the first account of the
name. -/
def loginReply (accounts : List (List UInt8 × List UInt8 × ℤ)) (payload : List UInt8) : Reply :=
  match accounts.find? fun e => e.1 = Search.before [10] payload with
  | none => .plain .badRequest
  | some (_, password, session) =>
    if Search.after [10] payload = password then
      ⟨.ok, [(ascii "Set-Cookie", sessionCookie session)], some []⟩
    else .plain .badRequest

/-- The first row with a login, and the first account with its name. -/
lemma selectpassword_eq (db : Database) (login : List UInt8) : db.selectpassword login =
    (db.accounts.find? fun e => e.1 = login).map fun e => (e.2.1, e.2.2) := by
  rw [Database.selectpassword, Database.accounts, List.find?_map, Option.map_map]
  rfl

/-- **A login** is checked against the accounts that there were at the start, and behind them those
that the requests answered before have registered, of which the first one of the name counts; if
the password is the one of this account, the answer has its session. -/
theorem logins_read_registrations
    (hallocated : Run.Guarded (serverStep accept) Process.Allocated (.init m state) es)
    (hrun : Run.run (serverStep accept) (.init m state) es = some s)
    (hlog : s.log = pre ++ (i, x) :: post) (hto : x.To .login) :
    x = (loginReply (state.db.accounts ++ (pre.map Prod.snd).filterMap Exchange.registers)
      x.request.payload).exchange x.request x.world x.beyond := by
  obtain ⟨u, v, a, tail, hpre, hreply, hx, -⟩ := middle_of_run hallocated hrun hlog
  rw [hx] at hto
  have hlogin := reply_of_to hreply hto
  rw [← accounts_serial hpre]
  refine hx.trans (congrArg (fun a : Reply => a.exchange _ _ _) ?_)
  simp only [Callback.reply, selectpassword_eq] at hlogin
  unfold loginReply
  cases hfind : u.db.accounts.find? fun e => e.1 = Search.before [10] x.request.payload with
  | none =>
    rw [hfind] at hlogin
    exact (congrArg Prod.fst (Option.some.inj hlogin)).symm
  | some account =>
    obtain ⟨login, password, session⟩ := account
    rw [hfind] at hlogin
    dsimp only [Option.map_some] at hlogin ⊢
    split_ifs at hlogin ⊢
    · exact (congrArg Prod.fst (Option.some.inj hlogin)).symm
    · exact (congrArg Prod.fst (Option.some.inj hlogin)).symm

/-- The login of the account that was registered before. -/
theorem logins_read_registrations_oneSession :
    ∃ (pre : List (ℕ × Exchange)) (x : Exchange), x.request.payload = ascii "a\nb" ∧
      x.status = .ok ∧
      x = (loginReply (Database.accounts ⟨[], []⟩ ++
        (pre.map Prod.snd).filterMap Exchange.registers) x.request.payload).exchange
          x.request x.world x.beyond := by
  have h : (Run.run (serverStep acceptNoKey) (.init (fun _ => 0) ⟨⟨[], []⟩, fun _ => none⟩)
      oneSession).bind (fun s => s.log[1]?.map fun e =>
        (decide (e.2.To .login), e.2.request.payload, e.2.status)) =
          some (true, ascii "a\nb", .ok) := by decide +kernel
  obtain ⟨s, pre, i, x, post, hrun, hlog, heq⟩ := entry_oneSession
    (fun _ x => (decide (x.To .login), x.request.payload, x.status)) h
  obtain ⟨hto, heq⟩ := Prod.mk.inj heq
  obtain ⟨hpayload, hok⟩ := Prod.mk.inj heq
  exact ⟨pre, x, hpayload, hok, logins_read_registrations
    (allocated_init _ _ takenFrom_oneSession) hrun hlog (of_decide_eq_true hto)⟩

/-- Where sessions are distinct, the row with a session is found. -/
lemma selectuserid_of_nodup {db : Database} (hnodup : (db.users.map User.session).Nodup) {u : User}
    (hu : u ∈ db.users) : db.selectuserid u.session = some u.id := by
  have hsome : (db.users.find? fun v => v.session = u.session).isSome := by
    rw [List.find?_isSome]
    exact ⟨u, hu, by simp⟩
  obtain ⟨v, hv⟩ := Option.isSome_iff_exists.mp hsome
  have heq : v = u := List.inj_on_of_nodup_map hnodup (List.mem_of_find?_eq_some hv) hu
    (by simpa using List.find?_some hv)
  rw [Database.selectuserid, hv, heq, Option.map_some]

/-- **From a login to the user.** The answer to an accepted login has the session of an account
with its name and its password, and a header with this session in its cookies is one of this
account, from then on and whatever happens in between, where no two accounts have one session. -/
theorem session_of_login
    (hallocated : Run.Guarded (serverStep accept) Process.Allocated (.init m state) es)
    (hrun : Run.run (serverStep accept) (.init m state) es = some s)
    (hlog : s.log = pre ++ (i, x) :: post) (hto : x.To .login) (hok : x.status = .ok)
    (hnodup : (s.state.db.users.map User.session).Nodup)
    (hrange : ∀ u ∈ s.state.db.users, -2 ^ 63 ≤ u.session ∧ u.session < 2 ^ 63) :
    ∃ u ∈ s.state.db.users, (u.login = Search.before [10] x.request.payload ∧
        u.password = Search.after [10] x.request.payload) ∧
      x.header = (Reply.mk .ok [(ascii "Set-Cookie", ascii "session=" ++ Decimal.print u.session ++
        ascii "; path=/; secure\r\n\r\n")] (some [])).header ∧
      ∀ t : CookieHeader, t.WellFormed → t.LineFound → t.CookieFound →
        headerUser (t.encode (some (Decimal.print u.session))) s.state.db = toInt u.id := by
  obtain ⟨v, v', a, tail, -, hreply, hx, hpost⟩ := middle_of_run hallocated hrun hlog
  have hextends : v.Extends s.state := (reply_extends hreply).trans hpost.extends
  rw [hx] at hto
  have hlogin := reply_of_to hreply hto
  have hstatus : a.status = .ok := (congrArg Exchange.status hx).symm.trans hok
  simp only [Callback.reply] at hlogin
  cases hrow : v.db.selectpassword (Search.before [10] x.request.payload) with
  | none =>
    rw [hrow] at hlogin
    obtain rfl := congrArg Prod.fst (Option.some.inj hlogin)
    exact absurd hstatus (by simp [Reply.plain])
  | some row =>
    obtain ⟨u, hfind, rfl⟩ := Option.map_eq_some_iff.mp hrow
    rw [hrow] at hlogin
    dsimp only at hlogin
    split_ifs at hlogin with hpassword
    all_goals obtain rfl := congrArg Prod.fst (Option.some.inj hlogin)
    · have hu : u ∈ s.state.db.users :=
        hextends.users.subset (List.mem_of_find?_eq_some hfind)
      obtain ⟨hlo, hhi⟩ := hrange u hu
      refine ⟨u, hu, ⟨by simpa using List.find?_some hfind, hpassword.symm⟩, ?_, ?_⟩
      · rw [hx]
        change (Reply.mk .ok [(ascii "Set-Cookie", sessionCookie u.session)] (some [])).header = _
        rw [sessionCookie, toInt64_of_range hlo hhi]
      · intro t hwf hline hcookie
        have hsession : headerSession (t.encode (some (Decimal.print u.session))) = u.session :=
          CookieHeader.looksUp_iff.mp ((CookieHeader.looksUp_of_found hwf hline hcookie
            (CookieHeader.plain_print _)).mpr (btoi64_print hlo hhi))
        rw [headerUser, hsession, selectuserid_of_nodup hnodup hu]
    · exact absurd hstatus (by simp [Reply.plain])

/-- The user that has logged in, at the end of the session. -/
theorem session_of_login_oneSession :
    ∃ (s : Process) (x : Exchange), s.state.db.users = [⟨1, ascii "a", ascii "b", 5⟩] ∧
      ∃ u ∈ s.state.db.users, (u.login = Search.before [10] x.request.payload ∧
        u.password = Search.after [10] x.request.payload) ∧
      x.header = (Reply.mk .ok [(ascii "Set-Cookie", ascii "session=" ++ Decimal.print u.session ++
        ascii "; path=/; secure\r\n\r\n")] (some [])).header ∧
      ∀ t : CookieHeader, t.WellFormed → t.LineFound → t.CookieFound →
        headerUser (t.encode (some (Decimal.print u.session))) s.state.db = toInt u.id := by
  have h : (Run.run (serverStep acceptNoKey) (.init (fun _ => 0) ⟨⟨[], []⟩, fun _ => none⟩)
      oneSession).bind (fun s => s.log[1]?.map fun e =>
        (decide (e.2.To .login), e.2.status, s.state.db.users)) =
          some (true, .ok, [⟨1, ascii "a", ascii "b", 5⟩]) := by decide +kernel
  obtain ⟨s, pre, i, x, post, hrun, hlog, heq⟩ := entry_oneSession
    (fun state x => (decide (x.To .login), x.status, state.db.users)) h
  obtain ⟨hto, heq⟩ := Prod.mk.inj heq
  obtain ⟨hok, husers⟩ := Prod.mk.inj heq
  refine ⟨s, x, husers, session_of_login (allocated_init _ _ takenFrom_oneSession) hrun hlog
    (of_decide_eq_true hto) hok ?_ ?_⟩
  · rw [husers]
    decide
  · rw [husers]
    simp

end Runs

end SleepyText.Server
