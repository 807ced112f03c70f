import SleepyText.Server.Handlers

set_option relaxedAutoImplicit false
set_option autoImplicit false

/-!
# Framing of the responses of the server

A response is one message on its connection only if no value in its header ends a line, and the
length that the header gives is that of the bytes behind it.

## Main definitions

* `FramedOutcome` — there is a response, and it is framed.
* `FramedWhen` — the request is no handshake and no login, and what it asks for can be sent.

## Main results

* `framed_iff` — the response to a request is framed exactly when this holds.
* `login_not_framed` — a login, and a page that cannot be read.
-/

namespace SleepyText.Server

/-- What a handler needs for its response to be framed: its page can be read, the login or the
password is wrong, the listing does not overrun its block. -/
def Callback.FramedWhen (w : World) (m : Memory) (request : HttpRequest) (s : ServerState) :
    Callback → Prop
  | .root => (w.readable s.dir (ascii "html/main.html")).isSome
  | .branch => (w.readable s.dir (downloadPath m request.addr)).isSome
  | .login =>
    let (name, password) := credentials m request.payload
    (s.db.selectpassword name).map Prod.fst ≠ some password
  | .branches => ¬ Callback.branches.Overruns m request s
  | .newbranch | .feed | .user => True

/-- The request is no handshake, and what is needed for the response of the handler holds. -/
def FramedWhen (w : World) (m : Memory) (request : HttpRequest) (s : ServerState) : Prop :=
  websocketVersion (m.read request.header) ≠ 13 ∧
    ∀ callback, httpServerCallbackDispatch m request pairs = some callback →
      callback.FramedWhen w m request s

/-- There is a response, and it is framed. -/
def FramedOutcome (extent block : ℕ) (outcome : Option Outcome) : Prop :=
  ∃ m raw s, outcome = some (m, raw, s) ∧ Framed extent block m raw

variable {extent block : ℕ} {m : Memory}

lemma framedOutcome_some (outcome : Outcome) : FramedOutcome extent block (some outcome) ↔
    Framed extent block outcome.1 outcome.2.1 := by
  constructor
  · rintro ⟨m, raw, s, heq, hframed⟩
    obtain rfl := Option.some.inj heq
    exact hframed
  · intro hframed
    exact ⟨_, _, _, rfl, hframed⟩

/-! ## The payloads -/

/-- Lengths that an `int` can hold are printed as they are handed over. -/
lemma framed_of_lt {raw : RawResponse} (hheaders : raw.headers = [])
    (hstatus : raw.status ≠ .switchingProtocols) (hlen : raw.payload.len < 2 ^ 31) :
    Framed extent block m raw := by
  rw [framed_iff_of_no_headers hheaders hstatus, toInt64_of_range (by omega) (by omega),
    toInt_of_range (by omega) (by omega), Int.toNat_natCast]

/-- A status alone. -/
lemma framed_rawResult {status : HttpResult} (hstatus : status ≠ .switchingProtocols) :
    Framed extent block m (rawResult status) :=
  framed_of_lt rfl hstatus (by simp [rawResult])

/-- **A page** is framed exactly when it could be read: the length of one that could not is printed
as -1, and nothing is handed over. -/
lemma framed_readPage_iff (page : ℕ) (content : Option (List UInt8)) :
    Framed extent block (readPage m page content).1
        { rawResult .ok with payload := (readPage m page content).2 } ↔ content.isSome := by
  cases content with
  | none =>
    rw [framed_iff_of_no_headers rfl (by simp [rawResult])]
    simp [readPage, toSize, toInt64, toInt]
  | some content =>
    refine iff_of_true (framed_of_lt rfl (by simp [rawResult]) ?_) rfl
    have hle := List.length_take_le (2 ^ 20) content
    dsimp only [readPage]
    omega

/-- A value with a line break in it. -/
lemma not_framed_of_mem {raw : RawResponse} {h : HttpHeader} {c : UInt8} (hh : h ∈ raw.headers)
    (hc : c ∈ m.read h.val) (hbreak : c = 13 ∨ c = 10) : ¬ Framed extent block m raw := by
  intro hframed
  obtain ⟨hcr, hlf⟩ := hframed.clean h hh c (List.mem_append_right _ hc)
  exact hbreak.elim hcr hlf

/-! ## The handlers -/

lemma length_sessionCookie_lt (session : ℤ) : (sessionCookie session).length < 128 := by
  have hrange := toInt64_range session
  have hprint : (Decimal.print (toInt64 session)).length ≤ 20 :=
    Decimal.length_print_le (k := 19) (by omega) (by omega)
  have hascii : (ascii "session=").length = 8 ∧
      (ascii "; path=/; secure\r\n\r\n").length = 20 := by decide
  rw [sessionCookie, List.length_append, List.length_append]
  omega

section Handlers

variable (w : World) (m : Memory) (request : HttpRequest) (s : ServerState)

/-- **A login** is not framed: the value of its cookie ends with two line breaks. -/
lemma framed_login_iff : FramedOutcome extent block (Callback.login.run w m request s) ↔
    Callback.login.FramedWhen w m request s := by
  rw [Callback.run, framedOutcome_some, httpCallbackLogin, Callback.FramedWhen]
  obtain ⟨user, password⟩ := credentials m request.payload
  dsimp only
  cases hselect : s.db.selectpassword user with
  | none => exact iff_of_true (framed_rawResult (by decide)) (by simp)
  | some row =>
    obtain ⟨dbpassword, session⟩ := row
    dsimp only
    split_ifs with heq
    · -- the password is right
      refine iff_of_false ?_ (by simp [heq])
      have hread := read_bprintf_of_lt m (b := ⟨w.block, 128⟩) (length_sessionCookie_lt session)
      refine not_framed_of_mem (List.mem_singleton_self _) (c := 13) ?_ (.inl rfl)
      refine hread.symm ▸ ?_
      unfold sessionCookie
      exact List.mem_append_right _ (by decide)
    · exact iff_of_true (framed_rawResult (by decide)) (by simpa using Ne.symm heq)

/-- **A listing** is framed when it does not overrun its block. -/
lemma framed_branches (hfits : ¬ Callback.branches.Overruns m request s) :
    FramedOutcome extent block (Callback.branches.run w m request s) := by
  unfold Callback.run
  dsimp only
  set user := getuserid m request.header s.db with huser
  rw [framedOutcome_some]
  by_cases hzero : user = 0
  · have hframed : Framed extent block m (rawResult .badRequest) := framed_rawResult (by decide)
    rw [httpCallbackBranches, if_pos hzero]
    exact hframed
  · have hshort : (printedRows (s.db.selectbranches user)).length ≤ 4096 :=
      not_lt.mp fun hlong => hfits ⟨hzero, hlong⟩
    obtain ⟨m', hspec, -⟩ := httpCallbackBranches_spec hzero (s.db.selectbranches user) m w.block
      hshort
    rw [hspec]
    refine framed_of_lt rfl (by simp [rawResult]) ?_
    dsimp only
    omega

/-- Each handler. -/
lemma framed_run_iff {callback : Callback} (hfits : ¬ callback.Overruns m request s) :
    FramedOutcome extent block (callback.run w m request s) ↔
      callback.FramedWhen w m request s := by
  cases callback with
  | root =>
    rw [Callback.run, framedOutcome_some]
    exact framed_readPage_iff _ _
  | branch =>
    rw [Callback.run, framedOutcome_some]
    apply (framed_readPage_iff _ _).trans
    rw [httpCallbackBranch, Option.isSome_map]
    rfl
  | branches => exact iff_of_true (framed_branches w m request s hfits) hfits
  | login => exact framed_login_iff w m request s
  | newbranch =>
    have hstatus : (httpCallbackNewbranch w.sql w.locals m request s.db).1 ≠
        .switchingProtocols := by
      unfold httpCallbackNewbranch
      dsimp only
      split_ifs <;> simp
    exact iff_of_true ((framedOutcome_some _).mpr (framed_rawResult hstatus)) trivial
  | user =>
    refine iff_of_true ((framedOutcome_some _).mpr ?_) trivial
    unfold httpCallbackUser
    dsimp only
    split_ifs
    · exact framed_rawResult (by decide)
    · exact framed_rawResult (by decide)
  | feed =>
    obtain ⟨status, f, hfeed, hleaves⟩ := httpCallbackFeed_spec w.env m request.payload s.dir
    refine iff_of_true ?_ trivial
    rw [Callback.run, hfeed, Option.map_some, framedOutcome_some]
    apply framed_rawResult
    rcases leaves_ok_or_badRequest hleaves with rfl | rfl <;> decide

end Handlers

/-! ## All responses -/

/-- **The responses of the server.** A response is one message on its connection if and only if
the request is no handshake, the page or the file that it asks for can be read, it is not a login
with the right password, and the listing that it asks for does not overrun its block.

**Proof sketch.** Responses without header fields are framed exactly when the length of the payload
is handed over as it is printed (`framed_iff_of_no_headers`). The only fields are the key of an
answer to a handshake, which ends with the line break of the base 64 form, and the cookie of a
login, which ends with two. -/
theorem framed_iff {accept : List UInt8 → List UInt8}
    (hbase64 : ∀ bs, ∃ key : List UInt8, key.length = 28 ∧ accept bs = key ++ [10])
    (w : World) (extent block : ℕ) (m : Memory) (request : HttpRequest) (s : ServerState) :
    FramedOutcome extent block (respond accept w m request s) ↔ FramedWhen w m request s := by
  rw [respond, httpWebsocketAccept_eq, FramedWhen, websocketAccept]
  by_cases hversion : websocketVersion (m.read request.header) = 13
  · refine iff_of_false ?_ fun h => h.1 hversion
    rw [if_neg (by simpa using hversion)]
    obtain ⟨key, hlen, hkey⟩ := hbase64 (extractParam (m.read request.header)
      (ascii "Sec-WebSocket-Key") ++ ascii "258EAFA5-E914-47DA-95CA-C5AB0DC85B11")
    rw [hkey, rawAccept]
    dsimp only
    rw [List.take_of_length_le (by simp [hlen]), if_neg (by simp [httpResult]), framedOutcome_some]
    refine not_framed_of_mem (List.mem_singleton_self _) (c := 10) ?_ (.inr rfl)
    dsimp only
    rw [Memory.read_store]
    simp
  · rw [if_pos hversion, rawAccept, dispatch]
    dsimp only [httpResult]
    rw [if_pos (by simp)]
    cases hdispatch : httpServerCallbackDispatch m request pairs with
    | none =>
      exact iff_of_true ((framedOutcome_some _).mpr (framed_rawResult (by decide)))
        ⟨hversion, by simp⟩
    | some callback =>
      dsimp only
      split_ifs with hoverruns
      · -- only a listing overruns
        refine iff_of_false (by rintro ⟨_, _, _, heq, -⟩; exact absurd heq (by simp)) fun h => ?_
        obtain rfl := hoverruns.eq_branches
        exact h.2 .branches rfl hoverruns
      · rw [framed_run_iff w m request s hoverruns]
        exact ⟨fun h => ⟨hversion, fun _ heq => Option.some.inj heq ▸ h⟩, fun h => h.2 callback rfl⟩

/-- What the handlers are given when the answers are good; they get the memory from 1000 on. -/
def goodWorld : World where
  sql := ⟨true, fun _ => 1⟩
  env := ⟨fun _ => true, fun _ n => n⟩
  reads := true
  locals := ⟨0, 0, 0⟩
  block := 1000
  random := 5

/-- The answer to a handshake without a key. -/
def acceptNoKey : List UInt8 → List UInt8 := fun _ => ascii "Kfh9QIsMVZcl6xEPYxPHzW8SZ8w=\n"

/-- A request with the given target and payload, and the memory that it stands in. -/
def targetRequest (target payload : List UInt8) : Memory × HttpRequest :=
  let header := ascii "POST " ++ target ++ ascii " HTTP/1.1"
  (fun x => (header ++ payload).getD x 0,
    ⟨⟨0, header.length⟩, ⟨header.length, payload.length⟩, ⟨5, target.length⟩⟩)

/-- The page, when it cannot be read. -/
theorem framed_iff_root :
    let r := targetRequest (ascii "/") []
    FramedOutcome 128 2000 (respond acceptNoKey goodWorld r.1 r.2 ⟨oneUser, fun _ => none⟩) ↔
      FramedWhen goodWorld r.1 r.2 ⟨oneUser, fun _ => none⟩ :=
  framed_iff (fun _ => ⟨ascii "Kfh9QIsMVZcl6xEPYxPHzW8SZ8w=", by decide,
    show ascii "Kfh9QIsMVZcl6xEPYxPHzW8SZ8w=\n" = ascii "Kfh9QIsMVZcl6xEPYxPHzW8SZ8w=" ++ [10] by
      decide⟩) _ _ _ _ _ _

/-- The response to a login ends twice, and a page that cannot be read has the length -1. -/
theorem login_not_framed :
    let r := targetRequest (ascii "/api/0/login") (ascii "a\nb")
    let s : ServerState := ⟨⟨[⟨1, ascii "a", ascii "b", 5⟩], []⟩, fun _ => none⟩
    let r' := targetRequest (ascii "/") []
    (respond acceptNoKey goodWorld r.1 r.2 s).map (fun o => respondWith 128 2000 o.1 o.2.1) =
        some (ascii ("HTTP/1.1 200 Ok\r\nContent-Length: 0\r\n" ++
          "Set-Cookie: session=5; path=/; secure\r\n\r\n\r\n\r\n"), []) ∧
      ¬ FramedOutcome 128 2000 (respond acceptNoKey goodWorld r.1 r.2 s) ∧
      (respond acceptNoKey goodWorld r'.1 r'.2 s).map (fun o => respondWith 128 2000 o.1 o.2.1) =
        some (ascii "HTTP/1.1 200 Ok\r\nContent-Length: -1\r\n\r\n", []) ∧
      ¬ FramedOutcome 128 2000 (respond acceptNoKey goodWorld r'.1 r'.2 s) := by
  intro r s r'
  have hlogin : (respond acceptNoKey goodWorld r.1 r.2 s).map
      (fun o => respondWith 128 2000 o.1 o.2.1) =
        some (ascii ("HTTP/1.1 200 Ok\r\nContent-Length: 0\r\n" ++
          "Set-Cookie: session=5; path=/; secure\r\n\r\n\r\n\r\n"), []) := by decide +kernel
  have hpage : (respond acceptNoKey goodWorld r'.1 r'.2 s).map
      (fun o => (respondWith 128 2000 o.1 o.2.1, o.2.1.status, o.2.1.payload.len)) =
        some ((ascii "HTTP/1.1 200 Ok\r\nContent-Length: -1\r\n\r\n", []), .ok, toSize (-1)) := by
    decide +kernel
  refine ⟨hlogin, ?_, ?_, ?_⟩
  · rintro ⟨m, raw, s', heq, hframed⟩
    rw [heq, Option.map_some, Option.some.injEq] at hlogin
    -- the header ends behind the value of the cookie for the first time
    have hle := hframed.boundary.2.2 (ascii ("HTTP/1.1 200 Ok\r\nContent-Length: 0\r\n" ++
      "Set-Cookie: session=5; path=/; secure")) [13, 10, 13, 10] (by rw [hlogin]; decide)
    rw [hlogin] at hle
    exact absurd hle (by decide)
  · have hwritten := congrArg (Option.map Prod.fst) hpage
    rwa [Option.map_map] at hwritten
  · rintro ⟨m, raw, s', heq, hframed⟩
    rw [heq, Option.map_some] at hpage
    obtain ⟨hwritten, hrest⟩ := Prod.mk.inj (Option.some.inj hpage)
    obtain ⟨hstatus, hlen⟩ := Prod.mk.inj hrest
    have hlength := hframed.length (by rw [hstatus]; decide)
    rw [hwritten, hlen] at hlength
    exact absurd hlength (by decide)

end SleepyText.Server
