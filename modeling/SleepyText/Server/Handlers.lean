import SleepyText.Server.BranchLog
import SleepyText.Server.NewBranch
import SleepyText.Server.Response

set_option relaxedAutoImplicit false
set_option autoImplicit false

/-!
# The handlers of the server

`http_server_callback_dispatch` looks for the address of a request in the table of `main`, where
each entry also stands for the addresses that it is a prefix of.

## Main definitions

* `ServerState`, `World` — the tables and the files, and what the handlers are given from outside.
* `Callback`, `Callback.run` — the handlers, on memory, the tables and the files.
* `httpServerCallbackDispatch`, `pairs` — the search in a table, and the table of `main`.
* `Callback.Overruns` — a listing that is longer than its block.
* `respond` — the response to a request: the answer to a handshake, or that of a handler.

## Main results

* `read_readPage`, `read_rawResult` — what the responses of handlers read as.
-/

namespace SleepyText.Server

/-! ## The handlers -/

/-- The tables and the files of the server. -/
structure ServerState where
  db : Database
  dir : Directory

/-- What the handlers do not determine: the answers of the database and of the operating system,
`reads` for whether a file that is open can be read, the values of variables before they are set,
the address that `balloc` returns, and the number that `random()` draws. -/
structure World where
  sql : Sqlite
  env : SystemCalls
  reads : Bool
  locals : NewbranchLocals
  block : ℕ
  random : ℤ

/-- Calls that all succeed. -/
def goodAnswers : World where
  sql := ⟨true, fun _ => 0⟩
  env := ⟨fun _ => true, fun _ n => n⟩
  reads := true
  locals := ⟨0, 0, 0⟩
  block := 0
  random := 0

/-- `select id, parent, pos, document from branches where user = ?`. -/
def Database.selectbranches (db : Database) (user : ℤ) : List Row :=
  (db.branches.filter fun r => r.user = user).map BranchRow.toRow

/-- `select password, session from users where login = ?`: the first row. -/
def Database.selectpassword (db : Database) (login : List UInt8) : Option (List UInt8 × ℤ) :=
  (db.users.find? (·.login = login)).map fun u => (u.password, u.session)

/-- `insert into users(login, password, created, lastseen, session)`, with a random session. -/
def Database.insertuser (db : Database) (w : World) (login password : List UInt8) : Database :=
  { db with users := db.users ++ [⟨w.sql.rowid db, login, password, w.random⟩] }

/-- The files that a handler can open and read: none of them, when the `open` or the `read` of the
request fails. -/
def World.readable (w : World) (dir : Directory) : Directory :=
  fun path => if w.env.opens 0 && w.reads then dir path else none

/-- `read(f, page.as_void, page.length)` into a block of `2 ^ 20` bytes; without a content, the
file could not be opened, and the length is -1. -/
def readPage (m : Memory) (page : ℕ) : Option (List UInt8) → Memory × Bytes
  | none => (m, ⟨page, toSize (-1)⟩)
  | some content =>
    (m.store page (content.take (2 ^ 20)), ⟨page, (content.take (2 ^ 20)).length⟩)

/-- The file that a download reads. -/
def downloadPath (m : Memory) (addr : Bytes) : Path :=
  resolve (branchPath "branches/" (btoi (m.read (bslice addr (ascii "/api/0/branch/").length 0))))

/-- The response of a handler, and the memory and the state after it. -/
abbrev Outcome := Memory × RawResponse × ServerState

/-- `http_callback_root`. -/
def httpCallbackRoot (w : World) (m : Memory) (s : ServerState) : Outcome :=
  let (m, page) := readPage m w.block (w.readable s.dir (ascii "html/main.html"))
  (m, { rawResult .ok with payload := page }, s)

/-- The login and the password of a payload. -/
def credentials (m : Memory) (payload : Bytes) : List UInt8 × List UInt8 :=
  let f := bfind m payload [10]
  (m.read f.before, m.read f.after)

/-- What `"session=%ld; path=/; secure\r\n\r\n"` prints. -/
def sessionCookie (session : ℤ) : List UInt8 :=
  ascii "session=" ++ Decimal.print (toInt64 session) ++ ascii "; path=/; secure\r\n\r\n"

/-- `http_callback_login`; the time that it updates is not in the tables. -/
def httpCallbackLogin (w : World) (m : Memory) (request : HttpRequest) (s : ServerState) :
    Outcome :=
  let (user, password) := credentials m request.payload
  match s.db.selectpassword user with
  | none => (m, rawResult .badRequest, s)
  | some (dbpassword, session) =>
    if password = dbpassword then
      let (m, val, _) := bprintf m ⟨w.block, 128⟩ (sessionCookie session)
      (m, { rawResult .ok with headers := [⟨ascii "Set-Cookie", val⟩] }, s)
    else (m, rawResult .badRequest, s)

/-- `http_callback_user`. -/
def httpCallbackUser (w : World) (m : Memory) (request : HttpRequest) (s : ServerState) : Outcome :=
  let (user, password) := credentials m request.payload
  if w.sql.inserts then
    (m, rawResult .ok, { s with db := s.db.insertuser w user password })
  else (m, rawResult .badRequest, s)

/-- The handlers of the table of `main`. -/
inductive Callback where
  | root
  | newbranch
  | branch
  | branches
  | feed
  | user
  | login
  deriving DecidableEq, Repr

/-- What a handler answers. -/
def Callback.run (w : World) (m : Memory) (request : HttpRequest) (s : ServerState) :
    Callback → Option Outcome
  | .root => some (httpCallbackRoot w m s)
  | .newbranch =>
    let (status, db) := httpCallbackNewbranch w.sql w.locals m request s.db
    some (m, rawResult status, { s with db := db })
  | .branch =>
    let (status, content) := httpCallbackBranch m request.addr (w.readable s.dir)
    let (m, page) := readPage m w.block content
    some (m, { rawResult status with payload := page }, s)
  | .branches =>
    let user := getuserid m request.header s.db
    let (status, m, payload) := httpCallbackBranches user (s.db.selectbranches user) m w.block
    some (m, { rawResult status with payload := payload }, s)
  | .feed =>
    (httpCallbackFeed w.env m request.payload s.dir).map fun (status, f) =>
      (f.mem, rawResult status, { s with dir := f.dir })
  | .user => some (httpCallbackUser w m request s)
  | .login => some (httpCallbackLogin w m request s)

/-! ## The table -/

/-- `http_server_callback_dispatch`: the callback that it calls, of a table. -/
def httpServerCallbackDispatch {α : Type*} (m : Memory) (request : HttpRequest) :
    List (α × List UInt8) → Option α
  | [] => none
  | (callback, addr) :: callbacks =>
    if m.read request.addr = addr then some callback
    else if addr.length ≤ 1 then httpServerCallbackDispatch m request callbacks
    else if m.read (bslice request.addr 0 addr.length) = addr then some callback
    else httpServerCallbackDispatch m request callbacks

/-- `pairs` of `main`. -/
def pairs : List (Callback × List UInt8) :=
  [(.root, ascii "/"), (.newbranch, ascii "/api/0/newbranch"), (.branch, ascii "/api/0/branch/"),
    (.branches, ascii "/api/0/branches"), (.feed, ascii "/api/0/feed"),
    (.user, ascii "/api/0/user"), (.login, ascii "/api/0/login")]

/-- The user that a listing is for has rows that overrun its block. -/
def Callback.Overruns (m : Memory) (request : HttpRequest) (s : ServerState) : Callback → Prop
  | .branches =>
    let user := getuserid m request.header s.db
    user ≠ 0 ∧ Server.Overruns (s.db.selectbranches user)
  | .root | .newbranch | .branch | .feed | .user | .login => False

instance (m : Memory) (request : HttpRequest) (s : ServerState) :
    DecidablePred (Callback.Overruns m request s)
  | .branches => inferInstanceAs (Decidable (_ ∧ _))
  | .root | .newbranch | .branch | .feed | .user | .login => inferInstanceAs (Decidable False)

lemma Callback.Overruns.eq_branches {m : Memory} {request : HttpRequest} {s : ServerState}
    {callback : Callback} (h : callback.Overruns m request s) : callback = .branches := by
  cases callback with
  | branches => rfl
  | root | newbranch | branch | feed | user | login => exact h.elim

/-- The answer to a request that is no handshake. `none` stands for a listing that overruns its
block: what is handed over, and where the next row is printed, is not in the block, and nothing is
said about the server from there on. -/
def dispatch (w : World) (m : Memory) (request : HttpRequest) (s : ServerState) : Option Outcome :=
  match httpServerCallbackDispatch m request pairs with
  | none => some (m, rawResult .notFound, s)
  | some callback =>
    if callback.Overruns m request s then none else callback.run w m request s

/-- The answer to a handshake in memory: `BIO_read` puts the key into a block of 128 bytes. -/
def rawAccept (w : World) (m : Memory) (r : HttpRawResponse) : Memory × RawResponse :=
  match r.headers with
  | [] => (m, ⟨r.status, r.payload, []⟩)
  | (name, key) :: _ =>
    let key := key.take 128
    (m.store w.block key, ⟨r.status, r.payload, [⟨name, ⟨w.block, key.length⟩⟩]⟩)

/-- The response that `http_tls_ondata` assembles. -/
def respond (accept : List UInt8 → List UInt8) (w : World) (m : Memory) (request : HttpRequest)
    (s : ServerState) : Option Outcome :=
  let (m', res) := rawAccept w m (httpWebsocketAccept accept m request)
  if res.status ≠ .switchingProtocols then dispatch w m request s else some (m', res, s)

/-! ## What responses read as -/

/-- The status and the payload of a response; `none` stands for a payload of the length -1. -/
abbrev Response := HttpResult × Option (List UInt8)

/-- The status and the payload of a response. -/
def RawResponse.read (m : Memory) (raw : RawResponse) : Response :=
  (raw.status, if raw.payload.len = toSize (-1) then none else some (m.read raw.payload))

/-- What `read` leaves in a page. -/
lemma read_readPage (m : Memory) (page : ℕ) (content : Option (List UInt8)) (status : HttpResult) :
    RawResponse.read (readPage m page content).1
        { rawResult status with payload := (readPage m page content).2 } =
      (status, content.map fun content => content.take (2 ^ 20)) := by
  cases content with
  | none => rfl
  | some content =>
    have hlen : (content.take (2 ^ 20)).length ≠ toSize (-1) := by
      have hle := List.length_take_le (2 ^ 20) content
      have hsize : toSize (-1) = 2 ^ 64 - 1 := by decide
      omega
    unfold RawResponse.read readPage
    dsimp only
    rw [if_neg hlen, Memory.read_store]
    rfl

/-- A status alone. -/
lemma read_rawResult (m : Memory) (status : HttpResult) :
    (rawResult status).read m = (status, some []) := by
  have hlen : (rawResult status).payload.len ≠ toSize (-1) := show 0 ≠ toSize (-1) by decide
  unfold RawResponse.read
  rw [if_neg hlen]
  rfl

end SleepyText.Server
