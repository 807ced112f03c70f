import Mathlib.Data.List.Sort
import SleepyText.Client.Network
import SleepyText.Client.Updates
import SleepyText.Client.Graph

set_option relaxedAutoImplicit false
set_option autoImplicit false

/-!
# The window

The page as the browser runs it (`run.js` and the views): the nodes in `body`, the object `view`
with its method `leave`, the handlers that are set, the requests that have not been answered and
the intervals. Clicks, movements of the mouse, responses and timers can come in any order, and a
handler works on whatever `view` is when it is called.

## Main definitions

* `isloggedin` — what the cookies say.
* `Window` — the state of the window.
* `Window.leaveView`, `Window.entereditorview`, … — the ways out of the views and into them.
* `WindowEvent`, `Window.handle`, `windowStep` — the events and the transition system they make.
-/

namespace SleepyText.Client

/-! ## Cookies -/

/-- `s.trim()`. -/
def trim (s : JsString) : JsString :=
  ((s.dropWhile isSpace).reverse.dropWhile isSpace).reverse

/-- `isloggedin()`, where `cookie` is `document.cookie`. Of two cookies of a name the last one
counts, and a cookie without `=` has the value `undefined`. -/
def isloggedin (cookie : JsString) : Bool :=
  let cookies := (cookie.splitOn 59).map fun c =>
    let co := (trim c).splitOn 61
    (co.headD [], co[1]?)
  let o : JsString → Option JsString :=
    cookies.foldl (fun o c => Function.update o c.1 c.2) fun _ => none
  -- the name is `session`, and the value of a session that has ended is `0`
  match o [115, 101, 115, 115, 105, 111, 110] with
  | none => false
  | some value => value ≠ [48]

/-! ## Nodes -/

/-- What the views put into `body`. -/
inductive Element where
  | loading
  | username
  | password
  | login
  | register
  | createbtn
  | logout
  | entry (doc : ℤ)
  | slider
  | editor
  | buttonbox
  | canvas
  | locked
  deriving DecidableEq, Repr

/-- A node, which its number tells from all others. -/
structure Node where
  number : ℕ
  element : Element
  deriving DecidableEq, Repr

/-- The method `leave` of `view`, with the nodes that it has been made with; `missing` where `view`
is `undefined`. -/
inductive Leave where
  | missing
  | loading (node : Node)
  | login (dom : List Node)
  | user
  | editor
  | graph (canvas : Node)
  | locked
  deriving DecidableEq, Repr

/-! ## The state -/

/-- What `window.onmousemove` and `window.onmouseup` are: those of the last graph, those of the
slider, or `undefined`. -/
inductive Mouse where
  | unset
  | graph
  | slider
  deriving DecidableEq, Repr

/-- The last graph that was made, the vertex under the mouse, the vertex clicked and whether its
interval is running. -/
structure GraphObject where
  graph : Graph
  active : Option ℤ
  ending : Option ℤ
  task : Bool

/-- The requests other than uploads, by what their callbacks do. -/
inductive Callback where
  | branches
  | user
  | login
  | newbranch
  | lock
  deriving DecidableEq, Repr

/-- The text that `failure` shows. -/
def Callback.failure : Callback → String
  | .branches => "error loading documents"
  | .user => "Could not create such user"
  | .login => "Wrong login"
  | .newbranch => "Error creating a new branch!"
  | .lock => "Could not lock for some reason"

/-- The window: the page, `view.leave`, the nodes in `body` and the number of the next node, the
handlers of the mouse, the last graph and the number of intervals running for earlier ones, whether
`document.onmouseup` is set, the requests not answered, `document.cookie` and the alerts. -/
structure Window where
  page : Page
  leave : Leave
  body : List Node
  nodes : ℕ
  mouse : Mouse
  graph : Option GraphObject
  stale : ℕ
  onmouseup : Bool
  requests : List Callback
  cookie : JsString
  alerts : List String

/-- The keys of an object that are enumerated in the order of numbers. -/
def isIndex (n : ℤ) : Bool := 0 ≤ n ∧ n < 2 ^ 32 - 1

/-- The keys of `docs` in the order of `for(var i in docs)`. -/
def Heap.documents (h : Heap) : List ℤ :=
  let keys := (h.objects.map fun b => b.document).eraseDups
  (keys.filter isIndex).insertionSort (· ≤ ·) ++ keys.filter fun n => !isIndex n

namespace Window

/-- The state of the client. -/
abbrev client (w : Window) : State := w.page.client

/-- The window with another state of the client. -/
def withClient (w : Window) (c : State) : Window :=
  { w with page := { w.page with client := c } }

/-! ## Ways out of the views -/

/-- `body.removeChild(node)`, which throws if the node is not there. -/
def removeChild (w : Window) (node : Node) : Option Window :=
  if node ∈ w.body then some { w with body := w.body.erase node } else none

/-- `while(body.firstChild != undefined) body.removeChild(body.firstChild)`. -/
def clear (w : Window) : Window := { w with body := [] }

/-- `view.leave()`. -/
def leaveView (w : Window) : Option Window :=
  match w.leave with
  | .missing => none
  | .loading node => w.removeChild node
  | .login dom => dom.foldlM removeChild w
  | .user => some w.clear
  | .editor => some { w.clear with leave := .missing }
  | .graph canvas => w.removeChild canvas
  | .locked => some { w.clear with onmouseup := false }

/-! ## Ways into the views -/

/-- New nodes, `document.createElement(…)`. -/
def create (w : Window) (elements : List Element) : List Node :=
  elements.mapIdx fun i element => ⟨w.nodes + i, element⟩

/-- The view is shown with the nodes `dom`, which are new. -/
def enter (w : Window) (view : View) (leave : Leave) (dom : List Node) : Window :=
  { w.withClient { w.client with view := view } with
    leave := leave
    body := w.body ++ dom
    nodes := w.nodes + dom.length }

/-- `enterloadingview()`. -/
def enterloadingview (w : Window) : Window :=
  let loading : Node := ⟨w.nodes, .loading⟩
  w.enter .loading (.loading loading) [loading]

/-- `enterloginview()`. -/
def enterloginview (w : Window) : Window :=
  let dom := w.create [.username, .password, .login, .register]
  w.enter .account (.login dom) dom

/-- `enteruserview()`. -/
def enteruserview (w : Window) : Window :=
  w.enter .account .user
    (w.create (.createbtn :: .logout :: w.client.heap.documents.map .entry))

/-- `enteraccountview()`. -/
def enteraccountview (w : Window) : Window :=
  if isloggedin w.cookie = true then w.enteruserview else w.enterloginview

/-- `entereditorview(activebranch)`. -/
def entereditorview (w : Window) (activebranch : Option ℕ) : Option Window :=
  (Client.entereditorview w.client activebranch).map fun c =>
    (w.withClient c).enter c.view .editor (w.create [.slider, .editor, .buttonbox])

/-- `entergraphview(lastbranch, doc)`. The interval of an earlier graph goes on if nothing has ended
it. -/
def entergraphview (w : Window) (lastbranch : Option Branch) (doc : ℤ) : Option Window :=
  let canvas : Node := ⟨w.nodes, .canvas⟩
  (w.client.heap.entergraphview lastbranch doc).map fun g =>
    { w.enter (.graph doc) (.graph canvas) [canvas] with
      mouse := .graph
      graph := some ⟨g, none, none, true⟩
      stale := w.stale + if (w.graph.map fun g => g.task) = some true then 1 else 0 }

/-- `enterlockedview()`, where `body.innerHTML = 'Locked!'` replaces all nodes. -/
def enterlockedview (w : Window) : Window :=
  { w.clear.enter .locked .locked (w.create [.locked]) with onmouseup := true }

/-! ## Handlers -/

/-- `request(…)`, with the callbacks. -/
def request (w : Window) (callback : Callback) : Window :=
  { w with requests := w.requests ++ [callback] }

/-- The callback of the slider. -/
def slide (w : Window) (go : ℤ) : Option Window :=
  (pageStep w.page (.edit (.slide go))).map fun page => { w with page := page }

/-- `success(req)`, where `rows` are what `fetchupdates` reads in the response. -/
def success (w : Window) (callback : Callback) (rows : List (BranchArgs ℤ)) : Option Window :=
  match callback with
  | .branches =>
    let w := w.withClient { w.client with heap := rows.foldl Heap.newbranch w.client.heap }
    w.leaveView.map enteruserview
  | .newbranch => w.leaveView.map enteraccountview
  | .user | .login | .lock => w.leaveView.bind fun w => w.entereditorview none

end Window

/-- The buttons in the box of the editor, the one for branches with the id it draws. -/
inductive Button where
  | graph
  | branch (random : ℤ)
  | user
  deriving DecidableEq, Repr

/-- What can happen to the window: a click on a node or on a button of the editor, typing, pressing
the mouse on the slider, moving the mouse over a vertex or to a position of the slider, releasing
it, a tick of an interval, before or after the end of the animation, a response, a tick of `synch`,
the end of an upload, and a change of the cookies. -/
inductive WindowEvent where
  | click (node : Node)
  | button (button : Button)
  | input (text : JsString) (random : ℤ)
  | grab (go : ℤ)
  | mousemove (vertex : Option ℤ) (go : ℤ)
  | mouseup
  | interval (late : Bool)
  | respond (i status : ℕ) (rows : List (BranchArgs ℤ))
  | tick
  | complete (i status : ℕ)
  | cookie (cookie : JsString)
  deriving DecidableEq, Repr

namespace Window

/-- The element is on the page. -/
def Holds (w : Window) (element : Element) : Prop := ∃ node ∈ w.body, node.element = element

instance (w : Window) (element : Element) : Decidable (w.Holds element) :=
  inferInstanceAs (Decidable (∃ node ∈ w.body, node.element = element))

/-- The event can happen: its node is on the page, its vertex in the graph, an interval is running,
its request has not been answered. -/
def Enabled (w : Window) : WindowEvent → Prop
  | .click node => node ∈ w.body
  | .button _ => w.Holds .buttonbox
  | .input _ _ => w.Holds .editor
  | .grab _ => w.Holds .slider
  | .mousemove vertex _ => ∀ id ∈ vertex, ∃ g ∈ w.graph, (g.graph.vertices id).isSome
  | .interval _ => w.stale > 0 ∨ ∃ g ∈ w.graph, g.task = true
  | .respond i _ _ => i < w.requests.length
  | .complete i _ => i < w.page.outstanding.length
  | .mouseup | .tick | .cookie _ => True

instance (w : Window) : ∀ event, Decidable (w.Enabled event)
  | .click node => inferInstanceAs (Decidable (node ∈ w.body))
  | .button _ => inferInstanceAs (Decidable (w.Holds .buttonbox))
  | .input _ _ => inferInstanceAs (Decidable (w.Holds .editor))
  | .grab _ => inferInstanceAs (Decidable (w.Holds .slider))
  | .mousemove vertex _ =>
    inferInstanceAs (Decidable (∀ id ∈ vertex, ∃ g ∈ w.graph, (g.graph.vertices id).isSome))
  | .interval _ => inferInstanceAs (Decidable (w.stale > 0 ∨ ∃ g ∈ w.graph, g.task = true))
  | .respond i _ _ => inferInstanceAs (Decidable (i < w.requests.length))
  | .complete i _ => inferInstanceAs (Decidable (i < w.page.outstanding.length))
  | .mouseup | .tick | .cookie _ => inferInstanceAs (Decidable True)

/-- The handler of an event: `none` stands for an exception. `setcookie` is what the browser makes
of an assignment to `document.cookie`. -/
def handle (setcookie : JsString → JsString → JsString) (w : Window) :
    WindowEvent → Option Window
  | .click node =>
    match node.element with
    | .login => some (w.request .login)
    | .register => some (w.request .user)
    | .createbtn => some (w.request .newbranch)
    | .logout =>
      -- `session=0`
      let w := { w with cookie := setcookie w.cookie [115, 101, 115, 115, 105, 111, 110, 61, 48] }
      w.leaveView.map enteraccountview
    | .entry doc => w.leaveView.bind fun w => w.entergraphview none doc
    | _ => some w
  | .button .graph =>
    match w.client.view with
    | .editor e => do
      let lastbranch ← w.client.heap.objects[e.branch]?
      let w ← w.leaveView
      w.entergraphview (some lastbranch) lastbranch.document
    | _ => none
  | .button (.branch random) =>
    (pageStep w.page (.edit (.branchbtn random))).map fun page => { w with page := page }
  | .button .user => w.leaveView.map enteraccountview
  | .input text random =>
    (pageStep w.page (.edit (.oninput text random))).map fun page => { w with page := page }
  | .grab go => slide { w with mouse := .slider } go
  | .mousemove vertex go =>
    match w.mouse with
    | .unset => some w
    | .graph => some { w with graph := w.graph.map fun g => { g with active := vertex } }
    | .slider => w.slide go
  | .mouseup =>
    -- the event reaches `document` first, and then `window`
    let w := if w.onmouseup then w.request .lock else w
    match w.mouse with
    | .unset => some w
    | .graph =>
      match w.graph.bind fun g => g.active with
      | none => some w
      | some id => some { w with
          mouse := .unset
          graph := w.graph.map fun g => { g with ending := some id } }
    | .slider => some { w with mouse := .unset }
  | .interval late => do
    -- all intervals update the last graph
    let g ← w.graph
    match g.ending with
    | none => some w
    | some id =>
      if late then do
        let v ← g.graph.vertices id
        let w ← leaveView { w with graph := some { g with task := false } }
        w.entereditorview v.branch
      else some w
  | .respond i status rows =>
    (w.requests[i]?).bind fun callback =>
      -- `success` is called after `failure` as well
      success { w with
        requests := w.requests.eraseIdx i
        alerts := if status ≠ 200 then w.alerts ++ [callback.failure] else w.alerts } callback rows
  | .tick => (pageStep w.page .tick).map fun page => { w with page := page }
  | .complete i status =>
    (synchStep w.page.upload (.complete i status)).bind fun u =>
      let w := { w with page := w.page.withUpload u }
      if status = 200 then some w
      else if status = 403 then w.leaveView.map enterlockedview
      else some { w with alerts := w.alerts ++ ["Transfer error, code: " ++ toString status] }
  | .cookie cookie => some { w with cookie := cookie }

/-- The window that `window.onload` leaves: `fetchupdates` has sent its request, and `synch` has
found nothing to upload. -/
def onload (cookie : JsString) : Window :=
  enterloadingview {
    page := ⟨⟨Heap.empty, [], [], .loading⟩, [], [], []⟩
    leave := .missing
    body := []
    nodes := 0
    mouse := .unset
    graph := none
    stale := 0
    onmouseup := false
    requests := [.branches]
    cookie := cookie
    alerts := [] }

end Window

/-- One event of the window: `none` if it cannot happen, or its handler throws. -/
def windowStep (setcookie : JsString → JsString → JsString) (w : Window) (event : WindowEvent) :
    Option Window :=
  if w.Enabled event then w.handle setcookie event else none

end SleepyText.Client
