import SleepyText.Server.Refinement

set_option relaxedAutoImplicit false
set_option autoImplicit false

/-!
# The order of the requests

Requests of many connections are interleaved in the tables and the files, and their bytes in the
calls of `http_tls_ondata`.

## Main definitions

* `Serial` — what a server does that gets its requests one after another.
* `Conversation`, `conversationStep` — a connection on its own.

## Main results

* `server_serial` — the answers of a run are those to the logged requests one after another.
* `conversation_isolated`, `conversation_in_order` — what is answered on a connection is told by
  what happens on it, and requests are answered in their order.
-/

namespace SleepyText.Server

variable {accept : List UInt8 → List UInt8}

/-! ## One request after another -/

/-- The exchanges of a server that gets one request after another, and the tables and the files
before and after them. -/
inductive Serial (accept : List UInt8 → List UInt8) :
    ServerState → List Exchange → ServerState → Prop
  | nil (s : ServerState) : Serial accept s [] s
  | cons {s t u : ServerState} {w : World} {r : Parsed} {a : Reply} {xs : List Exchange}
      (beyond tail : List UInt8) (hreply : reply accept w beyond tail r s = some (a, t))
      (hrest : Serial accept t xs u) : Serial accept s (a.exchange r w beyond :: xs) u

section Serial

variable {s t u : ServerState} {xs ys : List Exchange}

/-- One run of requests after another. -/
lemma Serial.append (h : Serial accept s xs t) (h' : Serial accept t ys u) :
    Serial accept s (xs ++ ys) u := by
  induction h with
  | nil => exact h'
  | cons beyond tail hreply _ ih => exact .cons beyond tail hreply (ih h')

/-- What every request keeps is kept. -/
lemma Serial.invariant {I : ServerState → Prop}
    (hstep : ∀ w beyond tail r a s t, I s → reply accept w beyond tail r s = some (a, t) → I t)
    (h : Serial accept s xs t) (hs : I s) : I t := by
  induction h with
  | nil => exact hs
  | cons beyond tail hreply _ ih => exact ih (hstep _ beyond tail _ _ _ _ hs hreply)

/-- A relation between the states before and after each request is one over all of them. -/
lemma Serial.relation {R : ServerState → ServerState → Prop} (hrefl : ∀ s, R s s)
    (htrans : ∀ s t u, R s t → R t u → R s u)
    (hstep : ∀ w beyond tail r a s t, reply accept w beyond tail r s = some (a, t) → R s t)
    (h : Serial accept s xs t) : R s t := by
  induction h with
  | nil s => exact hrefl s
  | cons beyond tail hreply _ ih => exact htrans _ _ _ (hstep _ beyond tail _ _ _ _ hreply) ih

end Serial

/-- One event of the service is a request, or none. -/
lemma serviceStep_serial {s t : Service} {d : ServiceEvent}
    (h : serviceStep accept s d = some t) : ∃ xs : List (ℕ × Exchange),
      t.log = s.log ++ xs ∧ Serial accept s.state (xs.map Prod.snd) t.state := by
  have hnone : ∀ t : Service, t.log = s.log → t.state = s.state →
      ∃ xs : List (ℕ × Exchange), t.log = s.log ++ xs ∧
        Serial accept s.state (xs.map Prod.snd) t.state := by
    intro t hlog hstate
    exact ⟨[], by rw [hlog, List.append_nil], hstate ▸ .nil _⟩
  cases d with
  | accept i =>
    rw [serviceStep] at h
    split_ifs at h
    obtain rfl := Option.some.inj h
    exact hnone _ rfl rfl
  | close i =>
    rw [serviceStep] at h
    split_ifs at h
    obtain rfl := Option.some.inj h
    exact hnone _ rfl rfl
  | receive i chunk w beyond tail =>
    obtain ⟨p, -, h⟩ := Option.bind_eq_some_iff.mp h
    dsimp only at h
    split_ifs at h
    · obtain rfl := Option.some.inj h
      exact hnone _ rfl rfl
    · obtain ⟨⟨a, state⟩, hreply, rfl⟩ := Option.map_eq_some_iff.mp h
      exact ⟨[(i, a.exchange _ w beyond)], rfl, .cons beyond tail hreply (.nil _)⟩

/-- A run of the service. -/
lemma service_serial {s t : Service} {ds : List ServiceEvent}
    (h : Run.run (serviceStep accept) s ds = some t) : ∃ xs : List (ℕ × Exchange),
      t.log = s.log ++ xs ∧ Serial accept s.state (xs.map Prod.snd) t.state := by
  induction ds generalizing s with
  | nil =>
    obtain rfl := Option.some.inj h
    exact ⟨[], (List.append_nil _).symm, .nil _⟩
  | cons d ds ih =>
    obtain ⟨u, hu, hut⟩ := Run.run_cons_eq_some.mp h
    obtain ⟨xs, hxs, hserial⟩ := serviceStep_serial hu
    obtain ⟨ys, hys, hserial'⟩ := ih hut
    refine ⟨xs ++ ys, by rw [hys, hxs, List.append_assoc], ?_⟩
    rw [List.map_append]
    exact hserial.append hserial'

/-- A run from a server whose buffers are apart. -/
lemma serial_of_run {s t : Process} {es : List ServerEvent} (hs : s.Sound)
    (hallocated : Run.Guarded (serverStep accept) Process.Allocated s es)
    (hrun : Run.run (serverStep accept) s es = some t) : ∃ xs : List (ℕ × Exchange),
      t.log = s.log ++ xs ∧ Serial accept s.state (xs.map Prod.snd) t.state := by
  obtain ⟨ds, -, hservice⟩ := service_of_run hs hallocated hrun
  exact service_serial hservice

/-- **One request after another.** However the connections are interleaved, the answers of a run
and the tables and the files after it are those of a server that gets the logged requests one after
another, in the order of the log. -/
theorem server_serial {m : Memory} {state : ServerState} {es : List ServerEvent} {s : Process}
    (hallocated : Run.Guarded (serverStep accept) Process.Allocated (.init m state) es)
    (hrun : Run.run (serverStep accept) (.init m state) es = some s) :
    Serial accept state (s.log.map Prod.snd) s.state := by
  obtain ⟨xs, hlog, hserial⟩ := serial_of_run (sound_init m state) hallocated hrun
  rw [hlog]
  exact hserial

/-- The two requests of two connections. -/
theorem server_serial_two :
    ∃ s, Run.run (serverStep acceptNoKey) (.init (fun _ => 0) onePage)
        twoConnections = some s ∧ s.log.length = 2 ∧
      Serial acceptNoKey onePage (s.log.map Prod.snd) s.state := by
  have hlog : (Run.run (serverStep acceptNoKey) (.init (fun _ => 0) onePage)
      twoConnections).map (fun s => s.log.length) = some 2 := by decide +kernel
  obtain ⟨s, hrun, hlog⟩ := Option.map_eq_some_iff.mp hlog
  exact ⟨s, hrun, hlog, server_serial (allocated_init _ _ takenFrom_twoConnections) hrun⟩

/-! ## Each connection on its own -/

/-- A connection on its own: the bytes that it sent since the last answer, while it is open, and
the requests that were answered. -/
structure Conversation where
  held : Option (List UInt8)
  answered : List Parsed

/-- What an event of the connection does to it. -/
def conversationStep (c : Conversation) : ServiceEvent → Option Conversation
  | .accept _ => if c.held.isNone then some { c with held := some [] } else none
  | .receive _ chunk _ _ _ =>
    c.held.bind fun p =>
      let r := parseRequest (p ++ chunk)
      if 4096 < (p ++ chunk).length then none
      else if chunk = [] ∨ r.addr = [] then some { c with held := some (p ++ chunk) }
      else some ⟨some [], c.answered ++ [r]⟩
  | .close _ => if c.held.isSome then some { c with held := none } else none

/-- What the service has of a connection. -/
def Service.conversation (i : ℕ) (s : Service) : Conversation where
  held := s.held i
  answered := (s.log.filter fun entry => entry.1 = i).map fun entry => entry.2.request

section Conversations

variable {i : ℕ}

/-- What the service has of a connection after it was written to. -/
lemma conversation_update (s : Service) (j : ℕ) (held : Option (List UInt8)) :
    Service.conversation i { s with held := Function.update s.held j held } =
      if j = i then { s.conversation i with held := held } else s.conversation i := by
  unfold Service.conversation
  dsimp only
  split_ifs with hij
  · subst hij
    rw [Function.update_self]
  · rw [Function.update_of_ne (Ne.symm hij)]

/-- The events of a connection move it. -/
lemma conversation_own {s t : Service} {d : ServiceEvent} (hd : d.socket = i)
    (h : serviceStep accept s d = some t) :
    conversationStep (s.conversation i) d = some (t.conversation i) := by
  cases d with
  | accept j =>
    obtain rfl : j = i := hd
    rw [serviceStep] at h
    split_ifs at h with hnone
    obtain rfl := Option.some.inj h
    rw [conversation_update, if_pos rfl]
    exact if_pos hnone
  | close j =>
    obtain rfl : j = i := hd
    rw [serviceStep] at h
    split_ifs at h with hsome
    obtain rfl := Option.some.inj h
    rw [conversation_update, if_pos rfl]
    exact if_pos hsome
  | receive j chunk w beyond tail =>
    obtain rfl : j = i := hd
    obtain ⟨p, hp, h⟩ := Option.bind_eq_some_iff.mp h
    have hheld : (s.conversation j).held = some p := hp
    rw [conversationStep, hheld]
    dsimp only [Option.bind_some] at h ⊢
    split_ifs at h with hlong hnone
    · obtain rfl := Option.some.inj h
      rw [if_neg hlong, if_pos hnone, conversation_update, if_pos rfl]
    · obtain ⟨⟨a, state⟩, -, rfl⟩ := Option.map_eq_some_iff.mp h
      rw [if_neg hlong, if_neg hnone]
      unfold Service.conversation
      simp [Reply.exchange]

/-- The events of other connections do not. -/
lemma conversation_other {s t : Service} {d : ServiceEvent} (hd : d.socket ≠ i)
    (h : serviceStep accept s d = some t) : t.conversation i = s.conversation i := by
  cases d with
  | accept j | close j =>
    have hj : j ≠ i := hd
    rw [serviceStep] at h
    split_ifs at h
    obtain rfl := Option.some.inj h
    rw [conversation_update, if_neg hj]
  | receive j chunk w beyond tail =>
    have hj : j ≠ i := hd
    obtain ⟨p, -, h⟩ := Option.bind_eq_some_iff.mp h
    dsimp only at h
    split_ifs at h
    · obtain rfl := Option.some.inj h
      rw [conversation_update, if_neg hj]
    · obtain ⟨⟨a, state⟩, -, rfl⟩ := Option.map_eq_some_iff.mp h
      unfold Service.conversation
      dsimp only
      rw [Function.update_of_ne (Ne.symm hj), List.filter_append]
      simp [hj]

/-- The events of the server that are about a connection. -/
def ServerEvent.socket : ServerEvent → ℕ
  | .accept socket | .ondata socket _ | .onclose socket => socket

/-- A server event and its service event are on the same socket. -/
lemma Matches.socket {e : ServerEvent} {d : ServiceEvent} (h : Matches e d) :
    d.socket = e.socket := by
  cases h <;> rfl

/-- **A connection on its own** does what the server has of it. -/
lemma conversation_of_run {m : Memory} {state : ServerState} {es : List ServerEvent} {s : Process}
    (hallocated : Run.Guarded (serverStep accept) Process.Allocated (.init m state) es)
    (hrun : Run.run (serverStep accept) (.init m state) es = some s) (i : ℕ) :
    ∃ ds, List.Forall₂ Matches (es.filter fun e => e.socket = i) ds ∧
      Run.run conversationStep ⟨none, []⟩ ds = some (s.service.conversation i) := by
  obtain ⟨ds, hmatches, hservice⟩ := service_of_run (sound_init m state) hallocated hrun
  refine ⟨ds.filter fun d => d.socket = i, ?_, ?_⟩
  · have hsame : (Relator.LiftFun Matches (· ↔ ·)) (fun e => decide (e.socket = i) = true)
        (fun d => decide (d.socket = i) = true) := by
      intro e d h
      dsimp only
      rw [h.socket]
    exact List.rel_filter hsame hmatches
  · exact Run.run_project (fun s d t => conversation_own) (fun s d t => conversation_other) hservice

/-- Events of the service that match the same event of the server do the same. -/
lemma conversationStep_congr {e : ServerEvent} {d d' : ServiceEvent} (h : Matches e d)
    (h' : Matches e d') (c : Conversation) : conversationStep c d = conversationStep c d' := by
  cases h with
  | accept | onclose =>
    cases h'
    rfl
  | receive beyond tail hrecv hplain =>
    cases h' with
    | receive _ _ _ hplain' =>
      obtain rfl := Option.some.inj (hplain.symm.trans hplain')
      rfl
    | drop hclosed =>
      rw [hplain] at hclosed
      exact absurd hclosed (by simp; omega)
  | drop hclosed =>
    cases h' with
    | receive _ _ hrecv hplain =>
      rw [hplain] at hclosed
      exact absurd hclosed (by simp; omega)
    | drop => rfl

/-- Service events that match the same server events do the same to a connection. -/
lemma run_conversation_congr {es : List ServerEvent} {ds ds' : List ServiceEvent}
    (h : List.Forall₂ Matches es ds) (h' : List.Forall₂ Matches es ds') (c : Conversation) :
    Run.run conversationStep c ds = Run.run conversationStep c ds' := by
  induction h generalizing ds' c with
  | nil =>
    cases h'
    rfl
  | cons hd _ ih =>
    cases h' with
    | cons hd' hds' =>
      unfold Run.run
      rw [conversationStep_congr hd hd']
      congr 1
      funext c
      exact ih hds' c

/-- What a well-formed request reads. -/
def Message.parsed (r : Message) : Parsed := ⟨r.header, r.body, r.target⟩

/-- What TLS hands over piece by piece. -/
lemma plaintext_pieces (pieces : List (List UInt8)) :
    plaintext (pieces.map .none ++ [.wantRead]) = some pieces.flatten := by
  induction pieces with
  | nil => rfl
  | cons bs pieces ih => simp [plaintext, ih]

/-- A call that delivers a chunk. -/
lemma matches_of_delivers {call : Call} {chunk : List UInt8} (h : call.toOndata.Delivers chunk)
    (i : ℕ) : Matches (.ondata i call) (.receive i chunk call.world [] []) := by
  obtain ⟨hrecv, -, pieces, hanswers, rfl⟩ := h
  exact .receive [] [] hrecv (hanswers ▸ plaintext_pieces pieces)

/-- **The rest of a request** of which the connection has the part `p`. -/
lemma conversation_chunks {r : Message} (hr : r.WellFormed) (hsize : r.encode.length < 4096)
    {calls : List Call} {chunks : List (List UInt8)}
    (hcalls : List.Forall₂ (fun call chunk => call.toOndata.Delivers chunk) calls chunks)
    (hempty : ∀ chunk ∈ chunks, chunk ≠ []) (hchunks : chunks ≠ []) {p : List UInt8}
    (hp : p ++ chunks.flatten = r.encode) (answered : List Parsed) :
    ∃ ds, List.Forall₂ Matches (calls.map (.ondata i)) ds ∧
      Run.run conversationStep ⟨some p, answered⟩ ds =
        some ⟨some [], answered ++ [r.parsed]⟩ := by
  induction hcalls generalizing p with
  | nil => exact absurd rfl hchunks
  | @cons call chunk calls chunks hcall hcalls ih =>
    rw [List.flatten_cons, ← List.append_assoc] at hp
    have hchunk : chunk ≠ [] := hempty chunk List.mem_cons_self
    have hmatch := matches_of_delivers hcall i
    have hlen := congrArg List.length hp
    rw [@List.length_append _ (p ++ chunk)] at hlen
    cases hcalls with
    | nil =>
      -- the last chunk
      rw [List.flatten_nil, List.append_nil] at hp
      refine ⟨_, .cons hmatch .nil, ?_⟩
      have hparse : parseRequest (p ++ chunk) = r.parsed := by
        rw [hp, parseRequest_encode hr]
        rfl
      have htarget : r.parsed.addr ≠ [] := hr.target.1
      rw [Run.run_cons_eq_some]
      refine ⟨_, ?_, rfl⟩
      rw [conversationStep]
      dsimp only [Option.bind_some]
      rw [hparse, if_neg (by omega), if_neg (not_or.mpr ⟨hchunk, htarget⟩)]
    | @cons call' chunk' calls chunks hcall' hcalls =>
      -- something is left of the request
      have hchunk' : 0 < chunk'.length :=
        List.length_pos_iff.mpr (hempty chunk' (List.mem_cons_of_mem _ List.mem_cons_self))
      rw [List.flatten_cons, @List.length_append _ chunk'] at hlen
      have hshort : (p ++ chunk).length < r.encode.length := by omega
      have hpart : parseRequest (p ++ chunk) = ⟨[], [], []⟩ := by
        have htake : p ++ chunk = r.encode.take (p ++ chunk).length := by
          rw [← hp, List.take_left]
        rw [htake]
        exact parseRequest_take hr hshort
      obtain ⟨ds, hds, hrun⟩ := ih (fun chunk hmem => hempty chunk (List.mem_cons_of_mem _ hmem))
        (List.cons_ne_nil _ _) hp
      refine ⟨_, .cons hmatch hds, Run.run_cons_eq_some.mpr ⟨_, ?_, hrun⟩⟩
      rw [conversationStep]
      dsimp only [Option.bind_some]
      rw [hpart, if_neg (by omega), if_pos (.inr rfl)]

/-- Requests one after another. -/
lemma conversation_messages {rs : List Message} {calls : List (List Call)}
    (hwf : ∀ r ∈ rs, r.WellFormed) (hsize : ∀ r ∈ rs, r.encode.length < 4096)
    (hcalls : List.Forall₂ (fun r calls => r.DeliveredBy (calls.map Call.toOndata)) rs calls)
    (answered : List Parsed) :
    ∃ ds, List.Forall₂ Matches (calls.flatten.map (.ondata i)) ds ∧
      Run.run conversationStep ⟨some [], answered⟩ ds =
        some ⟨some [], answered ++ rs.map Message.parsed⟩ := by
  induction hcalls generalizing answered with
  | nil => exact ⟨[], .nil, by simp⟩
  | @cons r rcalls rs calls hr _ ih =>
    obtain ⟨chunks, hdelivers, hempty, hflatten⟩ := hr
    have hchunks : chunks ≠ [] := by
      rintro rfl
      have hlen := congrArg List.length hflatten
      simp [Message.encode] at hlen
    obtain ⟨ds, hds, hrun⟩ := conversation_chunks (hwf r List.mem_cons_self)
      (hsize r List.mem_cons_self) (List.forall₂_map_left_iff.mp hdelivers) hempty hchunks
      (p := []) hflatten answered
    obtain ⟨ds', hds', hrun'⟩ := ih (fun r hr => hwf r (List.mem_cons_of_mem _ hr))
      (fun r hr => hsize r (List.mem_cons_of_mem _ hr)) (answered ++ [r.parsed])
    refine ⟨ds ++ ds', ?_, Run.run_append_eq_some.mpr ⟨_, hrun, ?_⟩⟩
    · rw [List.flatten_cons, List.map_append]
      exact List.rel_append hds hds'
    · rw [hrun', List.append_assoc]
      rfl

/-- **The requests of a connection are answered in their order**, and nothing is left of them. -/
lemma conversation_in_order {m : Memory} {state : ServerState} {es : List ServerEvent} {s : Process}
    {rs : List Message} {calls : List (List Call)} (hwf : ∀ r ∈ rs, r.WellFormed)
    (hsize : ∀ r ∈ rs, r.encode.length < 4096)
    (hcalls : List.Forall₂ (fun r calls => r.DeliveredBy (calls.map Call.toOndata)) rs calls)
    (hallocated : Run.Guarded (serverStep accept) Process.Allocated (.init m state) es)
    (hrun : Run.run (serverStep accept) (.init m state) es = some s)
    (hown : (es.filter fun e => e.socket = i) = .accept i :: calls.flatten.map (.ondata i)) :
    s.service.conversation i = ⟨some [], rs.map Message.parsed⟩ := by
  obtain ⟨ds, hmatches, hconversation⟩ := conversation_of_run hallocated hrun i
  obtain ⟨ds', hmatches', hconversation'⟩ := conversation_messages (i := i) hwf hsize hcalls []
  rw [hown] at hmatches
  rw [run_conversation_congr hmatches (.cons (.accept i) hmatches')] at hconversation
  change Run.run conversationStep ⟨some [], []⟩ ds' = _ at hconversation
  rw [hconversation'] at hconversation
  exact (Option.some.inj hconversation).symm

end Conversations

end SleepyText.Server
