/-
  CryptoChat.Net.Correlation — requests and their responses, from `Client::requestAsync`
  through `Router::handle` to `Client::handleMessage`.

  Threads of the client call `requestAsync`, whose check, counter, map and post are
  separate steps that interleave; the server handles any request that was posted, in any
  order and any number of times, with any handlers; the client receives any of the
  answers, in any order and any number of times, and any other message at all. Frames
  arrive as they were sent.

  Proved: with at most 2^32 - 1 requests, a callback is invoked at most once; an answer
  invokes the callback of its own request only, with what the handler gave; a message that
  responds to no pending id changes nothing; the map holds the requests issued and not yet
  answered (`correlation`).
-/

import CryptoChat.Net.Router
import CryptoChat.Lib.ListAt
import CryptoChat.Lib.Machine

namespace CryptoChat.Net

open CryptoChat.Lib CryptoChat.Lib.ListAt

/-! ## The client -/

/-- `mResponseCallbacks`, for callbacks of type `κ`; an entry can be an empty function. -/
abbrev ResponseCallbacks (κ : Type) := AList fun _ : BitVec 32 => Option κ

/-- What `handleMessage` calls. -/
inductive Called (κ : Type) where
  | nothing
  | response (callback : κ) (argument : Json)
  | push (pushBody : Json)

namespace Client

variable {κ : Type}

/-- What the callback of a response is given. -/
def responseArgument (msg : Message) : Except Exn Json :=
  match msg.j.find? "error" with
  | some error => .ok error
  | none => msg.j.value "result" (.obj [])

/-- The map afterwards, and the call made or what was thrown. -/
def handleMessage (mPushCallback : Bool) (msg : Message) (callbacks : ResponseCallbacks κ) :
    ResponseCallbacks κ × Except Exn (Called κ) :=
  if msg.type = .response then
    match msg.j.valueInt "id" 0#32 with
    | .error e => (callbacks, .error e)
    | .ok id =>
      match callbacks.lookup id with
      | none => (callbacks, .ok .nothing)
      | some none => (callbacks.erase id, .ok .nothing)
      | some (some callback) => (callbacks.erase id, (responseArgument msg).map (.response callback))
  else if msg.type = .push then
    if mPushCallback then (callbacks, (msg.j.value "push" (.obj [])).map .push) else (callbacks, .ok .nothing)
  else (callbacks, .ok .nothing)

/-- A message is a response to `id`. -/
def RespondsTo (msg : Message) (id : BitVec 32) : Prop :=
  msg.type = .response ∧ msg.j.valueInt "id" 0#32 = .ok id

instance (msg : Message) (id : BitVec 32) : Decidable (RespondsTo msg id) := inferInstanceAs (Decidable (_ ∧ _))

theorem RespondsTo.unique {msg : Message} {id id' : BitVec 32} (h : RespondsTo msg id) (h' : RespondsTo msg id') :
    id = id' :=
  Except.ok.inj (h.2.symm.trans h'.2)

/-- A response to an id in the map takes it out and calls it; any other message leaves the map
    and calls no callback of it. -/
theorem handleMessage_spec (mPushCallback : Bool) (msg : Message) (callbacks : ResponseCallbacks κ) :
    (∃ id entry, RespondsTo msg id ∧ callbacks.lookup id = some entry ∧
      handleMessage mPushCallback msg callbacks = (callbacks.erase id,
        match entry with
        | none => .ok .nothing
        | some callback => (responseArgument msg).map (.response callback))) ∨
    ((∀ id, RespondsTo msg id → callbacks.lookup id = none) ∧
      ∃ called, handleMessage mPushCallback msg callbacks = (callbacks, called) ∧
        ∀ callback argument, called ≠ .ok (.response callback argument)) := by
  unfold handleMessage
  by_cases ht : msg.type = .response
  · rw [if_pos ht]
    cases hid : msg.j.valueInt "id" 0#32 with
    | error e => exact .inr ⟨fun id h => by simp [h.2] at hid, _, rfl, nofun⟩
    | ok id =>
      cases hl : callbacks.lookup id with
      | none =>
        refine .inr ⟨fun id' h => RespondsTo.unique ⟨ht, hid⟩ h ▸ hl, .ok .nothing, ?_, nofun⟩
        simp only [hl]
      | some entry =>
        refine .inl ⟨id, entry, ⟨ht, hid⟩, hl, ?_⟩
        cases entry <;> simp only [hl]
  · refine .inr ⟨fun id h => absurd h.1 ht, ?_⟩
    rw [if_neg ht]
    split
    · split
      · refine ⟨_, rfl, ?_⟩
        intro callback argument h
        cases hv : msg.j.value "push" (.obj []) <;> simp [hv, Except.map] at h
      · exact ⟨_, rfl, nofun⟩
    · exact ⟨_, rfl, nofun⟩

/-- A message with an id is an object, so there is something for the callback. -/
theorem RespondsTo.argument {msg : Message} {id : BitVec 32} (h : RespondsTo msg id) :
    ∃ argument, responseArgument msg = .ok argument := by
  unfold responseArgument
  split
  · exact ⟨_, rfl⟩
  · have hid := h.2
    cases hj : msg.j with
    | obj fields =>
      rw [Json.value, Json.valueWith]
      split
      · exact ⟨_, rfl⟩
      · exact ⟨_, rfl⟩
    | _ =>
      rw [hj] at hid
      cases hid

theorem handleMessage_response (mPushCallback : Bool) {msg : Message} (ht : msg.type = .response)
    (callbacks : ResponseCallbacks κ) (pushBody : Json) :
    (handleMessage mPushCallback msg callbacks).2 ≠ .ok (.push pushBody) := by
  unfold handleMessage
  rw [if_pos ht]
  split
  · exact nofun
  · split
    · exact nofun
    · exact nofun
    · intro h
      cases hv : responseArgument msg <;> simp [hv, Except.map] at h

/-- An answer of the router is a response to its id and carries its argument. -/
theorem respondsTo_toMessage (now : Nat) (id : BitVec 32) (a : Answer) : RespondsTo (a.toMessage now id) id :=
  ⟨a.toMessage_type now id, id_toMessage now id a⟩

theorem responseArgument_toMessage (now : Nat) (id : BitVec 32) (a : Answer) :
    responseArgument (a.toMessage now id) = .ok a.argument := by
  cases a <;>
    simp [responseArgument, Answer.toMessage, Answer.argument, Message.makeResponse, Message.makeError, Message.withId,
      Json.find?, Json.value, Json.valueWith, Json.lookup_assign]

end Client

/-! ## The two parties -/

namespace Correlation

open Client

/-- A call of `requestAsync` that took an id. -/
structure Call where
  id : BitVec 32
  method : String
  params : Json
  /-- Whether the callback is not empty. -/
  callback : Bool

/-- A request that was posted. -/
structure Sent where
  call : Nat
  message : Message

/-- An answer the server sent, and what it comes from. -/
structure Served where
  call : Nat
  router : Router
  uid : BitVec 32
  now : Nat
  message : Message

/-- Where a message at the client comes from: the server's answer `a`, or anywhere. -/
inductive Source where
  | answer (a : Nat)
  | other (msg : Message)

structure Invocation where
  call : Nat
  argument : Json
  source : Source

/-- The read loop: gone, reading, or in `handleMessage`. -/
inductive Reader where
  | idle
  | reading
  | handling
  deriving DecidableEq

structure St where
  mIsRunning : Bool
  mNextRequestId : BitVec 32
  mResponseCallbacks : ResponseCallbacks Nat
  mPushCallback : Bool
  reader : Reader
  /-- The calls of `requestAsync` past the check of `mIsRunning`. -/
  entered : List (String × Json × Bool)
  calls : List Call
  /-- The calls whose callback was put into the map, those posted, and those a response to
      their id was handled for since. -/
  issued : List Nat
  posted : List Nat
  answered : List Nat
  requests : List Sent
  answers : List Served
  invoked : List Invocation
  pushed : List Json

/-- A connected client. -/
def init (mPushCallback : Bool) : St := ⟨true, 1#32, ∅, mPushCallback, .reading, [], [], [], [], [], [], [], [], []⟩

inductive Ev where
  /-- `requestAsync` is called, takes an id, fills the map, posts the request. -/
  | request (method : String) (params : Json) (callback : Bool)
  | fetch (i : Nat)
  | insert (n : Nat)
  | post (n now : Nat)
  /-- The server handles the request `k`. -/
  | serve (k : Nat) (handlers : List (String × Handler)) (uid : BitVec 32) (now : Nat)
  /-- The client handles a message; the callback returns or throws. -/
  | recv (source : Source)
  | handled (threw : Bool)
  | close

def Call.entry (c : Call) (n : Nat) : Option Nat := if c.callback then some n else none

def message (s : St) : Source → Option Message
  | .answer a => s.answers[a]?.map Served.message
  | .other msg => some msg

/-- The issued calls that a message is a response to. -/
def answeredBy (s : St) (msg : Message) : List Nat :=
  s.issued.filter fun n => decide (∃ c ∈ s.calls[n]?, RespondsTo msg c.id)

def deliver (s : St) (source : Source) (msg : Message) : St :=
  let handled := handleMessage s.mPushCallback msg s.mResponseCallbacks
  let s := { s with mResponseCallbacks := handled.1, answered := s.answered ++ answeredBy s msg, reader := .handling }
  match handled.2 with
  | .error _ => { s with reader := .idle, mIsRunning := false }
  | .ok .nothing => s
  | .ok (.response n argument) => { s with invoked := s.invoked ++ [⟨n, argument, source⟩] }
  | .ok (.push pushBody) => { s with pushed := s.pushed ++ [pushBody] }

def next (s : St) : Ev → Option St
  | .request method params callback =>
    some (if s.mIsRunning then { s with entered := s.entered ++ [(method, params, callback)] } else s)
  | .fetch i =>
    s.entered[i]?.map fun (method, params, callback) => { s with
      entered := s.entered.eraseIdx i
      mNextRequestId := s.mNextRequestId + 1
      calls := s.calls ++ [⟨s.mNextRequestId, method, params, callback⟩] }
  | .insert n =>
    s.calls[n]?.bind fun c =>
      if n ∈ s.issued then none
      else some { s with mResponseCallbacks := s.mResponseCallbacks.insert c.id (c.entry n), issued := s.issued ++ [n] }
  | .post n now =>
    s.calls[n]?.bind fun c =>
      if n ∈ s.issued ∧ n ∉ s.posted then
        some { s with
          posted := s.posted ++ [n], requests := s.requests ++ [⟨n, .makeRequest now c.id c.method c.params⟩] }
      else none
  | .serve k handlers uid now =>
    s.requests[k]?.map fun r =>
      match (Router.of handlers).handle now r.message uid with
      | .ok answer => { s with answers := s.answers ++ [⟨r.call, Router.of handlers, uid, now, answer⟩] }
      | .error _ => s
  | .recv source => if s.reader = .reading then (message s source).map (deliver s source) else none
  | .handled threw =>
    if s.reader = .handling then
      some (if threw then { s with reader := .idle, mIsRunning := false }
        else { s with reader := if s.mIsRunning then .reading else .idle })
    else none
  | .close => some { s with mIsRunning := false }

/-! ## The invariant -/

def Pending (s : St) (n : Nat) : Prop := n ∈ s.issued ∧ n ∉ s.answered

/-- What a server's router made of the request `c`. -/
def Served.From (v : Served) (c : Call) : Prop :=
  ∃ handlers time, v.router = Router.of handlers ∧
    v.router.handle v.now (.makeRequest time c.id c.method c.params) v.uid = .ok v.message

theorem Served.From.message {v : Served} {c : Call} (h : v.From c) :
    v.message = (v.router.answer c.method c.params v.uid).toMessage v.now c.id := by
  obtain ⟨handlers, time, hr, hv⟩ := h
  rw [Router.handle_makeRequest (by rw [hr, Router.fallback_of])] at hv
  exact (Except.ok.inj hv).symm

structure Inv (s : St) : Prop where
  next_id : s.mNextRequestId = BitVec.ofNat 32 (s.calls.length + 1)
  ids : ∀ n c, s.calls[n]? = some c → c.id = BitVec.ofNat 32 (n + 1)
  issued : ∀ n ∈ s.issued, n < s.calls.length
  answered : s.answered ⊆ s.issued
  pending : ∀ id entry, s.mResponseCallbacks.lookup id = some entry ↔
    ∃ n c, s.calls[n]? = some c ∧ c.id = id ∧ Pending s n ∧ c.entry n = entry
  requests : ∀ r ∈ s.requests, ∃ c time, s.calls[r.call]? = some c ∧
    r.message = .makeRequest time c.id c.method c.params
  answers : ∀ v ∈ s.answers, ∃ c, s.calls[v.call]? = some c ∧ v.From c
  invoked : ∀ v ∈ s.invoked, v.call ∈ s.answered
  once : (s.invoked.map Invocation.call).Nodup
  sources : ∀ v ∈ s.invoked, ∀ a, v.source = .answer a → ∃ served c, s.answers[a]? = some served ∧
    served.call = v.call ∧ s.calls[v.call]? = some c ∧ served.From c ∧
      v.argument = (served.router.answer c.method c.params served.uid).argument

variable {s s' : St}

theorem inv_init (mPushCallback : Bool) : Inv (init mPushCallback) where
  next_id := rfl
  ids := by simp [init]
  issued := by simp [init]
  answered := by simp [init]
  pending := by simp [init]
  requests := by simp [init]
  answers := by simp [init]
  invoked := by simp [init]
  once := by simp [init]
  sources := by simp [init]

/-- Up to 2^32 - 1 calls, no two have the same id. -/
theorem Inv.id_inj (h : Inv s) (hn : s.calls.length ≤ 2 ^ 32 - 1) {n m : Nat} {c d : Call} (hc : s.calls[n]? = some c)
    (hd : s.calls[m]? = some d) (he : c.id = d.id) : n = m := by
  have hlt := (List.getElem?_eq_some_iff.mp hc).1
  have hlt' := (List.getElem?_eq_some_iff.mp hd).1
  rw [h.ids n c hc, h.ids m d hd] at he
  have := congrArg BitVec.toNat he
  simp only [BitVec.toNat_ofNat] at this
  omega

theorem mem_answeredBy {msg : Message} {n : Nat} :
    n ∈ answeredBy s msg ↔ n ∈ s.issued ∧ ∃ c, s.calls[n]? = some c ∧ RespondsTo msg c.id := by
  simp [answeredBy]

/-! ## One step -/

theorem inv_fetch (h : Inv s) {i : Nat} (method : String) (params : Json) (callback : Bool) :
    Inv { s with
      entered := s.entered.eraseIdx i
      mNextRequestId := s.mNextRequestId + 1
      calls := s.calls ++ [⟨s.mNextRequestId, method, params, callback⟩] } := by
  refine { h with
    next_id := ?_, ids := ?_, issued := ?_, pending := ?_
    requests := ?_, answers := ?_, sources := ?_ }
  · simp only [h.next_id, List.length_append, List.length_singleton]
    apply BitVec.eq_of_toNat_eq
    simp
  · intro n c hc
    rcases getElem?_snoc hc with hc | ⟨rfl, rfl⟩
    · exact h.ids n c hc
    · exact h.next_id
  · intro n hn
    have := h.issued n hn
    simp only [List.length_append, List.length_singleton]
    omega
  · intro id entry
    rw [h.pending]
    constructor
    · intro h
      obtain ⟨n, c, hc, hrest⟩ := h
      exact ⟨n, c, getElem?_append_some hc _, hrest⟩
    · intro h
      obtain ⟨n, c, hc, hid, hp, he⟩ := h
      rw [List.getElem?_append_left (h.issued n hp.1)] at hc
      exact ⟨n, c, hc, hid, hp, he⟩
  · intro r hr
    obtain ⟨c, time, hc, hm⟩ := h.requests r hr
    exact ⟨c, time, getElem?_append_some hc _, hm⟩
  · intro v hv
    obtain ⟨c, hc, hf⟩ := h.answers v hv
    exact ⟨c, getElem?_append_some hc _, hf⟩
  · intro v hv a ha
    obtain ⟨served, c, hs, hcall, hc, hrest⟩ := h.sources v hv a ha
    exact ⟨served, c, hs, hcall, getElem?_append_some hc _, hrest⟩

theorem inv_insert (h : Inv s) (hn : s.calls.length ≤ 2 ^ 32 - 1) {n : Nat} {c : Call} (hc : s.calls[n]? = some c)
    (hi : n ∉ s.issued) :
    Inv { s with mResponseCallbacks := s.mResponseCallbacks.insert c.id (c.entry n), issued := s.issued ++ [n] } := by
  have hna : n ∉ s.answered := fun ha => hi (h.answered ha)
  refine { h with
    issued := ?_
    answered := fun m hm => List.mem_append_left _ (h.answered hm)
    pending := ?_ }
  · intro m hm
    rcases List.mem_append.mp hm with hm | hm
    · exact h.issued m hm
    · rw [List.mem_singleton.mp hm]
      exact (List.getElem?_eq_some_iff.mp hc).1
  · intro id entry
    by_cases hid : id = c.id
    · subst hid
      rw [AList.lookup_insert]
      constructor
      · rintro ⟨⟩
        exact ⟨n, c, hc, rfl, ⟨List.mem_append_right _ (List.mem_singleton_self n), hna⟩, rfl⟩
      · intro h'
        obtain ⟨m, d, hd, hdid, -, he⟩ := h'
        obtain rfl := h.id_inj hn hd hc hdid
        rw [hd] at hc
        rw [← Option.some.inj hc, he]
    · rw [AList.lookup_insert_ne hid, h.pending]
      constructor
      · intro h'
        obtain ⟨m, d, hd, hdid, hp, he⟩ := h'
        exact ⟨m, d, hd, hdid, ⟨List.mem_append_left _ hp.1, hp.2⟩, he⟩
      · intro h'
        obtain ⟨m, d, hd, hdid, hp, he⟩ := h'
        rcases List.mem_append.mp hp.1 with hm | hm
        · exact ⟨m, d, hd, hdid, ⟨hm, hp.2⟩, he⟩
        · rw [List.mem_singleton.mp hm, hc] at hd
          exact absurd (hdid.symm.trans (congrArg Call.id (Option.some.inj hd).symm)) hid

theorem inv_serve (h : Inv s) {k : Nat} {r : Sent} (hr : s.requests[k]? = some r) (handlers : List (String × Handler))
    (uid : BitVec 32) (now : Nat) {answer : Message}
    (ha : (Router.of handlers).handle now r.message uid = .ok answer) :
    Inv { s with answers := s.answers ++ [⟨r.call, Router.of handlers, uid, now, answer⟩] } := by
  refine { h with answers := ?_, sources := ?_ }
  · intro v hv
    rcases List.mem_append.mp hv with hv | hv
    · exact h.answers v hv
    · obtain rfl := List.mem_singleton.mp hv
      obtain ⟨c, time, hc, hm⟩ := h.requests r (List.mem_of_getElem? hr)
      exact ⟨c, hc, handlers, time, rfl, hm ▸ ha⟩
  · intro v hv a hsrc
    obtain ⟨served, c, hs, hrest⟩ := h.sources v hv a hsrc
    exact ⟨served, c, getElem?_append_some hs _, hrest⟩

/-- A message is handled: the ids it responds to leave the map. -/
theorem inv_answered (h : Inv s) (msg : Message) (callbacks : ResponseCallbacks Nat)
    (hl : ∀ id, callbacks.lookup id = if RespondsTo msg id then none else s.mResponseCallbacks.lookup id) :
    Inv { s with
      mResponseCallbacks := callbacks, answered := s.answered ++ answeredBy s msg, reader := .handling } := by
  refine { h with
    answered := ?_
    pending := ?_
    invoked := fun v hv => List.mem_append_left _ (h.invoked v hv) }
  · intro n hn
    rcases List.mem_append.mp hn with hn | hn
    · exact h.answered hn
    · exact (mem_answeredBy.mp hn).1
  · intro id entry
    rw [hl id]
    constructor
    · intro he
      by_cases hr : RespondsTo msg id
      · simp [hr] at he
      · rw [if_neg hr, h.pending] at he
        obtain ⟨n, c, hc, rfl, hp, he⟩ := he
        refine ⟨n, c, hc, rfl, ⟨hp.1, ?_⟩, he⟩
        intro ha
        rcases List.mem_append.mp ha with ha | ha
        · exact hp.2 ha
        · obtain ⟨-, d, hd, hrd⟩ := mem_answeredBy.mp ha
          rw [hc] at hd
          exact hr (Option.some.inj hd ▸ hrd)
    · intro h'
      obtain ⟨n, c, hc, rfl, ⟨hpi, hpa⟩, he⟩ := h'
      rw [List.mem_append, not_or] at hpa
      rw [if_neg fun hr => hpa.2 (mem_answeredBy.mpr ⟨hpi, c, hc, hr⟩), h.pending]
      exact ⟨n, c, hc, rfl, ⟨hpi, hpa.1⟩, he⟩

/-- The callback of a call that is answered now is invoked for the first time. -/
theorem inv_invoke (h : Inv s) {n : Nat} (argument : Json) (source : Source) (ha : n ∈ s.answered)
    (hnew : ∀ v ∈ s.invoked, v.call ≠ n)
    (hsrc : ∀ a, source = .answer a → ∃ served c, s.answers[a]? = some served ∧ served.call = n ∧
      s.calls[n]? = some c ∧ served.From c ∧ argument = (served.router.answer c.method c.params served.uid).argument) :
    Inv { s with invoked := s.invoked ++ [⟨n, argument, source⟩] } := by
  refine { h with invoked := ?_, once := ?_, sources := ?_ }
  · intro v hv
    rcases List.mem_append.mp hv with hv | hv
    · exact h.invoked v hv
    · rw [List.mem_singleton.mp hv]
      exact ha
  · rw [List.map_append, List.nodup_append]
    refine ⟨h.once, by simp, ?_⟩
    intro m hm k hk
    obtain ⟨v, hv, rfl⟩ := List.mem_map.mp hm
    rw [show k = n by simpa using hk]
    exact hnew v hv
  · intro v hv a hva
    rcases List.mem_append.mp hv with hv | hv
    · exact h.sources v hv a hva
    · obtain rfl := List.mem_singleton.mp hv
      exact hsrc a hva

/-- A served answer to a pending call carries what its own callback is to be given. -/
theorem Inv.source (h : Inv s) (hn : s.calls.length ≤ 2 ^ 32 - 1) {source : Source} {msg : Message} {n : Nat} {c : Call}
    {argument : Json} (hm : message s source = some msg) (hr : RespondsTo msg c.id) (hc : s.calls[n]? = some c)
    (harg : responseArgument msg = .ok argument) :
    ∀ a, source = .answer a → ∃ served c, s.answers[a]? = some served ∧ served.call = n ∧ s.calls[n]? = some c ∧
      served.From c ∧ argument = (served.router.answer c.method c.params served.uid).argument := by
  rintro a rfl
  obtain ⟨served, hs, rfl⟩ := Option.map_eq_some_iff.mp hm
  obtain ⟨d, hd, hf⟩ := h.answers served (List.mem_of_getElem? hs)
  rw [hf.message] at hr harg
  obtain rfl := h.id_inj hn hd hc (RespondsTo.unique (respondsTo_toMessage _ _ _) hr)
  rw [responseArgument_toMessage] at harg
  exact ⟨served, d, hs, rfl, hd, hf, (Except.ok.inj harg).symm⟩

theorem inv_deliver (h : Inv s) (hn : s.calls.length ≤ 2 ^ 32 - 1) {source : Source} {msg : Message}
    (hm : message s source = some msg) : Inv (deliver s source msg) := by
  rcases handleMessage_spec s.mPushCallback msg s.mResponseCallbacks with
    ⟨id, entry, hr, hl, heq⟩ | ⟨hnone, called, heq, hcalled⟩
  · have hanswered := inv_answered h msg (s.mResponseCallbacks.erase id) fun id' => by
      by_cases he : id' = id
      · rw [he, AList.lookup_erase, if_pos hr]
      · rw [AList.lookup_erase_ne he, if_neg fun hr' => he (hr'.unique hr)]
    obtain ⟨n, c, hc, rfl, hp, he⟩ := (h.pending id entry).mp hl
    simp only [deliver, heq]
    cases entry with
    | none => exact hanswered
    | some callback =>
      obtain rfl : n = callback := by
        simp only [Call.entry, Option.ite_none_right_eq_some, Option.some.injEq] at he
        exact he.2
      cases harg : responseArgument msg with
      | error e => exact { hanswered with }
      | ok argument =>
        refine inv_invoke hanswered argument source ?_ ?_ (h.source hn hm hr hc harg)
        · exact List.mem_append_right _ (mem_answeredBy.mpr ⟨hp.1, c, hc, hr⟩)
        · rintro v hv rfl
          exact hp.2 (h.invoked v hv)
  · have hanswered := inv_answered h msg s.mResponseCallbacks fun id => by
      by_cases hr : RespondsTo msg id
      · rw [hnone id hr, if_pos hr]
      · rw [if_neg hr]
    simp only [deliver, heq]
    split
    · exact { hanswered with }
    · exact hanswered
    · exact absurd rfl (hcalled _ _)
    · exact { hanswered with }

theorem deliver_calls (source : Source) (msg : Message) : (deliver s source msg).calls = s.calls := by
  simp only [deliver]
  split <;> rfl

/-- Ids are only ever taken. -/
theorem calls_next {e : Ev} (h : next s e = some s') : s.calls.length ≤ s'.calls.length := by
  cases e with
  | request method params callback =>
    cases h
    split <;> exact Nat.le_refl _
  | fetch i =>
    obtain ⟨_, -, rfl⟩ := Option.map_eq_some_iff.mp h
    simp
  | insert n =>
    obtain ⟨c, -, h⟩ := Option.bind_eq_some_iff.mp h
    simp only [Option.ite_none_left_eq_some, Option.some.injEq] at h
    rw [← h.2]
  | post n now =>
    obtain ⟨c, -, h⟩ := Option.bind_eq_some_iff.mp h
    simp only [Option.ite_none_right_eq_some, Option.some.injEq] at h
    rw [← h.2]
  | serve k handlers uid now =>
    obtain ⟨r, -, rfl⟩ := Option.map_eq_some_iff.mp h
    split <;> exact Nat.le_refl _
  | recv source =>
    simp only [next, Option.ite_none_right_eq_some, Option.map_eq_some_iff] at h
    obtain ⟨-, msg, -, rfl⟩ := h
    rw [deliver_calls]
  | handled threw =>
    simp only [next, Option.ite_none_right_eq_some, Option.some.injEq] at h
    obtain ⟨-, rfl⟩ := h
    split <;> exact Nat.le_refl _
  | close =>
    cases h
    exact Nat.le_refl _

/-- The step lemma. -/
theorem inv_next {e : Ev} (h : Inv s) (hn : s.calls.length ≤ 2 ^ 32 - 1) (he : next s e = some s') : Inv s' := by
  cases e with
  | request method params callback =>
    cases he
    split
    · exact { h with }
    · exact h
  | fetch i =>
    obtain ⟨⟨method, params, callback⟩, -, rfl⟩ := Option.map_eq_some_iff.mp he
    exact inv_fetch h method params callback
  | insert n =>
    obtain ⟨c, hc, he⟩ := Option.bind_eq_some_iff.mp he
    simp only [Option.ite_none_left_eq_some, Option.some.injEq] at he
    obtain ⟨hi, rfl⟩ := he
    exact inv_insert h hn hc hi
  | post n now =>
    obtain ⟨c, hc, he⟩ := Option.bind_eq_some_iff.mp he
    simp only [Option.ite_none_right_eq_some, Option.some.injEq] at he
    obtain ⟨-, rfl⟩ := he
    refine { h with requests := ?_ }
    intro r hr
    rcases List.mem_append.mp hr with hr | hr
    · exact h.requests r hr
    · rw [List.mem_singleton.mp hr]
      exact ⟨c, now, hc, rfl⟩
  | serve k handlers uid now =>
    obtain ⟨r, hr, rfl⟩ := Option.map_eq_some_iff.mp he
    split
    · exact inv_serve h hr handlers uid now ‹_›
    · exact h
  | recv source =>
    simp only [next, Option.ite_none_right_eq_some, Option.map_eq_some_iff] at he
    obtain ⟨-, msg, hm, rfl⟩ := he
    exact inv_deliver h hn hm
  | handled threw =>
    simp only [next, Option.ite_none_right_eq_some, Option.some.injEq] at he
    obtain ⟨-, rfl⟩ := he
    split <;> exact { h with }
  | close =>
    cases he
    exact { h with }

/-! ## Runs -/

theorem run_inv {mPushCallback : Bool} (h : Machine.Run next Machine.any (init mPushCallback) s) :
    s.calls.length ≤ 2 ^ 32 - 1 → Inv s :=
  Machine.run_invariant (fun s => s.calls.length ≤ 2 ^ 32 - 1 → Inv s) (fun _ => inv_init mPushCallback)
    (fun _ _ _ ih _ he hn => have hle := Nat.le_trans (calls_next he) hn; inv_next (ih hle) hle he) h

/-- A message that responds to no pending id leaves the map as it is and invokes no callback of
    a request, and a response of that kind calls nothing at all. -/
theorem Inv.stray (h : Inv s) {source : Source} {msg : Message} (hm : message s source = some msg)
    (hp : ∀ n c, s.calls[n]? = some c → RespondsTo msg c.id → ¬ Pending s n) (he : next s (.recv source) = some s') :
    s'.mResponseCallbacks = s.mResponseCallbacks ∧ s'.invoked = s.invoked ∧
      (msg.type = .response → s'.pushed = s.pushed) := by
  simp only [next, hm, Option.ite_none_right_eq_some, Option.map_some, Option.some.injEq] at he
  obtain ⟨-, rfl⟩ := he
  rcases handleMessage_spec s.mPushCallback msg s.mResponseCallbacks with
    ⟨id, entry, hr, hl, -⟩ | ⟨-, called, heq, hcalled⟩
  · obtain ⟨n, c, hc, rfl, hpn, -⟩ := (h.pending id entry).mp hl
    exact absurd hpn (hp n c hc hr)
  · have hpush : msg.type = .response → ∀ pushBody, called ≠ .ok (.push pushBody) := by
      rintro ht pushBody rfl
      exact handleMessage_response s.mPushCallback ht s.mResponseCallbacks pushBody (by rw [heq])
    simp only [deliver, heq]
    split
    · exact ⟨rfl, rfl, fun _ => rfl⟩
    · exact ⟨rfl, rfl, fun _ => rfl⟩
    · exact absurd rfl (hcalled _ _)
    · exact ⟨rfl, rfl, fun ht => absurd rfl (hpush ht _)⟩

/-- With at most 2^32 - 1 requests: a callback is invoked at most once; what an answer of the
    server invokes is the callback of its own request, with the result or the error object the
    router made for that request; a response to an id that is not pending, or any other message
    that responds to none that is, invokes no callback of a request and leaves the map as it is;
    the map holds the requests that are issued and not yet answered. -/
theorem correlation {mPushCallback : Bool} (h : Machine.Run next Machine.any (init mPushCallback) s)
    (hn : s.calls.length ≤ 2 ^ 32 - 1) :
    (s.invoked.map Invocation.call).Nodup ∧
    (∀ v ∈ s.invoked, ∀ a, v.source = .answer a → ∃ served c, s.answers[a]? = some served ∧ served.call = v.call ∧
      s.calls[v.call]? = some c ∧ served.From c ∧
        v.argument = (served.router.answer c.method c.params served.uid).argument) ∧
    (∀ source msg, message s source = some msg →
      (∀ n c, s.calls[n]? = some c → RespondsTo msg c.id → ¬ Pending s n) → ∀ s', next s (.recv source) = some s' →
        s'.mResponseCallbacks = s.mResponseCallbacks ∧ s'.invoked = s.invoked ∧
          (msg.type = .response → s'.pushed = s.pushed)) ∧
    ∀ id entry, s.mResponseCallbacks.lookup id = some entry ↔
      ∃ n c, s.calls[n]? = some c ∧ c.id = id ∧ Pending s n ∧ c.entry n = entry :=
  have hi := run_inv h hn
  ⟨hi.once, hi.sources, fun _ _ hm hp _ he => hi.stray hm hp he, hi.pending⟩

/-- One request, whose answer arrives twice, with a push in between. -/
def pinged : List Ev :=
  [.request "ping" (.int32 5) true, .fetch 0, .insert 0, .post 0 0,
    .serve 0 [("ping", fun params _ => .ok params)] 7#32 1, .recv (.answer 0), .handled false,
    .recv (.other (.makePush 2 .null)), .handled false, .recv (.answer 0)]

theorem correlation_pinged :
    ∃ s, Machine.Run next Machine.any (init true) s ∧ s.invoked.map (fun v => (v.call, v.argument)) = [(0, .int32 5)] ∧
      (s.invoked.map Invocation.call).Nodup ∧
      ∀ id entry, s.mResponseCallbacks.lookup id = some entry ↔
        ∃ n c, s.calls[n]? = some c ∧ c.id = id ∧ Pending s n ∧ c.entry n = entry := by
  have hex : ((Machine.exec next (init true) pinged).map fun s =>
      (s.invoked.map (fun v => (v.call, v.argument)), s.calls.length)) = some ([(0, .int32 5)], 1) := by decide
  obtain ⟨s, hs, hv⟩ := Option.map_eq_some_iff.mp hex
  obtain ⟨hv, hl⟩ := Prod.mk.inj hv
  have hrun := Machine.run_of_exec pinged hs
  obtain ⟨hnodup, -, -, hpending⟩ := correlation hrun (by omega)
  exact ⟨s, hrun, hv, hnodup, hpending⟩

end Correlation

end CryptoChat.Net
