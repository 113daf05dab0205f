/-
  CryptoChat.Net.ClientPending — the callbacks of requests over the whole life of a `Client`
  (`requestAsync`, `request`, `handleMessage`, and what ends a connection).

  This is the Client of `ClientIo` with its map of callbacks. Requests are made on any
  threads, one step at a time: the check of `mIsRunning`, the counter, the map and the post.
  A synchronous request checks the flag once more before that, and then waits until its
  callback is called. A body holds any message; one that `handleMessage` throws on, which
  leaves the map as it was (`handleMessage_error`), is a `bad` body of `ClientIo`.

  Nothing that clears the flag looks at the map. So a callback stays there until a response
  with its id is handled, or another request takes its place (`callback_stays`). Proved: in
  a run that clears the flag only when no request is open, and in no other, no request is
  open whenever the flag is clear (`settled_while_ended`). The code does not keep to that
  (`callback_left`).
-/

import CryptoChat.Net.ClientIo
import CryptoChat.Net.Correlation

namespace CryptoChat.Net.ClientPending

open CryptoChat.Lib
open ClientIo (Config Action terminated)

/-! ## Requests -/

/-- `requestAsync`, with a callback or an empty function, or `request`. -/
inductive Kind where
  | async (callback : Bool)
  | sync
  deriving DecidableEq

/-- Whether the entry in the map can be called. -/
def Kind.callback : Kind → Bool
  | .async callback => callback
  | .sync => true

/-- How far a request is, with the connection its write is for. -/
inductive Phase where
  | entered
  | checked (c : Nat)
  | fetched (c : Nat) (id : BitVec 32)
  | inserted (c : Nat)
  | posted
  /-- `requestAsync` found the flag clear and returned. -/
  | dropped
  deriving DecidableEq

structure Request where
  kind : Kind
  phase : Phase
  deriving DecidableEq

structure St where
  client : ClientIo.St
  mNextRequestId : BitVec 32
  /-- The callbacks, as numbers of requests. -/
  mResponseCallbacks : ResponseCallbacks Nat
  requests : List Request
  /-- The requests whose callback was called. -/
  answered : List Nat

def init : St := ⟨ClientIo.init, 1#32, ∅, [], []⟩

def St.running (s : St) : Bool := s.client.core.mIsRunning

/-! ## The machine -/

/-- The threads that run handlers. -/
inductive Side where
  | user
  | io

def Side.program (client : ClientIo.St) : Side → List Action
  | .user => client.user
  | .io => client.io

def Side.setProgram (client : ClientIo.St) (program : List Action) : Side → ClientIo.St
  | .user => { client with user := program }
  | .io => { client with io := program }

/-- The thread takes its next action. -/
def Side.step : Side → ClientIo.Ev
  | .user => .user
  | .io => .io

inductive Ev where
  /-- What the Client does besides requests and messages. -/
  | client (e : ClientIo.Ev)
  /-- `handleMessage`, which returns or is in the callback it calls. -/
  | message (side : Side) (msg : Message)
  /-- The callback that `handleMessage` called throws. -/
  | throws (side : Side) (what : String)
  | request (kind : Kind)
  /-- The next step of the request `n`. -/
  | go (n : Nat)

/-- Requests and messages are events of their own. -/
def ownEvent (client : ClientIo.St) : ClientIo.Ev → Bool
  | .call .requestAsync | .ioRequest => true
  | .user => client.user.head? = some .onMessage
  | .io => client.io.head? = some .onMessage
  | _ => false

/-- The request whose callback was called. -/
def calledRequest : Called Nat → List Nat
  | .response n _ => [n]
  | _ => []

variable (cfg : Config) (mPushCallback : Bool)

def go (s : St) (n : Nat) (r : Request) : Option St :=
  match r.phase with
  | .entered =>
    let phase := if s.running then .checked s.client.core.conn else .dropped
    some { s with requests := s.requests.set n { r with phase := phase } }
  | .checked c =>
    some { s with
      mNextRequestId := s.mNextRequestId + 1
      requests := s.requests.set n { r with phase := .fetched c s.mNextRequestId } }
  | .fetched c id =>
    some { s with
      mResponseCallbacks := s.mResponseCallbacks.insert id (if r.kind.callback then some n else none)
      requests := s.requests.set n { r with phase := .inserted c } }
  | .inserted c =>
    some { s with
      client := { s.client with core := (ClientIo.exec cfg s.client.core (.postWrite c)).1 }
      requests := s.requests.set n { r with phase := .posted } }
  | .posted | .dropped => none

def next (s : St) : Ev → Option St
  | .client e =>
    if ownEvent s.client e then none else (ClientIo.next cfg s.client e).map fun client => { s with client := client }
  | .message side msg =>
    if (side.program s.client).head? = some .onMessage then
      match Client.handleMessage mPushCallback msg s.mResponseCallbacks with
      | (_, .error _) => none
      | (callbacks, .ok called) =>
        (ClientIo.next cfg s.client side.step).map fun client => { s with
          client := client, mResponseCallbacks := callbacks, answered := s.answered ++ calledRequest called }
    else none
  | .throws side what =>
    match side.program s.client with
    | .callback :: .readNext c :: rest =>
      if terminated s.client.core then none
      else some { s with
        client := side.setProgram s.client (.onError c ("Decode error: " ++ what) :: .close (some c) :: rest) }
    | _ => none
  | .request kind =>
    if terminated s.client.core ∨ s.client.gone then none
    -- `request` throws when the flag is clear
    else if kind = .sync ∧ s.running = false then some s
    else some { s with requests := s.requests ++ [⟨kind, .entered⟩] }
  | .go n => if terminated s.client.core then none else s.requests[n]?.bind (go cfg s n)

/-! ## Settled requests -/

/-- Past the check and not in the map yet. -/
def Phase.between : Phase → Bool
  | .checked _ | .fetched _ _ => true
  | _ => false

/-- No callback is in the map or on its way there, and no `request` waits. -/
structure Settled (s : St) : Prop where
  callbacks : s.mResponseCallbacks.entries = []
  requests : ∀ (n : Nat) r, s.requests[n]? = some r → r.phase.between = false ∧ (r.kind = .sync → n ∈ s.answered)

/-- The flag is clear and nothing of the Client is left to run. -/
structure AtRest (s : St) : Prop where
  running : s.running = false
  queue : s.client.core.queue = []
  ops : s.client.core.ops = []
  user : s.client.user = []
  io : s.client.io = []

instance (s : St) : Decidable (AtRest s) :=
  decidable_of_iff (s.running = false ∧ s.client.core.queue = [] ∧ s.client.core.ops = [] ∧ s.client.user = [] ∧
    s.client.io = []) ⟨fun ⟨h1, h2, h3, h4, h5⟩ => ⟨h1, h2, h3, h4, h5⟩, fun h => ⟨h.1, h.2, h.3, h.4, h.5⟩⟩

/-- A step that clears the flag finds no request open. -/
def EndsSettled (s : St) (e : Ev) : Prop :=
  ∀ s', next cfg mPushCallback s e = some s' → s.running = true → s'.running = false → Settled s

variable {cfg mPushCallback} {s s' : St}

/-! ## One step -/

/-- What `handleMessage` throws on leaves the map as it was. -/
theorem handleMessage_error {msg : Message} {callbacks callbacks' : ResponseCallbacks Nat} {e : Exn}
    (h : Client.handleMessage mPushCallback msg callbacks = (callbacks', .error e)) : callbacks' = callbacks := by
  rcases Client.handleMessage_spec mPushCallback msg callbacks with
    ⟨id, entry, hresponds, -, heq⟩ | ⟨-, called, heq, -⟩
  · obtain ⟨argument, hargument⟩ := Client.RespondsTo.argument hresponds
    rw [heq] at h
    cases entry with
    | none => cases h
    | some callback =>
      simp only [hargument] at h
      cases h
  · rw [heq] at h
    exact (Prod.mk.inj h).1.symm

/-- A handler with a message to handle calls back. -/
theorem next_onMessage {side : Side} {client client' : ClientIo.St}
    (hhead : (side.program client).head? = some .onMessage) (h : ClientIo.next cfg client side.step = some client') :
    client'.core = client.core := by
  obtain ⟨-, h⟩ := ClientIo.next_live h
  cases side with
  | user =>
    obtain ⟨a, rest, hprogram, -, -, -, rfl⟩ := ClientIo.live_user h
    obtain rfl : a = .onMessage := by simpa [Side.program, hprogram] using hhead
    rfl
  | io =>
    obtain ⟨a, rest, hprogram, -, -, heq⟩ := ClientIo.live_io h
    obtain rfl : a = .onMessage := by simpa [Side.program, hprogram] using hhead
    rcases heq with rfl | ⟨hjoin, -⟩
    · rfl
    · cases hjoin

/-- What handling a message does: it takes out what it responds to. -/
theorem next_message {side : Side} {msg : Message} (h : next cfg mPushCallback s (.message side msg) = some s') :
    s'.running = s.running ∧ s'.requests = s.requests ∧ s.answered ⊆ s'.answered ∧
      (s'.mResponseCallbacks = s.mResponseCallbacks ∨
        ∃ id, Client.RespondsTo msg id ∧ s'.mResponseCallbacks = s.mResponseCallbacks.erase id) := by
  simp only [next, Option.ite_none_right_eq_some] at h
  obtain ⟨hhead, h⟩ := h
  split at h
  · cases h
  · rename_i callbacks called hhandle
    obtain ⟨client, hclient, rfl⟩ := Option.map_eq_some_iff.mp h
    have hcore := next_onMessage hhead hclient
    refine ⟨congrArg (·.mIsRunning) hcore, rfl, List.subset_append_left _ _, ?_⟩
    rcases Client.handleMessage_spec mPushCallback msg s.mResponseCallbacks with
      ⟨id, entry, hresponds, -, heq⟩ | ⟨-, called', heq, -⟩
    · rw [hhandle] at heq
      exact .inr ⟨id, hresponds, (Prod.mk.inj heq).1⟩
    · rw [hhandle] at heq
      exact .inl (Prod.mk.inj heq).1

theorem next_throws {side : Side} {what : String} (h : next cfg mPushCallback s (.throws side what) = some s') :
    s'.running = s.running ∧ s'.requests = s.requests ∧ s'.answered = s.answered ∧
      s'.mResponseCallbacks = s.mResponseCallbacks := by
  simp only [next] at h
  split at h
  · simp only [Option.ite_none_left_eq_some, Option.some.injEq] at h
    obtain ⟨-, rfl⟩ := h
    cases side
    · exact ⟨rfl, rfl, rfl, rfl⟩
    · exact ⟨rfl, rfl, rfl, rfl⟩
  · cases h

theorem next_request {kind : Kind} (h : next cfg mPushCallback s (.request kind) = some s') :
    s'.running = s.running ∧ s'.answered = s.answered ∧ s'.mResponseCallbacks = s.mResponseCallbacks ∧
      (s'.requests = s.requests ∨
        s'.requests = s.requests ++ [⟨kind, .entered⟩] ∧ (kind = .sync → s.running = true)) := by
  simp only [next, Option.ite_none_left_eq_some] at h
  obtain ⟨-, h⟩ := h
  split at h
  · cases h
    exact ⟨rfl, rfl, rfl, .inl rfl⟩
  · rename_i hsync
    cases h
    refine ⟨rfl, rfl, rfl, .inr ⟨rfl, fun hk => ?_⟩⟩
    simpa [hk] using hsync

/-- A request only changes its own phase; it comes to the map from between, and to between
    only while the flag is set. -/
theorem next_go {n : Nat} (h : next cfg mPushCallback s (.go n) = some s') :
    s'.running = s.running ∧ s'.answered = s.answered ∧ ∃ r phase, s.requests[n]? = some r ∧
      s'.requests = s.requests.set n { r with phase := phase } ∧
      (phase.between = true → s.running = true ∨ r.phase.between = true) ∧
      (s'.mResponseCallbacks = s.mResponseCallbacks ∨ ∃ c id entry, r.phase = .fetched c id ∧
        s'.mResponseCallbacks = s.mResponseCallbacks.insert id entry) := by
  simp only [next, Option.ite_none_left_eq_some] at h
  obtain ⟨-, h⟩ := h
  obtain ⟨r, hr, h⟩ := Option.bind_eq_some_iff.mp h
  unfold go at h
  split at h
  · cases h
    refine ⟨rfl, rfl, r, _, hr, rfl, ?_, .inl rfl⟩
    intro hbetween
    split at hbetween
    · exact .inl ‹_›
    · cases hbetween
  · rename_i hphase
    cases h
    exact ⟨rfl, rfl, r, _, hr, rfl, fun _ => .inr (by rw [hphase]; rfl), .inl rfl⟩
  · rename_i c id hphase
    cases h
    exact ⟨rfl, rfl, r, _, hr, rfl, nofun, .inr ⟨c, id, _, hphase, rfl⟩⟩
  · cases h
    exact ⟨rfl, rfl, r, _, hr, rfl, nofun, .inl rfl⟩
  · cases h
  · cases h

theorem next_client {e : ClientIo.Ev} (h : next cfg mPushCallback s (.client e) = some s') :
    s'.requests = s.requests ∧ s'.answered = s.answered ∧ s'.mResponseCallbacks = s.mResponseCallbacks := by
  simp only [next, Option.ite_none_left_eq_some] at h
  obtain ⟨-, h⟩ := h
  obtain ⟨client, -, rfl⟩ := Option.map_eq_some_iff.mp h
  exact ⟨rfl, rfl, rfl⟩

theorem Settled.congr (h : Settled s) (hrequests : s'.requests = s.requests) (hanswered : s'.answered = s.answered)
    (hcallbacks : s'.mResponseCallbacks = s.mResponseCallbacks) : Settled s' :=
  ⟨hcallbacks ▸ h.callbacks, by rw [hrequests, hanswered]; exact h.requests⟩

theorem Settled.go (h : Settled s) {n : Nat} (he : next cfg mPushCallback s (.go n) = some s')
    (hend : s'.running = false) : Settled s' := by
  obtain ⟨hrunning, hanswered, r, phase, hr, hrequests, hphase, hcallbacks⟩ := next_go he
  obtain ⟨hbetween, hsync⟩ := h.requests n r hr
  have hnew : phase.between = false := by
    rw [← Bool.not_eq_true]
    intro hp
    rcases hphase hp with hrun | hold
    · rw [hrunning, hrun] at hend
      cases hend
    · rw [hbetween] at hold
      cases hold
  refine ⟨?_, fun m r' hm => ?_⟩
  · rcases hcallbacks with hsame | ⟨c, id, entry, hfetched, -⟩
    · rw [hsame, h.callbacks]
    · rw [hfetched] at hbetween
      cases hbetween
  · rw [hrequests] at hm
    rw [hanswered]
    rcases ListAt.getElem?_set_some hm with ⟨rfl, rfl⟩ | ⟨-, hm⟩
    · exact ⟨hnew, hsync⟩
    · exact h.requests m r' hm

/-- While the flag is clear nothing opens a request. -/
theorem Settled.next {e : Ev} (h : Settled s) (he : next cfg mPushCallback s e = some s') (hend : s'.running = false) :
    Settled s' := by
  cases e with
  | client e =>
    obtain ⟨hrequests, hanswered, hcallbacks⟩ := next_client he
    exact h.congr hrequests hanswered hcallbacks
  | message side msg =>
    obtain ⟨-, hrequests, hanswered, hcallbacks⟩ := next_message he
    refine ⟨?_, fun n r hr => ?_⟩
    · rcases hcallbacks with hsame | ⟨id, -, herase⟩
      · rw [hsame, h.callbacks]
      · have hentries : s'.mResponseCallbacks.entries = s.mResponseCallbacks.entries.kerase id :=
          congrArg AList.entries herase
        rw [hentries, h.callbacks]
        rfl
    · obtain ⟨hbetween, hsync⟩ := h.requests n r (hrequests ▸ hr)
      exact ⟨hbetween, fun hk => hanswered (hsync hk)⟩
  | throws side what =>
    obtain ⟨-, hrequests, hanswered, hcallbacks⟩ := next_throws he
    exact h.congr hrequests hanswered hcallbacks
  | request kind =>
    obtain ⟨hrunning, hanswered, hcallbacks, hrequests⟩ := next_request he
    rcases hrequests with hsame | ⟨hnew, hsync⟩
    · exact h.congr hsame hanswered hcallbacks
    · refine ⟨hcallbacks ▸ h.callbacks, fun n r hr => ?_⟩
      rw [hanswered]
      rw [hnew] at hr
      rcases ListAt.getElem?_snoc hr with hold | ⟨-, rfl⟩
      · exact h.requests n r hold
      · refine ⟨rfl, fun hk => ?_⟩
        rw [hrunning, hsync hk] at hend
        cases hend
  | go n => exact h.go he hend

/-- The step that clears the flag leaves requests as they were. -/
theorem settled_iff_of_ends {e : Ev} (he : next cfg mPushCallback s e = some s') (hrun : s.running = true)
    (hend : s'.running = false) : Settled s' ↔ Settled s := by
  have hsame : s'.requests = s.requests ∧ s'.answered = s.answered ∧ s'.mResponseCallbacks = s.mResponseCallbacks := by
    have hne : s'.running ≠ s.running := by
      rw [hrun, hend]
      decide
    cases e with
    | client e => exact next_client he
    | message side msg => exact absurd (next_message he).1 hne
    | throws side what => exact absurd (next_throws he).1 hne
    | request kind => exact absurd (next_request he).1 hne
    | go n => exact absurd (next_go he).1 hne
  obtain ⟨hrequests, hanswered, hcallbacks⟩ := hsame
  constructor
  · intro h
    exact h.congr hrequests.symm hanswered.symm hcallbacks.symm
  · intro h
    exact h.congr hrequests hanswered hcallbacks

/-! ## Runs -/

variable (cfg mPushCallback) in
/-- After the step no request is open, if the flag is clear. -/
def KeepsSettled (s : St) (e : Ev) : Prop :=
  ∀ s', next cfg mPushCallback s e = some s' → s'.running = false → Settled s'

theorem settled_init : Settled init := ⟨rfl, by simp [init]⟩

theorem settled_step {e : Ev} (h : s.running = false → Settled s) (hok : EndsSettled cfg mPushCallback s e)
    (he : next cfg mPushCallback s e = some s') : s'.running = false → Settled s' := by
  intro hend
  cases hrun : s.running with
  | false => exact (h hrun).next he hend
  | true => exact (settled_iff_of_ends he hrun hend).mpr (hok s' he hrun hend)

theorem settled_of_run (h : Machine.Run (next cfg mPushCallback) (EndsSettled cfg mPushCallback) init s) :
    s.running = false → Settled s :=
  Machine.run_invariant (fun s => s.running = false → Settled s) (fun _ => settled_init)
    (fun _ _ _ hi hok he => settled_step hi hok he) h

theorem endsSettled_iff_keeps : Machine.Run (next cfg mPushCallback) (EndsSettled cfg mPushCallback) init s ↔
    Machine.Run (next cfg mPushCallback) (KeepsSettled cfg mPushCallback) init s := by
  refine Machine.run_iff_run (fun s => s.running = false → Settled s) (fun _ => settled_init) ?_ ?_
  · intro a e b ha _
    constructor
    · intro hok b' he'
      exact settled_step ha hok he'
    · intro hkeeps b' he' hrun hend
      exact (settled_iff_of_ends he' hrun hend).mp (hkeeps b' he' hend)
  · intro a e b ha hok he
    exact settled_step ha hok he

/-- In every run that clears the flag only with no request open, no request is open whenever
    the flag is clear, so in particular at rest; and these are all the runs of which that is
    true. -/
theorem settled_while_ended {s : St} :
    (Machine.Run (next cfg mPushCallback) (EndsSettled cfg mPushCallback) init s ↔
      Machine.Run (next cfg mPushCallback) (KeepsSettled cfg mPushCallback) init s) ∧
    (Machine.Run (next cfg mPushCallback) (EndsSettled cfg mPushCallback) init s →
      (s.running = false → Settled s) ∧ (AtRest s → Settled s)) :=
  ⟨endsSettled_iff_keeps, fun h => ⟨settled_of_run h, fun hrest => settled_of_run h hrest.running⟩⟩

/-! ## What stays in the map -/

/-- Neither the handling of a response to `id` nor the insertion of another callback there. -/
def Elsewhere (id : BitVec 32) (s : St) : Ev → Prop
  | .message _ msg => ¬ Client.RespondsTo msg id
  | .go n => ∀ r c, s.requests[n]? = some r → r.phase ≠ .fetched c id
  | _ => True

theorem lookup_next {id : BitVec 32} {entry : Option Nat} {e : Ev} (h : s.mResponseCallbacks.lookup id = some entry)
    (hok : Elsewhere id s e) (he : next cfg mPushCallback s e = some s') :
    s'.mResponseCallbacks.lookup id = some entry := by
  cases e with
  | client e => rw [(next_client he).2.2, h]
  | message side msg =>
    obtain ⟨-, -, -, hsame | ⟨id', hresponds, herase⟩⟩ := next_message he
    · rw [hsame, h]
    · have hne : id ≠ id' := by
        rintro rfl
        exact hok hresponds
      rw [herase, AList.lookup_erase_ne hne, h]
  | throws side what => rw [(next_throws he).2.2.2, h]
  | request kind => rw [(next_request he).2.2.1, h]
  | go n =>
    obtain ⟨-, -, r, phase, hr, -, -, hsame | ⟨c, id', entry', hfetched, hinsert⟩⟩ := next_go he
    · rw [hsame, h]
    · have hne : id ≠ id' := by
        rintro rfl
        exact hok r c hr hfetched
      rw [hinsert, AList.lookup_insert_ne hne, h]

theorem callback_stays {id : BitVec 32} {entry : Option Nat}
    (h : Machine.Run (next cfg mPushCallback) (Elsewhere id) s s') (hl : s.mResponseCallbacks.lookup id = some entry) :
    s'.mResponseCallbacks.lookup id = some entry :=
  Machine.run_invariant (fun s => s.mResponseCallbacks.lookup id = some entry) hl
    (fun _ _ _ hi hok he => lookup_next hi hok he) h

/-! ## Two connections -/

/-- In manual mode, without callbacks of its own. -/
def plainManual : Config := ⟨.manual, false, false, false⟩

/-- `connect`, and a `poll` in which the connection is made and the first header awaited. -/
def connected : List Ev :=
  (.client (.call .connect) :: List.replicate 5 (.client .user)) ++
    [.client (.complete 0 .ok), .client (.call .poll), .client (.take 0), .client .user, .client (.complete 0 .ok),
      .client (.take 0), .client .user, .client .userReturn, .client .user]

/-- A request on another thread, and its write. -/
def asked : List Ev :=
  [.request (.async true), .go 0, .go 0, .go 0, .go 0, .client (.take 0), .client .user, .client (.complete 1 .ok),
    .client (.take 0)]

/-- Its response. -/
def responded : List Ev :=
  [.client (.complete 0 .ok), .client (.take 0), .client .user, .client (.complete 0 .ok), .client (.take 0),
    .message .user (.makeResponse 0 1#32 .null), .client .userReturn, .client .user, .client .user]

/-- The peer closes the connection, and the rest of the `poll`. -/
def lost : List Ev :=
  [.client (.complete 0 (.failed "End of file")), .client (.take 0)] ++ List.replicate 9 (.client .user) ++
    [.client (.take 0), .client .endPoll, .client .user]

/-- The steps that clear the flag find neither callbacks nor requests under way. -/
def endsClear (s : St) (e : Ev) : Bool :=
  match next plainManual false s e with
  | none => true
  | some s' => !s.running || s'.running || (s.mResponseCallbacks.entries.isEmpty &&
      s.requests.all fun r => !r.phase.between && r.kind ≠ .sync)

theorem endsSettled_of_test (s : St) (e : Ev) (h : endsClear s e = true) : EndsSettled plainManual false s e := by
  intro s' he hrun hend
  simp only [endsClear, he, hrun, hend, Bool.not_true, Bool.false_or, Bool.and_eq_true, List.isEmpty_iff,
    List.all_eq_true, Bool.not_eq_true', decide_eq_true_eq] at h
  refine ⟨h.1, fun n r hr => ?_⟩
  obtain ⟨hbetween, hsync⟩ := h.2 r (List.mem_of_getElem? hr)
  exact ⟨hbetween, fun hk => absurd hk hsync⟩

/-- A request that is answered before the connection is lost. -/
theorem settled_while_ended_answered : ∃ s,
    Machine.Run (next plainManual false) (EndsSettled plainManual false) init s ∧ s.answered = [0] ∧ AtRest s ∧
      Settled s := by
  have hex : ((Machine.execIf (next plainManual false) endsClear init (connected ++ asked ++ responded ++ lost)).map
      fun s => (s.answered, decide (AtRest s))) = some ([0], true) := by decide
  obtain ⟨s, hs, hv⟩ := Option.map_eq_some_iff.mp hex
  obtain ⟨hanswered, hrest⟩ := Prod.mk.inj hv
  have hrest : AtRest s := of_decide_eq_true hrest
  have hrun := Machine.run_of_execIf endsSettled_of_test _ hs
  exact ⟨s, hrun, hanswered, hrest, (settled_while_ended.2 hrun).2 hrest⟩

/-- A request that is not: its callback is in the map when nothing is left to run. -/
theorem callback_left : ¬ ∀ cfg mPushCallback s, Machine.Run (next cfg mPushCallback) Machine.any init s → AtRest s →
    Settled s := by
  intro h
  have hex : ((Machine.exec (next plainManual false) init (connected ++ asked ++ lost)).map fun s =>
      (s.mResponseCallbacks.keys, decide (AtRest s))) = some ([1#32], true) := by decide
  obtain ⟨s, hs, hv⟩ := Option.map_eq_some_iff.mp hex
  obtain ⟨hkeys, hrest⟩ := Prod.mk.inj hv
  have hsettled := h plainManual false s (Machine.run_of_exec _ hs) (of_decide_eq_true hrest)
  rw [AList.keys, hsettled.callbacks] at hkeys
  cases hkeys

end CryptoChat.Net.ClientPending
