/-
  CryptoChat.Net.ClientLifetime — the Clients of a `ClientAppContext` and the handlers that
  capture them (`connect`, `disconnect`, `poll`, `handleLoginResponse`).

  Each `connect` makes a Client, all on the one io_context `mIo`, and `disconnect` destroys
  the one there is. One thread runs everything: the user's calls, and in `poll` the
  handlers, whose callbacks may call the context again. A Client is identified by its
  number, which is that of its only connection.

  Proved: where a Client is made only when `mIo` is empty and the Client before does not
  run, and none is destroyed inside a handler, by a call or by a rejected login, no handler
  runs after its Client was destroyed, and none is running when it is (`no_use_after_free`).
  The code does not keep to that (`destroyed_clients`).
-/

import CryptoChat.Net.ClientAppContext
import CryptoChat.Net.ClientIo

namespace CryptoChat.Net.ClientLifetime

open CryptoChat.Lib ClientIo

/-! ## The machine -/

structure Member where
  mIsRunning : Bool
  mWorkGuard : Bool
  alive : Bool
  /-- Whether it has a `SecureTransport`. -/
  secure : Bool
  /-- Whether `mResponseCallbacks` has the callback of the login. -/
  login : Bool

/-- What is left to run. -/
inductive Act where
  | client (k : Nat) (a : Action)
  /-- The end of a handler that captures the Client `k`. -/
  | handled (k : Nat)
  | poll
  | restart
  /-- User code called back. -/
  | callback
  | requestLogin
  | requestClientList
  | disconnect
  deriving DecidableEq

inductive Fault where
  /-- A handler of the Client runs after it was destroyed. -/
  | ran (k : Nat)
  /-- The Client is destroyed while a handler of its own is running. -/
  | destroyed (k : Nat)
  deriving DecidableEq

structure St where
  made : Nat
  members : Nat → Member
  mClient : Option Nat
  /-- `mIo`; each entry has the number of its Client. -/
  stopped : Bool
  queue : List (Nat × Handler)
  ops : List (Nat × Op)
  prog : List Act
  faults : List Fault

def init : St := ⟨0, fun _ => ⟨false, false, false, false, false⟩, none, false, [], [], [], []⟩

inductive Ev where
  /-- The user calls the context; `send` is `sendPublic` or `sendPrivate`. -/
  | connect (secure : Bool)
  | disconnect
  | poll
  | send
  /-- The next action; the user's callback returns. -/
  | step
  | callbackReturns
  /-- A message is handled: the response to the login, or another one. -/
  | loginResponse (response : Json)
  | otherMessage
  /-- `poll` runs a handler, or is done. -/
  | take (i : Nat)
  | endPoll
  /-- The outstanding operation `i` completes. -/
  | complete (i : Nat) (r : Result)

def upd (f : Nat → Member) (k : Nat) (m : Member) : Nat → Member := fun j => if j = k then m else f j

/-- Manual mode, with the callbacks `wireClient` sets. -/
def config (m : Member) : Config := ⟨.manual, m.secure, true, true⟩

/-- What the member functions of the Client `k` work on. -/
def view (k : Nat) (s : St) : Core :=
  ⟨(s.members k).mIsRunning, (s.members k).mWorkGuard, .none, s.stopped, s.queue, s.ops, s.made, 0, [], []⟩

def put (k : Nat) (core : Core) (s : St) : St :=
  { s with
    made := core.conn
    members := upd s.members k { s.members k with mIsRunning := core.mIsRunning, mWorkGuard := core.mWorkGuard }
    stopped := core.stopped
    queue := core.queue
    ops := core.ops }

/-- A call of a member function of the Client `k`, to its end. -/
def call (k : Nat) (a : Action) (s : St) : St :=
  let r := exec (config (s.members k)) (view k s) a
  put k (r.2.foldl (fun core a => (exec (config (s.members k)) core a).1) r.1) s

/-- `~Client`. -/
def destroy (k : Nat) (s : St) : St :=
  let s := call k .destroyMembers (call k (.close none) s)
  { s with
    members := upd s.members k { s.members k with alive := false }
    faults := if .handled k ∈ s.prog then s.faults ++ [.destroyed k] else s.faults }

def disconnect (s : St) : St :=
  match s.mClient with
  | none => s
  | some k => { destroy k (call k (.close none) s) with mClient := none }

def connect (secure : Bool) (s : St) : St :=
  let s := disconnect s
  let k := s.made + 1
  call k .connect { s with members := upd s.members k ⟨false, false, true, secure, false⟩, mClient := some k }

/-- `mClient->requestAsync`. -/
def requestAsync (s : St) : St :=
  match s.mClient with
  | none => s
  | some k => call k .requestAsync s

/-- The request whose callback is `handleLoginResponse`. -/
def requestLogin (s : St) : St :=
  match s.mClient with
  | none => s
  | some k =>
    if (s.members k).mIsRunning then
      call k .requestAsync { s with members := upd s.members k { s.members k with login := true } }
    else s

def lift (k : Nat) : Action → Act
  | .callback => .callback
  | a => .client k a

/-- What `handleLoginResponse` does next; it does not depend on what the context keeps. -/
def loginResponse (response : Json) : ClientAppContext.LoggedIn :=
  (ClientAppContext.handleLoginResponse true response (.init "")).2

/-- Whether the user's own code runs. -/
def userRuns : List Act → Bool
  | [] | .callback :: _ => true
  | _ => false

def step (s : St) : Option St :=
  match s.prog with
  | .client k a :: rest =>
    match a with
    | .onMessage => none
    | .onConnect => some { s with prog := .callback :: .requestLogin :: rest }
    | a =>
      let r := exec (config (s.members k)) (view k s) a
      some { put k r.1 s with prog := r.2.map (lift k) ++ rest }
  | .handled _ :: rest => some { s with prog := rest }
  | .restart :: rest => some { s with prog := rest, stopped := false }
  | .requestLogin :: rest => some (requestLogin { s with prog := rest })
  | .requestClientList :: rest => some (requestAsync { s with prog := rest })
  | .disconnect :: rest => some (disconnect { s with prog := rest })
  | _ => none

/-- The handler of a Client runs. -/
def run (k : Nat) (h : Handler) (s : St) : St :=
  { s with
    prog := (program (config (s.members k)) k h).map (lift k) ++ .handled k :: s.prog
    faults := if (s.members k).alive then s.faults else s.faults ++ [.ran k] }

def next (s : St) : Ev → Option St
  | .connect secure => if userRuns s.prog then some (connect secure s) else none
  | .disconnect => if userRuns s.prog then some (disconnect s) else none
  | .poll =>
    if userRuns s.prog then
      some (if s.mClient.isSome then { s with prog := .poll :: .restart :: s.prog } else s)
    else none
  | .send => if userRuns s.prog then some (requestAsync s) else none
  | .step => step s
  | .callbackReturns =>
    match s.prog with
    | .callback :: rest => some { s with prog := rest }
    | _ => none
  | .loginResponse response =>
    match s.prog with
    | .client k .onMessage :: rest =>
      if (s.members k).login then
        let s := { s with members := upd s.members k { s.members k with login := false } }
        match loginResponse response with
        | .disconnect => some { s with prog := .callback :: .disconnect :: rest }
        | .clientList => some { s with prog := .requestClientList :: rest }
        -- what throws is a body that is not handled
        | .threw _ => none
      else none
    | _ => none
  | .otherMessage =>
    match s.prog with
    | .client _ .onMessage :: rest => some { s with prog := .callback :: rest }
    | _ => none
  | .take i =>
    match s.prog with
    | .poll :: _ =>
      if s.stopped then none else s.queue[i]?.map fun e => run e.1 e.2 { s with queue := s.queue.eraseIdx i }
    | _ => none
  | .endPoll =>
    match s.prog with
    | .poll :: rest => if s.stopped ∨ s.queue = [] then some { s with prog := rest } else none
    | _ => none
  | .complete i r =>
    s.ops[i]?.bind fun e =>
      if r.fits e.2 then
        some { s with ops := s.ops.eraseIdx i, queue := s.queue ++ [(e.1, .done e.2 r)] }
      else none

/-! ## One Client -/

/-- Actions of the Client `k` alone, none of which destroys it. -/
def For (k : Nat) : Act → Prop
  | .client j a => j = k ∧ a ≠ .connect ∧ ∀ c ∈ a.conn?, c = k
  | .handled j => j = k
  | .disconnect => False
  | _ => True

/-- The Client `k` is the last one made and lives, and all there is in `mIo` is its own. -/
structure Owns (k : Nat) (s : St) : Prop where
  made : k = s.made
  alive : (s.members k).alive = true
  queue : ∀ e ∈ s.queue, e.1 = k
  ops : ∀ e ∈ s.ops, e.1 = k

structure Inv (s : St) : Prop where
  idle : s.mClient = none → s.prog = []
  owns : ∀ k, s.mClient = some k → Owns k s
  prog : ∀ k, s.mClient = some k → ∀ act ∈ s.prog, For k act
  faults : s.faults = []

variable {s s' : St} {k : Nat} {a : Action}

theorem Owns.tagged (h : Owns k s) : Tagged (· = k) (fun e => e.1 = k) (view k s) := ⟨h.queue, h.ops⟩

theorem alive_put (core : Core) (j : Nat) : ((put k core s).members j).alive = (s.members j).alive := by
  dsimp only [put, upd]
  split
  · rename_i hj
    rw [hj]
  · rfl

/-- An action of the Client leaves it the owner of all there is, and only actions of its own. -/
theorem owns_exec (h : Owns k s) (ha : For k (.client k a)) :
    Owns k (put k (exec (config (s.members k)) (view k s) a).1 s) ∧
      ∀ act ∈ (exec (config (s.members k)) (view k s) a).2.map (lift k), For k act := by
  obtain ⟨-, hconnect, hconn⟩ := ha
  obtain ⟨ht, hall⟩ := @tagged_exec (config (s.members k)) _ _ _ (fun e => e.1 = k) (fun c h hc => hc) h.made.symm
    (fun hc => absurd hc hconnect) hconn h.tagged
  have hmade : (exec (config (s.members k)) (view k s) a).1.conn = s.made :=
    exec_conn.resolve_right fun hc => hconnect hc.1
  refine ⟨⟨h.made.trans hmade.symm, (alive_put _ k).trans h.alive, ht.queue, ht.ops⟩, ?_⟩
  intro act hact
  obtain ⟨b, hb, rfl⟩ := List.mem_map.mp hact
  have hb' := (exec_calls b hb).1
  unfold lift
  split
  · trivial
  · exact ⟨rfl, hb', hall b hb⟩

theorem tagged_foldl {cfg : Config} (as : List Action) {core : Core}
    (h : Tagged (· = k) (fun e => e.1 = k) core) (hk : core.conn = k)
    (has : ∀ b ∈ as, b ≠ .connect ∧ ∀ c ∈ b.conn?, c = k) :
    Tagged (· = k) (fun e => e.1 = k) (as.foldl (fun core a => (exec cfg core a).1) core) ∧
      (as.foldl (fun core a => (exec cfg core a).1) core).conn = k := by
  induction as generalizing core with
  | nil => exact ⟨h, hk⟩
  | cons a as ih =>
    obtain ⟨hconnect, hconn⟩ := has a List.mem_cons_self
    have ht := (@tagged_exec cfg _ _ _ (fun e => e.1 = k) (fun c h hc => hc) hk
      (fun hc => absurd hc hconnect) hconn h).1
    have hc : (exec cfg core a).1.conn = core.conn := exec_conn.resolve_right fun hc => hconnect hc.1
    exact ih ht (hc.trans hk) fun b hb => has b (List.mem_cons_of_mem a hb)

theorem owns_call (h : Owns k s) (hconnect : a ≠ .connect) (hconn : ∀ c ∈ a.conn?, c = k) : Owns k (call k a s) := by
  obtain ⟨ht, hall⟩ := @tagged_exec (config (s.members k)) _ _ _ (fun e => e.1 = k) (fun c h hc => hc) h.made.symm
    (fun hc => absurd hc hconnect) hconn h.tagged
  have hmade : (exec (config (s.members k)) (view k s) a).1.conn = k :=
    (exec_conn.resolve_right fun hc => hconnect hc.1).trans h.made.symm
  obtain ⟨hf, hm⟩ := tagged_foldl _ ht hmade fun b hb => ⟨(exec_calls b hb).1, hall b hb⟩
  exact ⟨hm.symm, (alive_put _ k).trans h.alive, hf.queue, hf.ops⟩

/-- Nothing is left in `mIo`, nothing runs and nothing went wrong. -/
structure Bare (s : St) : Prop where
  queue : s.queue = []
  ops : s.ops = []
  prog : s.prog = []
  faults : s.faults = []

/-- Closing a Client that does not run does nothing. -/
theorem call_close (hr : (s.members k).mIsRunning = false) : call k (.close none) s = put k (view k s) s := by
  simp [call, exec, view, hr]

theorem bare_destroy (h : Bare s) (hr : (s.members k).mIsRunning = false) : Bare (destroy k s) := by
  have hq : (call k .destroyMembers (put k (view k s) s)).queue = [] := by
    simp [call, exec, closeSocket, put, view, h.queue, h.ops]
  have ho : (call k .destroyMembers (put k (view k s) s)).ops = [] := by
    simp [call, exec, closeSocket, put, view, h.ops]
  have hp : (call k .destroyMembers (put k (view k s) s)).prog = [] := h.prog
  unfold destroy
  rw [call_close hr]
  exact ⟨hq, ho, hp, by simp [hp]; exact h.faults⟩

theorem bare_disconnect (h : Bare s) (hr : ∀ k, s.mClient = some k → (s.members k).mIsRunning = false) :
    Bare (disconnect s) := by
  unfold disconnect
  split
  · exact h
  · rename_i k hk
    have hb : Bare (put k (view k s) s) := ⟨h.queue, h.ops, h.prog, h.faults⟩
    rw [call_close (hr k hk)]
    obtain ⟨hq, ho, hp, hf⟩ := bare_destroy (k := k) hb (by simpa [put, upd, view] using hr k hk)
    exact ⟨hq, ho, hp, hf⟩

/-- A Client that does not run yet starts with the resolver. -/
theorem call_connect (hrun : (s.members k).mIsRunning = false) (hq : s.queue = []) (ho : s.ops = []) :
    (call k .connect s).made = s.made + 1 ∧ (call k .connect s).queue = [] ∧
      (call k .connect s).ops = [(s.made + 1, .resolve)] := by
  simp [call, exec, view, put, hrun, hq, ho, config]

/-- A Client made where nothing is left owns all there is. -/
theorem inv_connect (h : Bare s) (hr : ∀ k, s.mClient = some k → (s.members k).mIsRunning = false) (secure : Bool) :
    Inv (connect secure s) := by
  have hb := bare_disconnect h hr
  unfold connect
  generalize disconnect s = s at hb
  obtain ⟨hm, hq, ho⟩ := @call_connect { s with
    members := upd s.members (s.made + 1) ⟨false, false, true, secure, false⟩, mClient := some (s.made + 1) }
    (s.made + 1) (by simp [upd]) hb.queue hb.ops
  have howns : Owns (s.made + 1) (call (s.made + 1) .connect { s with
      members := upd s.members (s.made + 1) ⟨false, false, true, secure, false⟩, mClient := some (s.made + 1) }) := by
    refine ⟨hm.symm, (alive_put _ _).trans (by simp [upd]), ?_, ?_⟩
    · intro e he
      rw [hq] at he
      cases he
    · intro e he
      rw [ho] at he
      obtain rfl := List.mem_singleton.mp he
      rfl
  refine ⟨nofun, ?_, ?_, hb.faults⟩
  · intro k hk
    cases hk
    exact howns
  · intro k hk act hact
    have hprog : s.prog = [] := hb.prog
    have hact : act ∈ s.prog := hact
    rw [hprog] at hact
    cases hact

theorem inv_disconnect (hi : Inv s) (hp : s.prog = []) : Inv (disconnect s) := by
  unfold disconnect
  split
  · exact hi
  · rename_i k hk
    have hprog : (call k .destroyMembers (call k (.close none) (call k (.close none) s))).prog = [] := hp
    refine ⟨fun _ => hprog, nofun, nofun, ?_⟩
    simp only [destroy, hprog, List.not_mem_nil, if_false]
    exact hi.faults

/-! ## Steps -/

/-- A Client is made only when nothing is left in `mIo` and the one before does not run, and is
    destroyed only outside of handlers. -/
def Clean (s : St) : Ev → Prop
  | .connect _ => s.prog = [] ∧ s.queue = [] ∧ s.ops = [] ∧ ∀ k ∈ s.mClient, (s.members k).mIsRunning = false
  | .disconnect => s.prog = []
  | .loginResponse response => loginResponse response ≠ .disconnect
  | _ => True

instance (e : Ev) : Decidable (Clean s e) := by
  unfold Clean
  split <;> infer_instance

/-- Where a program goes on, there is a Client whose actions it has. -/
theorem Inv.running (hi : Inv s) {act : Act} {rest : List Act} (hp : s.prog = act :: rest) :
    ∃ k, s.mClient = some k ∧ Owns k s ∧ For k act ∧ ∀ b ∈ rest, For k b := by
  cases hc : s.mClient with
  | none => cases hp.symm.trans (hi.idle hc)
  | some k =>
    have hall := hi.prog k hc
    rw [hp] at hall
    exact ⟨k, rfl, hi.owns k hc, hall act List.mem_cons_self, fun b hb => hall b (List.mem_cons_of_mem act hb)⟩

/-- What a step of the Client's own leaves. -/
theorem Inv.goOn (hi : Inv s) {t : St} (hk : s.mClient = some k) (hc : t.mClient = s.mClient) (ho : Owns k t)
    (hp : ∀ act ∈ t.prog, For k act) (hf : t.faults = s.faults) : Inv t := by
  have hk' : t.mClient = some k := hc.trans hk
  refine ⟨?_, ?_, ?_, hf.trans hi.faults⟩
  · intro h
    cases h.symm.trans hk'
  · intro j hj
    obtain rfl := Option.some.inj (hk'.symm.trans hj)
    exact ho
  · intro j hj
    obtain rfl := Option.some.inj (hk'.symm.trans hj)
    exact hp

theorem Owns.congr {t : St} (h : Owns k s) (hm : t.made = s.made) (ha : (t.members k).alive = (s.members k).alive)
    (hq : t.queue = s.queue) (ho : t.ops = s.ops) : Owns k t :=
  ⟨h.made.trans hm.symm, ha.trans h.alive, hq ▸ h.queue, ho ▸ h.ops⟩

/-- A change of the program alone. -/
theorem Inv.withProg (hi : Inv s) (hk : s.mClient = some k) {prog : List Act} (hp : ∀ act ∈ prog, For k act) :
    Inv { s with prog := prog } :=
  hi.goOn hk rfl ((hi.owns k hk).congr rfl rfl rfl rfl) hp rfl

/-- Two actions go in front of what is left. -/
theorem Inv.withPair (hi : Inv s) (hk : s.mClient = some k) {a b : Act} (ha : For k a) (hb : For k b) {rest : List Act}
    (hp : ∀ act ∈ rest, For k act) : Inv { s with prog := a :: b :: rest } := by
  refine hi.withProg hk ?_
  intro act hact
  rcases List.mem_cons.mp hact with rfl | hact
  · exact ha
  · rcases List.mem_cons.mp hact with rfl | hact
    · exact hb
    · exact hp act hact

theorem inv_requestAsync (hi : Inv s) : Inv (requestAsync s) := by
  unfold requestAsync
  split
  · exact hi
  · rename_i k hk
    have ho := owns_call (a := .requestAsync) (hi.owns k hk) nofun (by simp [Action.conn?])
    exact hi.goOn hk rfl ho (hi.prog k hk) rfl

theorem inv_requestLogin (hi : Inv s) : Inv (requestLogin s) := by
  unfold requestLogin
  split
  · exact hi
  · rename_i k hk
    split
    · have hs : Owns k { s with members := upd s.members k { s.members k with login := true } } :=
        (hi.owns k hk).congr rfl (by simp [upd]) rfl rfl
      have ho := owns_call (a := .requestAsync) hs nofun (by simp [Action.conn?])
      exact hi.goOn hk rfl ho (hi.prog k hk) rfl
    · exact hi

theorem inv_step (hi : Inv s) (h : step s = some s') : Inv s' := by
  unfold step at h
  split at h
  · rename_i j a rest hp
    obtain ⟨k, hk, ho, hj, hrest⟩ := hi.running hp
    obtain rfl := hj.1
    split at h
    · cases h
    · cases h
      refine hi.withPair hk ?_ ?_ hrest
      · trivial
      · trivial
    · cases h
      obtain ⟨hput, hnew⟩ := owns_exec ho hj
      refine hi.goOn hk rfl (hput.congr rfl rfl rfl rfl) ?_ rfl
      intro act hact
      rcases List.mem_append.mp hact with hact | hact
      · exact hnew act hact
      · exact hrest act hact
  · rename_i rest hp
    obtain ⟨k, hk, -, -, hrest⟩ := hi.running hp
    cases h
    exact hi.withProg hk hrest
  · rename_i rest hp
    obtain ⟨k, hk, ho, -, hrest⟩ := hi.running hp
    cases h
    exact hi.goOn hk rfl (ho.congr rfl rfl rfl rfl) hrest rfl
  · rename_i rest hp
    obtain ⟨k, hk, -, -, hrest⟩ := hi.running hp
    cases h
    exact inv_requestLogin (hi.withProg hk hrest)
  · rename_i rest hp
    obtain ⟨k, hk, -, -, hrest⟩ := hi.running hp
    cases h
    exact inv_requestAsync (hi.withProg hk hrest)
  · rename_i rest hp
    obtain ⟨k, -, -, hdisconnect, -⟩ := hi.running hp
    exact absurd hdisconnect id
  · cases h

theorem inv_run (hi : Inv s) {i : Nat} {e : Nat × Handler} (hk : s.mClient = some k) (he : s.queue[i]? = some e) :
    Inv (run e.1 e.2 { s with queue := s.queue.eraseIdx i }) := by
  have ho := hi.owns k hk
  have hek := ho.queue e (List.mem_of_getElem? he)
  obtain ⟨j, h⟩ := e
  obtain rfl : j = k := hek
  refine hi.goOn hk rfl ⟨ho.made, ho.alive, fun e he => ho.queue e (List.mem_of_mem_eraseIdx he), ho.ops⟩ ?_ ?_
  · intro act hact
    rcases List.mem_append.mp hact with hact | hact
    · obtain ⟨b, hb, rfl⟩ := List.mem_map.mp hact
      unfold lift
      split
      · trivial
      · exact ⟨rfl, (program_calls hb).1, fun c hc => program_conn hb hc⟩
    · rcases List.mem_cons.mp hact with rfl | hact
      · exact rfl
      · exact hi.prog j hk act hact
  · simp [run, ho.alive]

theorem inv_next {e : Ev} (hi : Inv s) (hclean : Clean s e) (h : next s e = some s') : Inv s' := by
  cases e with
  | connect secure =>
    simp only [next, Option.ite_none_right_eq_some, Option.some.injEq] at h
    obtain ⟨-, rfl⟩ := h
    obtain ⟨hp, hq, ho, hr⟩ := hclean
    exact inv_connect ⟨hq, ho, hp, hi.faults⟩ hr secure
  | disconnect =>
    simp only [next, Option.ite_none_right_eq_some, Option.some.injEq] at h
    obtain ⟨-, rfl⟩ := h
    exact inv_disconnect hi hclean
  | poll =>
    simp only [next, Option.ite_none_right_eq_some, Option.some.injEq] at h
    obtain ⟨-, rfl⟩ := h
    split
    · rename_i hsome
      obtain ⟨k, hk⟩ := Option.isSome_iff_exists.mp hsome
      refine hi.withPair hk ?_ ?_ (hi.prog k hk)
      · trivial
      · trivial
    · exact hi
  | send =>
    simp only [next, Option.ite_none_right_eq_some, Option.some.injEq] at h
    obtain ⟨-, rfl⟩ := h
    exact inv_requestAsync hi
  | step => exact inv_step hi h
  | callbackReturns =>
    dsimp only [next] at h
    split at h
    · rename_i rest hp
      obtain ⟨k, hk, -, -, hrest⟩ := hi.running hp
      cases h
      exact hi.withProg hk hrest
    · cases h
  | loginResponse response =>
    dsimp only [next] at h
    split at h
    · rename_i j rest hp
      obtain ⟨k, hk, ho, ⟨rfl, -⟩, hrest⟩ := hi.running hp
      split at h
      · split at h
        · exact absurd ‹_› hclean
        · cases h
          refine hi.goOn hk rfl (ho.congr rfl (by simp [upd]) rfl rfl) ?_ rfl
          intro act hact
          rcases List.mem_cons.mp hact with rfl | hact
          · trivial
          · exact hrest act hact
        · cases h
      · cases h
    · cases h
  | otherMessage =>
    dsimp only [next] at h
    split at h
    · rename_i j rest hp
      obtain ⟨k, hk, -, -, hrest⟩ := hi.running hp
      cases h
      refine hi.withProg hk ?_
      intro act hact
      rcases List.mem_cons.mp hact with rfl | hact
      · trivial
      · exact hrest act hact
    · cases h
  | take i =>
    dsimp only [next] at h
    split at h
    · rename_i rest hp
      obtain ⟨k, hk, -⟩ := hi.running hp
      simp only [Option.ite_none_left_eq_some] at h
      obtain ⟨-, h⟩ := h
      obtain ⟨e, he, rfl⟩ := Option.map_eq_some_iff.mp h
      exact inv_run hi hk he
    · cases h
  | endPoll =>
    dsimp only [next] at h
    split at h
    · rename_i rest hp
      obtain ⟨k, hk, -, -, hrest⟩ := hi.running hp
      simp only [Option.ite_none_right_eq_some, Option.some.injEq] at h
      obtain ⟨-, rfl⟩ := h
      exact hi.withProg hk hrest
    · cases h
  | complete i r =>
    obtain ⟨x, hx, h⟩ := Option.bind_eq_some_iff.mp h
    simp only [Option.ite_none_right_eq_some, Option.some.injEq] at h
    obtain ⟨-, rfl⟩ := h
    refine ⟨hi.idle, ?_, hi.prog, hi.faults⟩
    intro k hk
    have ho := hi.owns k hk
    refine ⟨ho.made, ho.alive, ?_, fun e he => ho.ops e (List.mem_of_mem_eraseIdx he)⟩
    intro e he
    rcases List.mem_append.mp he with he | he
    · exact ho.queue e he
    · obtain rfl := List.mem_singleton.mp he
      exact ho.ops x (List.mem_of_getElem? hx)

/-! ## Runs -/

/-- In every run of a `ClientAppContext` in which a Client is made only when nothing is left in `mIo`
    and the one before does not run, and none is destroyed inside a handler, no handler runs
    after its Client was destroyed and no Client is destroyed while its own handler runs. -/
theorem no_use_after_free (h : Machine.Run next Clean init s) : s.faults = [] := by
  have hi := Machine.run_invariant Inv ⟨fun _ => rfl, by simp [init], by simp [init], rfl⟩
    (fun _ _ _ hi hclean he => inv_next hi hclean he) h
  exact hi.faults

def steps (n : Nat) : List Ev := List.replicate n .step

/-- The host is not found, `poll` handles that, and the context connects again. -/
def retried : List Ev :=
  List.flatten [[.connect false, .complete 0 (.failed "Host not found"), .poll, .take 0], steps 2, [.callbackReturns],
    steps 1, [.callbackReturns], steps 1, [.endPoll], steps 1, [.connect true]]

theorem no_use_after_free_retried : ∃ s, Machine.Run next Clean init s ∧ s.mClient = some 2 ∧ s.faults = [] := by
  have hex : ((Machine.execIf next (fun s e => decide (Clean s e)) init retried).map fun s => s.mClient) =
      some (some 2) := by decide
  obtain ⟨s, hs, hc⟩ := Option.map_eq_some_iff.mp hex
  have hrun := (Machine.run_of_execIf (fun _ _ => of_decide_eq_true) _ hs : Machine.Run _ Clean _ _)
  exact ⟨s, hrun, hc, no_use_after_free hrun⟩

/-- A context that is disconnected and connected again: `poll` runs the first Client's notification. -/
def reconnected : List Ev := [.connect false, .disconnect, .connect false, .poll, .take 0]

/-- The server answers the login with an error. -/
def rejected : List Ev :=
  List.flatten [[.connect false, .complete 0 .ok, .poll, .take 0], steps 2, [.complete 0 .ok, .take 0], steps 1,
    [.callbackReturns], steps 3, [.complete 0 .ok, .take 1], steps 2, [.complete 0 .ok, .take 1],
    [.loginResponse (Json.object [("code", .int32 (-32000)), ("message", .str "Server error: full")]), .callbackReturns],
    steps 1]

theorem destroyed_clients :
    (∃ s, Machine.Run next Machine.any init s ∧ s.faults = [.ran 1]) ∧
    (∃ s, Machine.Run next Machine.any init s ∧ s.faults = [.destroyed 1]) := by
  have hran : ((Machine.exec next init reconnected).map fun s => s.faults) = some [.ran 1] := by decide
  have hdestroyed : ((Machine.exec next init rejected).map fun s => s.faults) = some [.destroyed 1] := by decide
  obtain ⟨s, hs, hf⟩ := Option.map_eq_some_iff.mp hran
  obtain ⟨t, ht, hf'⟩ := Option.map_eq_some_iff.mp hdestroyed
  exact ⟨⟨s, Machine.run_of_exec _ hs, hf⟩, ⟨t, Machine.run_of_exec _ ht, hf'⟩⟩

end CryptoChat.Net.ClientLifetime
