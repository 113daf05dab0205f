/-
  CryptoChat.Net.ClientIo — the life of a `Client`: its flag `mIsRunning`, its thread and the
  handlers it leaves in the io_context (`connect`, `close`, `poll`, the completion handlers
  and the two transports).

  The member functions are programs of atomic actions; an action may put more actions in
  front of what is left. The user's thread and, in threaded mode, the I/O thread run such
  programs, one action at a time in any order. In manual mode there is only the user's
  thread, which runs handlers inside `poll`; there user code in a callback may call the
  Client again. In threaded mode such code only makes requests. Callbacks return.

  An operation that was started completes with any result. Closing the socket aborts those
  on the socket, which stay queued as handlers, and not the resolver's. What is queued
  stays queued when the io_context stops, and is taken from it in any order.
-/

import CryptoChat.Lib.ListAt
import CryptoChat.Lib.Machine

namespace CryptoChat.Net.ClientIo

open CryptoChat.Lib

/-! ## Handlers and actions -/

inductive RunMode where
  | threaded
  | manual
  deriving DecidableEq

/-- What a Client is made with: `secure` for a `SecureTransport`; whether callbacks are set. -/
structure Config where
  mode : RunMode
  secure : Bool
  mErrorCallback : Bool
  mDisconnectCallback : Bool

/-- The asynchronous operations. -/
inductive Op where
  | resolve
  | connect
  | handshake
  | header
  | body
  | write
  deriving DecidableEq

/-- What an operation comes to. -/
inductive Result where
  | ok
  | failed (e : String)
  /-- A body that does not decode, or whose message is not handled. -/
  | bad (what : String)
  deriving DecidableEq

def Result.fits (op : Op) : Result → Bool
  | .bad _ => op = .body
  | _ => true

/-- What waits in the io_context: a completion, the handler of `writeMessage`, that of `close`. -/
inductive Handler where
  | done (op : Op) (r : Result)
  | write
  | disconnect
  deriving DecidableEq

/-- The actions. Those of handlers, and those that start work, have the number of the
    connection they are for. -/
inductive Action where
  /-- `connect`, and what it goes on with. -/
  | connect
  | makeGuard
  | resolve (c : Nat)
  | spawn
  | returned (c : Nat)
  /-- `close`, called by a handler of a connection or by the user, and what it goes on with. -/
  | close (caller : Option Nat)
  | post (c : Nat)
  | closeTransport
  | resetGuard
  | stop
  | join
  | restart
  /-- The end of `~Client`: the members go. -/
  | destroyMembers
  /-- `requestAsync`, and what it goes on with. -/
  | requestAsync
  | postWrite (c : Nat)
  /-- `mIoContext.poll()`. -/
  | poll
  /-- `mIsRunning = false`. -/
  | clear (c : Nat)
  | onError (c : Nat) (what : String)
  | onDisconnect (c : Nat)
  | onConnect
  | onMessage
  /-- User code called back. -/
  | callback
  | handleIoError (c : Nat) (e : String)
  | start (c : Nat) (op : Op)
  /-- `if (mIsRunning) readHeader();` -/
  | readNext (c : Nat)
  deriving DecidableEq

/-- `handleConnectResult`. -/
def handleConnectResult (c : Nat) : Result → List Action
  | .failed e => [.clear c, .onError c e, .onDisconnect c]
  | _ => [.onConnect, .start c .header]

/-- The handlers of the connection `c`. -/
def program (cfg : Config) (c : Nat) : Handler → List Action
  | .done .resolve (.failed e) => handleConnectResult c (.failed e)
  | .done .resolve _ => [.start c .connect]
  | .done .connect (.failed e) => handleConnectResult c (.failed e)
  | .done .connect _ => if cfg.secure then [.start c .handshake] else handleConnectResult c .ok
  | .done .handshake r => handleConnectResult c r
  | .done .header (.failed e) => [.handleIoError c e]
  | .done .header _ => [.start c .body]
  | .done .body (.failed e) => [.handleIoError c e]
  | .done .body (.bad what) => [.onError c ("Decode error: " ++ what), .close (some c)]
  | .done .body .ok => [.onMessage, .readNext c]
  | .done .write (.failed e) => [.handleIoError c e]
  | .done .write _ => []
  | .write => [.start c .write]
  | .disconnect => if cfg.mDisconnectCallback then [.onDisconnect c] else []

/-! ## What actions do -/

inductive Thread where
  | none
  | running
  /-- It has left `run` and is not joined. -/
  | finished
  deriving DecidableEq

/-- What a handler did. -/
inductive Effect where
  | errorCallback
  | disconnectCallback
  | cleared
  deriving DecidableEq

inductive Fault where
  /-- `mThread` is assigned to, or destroyed, while it is joinable: `std::terminate`. -/
  | assign
  | destroy
  /-- The thread joins itself: the join throws. -/
  | selfJoin
  deriving DecidableEq

structure Core where
  mIsRunning : Bool
  mWorkGuard : Bool
  mThread : Thread
  /-- The io_context; each entry has the number of its connection. -/
  stopped : Bool
  queue : List (Nat × Handler)
  ops : List (Nat × Op)
  /-- The connections so far, and the last one whose `connect` has returned true. -/
  conn : Nat
  returned : Nat
  /-- What handlers of a connection did after a later `connect` returned true. -/
  stale : List Effect
  faults : List Fault

def aborted : String := "Operation canceled"

/-- Closing the socket: the operations on it are done, those of the resolver go on. -/
def closeSocket (s : Core) : Core :=
  { s with
    ops := s.ops.filter fun e => e.2 = .resolve
    queue := s.queue ++ (s.ops.filter fun e => e.2 ≠ .resolve).map fun e => (e.1, .done e.2 (.failed aborted)) }

/-- Notes what a handler of a connection did, if a later `connect` has returned true. -/
def note (caller : Option Nat) (effect : Effect) (s : Core) : Core :=
  if caller.any (· < s.returned) then { s with stale := s.stale ++ [effect] } else s

/-- One action: the state after it, and the actions it puts in front. -/
def exec (cfg : Config) (s : Core) : Action → Core × List Action
  | .connect =>
    if s.mIsRunning then (s, [])
    else
      ({ s with mIsRunning := true, conn := s.conn + 1 },
        [.makeGuard, .resolve (s.conn + 1), .spawn, .returned (s.conn + 1)])
  | .makeGuard => ({ s with mWorkGuard := true }, [])
  | .resolve c => ({ s with ops := s.ops ++ [(c, .resolve)] }, [])
  | .spawn =>
    match cfg.mode, s.mThread with
    | .manual, _ => (s, [])
    | .threaded, .none => ({ s with mThread := .running }, [])
    | .threaded, _ => ({ s with faults := s.faults ++ [.assign] }, [])
  | .returned c => ({ s with returned := c }, [])
  | .close caller =>
    if s.mIsRunning then
      ({ note caller .cleared s with mIsRunning := false },
        [.post s.conn, .closeTransport, .resetGuard, .stop, .join, .restart])
    else (s, [])
  | .post c => ({ s with queue := s.queue ++ [(c, .disconnect)] }, [])
  | .closeTransport => (closeSocket s, [])
  | .resetGuard => ({ s with mWorkGuard := false }, [])
  | .stop => ({ s with stopped := true }, [])
  | .join => ({ s with mThread := .none }, [])
  | .restart => ({ s with stopped := false }, [])
  | .destroyMembers =>
    (if s.mThread = .none then closeSocket s else { s with faults := s.faults ++ [.destroy] }, [])
  | .requestAsync => if s.mIsRunning then (s, [.postWrite s.conn]) else (s, [])
  | .postWrite c => ({ s with queue := s.queue ++ [(c, .write)] }, [])
  | .clear c => ({ note (some c) .cleared s with mIsRunning := false }, [])
  | .onError c _ => if cfg.mErrorCallback then (note (some c) .errorCallback s, [.callback]) else (s, [])
  | .onDisconnect c => if cfg.mDisconnectCallback then (note (some c) .disconnectCallback s, [.callback]) else (s, [])
  | .onConnect | .onMessage => (s, [.callback])
  | .handleIoError c e => if s.mIsRunning then (s, [.onError c e, .close (some c)]) else (s, [])
  | .start c op =>
    -- `async_connect` closes the socket before it tries an endpoint
    let s := if op = .connect then closeSocket s else s
    ({ s with ops := s.ops ++ [(c, op)] }, [])
  | .readNext c => if s.mIsRunning then (s, [.start c .header]) else (s, [])
  | .poll | .callback => (s, [])

/-! ## The machine -/

structure St where
  core : Core
  /-- What is left to run on the user's thread, and on the I/O thread. -/
  user : List Action
  io : List Action
  /-- The Client's destructor was called. -/
  gone : Bool

def init : St := ⟨⟨false, false, .none, false, [], [], 0, 0, [], []⟩, [], [], false⟩

/-- The member functions a user calls. -/
inductive Call where
  | connect
  | close
  | requestAsync
  | poll

inductive Ev where
  /-- The user calls a member function, or deletes the Client. -/
  | call (f : Call)
  | delete
  /-- The next action of a thread. -/
  | user
  | io
  /-- A callback on the I/O thread makes a request; a callback returns. -/
  | ioRequest
  | userReturn
  | ioReturn
  /-- `poll` runs a handler, or is done; so the I/O thread. -/
  | take (i : Nat)
  | endPoll
  | ioTake (i : Nat)
  | ioExit
  /-- The outstanding operation `i` completes. -/
  | complete (i : Nat) (r : Result)

def Call.action (cfg : Config) : Call → List Action
  | .connect => [.connect]
  | .close => [.close none]
  | .requestAsync => [.requestAsync]
  | .poll => if cfg.mode = .manual then [.poll, .restart] else []

/-- Whether the program was ended by `std::terminate`. -/
def terminated (s : Core) : Bool := s.faults.any fun f => f ≠ .selfJoin

/-- Whether the user's own code runs on the user's thread. -/
def userRuns : List Action → Bool
  | [] | .callback :: _ => true
  | _ => false

/-- Takes the handler `i` from the queue. -/
def dequeue (s : Core) (i : Nat) : Option ((Nat × Handler) × Core) :=
  if s.stopped then none else s.queue[i]?.map fun e => (e, { s with queue := s.queue.eraseIdx i })

/-- The operation `i` is done, and its handler is queued. -/
def completed (s : Core) (i : Nat) (r : Result) : Option Core :=
  s.ops[i]?.bind fun e =>
    if r.fits e.2 then
      some { s with ops := s.ops.eraseIdx i, queue := s.queue ++ [(e.1, .done e.2 r)] }
    else none

variable (cfg : Config)

def live (s : St) : Ev → Option St
  | .call f => if userRuns s.user ∧ s.gone = false then some { s with user := f.action cfg ++ s.user } else none
  | .delete =>
    if s.user = [] ∧ s.gone = false then some { s with user := [.close none, .destroyMembers], gone := true } else none
  | .user =>
    match s.user with
    | [] | .callback :: _ | .poll :: _ => none
    | .join :: rest =>
      -- waits for the thread
      if s.core.mThread = .running then none else some { s with core := (exec cfg s.core .join).1, user := rest }
    | action :: rest =>
      let r := exec cfg s.core action
      some { s with core := r.1, user := r.2 ++ rest }
  | .io =>
    match s.io with
    | [] | .callback :: _ | .poll :: _ => none
    | .join :: rest =>
      if s.core.mThread = .none then some { s with io := rest }
      else
        -- the join throws, out of `run`, and the thread's own handler clears the flag
        some { s with
          core := { s.core with faults := s.core.faults ++ [.selfJoin], mIsRunning := false, mThread := .finished }
          io := [] }
    | action :: rest =>
      let r := exec cfg s.core action
      some { s with core := r.1, io := r.2 ++ rest }
  | .ioRequest =>
    match s.io with
    | .callback :: _ => some { s with io := .requestAsync :: s.io }
    | _ => none
  | .userReturn =>
    match s.user with
    | .callback :: rest => some { s with user := rest }
    | _ => none
  | .ioReturn =>
    match s.io with
    | .callback :: rest => some { s with io := rest }
    | _ => none
  | .take i =>
    match s.user with
    | .poll :: _ => (dequeue s.core i).map fun r => { s with core := r.2, user := program cfg r.1.1 r.1.2 ++ s.user }
    | _ => none
  | .endPoll =>
    match s.user with
    | .poll :: rest => if s.core.stopped ∨ s.core.queue = [] then some { s with user := rest } else none
    | _ => none
  | .ioTake i =>
    if s.core.mThread = .running ∧ s.io = [] then
      (dequeue s.core i).map fun r => { s with core := r.2, io := program cfg r.1.1 r.1.2 }
    else none
  | .ioExit =>
    -- `run` returns when the io_context is stopped, or has no work
    if s.core.mThread = .running ∧ s.io = [] ∧
        (s.core.stopped ∨ s.core.mWorkGuard = false ∧ s.core.queue = [] ∧ s.core.ops = []) then
      some { s with core := { s.core with mThread := .finished, stopped := true } }
    else none
  | .complete i r => (completed s.core i r).map fun core => { s with core := core }

def next (s : St) (e : Ev) : Option St := if terminated s.core then none else live cfg s e

/-! ## Connections -/

/-- The connection an action is for. -/
def Action.conn? : Action → Option Nat
  | .resolve c | .post c | .postWrite c | .clear c | .onError c _ | .onDisconnect c | .handleIoError c _ | .start c _
  | .readNext c => some c
  | .close caller => caller
  | _ => none

variable {cfg} {s : Core} {a : Action}

@[simp] theorem note_queue (c : Option Nat) (effect : Effect) (s : Core) : (note c effect s).queue = s.queue := by
  unfold note
  split <;> rfl

@[simp] theorem note_ops (c : Option Nat) (effect : Effect) (s : Core) : (note c effect s).ops = s.ops := by
  unfold note
  split <;> rfl

@[simp] theorem note_conn (c : Option Nat) (effect : Effect) (s : Core) : (note c effect s).conn = s.conn := by
  unfold note
  split <;> rfl

@[simp] theorem note_returned (c : Option Nat) (effect : Effect) (s : Core) :
    (note c effect s).returned = s.returned := by
  unfold note
  split <;> rfl

@[simp] theorem note_running (c : Option Nat) (effect : Effect) (s : Core) :
    (note c effect s).mIsRunning = s.mIsRunning := by
  unfold note
  split <;> rfl

@[simp] theorem note_thread (c : Option Nat) (effect : Effect) (s : Core) : (note c effect s).mThread = s.mThread := by
  unfold note
  split <;> rfl

@[simp] theorem note_faults (c : Option Nat) (effect : Effect) (s : Core) : (note c effect s).faults = s.faults := by
  unfold note
  split <;> rfl

theorem note_stale {caller : Option Nat} (h : ∀ c, caller = some c → s.returned ≤ c) (effect : Effect) :
    (note caller effect s).stale = s.stale := by
  rw [note, if_neg]
  simp only [Option.any_eq_true, decide_eq_true_eq, not_exists, not_and, Nat.not_lt]
  exact h

theorem program_conn {c c' : Nat} {h : Handler} (ha : a ∈ program cfg c h) (hc : a.conn? = some c') : c' = c := by
  have hall : ∀ a ∈ program cfg c h, ∀ c', a.conn? = some c' → c' = c := by
    rcases h with ⟨op, r⟩ | - | -
    · cases op <;> cases r <;> simp [program, handleConnectResult, Action.conn?]
      all_goals split <;> simp
    · simp [program, Action.conn?]
    · simp only [program]
      split <;> simp [Action.conn?]
  exact hall a ha c' hc

variable {P : Nat → Prop} {E : Nat × Handler → Prop} {as : List Action}

/-- What is queued or outstanding is for connections in `P`; `E` is what that says of a queued
    handler. -/
structure Tagged (P : Nat → Prop) (E : Nat × Handler → Prop) (s : Core) : Prop where
  queue : ∀ e ∈ s.queue, E e
  ops : ∀ e ∈ s.ops, P e.1

instance [DecidablePred P] [DecidablePred E] : Decidable (Tagged P E s) :=
  decidable_of_iff ((∀ e ∈ s.queue, E e) ∧ ∀ e ∈ s.ops, P e.1) ⟨fun h => ⟨h.1, h.2⟩, fun h => ⟨h.queue, h.ops⟩⟩

/-- So are actions. -/
def AllFor (P : Nat → Prop) (as : List Action) : Prop := ∀ a ∈ as, ∀ c ∈ a.conn?, P c

instance [DecidablePred P] : Decidable (AllFor P as) := inferInstanceAs (Decidable (∀ a ∈ as, ∀ c ∈ a.conn?, P c))

theorem AllFor.append {bs : List Action} (ha : AllFor P as) (hb : AllFor P bs) : AllFor P (as ++ bs) :=
  fun x hx => (List.mem_append.mp hx).elim (ha x) (hb x)

theorem AllFor.tail (h : AllFor P (a :: as)) : AllFor P as :=
  fun x hx => h x (List.mem_cons_of_mem a hx)

theorem Tagged.eraseIdx (h : Tagged P E s) (i : Nat) : Tagged P E { s with queue := s.queue.eraseIdx i } :=
  ⟨fun e he => h.queue e (List.mem_of_mem_eraseIdx he), h.ops⟩

theorem dequeue_some {s' : Core} {i : Nat} {e : Nat × Handler} (h : dequeue s i = some (e, s')) :
    e ∈ s.queue ∧ s' = { s with queue := s.queue.eraseIdx i } := by
  unfold dequeue at h
  split at h
  · cases h
  · obtain ⟨x, hx, he⟩ := Option.map_eq_some_iff.mp h
    cases he
    exact ⟨List.mem_of_getElem? hx, rfl⟩

theorem tagged_closeSocket (hE : ∀ c h, P c → E (c, h)) (h : Tagged P E s) : Tagged P E (closeSocket s) := by
  refine ⟨?_, fun e he => h.ops e (List.mem_of_mem_filter he)⟩
  intro e he
  rcases List.mem_append.mp he with he | he
  · exact h.queue e he
  · obtain ⟨x, hx, rfl⟩ := List.mem_map.mp he
    exact hE _ _ (h.ops x (List.mem_of_mem_filter hx))

theorem Tagged.post (h : Tagged P E s) {e : Nat × Handler} (he : E e) :
    Tagged P E { s with queue := s.queue ++ [e] } := by
  refine ⟨?_, h.ops⟩
  intro x hx
  rcases List.mem_append.mp hx with hx | hx
  · exact h.queue x hx
  · exact List.mem_singleton.mp hx ▸ he

theorem Tagged.start (h : Tagged P E s) {e : Nat × Op} (he : P e.1) : Tagged P E { s with ops := s.ops ++ [e] } := by
  refine ⟨h.queue, ?_⟩
  intro x hx
  rcases List.mem_append.mp hx with hx | hx
  · exact h.ops x hx
  · exact List.mem_singleton.mp hx ▸ he

theorem Tagged.note (h : Tagged P E s) (c : Option Nat) (effect : Effect) : Tagged P E (note c effect s) :=
  ⟨by simpa using h.queue, by simpa using h.ops⟩

/-- An action for a connection in `P` leaves only work for connections in `P`. -/
theorem tagged_exec (hE : ∀ c h, P c → E (c, h)) (hconn : P s.conn) (hnext : a = .connect → P (s.conn + 1))
    (ha : ∀ c, a.conn? = some c → P c) (h : Tagged P E s) :
    Tagged P E (exec cfg s a).1 ∧ AllFor P (exec cfg s a).2 := by
  have hnil : AllFor P [] := by simp [AllFor]
  cases a with
  | connect =>
    dsimp only [exec]
    split
    · exact ⟨h, hnil⟩
    · exact ⟨⟨h.queue, h.ops⟩, by simp [AllFor, Action.conn?, hnext]⟩
  | resolve c => exact ⟨h.start (ha c rfl), hnil⟩
  | spawn =>
    dsimp only [exec]
    split <;> exact ⟨⟨h.queue, h.ops⟩, hnil⟩
  | close caller =>
    dsimp only [exec]
    split
    · have hn := h.note caller .cleared
      exact ⟨⟨hn.queue, hn.ops⟩, by simp [AllFor, Action.conn?, hconn]⟩
    · exact ⟨h, hnil⟩
  | post c => exact ⟨h.post (hE _ _ (ha c rfl)), hnil⟩
  | closeTransport => exact ⟨tagged_closeSocket hE h, hnil⟩
  | destroyMembers =>
    refine ⟨?_, hnil⟩
    dsimp only [exec]
    split
    · exact tagged_closeSocket hE h
    · exact ⟨h.queue, h.ops⟩
  | requestAsync =>
    dsimp only [exec]
    split
    · exact ⟨h, by simp [AllFor, Action.conn?, hconn]⟩
    · exact ⟨h, hnil⟩
  | postWrite c => exact ⟨h.post (hE _ _ (ha c rfl)), hnil⟩
  | clear c =>
    have hn := h.note (some c) .cleared
    exact ⟨⟨hn.queue, hn.ops⟩, hnil⟩
  | onError c what =>
    dsimp only [exec]
    split
    · exact ⟨h.note (some c) _, by simp [AllFor, Action.conn?]⟩
    · exact ⟨h, hnil⟩
  | onDisconnect c =>
    dsimp only [exec]
    split
    · exact ⟨h.note (some c) _, by simp [AllFor, Action.conn?]⟩
    · exact ⟨h, hnil⟩
  | handleIoError c e =>
    dsimp only [exec]
    split
    · exact ⟨h, by simp [AllFor, Action.conn?, ha c rfl]⟩
    · exact ⟨h, hnil⟩
  | start c op =>
    have hs : Tagged P E (if op = .connect then closeSocket s else s) := by
      split
      · exact tagged_closeSocket hE h
      · exact h
    exact ⟨hs.start (ha c rfl), hnil⟩
  | readNext c =>
    dsimp only [exec]
    split
    · exact ⟨h, by simp [AllFor, Action.conn?, ha c rfl]⟩
    · exact ⟨h, hnil⟩
  | _ => exact ⟨⟨h.queue, h.ops⟩, by simp [exec, AllFor, Action.conn?]⟩

/-! ## Connecting -/

theorem exec_conn : (exec cfg s a).1.conn = s.conn ∨ a = .connect ∧ (exec cfg s a).1.conn = s.conn + 1 := by
  cases a with
  | connect =>
    dsimp only [exec]
    split
    · exact .inl rfl
    · exact .inr ⟨rfl, rfl⟩
  | _ =>
    left
    simp only [exec, closeSocket]
    first | done | (split <;> simp) | simp

theorem exec_conn_le : s.conn ≤ (exec cfg s a).1.conn := by
  rcases @exec_conn cfg s a with h | ⟨-, h⟩ <;> omega

/-- Only `connect` leads to a return of `connect`. -/
theorem exec_calls : ∀ b ∈ (exec cfg s a).2,
    b ≠ .connect ∧ ∀ c, b = .returned c → a = .connect ∧ c = (exec cfg s a).1.conn := by
  cases a <;> dsimp only [exec] <;> first | (split <;> simp) | simp

theorem program_calls {c : Nat} {h : Handler} {b : Action} (hb : b ∈ program cfg c h) :
    b ≠ .connect ∧ ∀ c, b ≠ .returned c := by
  have hall : ∀ b ∈ program cfg c h, b ≠ .connect ∧ ∀ c, b ≠ .returned c := by
    rcases h with ⟨op, r⟩ | - | -
    · cases op <;> cases r <;> simp [program, handleConnectResult]
      all_goals split <;> simp
    · simp [program]
    · simp only [program]
      split <;> simp
  exact hall b hb

/-! ## Steps of the threads -/

variable {t t' : St}

theorem next_live {e : Ev} (h : next cfg t e = some t') : terminated t.core = false ∧ live cfg t e = some t' := by
  unfold next at h
  split at h
  · cases h
  · rename_i hterminated
    exact ⟨Bool.eq_false_iff.mpr hterminated, h⟩

/-- The user's thread runs its next action. -/
theorem live_user (h : live cfg t .user = some t') :
    ∃ a rest, t.user = a :: rest ∧ a ≠ .callback ∧ a ≠ .poll ∧ (a = .join → t.core.mThread ≠ .running) ∧
      t' = { t with core := (exec cfg t.core a).1, user := (exec cfg t.core a).2 ++ rest } := by
  dsimp only [live] at h
  split at h
  · cases h
  · cases h
  · cases h
  · rename_i rest hu
    simp only [Option.ite_none_left_eq_some, Option.some.injEq] at h
    obtain ⟨hm, rfl⟩ := h
    exact ⟨.join, rest, hu, nofun, nofun, fun _ => hm, rfl⟩
  · rename_i a rest hcallback hpoll hjoin hu
    cases h
    exact ⟨a, rest, hu, hcallback, hpoll, fun h => absurd h hjoin, rfl⟩

/-- The I/O thread runs its next action, or joins itself. -/
theorem live_io (h : live cfg t .io = some t') :
    ∃ a rest, t.io = a :: rest ∧ a ≠ .callback ∧ a ≠ .poll ∧
      (t' = { t with core := (exec cfg t.core a).1, io := (exec cfg t.core a).2 ++ rest } ∨
        a = .join ∧ t' = { t with
          core := { t.core with faults := t.core.faults ++ [.selfJoin], mIsRunning := false, mThread := .finished }
          io := [] }) := by
  dsimp only [live] at h
  split at h
  · cases h
  · cases h
  · cases h
  · rename_i rest hio
    split at h
    · rename_i hm
      cases h
      refine ⟨.join, rest, hio, nofun, nofun, .inl ?_⟩
      simp only [exec, ← hm, List.nil_append]
    · cases h
      exact ⟨.join, rest, hio, nofun, nofun, .inr ⟨rfl, rfl⟩⟩
  · rename_i a rest hcallback hpoll hjoin hio
    cases h
    exact ⟨a, rest, hio, hcallback, hpoll, .inl rfl⟩

/-! ## Samples -/

/-- A plain client with both callbacks. -/
def sampleConfig (mode : RunMode) : Config := ⟨mode, false, true, true⟩

/-- `n` actions of the user's thread. -/
def acts (n : Nat) : List Ev := List.replicate n .user

end CryptoChat.Net.ClientIo
