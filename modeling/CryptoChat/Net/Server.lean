/-
  CryptoChat.Net.Server — a listening server (`Server`), as `ServerController::start` sets it
  up: with a connect callback and none of the others.

  One accept is outstanding at a time, and only the handler of one that succeeded asks for the
  next. `start` and `stop` ask whether their callback is set; the handler of an accept calls
  its callbacks without a look.

  Proved: over any completions, an accept is outstanding after each and no unset callback was
  called exactly if all of them were successes (`listening_iff`); then the sockets were handed
  to the connection factory in order (`exec_ok`, `factory_takes`). One error is enough to end
  the listening (`accept_fails`), whether or not an error callback is set.
-/

import CryptoChat.Net.ServerController

namespace CryptoChat.Net

open CryptoChat.Lib

/-- The errors an accept can end with. -/
inductive Server.ErrorCode where
  | operationAborted
  | other (message : String)
  deriving DecidableEq

/-- A callback that was called. -/
inductive Server.Call (σ : Type) where
  | connect (sock : σ)
  | error (message : String)
  | start (port : BitVec 16)
  | stop (message : String)

/-- The callbacks are whether they are set; `sock` is a connection of `σ`. -/
structure Server (σ : Type) where
  mConnectCallback : Bool
  mErrorCallback : Bool
  mStartCallback : Bool
  mStopCallback : Bool
  /-- An `async_accept` has not completed. -/
  accepting : Bool
  calls : List (Server.Call σ)
  /-- An empty callback was called, so `io_context::run` threw and its thread is gone. -/
  threw : Bool

namespace Server

variable {σ κ : Type} {server server' : Server σ}

def new : Server σ := ⟨false, false, false, false, false, [], false⟩

def onConnect (server : Server σ) : Server σ := { server with mConnectCallback := true }

def call (server : Server σ) (set : Bool) (c : Call σ) : Server σ :=
  if set then { server with calls := server.calls ++ [c] } else { server with threw := true }

def accept (server : Server σ) : Server σ := { server with accepting := true }

def start (server : Server σ) (port : BitVec 16) : Server σ :=
  (if server.mStartCallback then server.call server.mStartCallback (.start port) else server).accept

/-- Closing the acceptor leaves the handler to run, with `operation_aborted`. -/
def stop (server : Server σ) (message : String) : Server σ :=
  if server.mStopCallback then server.call server.mStopCallback (.stop message) else server

/-- The handler that `accept` gives to `async_accept`. -/
def onAccept (server : Server σ) : Except ErrorCode σ → Server σ
  | .ok sock =>
    let server := server.call server.mConnectCallback (.connect sock)
    -- nothing after a call that throws
    if server.threw then server else server.accept
  | .error ec =>
    match ec with
    | .operationAborted => server
    | .other message => server.call server.mErrorCallback (.error message)

inductive Ev (σ : Type) where
  | completes (result : Except ErrorCode σ)
  | stop (message : String)

def next (server : Server σ) : Ev σ → Option (Server σ)
  | .completes result =>
    if server.accepting = true ∧ server.threw = false then
      some ({ server with accepting := false }.onAccept result)
    else none
  | .stop message => some (server.stop message)

/-- The server once `ServerController::start` has started it. -/
def controlled (port : BitVec 16) : Server σ := (new.onConnect).start port

def Listening (server : Server σ) : Prop := server.accepting = true ∧ server.threw = false

/-- The server after the connect callback was called with the sockets, and nothing else. -/
def handed (server : Server σ) (socks : List σ) : Server σ :=
  { server with calls := server.calls ++ socks.map .connect }

/-! ## Completions -/

theorem handed_nil : server.handed [] = server := by simp [handed]

theorem handed_handed (socks socks' : List σ) :
    (server.handed socks).handed socks' = server.handed (socks ++ socks') := by simp [handed]

theorem next_ok (h : Listening server) (hset : server.mConnectCallback = true) (sock : σ) :
    next server (.completes (.ok sock)) = some (server.handed [sock]) := by
  obtain ⟨haccepting, hthrew⟩ := h
  rw [next, if_pos ⟨haccepting, hthrew⟩]
  simp [onAccept, call, accept, handed, hset, hthrew, haccepting]

/-- Nobody asks for another accept. -/
theorem next_error (h : Listening server) (ec : ErrorCode) :
    ∃ server', next server (.completes (.error ec)) = some server' ∧ server'.accepting = false := by
  refine ⟨_, if_pos h, ?_⟩
  cases ec with
  | operationAborted => rfl
  | other message =>
    simp only [onAccept, call]
    split <;> rfl

/-- The sockets of a run of successes, in order. -/
theorem exec_ok (h : Listening server) (hset : server.mConnectCallback = true) (socks : List σ) :
    Machine.exec next server (socks.map fun sock => .completes (.ok sock)) = some (server.handed socks) := by
  induction socks generalizing server with
  | nil => rw [handed_nil, List.map_nil, Machine.exec]
  | cons sock socks ih =>
    have hlistening : Listening (server.handed [sock]) := h
    rw [List.map_cons, Machine.exec, next_ok h hset, Option.bind_some, ih hlistening hset, handed_handed,
      List.singleton_append]

/-- Listening after each of the completions, as far as they go. -/
def Listens (server : Server σ) (results : List (Except ErrorCode σ)) : Prop :=
  ∀ done server', done <+: results → Machine.exec next server (done.map .completes) = some server' → Listening server'

theorem listens_nil (h : Listening server) : Listens server [] := by
  intro done server' hdone hexec
  rw [List.prefix_nil.mp hdone] at hexec
  cases hexec
  exact h

theorem listens_cons (h : Listening server) {result : Except ErrorCode σ} {results : List (Except ErrorCode σ)}
    (hnext : next server (.completes result) = some server') :
    Listens server (result :: results) ↔ Listens server' results := by
  constructor
  · intro hl done s hdone hexec
    refine hl (result :: done) s ((List.prefix_cons_inj result).mpr hdone) ?_
    rw [List.map_cons, Machine.exec, hnext, Option.bind_some, hexec]
  · intro hl done s hdone hexec
    cases done with
    | nil =>
      cases hexec
      exact h
    | cons first done =>
      obtain ⟨rfl, hrest⟩ := List.cons_prefix_cons.mp hdone
      rw [List.map_cons, Machine.exec, hnext, Option.bind_some] at hexec
      exact hl done s hrest hexec

theorem listens_iff (h : Listening server) (hset : server.mConnectCallback = true)
    (results : List (Except ErrorCode σ)) :
    Listens server results ↔ ∀ result ∈ results, ∃ sock, result = .ok sock := by
  induction results generalizing server with
  | nil => exact iff_of_true (listens_nil h) nofun
  | cons result results ih =>
    cases result with
    | ok sock =>
      have hlistening : Listening (server.handed [sock]) := h
      rw [listens_cons h (next_ok h hset sock), ih hlistening hset, List.forall_mem_cons]
      exact (and_iff_right ⟨sock, rfl⟩).symm
    | error ec =>
      obtain ⟨server', hnext, hidle⟩ := next_error h ec
      rw [listens_cons h hnext]
      refine iff_of_false ?_ ?_
      · intro hl
        have hbusy := (hl [] server' List.nil_prefix rfl).1
        rw [hidle] at hbusy
        cases hbusy
      · intro hall
        obtain ⟨sock, hsock⟩ := hall _ List.mem_cons_self
        cases hsock

/-- For every sequence of completions of a server that is not stopped. -/
theorem listening_iff (port : BitVec 16) (results : List (Except ErrorCode σ)) :
    Listens (controlled port) results ↔ ∀ result ∈ results, ∃ sock, result = .ok sock :=
  listens_iff ⟨rfl, rfl⟩ rfl results

/-- No descriptor is left for one connection: the unset error callback is called, and the
    server does not listen any more. -/
theorem accept_fails : ¬ ∀ (port : BitVec 16) (results : List (Except ErrorCode Unit)),
    Except.error .operationAborted ∉ results → Listens (controlled port) results := by
  intro h
  have hl := h 8080#16 [.error (.other "Too many open files")] (by decide)
  exact absurd (hl _ _ List.prefix_rfl rfl).2 (by decide)

/-! ## The connection factory -/

/-- The connect callback the controller sets, for the server on the io_context `io`. -/
def factory (io : Nat) : Call σ → Option (ServerController.Ev κ)
  | .connect _ => some (.accept io)
  | _ => none

theorem factory_calls (io : Nat) (socks : List σ) :
    (socks.map Call.connect).filterMap (factory io) =
      List.replicate socks.length (.accept io : ServerController.Ev κ) := by
  induction socks with
  | nil => rfl
  | cons sock socks ih =>
    have hfirst : factory io (.connect sock) = some (.accept io : ServerController.Ev κ) := rfl
    rw [List.map_cons, List.filterMap_cons_some hfirst, ih, List.length_cons, List.replicate_succ]

theorem exec_accepts {s : ServerController.St κ} {io : Nat} (h : (ServerController.instance? s io).isSome) (n : Nat) :
    ∃ s', Machine.exec ServerController.next s (List.replicate n (.accept io)) = some s' ∧
      s'.accepted.length = s.accepted.length + n := by
  induction n generalizing s with
  | zero => exact ⟨s, rfl, rfl⟩
  | succ n ih =>
    obtain ⟨inst, hinst⟩ := Option.isSome_iff_exists.mp h
    have hnext : ∃ s₁, ServerController.next s (.accept io) = some s₁ ∧ (ServerController.instance? s₁ io).isSome ∧
        s₁.accepted.length = s.accepted.length + 1 := by
      rw [ServerController.next, hinst]
      exact ⟨_, rfl, h, List.length_append⟩
    obtain ⟨s₁, hnext, hsome, hone⟩ := hnext
    obtain ⟨s', hexec, hlen⟩ := ih hsome
    refine ⟨s', ?_, by omega⟩
    rw [List.replicate_succ, Machine.exec, hnext, Option.bind_some, hexec]

/-- While it listens, each connection becomes one session of the controller. -/
theorem factory_takes {s : ServerController.St κ} {io : Nat} (h : (ServerController.instance? s io).isSome)
    (port : BitVec 16) (socks : List σ) :
    ∃ server s', Machine.exec next (controlled port) (socks.map fun sock => .completes (.ok sock)) = some server ∧
      Machine.exec ServerController.next s (server.calls.filterMap (factory io)) = some s' ∧
      s'.accepted.length = s.accepted.length + socks.length := by
  obtain ⟨s', hexec, hlen⟩ := exec_accepts h socks.length
  refine ⟨(controlled port).handed socks, s', exec_ok ⟨rfl, rfl⟩ rfl socks, ?_, hlen⟩
  rw [← hexec, ← factory_calls io socks]
  rfl

end Server

end CryptoChat.Net
