/-
  CryptoChat.Net.ServerAppContext — the chat server: its five routes (`setupRoutes`), the
  router over them, and what a session's callbacks do (`ServerController::start`).

  A handler is a program of operations on what the server's threads share: the session
  manager's locked sections and the sends. `exec` is their effect on the sessions and on
  what was sent; `Prog.run exec` does a program without interruption.

  Proved: run so, a message has the effect of the `Call` it is read as, if it is one, and
  no other than an answer (`onMessage_read`); and it is answered as `Router::handle` answers
  it with the results of the handlers (`handle_refines`).
-/

import CryptoChat.Net.Router
import CryptoChat.Net.SessionManager
import CryptoChat.Lib.Prog

namespace CryptoChat.Net

open CryptoChat.Lib Message

/-! ## Operations -/

/-- What a thread of the server does in one step, for sessions of type `κ`. -/
inductive ServerOp (κ : Type) where
  | setName (uid : BitVec 32) (name : String)
  | getName (uid : BitVec 32)
  | listIds
  | remove (uid : BitVec 32)
  /-- The locked part of `broadcast`, and that of `sendTo`. -/
  | allSessions
  | targets (uids : List (BitVec 32))
  | send (session : κ) (message : Message)

namespace ServerOp

variable {κ : Type}

abbrev Res : ServerOp κ → Type
  | .getName _ => String
  | .listIds => List (BitVec 32)
  | .allSessions => List κ
  | .targets _ => List κ
  | _ => Unit

end ServerOp

/-- A program of a thread of the server. -/
abbrev ServerProg (κ α : Type) := Prog (ServerOp κ) ServerOp.Res Exn α

/-- The sessions, and what was sent to each so far. -/
structure Store (κ : Type) where
  mSessions : SessionManager κ
  sent : List (κ × Message)

namespace ServerAppContext

variable {κ : Type}

/-- What was sent to a session. -/
def inbox [DecidableEq κ] (sent : List (κ × Message)) (session : κ) : List Message :=
  sent.filterMap fun e => if e.1 = session then some e.2 else none

theorem inbox_append [DecidableEq κ] (sent new : List (κ × Message)) (session : κ) :
    inbox (sent ++ new) session = inbox sent session ++ inbox new session :=
  List.filterMap_append

@[simp] theorem inbox_self [DecidableEq κ] (session : κ) (message : Message) :
    inbox [(session, message)] session = [message] := by simp [inbox]

theorem inbox_other [DecidableEq κ] {session other : κ} (h : other ≠ session) (message : Message) :
    inbox [(other, message)] session = [] := by simp [inbox, h]

theorem inbox_eq_nil [DecidableEq κ] {sent : List (κ × Message)} {session : κ} (h : ∀ e ∈ sent, e.1 ≠ session) :
    inbox sent session = [] :=
  List.filterMap_eq_nil_iff.mpr fun e he => if_neg (h e he)

def exec (s : Store κ) : (o : ServerOp κ) → Store κ × o.Res
  | .setName uid name => ({ s with mSessions := s.mSessions.setName uid name }, ())
  | .getName uid => (s, s.mSessions.getName uid)
  | .listIds => (s, s.mSessions.listIds)
  | .remove uid => ({ s with mSessions := s.mSessions.remove uid }, ())
  | .allSessions => (s, s.mSessions.broadcast)
  | .targets uids => (s, s.mSessions.sendTo uids)
  | .send session message => ({ s with sent := s.sent ++ [(session, message)] }, ())

def setName (uid : BitVec 32) (name : String) : ServerProg κ Unit := .op (.setName uid name) .ret

def getName (uid : BitVec 32) : ServerProg κ String := .op (.getName uid) .ret

def listIds : ServerProg κ (List (BitVec 32)) := .op .listIds .ret

def remove (uid : BitVec 32) : ServerProg κ Unit := .op (.remove uid) .ret

def send (session : κ) (message : Message) : ServerProg κ Unit := .op (.send session message) .ret

/-- One send after the other. -/
def sendAll : List κ → Message → ServerProg κ Unit
  | [], _ => .ret ()
  | session :: sessions, message => do
    send session message
    sendAll sessions message

def broadcast (message : Message) : ServerProg κ Unit := do
  let allSessions ← (.op .allSessions .ret : ServerProg κ (List κ))
  sendAll allSessions message

def sendTo (uids : List (BitVec 32)) (message : Message) : ServerProg κ Unit := do
  let targets ← (.op (.targets uids) .ret : ServerProg κ (List κ))
  sendAll targets message

/-! ## The pushes -/

def uidJson (uid : BitVec 32) : Json := .uint32 uid

def userJoined (uid : BitVec 32) (name : String) : Json :=
  .object [("event", .str "user_joined"), ("uid", uidJson uid), ("name", .str name)]

def userLeft (uid : BitVec 32) : Json := .object [("event", .str "user_left"), ("uid", uidJson uid)]

def publicMessage (uid : BitVec 32) (name text : String) : Json :=
  .object [("event", .str "public_message"), ("from_uid", uidJson uid), ("from_name", .str name), ("text", .str text)]

def privateMessage (uid : BitVec 32) (name text : String) : Json :=
  .object [("event", .str "private_message"), ("from_uid", uidJson uid), ("from_name", .str name), ("text", .str text)]

theorem find?_makePush (now : Nat) (body : Json) : (makePush now body).j.find? "push" = some body := by
  simp [makePush, withId, Json.find?, Json.lookup_assign]

theorem value_makePush (now : Nat) (body dflt : Json) : (makePush now body).j.value "push" dflt = .ok body := by
  simp [makePush, withId, Json.value, Json.valueWith, Json.lookup_assign]

theorem userJoined_find? (uid : BitVec 32) (name : String) :
    (userJoined uid name).find? "event" = some (.str "user_joined") ∧
      (userJoined uid name).find? "uid" = some (uidJson uid) ∧
      (userJoined uid name).find? "name" = some (.str name) := by
  simp [userJoined, Json.object, Json.find?, Json.lookup_assign]

theorem userLeft_find? (uid : BitVec 32) :
    (userLeft uid).find? "event" = some (.str "user_left") ∧ (userLeft uid).find? "uid" = some (uidJson uid) := by
  simp [userLeft, Json.object, Json.find?, Json.lookup_assign]

theorem publicMessage_find? (uid : BitVec 32) (name text : String) :
    (publicMessage uid name text).find? "event" = some (.str "public_message") ∧
      (publicMessage uid name text).find? "from_uid" = some (uidJson uid) ∧
      (publicMessage uid name text).find? "from_name" = some (.str name) ∧
      (publicMessage uid name text).find? "text" = some (.str text) := by
  simp [publicMessage, Json.object, Json.find?, Json.lookup_assign]

theorem privateMessage_find? (uid : BitVec 32) (name text : String) :
    (privateMessage uid name text).find? "event" = some (.str "private_message") ∧
      (privateMessage uid name text).find? "from_uid" = some (uidJson uid) ∧
      (privateMessage uid name text).find? "from_name" = some (.str name) ∧
      (privateMessage uid name text).find? "text" = some (.str text) := by
  simp [privateMessage, Json.object, Json.find?, Json.lookup_assign]

/-! ## The routes -/

/-- A handler, with the clock where it makes a push. -/
abbrev Route (κ : Type) := Nat → Json → BitVec 32 → ServerProg κ Json

def login : Route κ := fun now p uid => do
  let name ← .ofExcept (p.valueString "name" "guest")
  setName uid name
  broadcast (makePush now (userJoined uid name))
  return .object [("uid", uidJson uid), ("name", .str name), ("status", .str "success")]

/-- An entry of the list for each id, its name read where it is made. -/
def clients : List (BitVec 32) → List Json → ServerProg κ Json
  | [], arr => return .object [("clients", .arr arr)]
  | id :: ids, arr => do
    let name ← getName id
    clients ids (arr ++ [.object [("uid", uidJson id), ("name", .str name)]])

def clientList : Route κ := fun _ _ _ => do
  let ids ← listIds
  clients ids []

def sendPublic : Route κ := fun now p uid => do
  let text ← .ofExcept (p.valueString "text" "")
  let name ← getName uid
  broadcast (makePush now (publicMessage uid name text))
  return .object [("delivered", .bool true)]

def sendPrivate : Route κ := fun now p uid => do
  let toUid ← .ofExcept (p.valueInt "to_uid" 0#32)
  let text ← .ofExcept (p.valueString "text" "")
  let name ← getName uid
  sendTo [toUid] (makePush now (privateMessage uid name text))
  return .object [("delivered", .bool true)]

def ping : Route κ := fun _ _ _ => return .object [("msg", .str "pong")]

def setupRoutes : List (String × Route κ) :=
  [("login", login), ("client_list", clientList), ("send_public", sendPublic), ("send_private", sendPrivate),
    ("ping", ping)]

/-- `mHandlers`, after `setupRoutes`. -/
def routes : AList fun _ : String => Route κ := setupRoutes.foldl (fun m r => m.insert r.1 r.2) ∅

/-- `Router::handle` over the routes. -/
def handle (now : Nat) (request : Message) (uid : BitVec 32) : ServerProg κ Message :=
  match Router.dispatch routes Router.defaultFallback now request with
  | .error e => .throw e
  | .ok (.inl answer) => .ret answer
  | .ok (.inr (id, handler, params)) =>
    (handler now params uid).attempt fun result =>
      .ofExcept (Router.conclude Router.defaultFallback now request id result)

/-- The message callback of a session. -/
def onMessage (now : Nat) (uid : BitVec 32) (msg : Message) (session : κ) : ServerProg κ Unit := do
  let response ← handle now msg uid
  send session response

/-- Its close callback. -/
def onClose (now : Nat) (uid : BitVec 32) : ServerProg κ Unit := do
  remove uid
  broadcast (makePush now (userLeft uid))

/-! ## Calls -/

/-- What is asked of a route. -/
inductive Call where
  | login (name : String)
  | clientList
  | sendPublic (text : String)
  | sendPrivate (toUid : BitVec 32) (text : String)
  | ping
  deriving DecidableEq

namespace Call

/-- The call of a method, if there is such a route, or what reading its parameters throws. -/
def read (method : String) (p : Json) : Option (Except Exn Call) :=
  if method = "login" then some ((p.valueString "name" "guest").map .login)
  else if method = "client_list" then some (.ok .clientList)
  else if method = "send_public" then some ((p.valueString "text" "").map .sendPublic)
  else if method = "send_private" then
    some do
      let toUid ← p.valueInt "to_uid" 0#32
      let text ← p.valueString "text" ""
      return .sendPrivate toUid text
  else if method = "ping" then some (.ok .ping)
  else none

/-- What the handler does with the parameters read. -/
def prog (now : Nat) (uid : BitVec 32) : Call → ServerProg κ Json
  | .login name => do
    setName uid name
    broadcast (makePush now (userJoined uid name))
    return .object [("uid", uidJson uid), ("name", .str name), ("status", .str "success")]
  | .clientList => do
    let ids ← listIds
    clients ids []
  | .sendPublic text => do
    let name ← getName uid
    broadcast (makePush now (publicMessage uid name text))
    return .object [("delivered", .bool true)]
  | .sendPrivate toUid text => do
    let name ← getName uid
    sendTo [toUid] (makePush now (privateMessage uid name text))
    return .object [("delivered", .bool true)]
  | .ping => return .object [("msg", .str "pong")]

/-- The sessions after the call. -/
def sessions (uid : BitVec 32) (m : SessionManager κ) : Call → SessionManager κ
  | .login name => m.setName uid name
  | _ => m

/-- What it sends, and to whom. -/
def pushes (now : Nat) (uid : BitVec 32) (m : SessionManager κ) : Call → List (κ × Message)
  | .login name => (m.setName uid name).broadcast.map (·, makePush now (userJoined uid name))
  | .sendPublic text => m.broadcast.map (·, makePush now (publicMessage uid (m.getName uid) text))
  | .sendPrivate toUid text => (m.sendTo [toUid]).map (·, makePush now (privateMessage uid (m.getName uid) text))
  | _ => []

def result (uid : BitVec 32) (m : SessionManager κ) : Call → Json
  | .login name => .object [("uid", uidJson uid), ("name", .str name), ("status", .str "success")]
  | .clientList => .object [("clients", .arr (m.listIds.map fun id =>
      .object [("uid", uidJson id), ("name", .str (m.getName id))]))]
  | .ping => .object [("msg", .str "pong")]
  | _ => .object [("delivered", .bool true)]

end Call

/-- What a message comes to: it throws, or there is an answer to its id at once, or a call. -/
def read (request : Message) : Except Exn (BitVec 32 × (Answer ⊕ Call)) := do
  let id ← request.j.valueInt "id" 0#32
  if request.type ≠ .request then
    return (id, .inl (.error (-32600) "Invalid Request: Not a request"))
  else
    let method ← request.j.valueString "method" ""
    if method = "" then
      return (id, .inl (.error (-32600) "Invalid Request: No method"))
    else
      let params ← request.j.value "params" (.obj [])
      match Call.read method params with
      | none => return (id, .inl (.error (-32601) ("Method not found: " ++ method)))
      | some (.error e) => return (id, .inl (.ofResult (.error e)))
      | some (.ok call) => return (id, .inr call)

/-- The call a message makes, if it makes one. -/
def call? (request : Message) : Option Call :=
  match read request with
  | .ok (_, .inr call) => some call
  | _ => none

/-! ## Without interruption -/

theorem run_sendAll (sessions : List κ) (message : Message) (s : Store κ) :
    (sendAll sessions message).run exec s = ({ s with sent := s.sent ++ sessions.map (·, message) }, .ok ()) := by
  induction sessions generalizing s with
  | nil => simp [sendAll]
  | cons session sessions ih => simp [sendAll, send, ih, exec]

theorem run_broadcast (message : Message) (s : Store κ) :
    (broadcast message).run exec s =
      ({ s with sent := s.sent ++ s.mSessions.broadcast.map (·, message) }, .ok ()) :=
  run_sendAll s.mSessions.broadcast message s

theorem run_onClose (now : Nat) (uid : BitVec 32) (s : Store κ) :
    ((onClose now uid).run exec s).1 = ⟨s.mSessions.remove uid, s.sent ++
      (s.mSessions.remove uid).broadcast.map (·, makePush now (userLeft uid))⟩ := by
  unfold onClose remove
  simp only [Prog.op_bind, Prog.ret_bind, Prog.run_op, run_broadcast]
  rfl

theorem run_sendTo (uids : List (BitVec 32)) (message : Message) (s : Store κ) :
    (sendTo uids message).run exec s =
      ({ s with sent := s.sent ++ (s.mSessions.sendTo uids).map (·, message) }, .ok ()) :=
  run_sendAll (s.mSessions.sendTo uids) message s

theorem run_clients (ids : List (BitVec 32)) (arr : List Json) (s : Store κ) :
    (clients ids arr).run exec s = (s, .ok (.object [("clients", .arr (arr ++ ids.map fun id =>
      .object [("uid", uidJson id), ("name", .str (s.mSessions.getName id))]))])) := by
  induction ids generalizing arr with
  | nil => simp [clients]
  | cons id ids ih => simp [clients, getName, ih, exec]

theorem run_prog (now : Nat) (uid : BitVec 32) (c : Call) (s : Store κ) :
    (c.prog now uid).run exec s =
      (⟨c.sessions uid s.mSessions, s.sent ++ c.pushes now uid s.mSessions⟩, .ok (c.result uid s.mSessions)) := by
  cases c with
  | login name =>
    simp only [Call.prog, setName, Prog.op_bind, Prog.ret_bind, Prog.run_op, Prog.run_bind, run_broadcast]
    rfl
  | clientList =>
    simp only [Call.prog, listIds, Prog.op_bind, Prog.ret_bind, Prog.run_op, run_clients]
    simp [exec, Call.sessions, Call.pushes, Call.result]
  | sendPublic text =>
    simp only [Call.prog, getName, Prog.op_bind, Prog.ret_bind, Prog.run_op, Prog.run_bind, run_broadcast]
    rfl
  | sendPrivate toUid text =>
    simp only [Call.prog, getName, Prog.op_bind, Prog.ret_bind, Prog.run_op, Prog.run_bind, run_sendTo]
    rfl
  | ping => simp [Call.prog, Call.sessions, Call.pushes, Call.result]

/-! ## Requests -/

/-- A method has a handler if it can be read, and the handler reads its parameters and does the
    call. -/
theorem lookup_routes (method : String) :
    match (routes : AList fun _ : String => Route κ).lookup method with
    | none => ∀ p, Call.read method p = none
    | some handler => ∀ p, ∃ r, Call.read method p = some r ∧
        ∀ now uid, handler now p uid = Prog.ofExcept r >>= Call.prog now uid := by
  by_cases h1 : method = "login"
  · subst h1
    refine fun p => ⟨_, rfl, ?_⟩
    intro now uid
    show login now p uid = _
    unfold login
    cases p.valueString "name" "guest" <;> rfl
  by_cases h2 : method = "client_list"
  · subst h2
    exact fun p => ⟨_, rfl, fun now uid => rfl⟩
  by_cases h3 : method = "send_public"
  · subst h3
    refine fun p => ⟨_, rfl, ?_⟩
    intro now uid
    show sendPublic now p uid = _
    unfold sendPublic
    cases p.valueString "text" "" <;> rfl
  by_cases h4 : method = "send_private"
  · subst h4
    refine fun p => ⟨_, rfl, ?_⟩
    intro now uid
    show sendPrivate now p uid = _
    unfold sendPrivate
    cases p.valueInt "to_uid" 0#32 with
    | error e => rfl
    | ok toUid => cases p.valueString "text" "" <;> rfl
  by_cases h5 : method = "ping"
  · subst h5
    exact fun p => ⟨_, rfl, fun now uid => rfl⟩
  have hnone : (routes : AList fun _ : String => Route κ).lookup method = none := by
    simp only [routes, setupRoutes, List.foldl_cons, List.foldl_nil]
    rw [AList.lookup_insert_ne h5, AList.lookup_insert_ne h4, AList.lookup_insert_ne h3, AList.lookup_insert_ne h2,
      AList.lookup_insert_ne h1, AList.lookup_empty]
  rw [hnone]
  intro p
  simp [Call.read, h1, h2, h3, h4, h5]

/-- A message is handled as it is read: a call is done and its result answered. -/
theorem handle_read (now : Nat) (request : Message) (uid : BitVec 32) :
    (handle now request uid : ServerProg κ Message) =
      match read request with
      | .error e => .throw e
      | .ok (id, .inl answer) => .ret (answer.toMessage now id)
      | .ok (id, .inr call) => (call.prog now uid).attempt fun result =>
        .ret ((Answer.ofResult result).toMessage now id) := by
  unfold handle Router.dispatch read
  cases hid : request.j.valueInt "id" 0#32 with
  | error e => rfl
  | ok id =>
    simp only [Router.defaultFallback_eq hid, bind, Except.bind, pure, Except.pure, Except.map]
    by_cases ht : request.type = .request
    · simp only [ht, ne_eq, not_true_eq_false, if_false]
      cases request.j.valueString "method" "" with
      | error e => rfl
      | ok method =>
        by_cases hm : method = ""
        · simp only [hm, if_true]
        · simp only [hm, if_false]
          cases request.j.value "params" (.obj []) with
          | error e => rfl
          | ok params =>
            have hl := lookup_routes (κ := κ) method
            cases hlook : (routes : AList fun _ : String => Route κ).lookup method with
            | none =>
              rw [hlook] at hl
              simp only [hl params]
            | some handler =>
              rw [hlook] at hl
              obtain ⟨r, hr, hprog⟩ := hl params
              simp only [hr, hprog, Router.conclude_eq hid now, Prog.ofExcept]
              cases r <;> rfl
    · simp only [ht, ne_eq, not_false_eq_true, if_true]

theorem onMessage_read (now : Nat) (request : Message) (uid : BitVec 32) (session : κ) (s : Store κ) :
    ((onMessage now uid request session).run exec s).1 =
      match read request with
      | .error _ => s
      | .ok (id, .inl answer) => { s with sent := s.sent ++ [(session, answer.toMessage now id)] }
      | .ok (id, .inr call) =>
        ⟨call.sessions uid s.mSessions, s.sent ++ call.pushes now uid s.mSessions ++
          [(session, Message.makeResponse now id (call.result uid s.mSessions))]⟩ := by
  unfold onMessage
  rw [Prog.run_bind, handle_read]
  cases read request with
  | error e => rfl
  | ok r =>
    obtain ⟨id, answer | call⟩ := r
    · rfl
    · simp only [Prog.run_attempt, run_prog, Prog.run_ret]
      rfl

/-- What a message read as a call does: the call's pushes go out before its answer. -/
theorem onMessage_call {now : Nat} {request : Message} {uid id : BitVec 32} {call : Call}
    (h : read request = .ok (id, .inr call)) (session : κ) (s : Store κ) :
    ((onMessage now uid request session).run exec s).1 =
      ⟨call.sessions uid s.mSessions, s.sent ++ (call.pushes now uid s.mSessions ++
        [(session, Message.makeResponse now id (call.result uid s.mSessions))])⟩ := by
  rw [onMessage_read, h]
  simp only [List.append_assoc]

/-- A message is answered as `Router::handle` does it, over the results of the handlers. -/
theorem handle_refines (now : Nat) (request : Message) (uid : BitVec 32) (s : Store κ) :
    ((handle now request uid).run exec s).2 =
      (Router.of (setupRoutes.map fun r => (r.1, fun params uid => ((r.2 now params uid).run exec s).2))).handle now
        request uid := by
  have hd := Router.dispatch_map (fun (handler : Route κ) params uid => ((handler now params uid).run exec s).2)
    (fun method => Router.lookup_of _ setupRoutes method) Router.defaultFallback now request
  have hroutes : setupRoutes.foldl (fun m r => m.insert r.1 r.2) ∅ = (routes : AList fun _ : String => Route κ) := rfl
  rw [hroutes] at hd
  rw [Router.handle_eq, Router.fallback_of, hd]
  unfold handle
  cases Router.dispatch routes Router.defaultFallback now request with
  | error e => rfl
  | ok r =>
    obtain answer | ⟨id, handler, params⟩ := r
    · rfl
    · simp [Prog.run_attempt]

end ServerAppContext

end CryptoChat.Net
