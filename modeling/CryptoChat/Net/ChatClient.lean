/-
  CryptoChat.Net.ChatClient — the chat client on one connection: a `ClientAppContext` and
  the `Client` it has wired (`wireClient`), from the login to what a message does.

  A request goes out with the callback it was made with; the messages it sends are the
  second component of what a function returns. Where a handler throws, the client closes.

  Proved: what a message leaves of the roster, whatever the message is (`mem_handle`).
-/

import CryptoChat.Net.ClientAppContext
import CryptoChat.Net.Correlation

namespace CryptoChat.Net

open CryptoChat.Lib

/-- What the callback of a request does. -/
inductive Callback where
  | login
  | clientList
  | nothing
  deriving DecidableEq

/-- Where a connection goes to. -/
structure ClientConfig where
  host : String
  port : BitVec 16
  secure : Bool
  deriving DecidableEq

/-- What is thrown in place of a Client; `tls` is what OpenSSL throws at the setup of a context for
    it, if it does. -/
def ClientFactory.create (cfg : ClientConfig) (tls : Option Exn) : Option Exn :=
  if cfg.port = 0 then some (.other "ClientFactory: port must be non-zero")
  else if cfg.secure then tls
  else none

/-- `onError` is whether the event has a handler, `mClient` whether there is a Client. -/
structure ChatClient where
  ctx : ClientAppContext
  onError : Bool
  mClient : Bool
  mIsRunning : Bool
  mNextRequestId : BitVec 32
  mResponseCallbacks : ResponseCallbacks Callback

namespace ChatClient

/-- After `connect`. -/
def start (onError : Bool) (username : String) : ChatClient :=
  ⟨.init username, onError, true, true, 1#32, ∅⟩

/-- `Client::requestAsync`. -/
def requestAsync (now : Nat) (asked : ClientAppContext.Asked) (callback : Callback) (s : ChatClient) :
    ChatClient × List Message :=
  if s.mIsRunning then
    ({ s with
      mNextRequestId := s.mNextRequestId + 1
      mResponseCallbacks := s.mResponseCallbacks.insert s.mNextRequestId (some callback) },
      [Message.makeRequest now s.mNextRequestId asked.method asked.params])
  else (s, [])

/-- `Client::close`. -/
def close (s : ChatClient) : ChatClient := { s with mIsRunning := false }

/-- The Client is closed and gone. -/
def disconnect (s : ChatClient) : ChatClient := { s with ctx := s.ctx.clear, mClient := false, mIsRunning := false }

/-- The connect callback. -/
def onConnect (now : Nat) (s : ChatClient) : ChatClient × List Message :=
  requestAsync now s.ctx.loginRequest .login s

def handleLoginResponse (now : Nat) (response : Json) (s : ChatClient) : ChatClient × List Message :=
  match s.ctx.handleLoginResponse s.onError response with
  | (ctx, .disconnect) => (disconnect { s with ctx := ctx }, [])
  | (ctx, .clientList) => requestAsync now ClientAppContext.clientListRequest .clientList { s with ctx := ctx }
  | (ctx, .threw _) => (close { s with ctx := ctx }, [])

def handleClientList (list : Json) (s : ChatClient) : ChatClient × List Message :=
  match s.ctx.handleClientList list with
  | (ctx, .ok _) => ({ s with ctx := ctx }, [])
  | (ctx, .error _) => (close { s with ctx := ctx }, [])

def handlePush (p : Json) (s : ChatClient) : ChatClient × List Message :=
  match s.ctx.handlePush p with
  | .ok ctx => ({ s with ctx := ctx }, [])
  | .error _ => (close s, [])

/-- `Client::handleMessage`, and the callback it calls. -/
def handle (now : Nat) (msg : Message) (s : ChatClient) : ChatClient × List Message :=
  let handled := Client.handleMessage true msg s.mResponseCallbacks
  let s := { s with mResponseCallbacks := handled.1 }
  match handled.2 with
  | .error _ => (close s, [])
  | .ok .nothing => (s, [])
  | .ok (.response .login response) => handleLoginResponse now response s
  | .ok (.response .clientList list) => handleClientList list s
  | .ok (.response .nothing _) => (s, [])
  | .ok (.push p) => handlePush p s

/-- What the handlers of a message tell the application. -/
inductive Outcome where
  | nothing
  | updated
  /-- The list of clients has come. -/
  | listed
  /-- An error is told, and the client closes. -/
  | closes (err : String)
  /-- The login is refused: the Client is destroyed, and the handler goes on in it. -/
  | freed

def outcome (msg : Message) (s : ChatClient) : Outcome :=
  match (Client.handleMessage true msg s.mResponseCallbacks).2 with
  | .error e => .closes ("Decode error: " ++ e.what)
  | .ok .nothing => .nothing
  | .ok (.response .login response) =>
    match (s.ctx.handleLoginResponse s.onError response).2 with
    | .disconnect => .freed
    | .clientList => .nothing
    | .threw e => .closes ("Decode error: " ++ e.what)
  | .ok (.response .clientList list) =>
    match (s.ctx.handleClientList list).2 with
    | .ok _ => .listed
    | .error e => .closes ("Decode error: " ++ e.what)
  | .ok (.response .nothing _) => .nothing
  | .ok (.push p) =>
    match s.ctx.handlePush p with
    | .ok _ => .updated
    | .error e => .closes ("Decode error: " ++ e.what)

def sendPublic (now : Nat) (text : String) (s : ChatClient) : ChatClient × List Message :=
  if s.mClient then
    match s.ctx.sendPublic text with
    | (ctx, none) => ({ s with ctx := ctx }, [])
    | (ctx, some asked) => requestAsync now asked .nothing { s with ctx := ctx }
  else (s, [])

def sendPrivate (now : Nat) (toUid : BitVec 32) (text : String) (s : ChatClient) : ChatClient × List Message :=
  if s.mClient then
    match s.ctx.sendPrivate toUid text with
    | (ctx, none) => ({ s with ctx := ctx }, [])
    | (ctx, some asked) => requestAsync now asked .nothing { s with ctx := ctx }
  else (s, [])

/-! ## The roster -/

open ClientAppContext Client

/-- What a push adds to the roster, what it takes from it, and what a list of clients adds. -/
def joined (p : Json) : List (BitVec 32) :=
  if p.valueString "event" "" = .ok "user_joined" then (uidAt p "uid").toOption.toList else []

def left (p : Json) : List (BitVec 32) :=
  if p.valueString "event" "" = .ok "user_left" then (uidAt p "uid").toOption.toList else []

def listed (list : Json) : List (BitVec 32) :=
  match list.find? "clients" with
  | none => []
  | some clients => (items clients).filterMap fun c => (uidAt c "uid").toOption

/-- The uids a message can add to the roster. -/
def named (msg : Message) : List (BitVec 32) :=
  if msg.type = .response then
    match responseArgument msg with
    | .ok list => listed list
    | .error _ => []
  else if msg.type = .push then
    match msg.j.value "push" (.obj []) with
    | .ok p => joined p
    | .error _ => []
  else []

/-- The uids it takes from it. -/
def unnamed (msg : Message) : List (BitVec 32) :=
  if msg.type = .push then
    match msg.j.value "push" (.obj []) with
    | .ok p => left p
    | .error _ => []
  else []

theorem mem_addUser {j : Json} {s t : ClientAppContext} (h : addUser j s = .ok t) {uid : BitVec 32}
    (hu : uid ∈ t.mUsers) : uidAt j "uid" = .ok uid ∨ uid ∈ s.mUsers := by
  obtain ⟨u, name, hj, -, rfl⟩ := addUser_cases h
  rcases (AList.mem_insert _).mp hu with rfl | hu
  · exact .inl hj
  · exact .inr hu

theorem mem_addUsers {items : List Json} {s : ClientAppContext} {uid : BitVec 32}
    (hu : uid ∈ (addUsers items s).1.mUsers) :
    uid ∈ items.filterMap (fun c => (uidAt c "uid").toOption) ∨ uid ∈ s.mUsers := by
  induction items generalizing s with
  | nil => exact .inr hu
  | cons c rest ih =>
    unfold addUsers at hu
    cases hc : addUser c s with
    | error e =>
      rw [hc] at hu
      exact .inr hu
    | ok t =>
      rw [hc] at hu
      rcases ih hu with h | h
      · exact .inl (List.mem_filterMap.mpr (by
          obtain ⟨d, hd, he⟩ := List.mem_filterMap.mp h
          exact ⟨d, List.mem_cons_of_mem c hd, he⟩))
      · rcases mem_addUser hc h with h | h
        · exact .inl (List.mem_filterMap.mpr ⟨c, List.mem_cons_self, by simp [h, Except.toOption]⟩)
        · exact .inr h

theorem mem_handleClientList {list : Json} {s : ChatClient} {uid : BitVec 32}
    (hu : uid ∈ (handleClientList list s).1.ctx.mUsers) : uid ∈ listed list ∨ uid ∈ s.ctx.mUsers := by
  have hctx : (handleClientList list s).1.ctx = (s.ctx.handleClientList list).1 := by
    unfold handleClientList
    split <;> simp [close, *]
  rw [hctx] at hu
  unfold ClientAppContext.handleClientList at hu
  unfold listed
  cases hl : list.find? "clients" with
  | none =>
    rw [hl] at hu
    exact .inr hu
  | some clients =>
    rw [hl] at hu
    exact mem_addUsers hu

theorem mem_countUnread {u uid : BitVec 32} {s : ClientAppContext} :
    uid ∈ (countUnread u s).mUsers ↔ uid ∈ s.mUsers := by
  unfold countUnread
  cases hl : s.mUsers.lookup u with
  | none => rfl
  | some user =>
    simp only [AList.mem_insert]
    constructor
    · rintro (rfl | h)
      · exact AList.lookup_isSome.mp (by simp [hl])
      · exact h
    · exact .inr

theorem mem_pushMessage {isPrivate : Bool} {p : Json} {s t : ClientAppContext}
    (h : pushMessage isPrivate p s = .ok t) {uid : BitVec 32} : uid ∈ t.mUsers ↔ uid ∈ s.mUsers := by
  obtain ⟨fromUid, -, ⟨-, rfl⟩ | ⟨-, fromName, text, -, -, rfl⟩⟩ := pushMessage_cases h
  · rfl
  · cases isPrivate
    · rfl
    · exact mem_countUnread

theorem mem_pushed {p : Json} {s t : ClientAppContext} (h : s.handlePush p = .ok t) {uid : BitVec 32}
    (hu : uid ∈ t.mUsers) : uid ∈ joined p ∨ uid ∈ s.mUsers ∧ uid ∉ left p := by
  obtain ⟨evt, he, hcases⟩ := handlePush_cases h
  unfold joined left
  rw [he]
  rcases hcases with ⟨rfl, hadd⟩ | ⟨rfl, u, hq, rfl⟩ | ⟨rfl, hpush⟩ | ⟨rfl, hpush⟩ | ⟨-, h2, -, -, rfl⟩
  · rcases mem_addUser hadd hu with hj | hu
    · exact .inl (by simp [hj, Except.toOption])
    · exact .inr ⟨hu, by simp⟩
  · obtain ⟨hne, hu⟩ := AList.mem_erase.mp hu
    exact .inr ⟨hu, by simpa [hq, Except.toOption] using hne⟩
  · exact .inr ⟨(mem_pushMessage hpush).mp hu, by simp⟩
  · exact .inr ⟨(mem_pushMessage hpush).mp hu, by simp⟩
  · exact .inr ⟨hu, by simp [h2]⟩

@[simp] theorem requestAsync_ctx (now : Nat) (asked : Asked) (callback : Callback) (s : ChatClient) :
    (requestAsync now asked callback s).1.ctx = s.ctx := by
  unfold requestAsync
  split <;> rfl

theorem requestAsync_flags (now : Nat) (asked : Asked) (callback : Callback) (s : ChatClient) :
    (requestAsync now asked callback s).1.mClient = s.mClient ∧
      (requestAsync now asked callback s).1.mIsRunning = s.mIsRunning := by
  unfold requestAsync
  split <;> exact ⟨rfl, rfl⟩

theorem mem_handleLoginResponse {now : Nat} {response : Json} {s : ChatClient} {uid : BitVec 32}
    (hu : uid ∈ (handleLoginResponse now response s).1.ctx.mUsers) : uid ∈ s.ctx.mUsers := by
  have hctx : (s.ctx.handleLoginResponse s.onError response).1.mUsers = s.ctx.mUsers := by
    unfold ClientAppContext.handleLoginResponse
    repeat' split
    all_goals rfl
  unfold handleLoginResponse at hu
  split at hu
  · simp [disconnect, clear] at hu
  · rename_i h
    rw [requestAsync_ctx] at hu
    rw [h] at hctx
    exact hctx ▸ hu
  · rename_i h
    rw [h] at hctx
    exact hctx ▸ hu

theorem sendPublic_users (now : Nat) (text : String) (s : ChatClient) :
    (sendPublic now text s).1.ctx.mUsers = s.ctx.mUsers := by
  unfold sendPublic ClientAppContext.sendPublic
  split
  · by_cases ht : text = ""
    · rw [if_pos ht]
    · rw [if_neg ht, requestAsync_ctx]
      rfl
  · rfl

theorem sendPrivate_users (now : Nat) (toUid : BitVec 32) (text : String) (s : ChatClient) :
    (sendPrivate now toUid text s).1.ctx.mUsers = s.ctx.mUsers := by
  unfold sendPrivate ClientAppContext.sendPrivate
  split
  · by_cases ht : text = ""
    · rw [if_pos ht]
    · rw [if_neg ht, requestAsync_ctx]
      rfl
  · rfl

/-- A push that throws takes nothing from the roster. -/
theorem left_of_throws {p : Json} {s : ClientAppContext} {e : Exn} (h : s.handlePush p = .error e) : left p = [] := by
  unfold left
  split
  · rename_i he
    cases hq : uidAt p "uid" with
    | error e => rfl
    | ok u =>
      simp [ClientAppContext.handlePush, he, hq, bind, Except.bind, pure, Except.pure] at h
  · rfl

theorem mem_handlePush {p : Json} {s : ChatClient} {uid : BitVec 32} (hu : uid ∈ (handlePush p s).1.ctx.mUsers) :
    uid ∈ joined p ∨ uid ∈ s.ctx.mUsers ∧ uid ∉ left p := by
  unfold handlePush at hu
  split at hu
  · rename_i h
    exact mem_pushed h hu
  · rename_i h
    exact .inr ⟨hu, by simp [left_of_throws h]⟩

theorem handle_push (now : Nat) {msg : Message} (ht : msg.type = .push) (s : ChatClient) :
    handle now msg s =
      match msg.j.value "push" (.obj []) with
      | .error _ => (close s, [])
      | .ok p => handlePush p s := by
  unfold handle Client.handleMessage
  rw [if_neg (by rw [ht]; decide), if_pos ht, if_pos rfl]
  cases msg.j.value "push" (.obj []) <;> rfl

/-- A response is nothing to the client, or goes to the callback of its id. -/
theorem handle_response (now : Nat) {msg : Message} (ht : msg.type = .response) (s : ChatClient) :
    (handle now msg s).1.ctx = s.ctx ∨ ∃ callbacks argument, responseArgument msg = .ok argument ∧
      (handle now msg s = handleLoginResponse now argument { s with mResponseCallbacks := callbacks } ∨
        handle now msg s = handleClientList argument { s with mResponseCallbacks := callbacks }) := by
  unfold handle
  rcases handleMessage_spec true msg s.mResponseCallbacks with ⟨id, entry, -, -, h⟩ | ⟨-, called, h, hno⟩
  · rw [h]
    cases entry with
    | none => exact .inl rfl
    | some callback =>
      cases hr : responseArgument msg with
      | error e => exact .inl rfl
      | ok argument =>
        cases callback with
        | login => exact .inr ⟨_, argument, rfl, .inl rfl⟩
        | clientList => exact .inr ⟨_, argument, rfl, .inr rfl⟩
        | nothing => exact .inl rfl
  · have hp := handleMessage_response true ht s.mResponseCallbacks
    rw [h] at hp ⊢
    cases called with
    | error e => exact .inl rfl
    | ok called =>
      cases called with
      | nothing => exact .inl rfl
      | response callback argument => exact absurd rfl (hno callback argument)
      | push p => exact absurd rfl (hp p)

/-- Only what a message names gets on the roster, and what it takes from it is gone. -/
theorem mem_handle (now : Nat) (msg : Message) (s : ChatClient) {uid : BitVec 32}
    (hu : uid ∈ (handle now msg s).1.ctx.mUsers) : uid ∈ named msg ∨ uid ∈ s.ctx.mUsers ∧ uid ∉ unnamed msg := by
  unfold named unnamed
  by_cases ht : msg.type = .response
  · rw [if_pos ht, if_neg (by rw [ht]; decide)]
    rcases handle_response now ht s with h | ⟨callbacks, argument, hr, h | h⟩
    · exact .inr ⟨h ▸ hu, List.not_mem_nil⟩
    · rw [h] at hu
      have hu := mem_handleLoginResponse hu
      exact .inr ⟨hu, List.not_mem_nil⟩
    · rw [h] at hu
      rw [hr]
      rcases mem_handleClientList hu with h | h
      · exact .inl h
      · exact .inr ⟨h, List.not_mem_nil⟩
  rw [if_neg ht]
  by_cases hp : msg.type = .push
  · rw [if_pos hp, if_pos hp]
    rw [handle_push now hp] at hu
    cases hv : msg.j.value "push" (.obj []) with
    | error e =>
      rw [hv] at hu
      exact .inr ⟨hu, List.not_mem_nil⟩
    | ok p =>
      rw [hv] at hu
      exact mem_handlePush hu
  · rw [if_neg hp, if_neg hp]
    unfold handle Client.handleMessage at hu
    rw [if_neg ht, if_neg hp] at hu
    exact .inr ⟨hu, List.not_mem_nil⟩

end ChatClient

end CryptoChat.Net
