/-
  CryptoChat.Net.ChatMessages — the messages of the chat, at both ends: what the server
  reads a client's requests as, and what the server's messages do to a client's entries
  and its uid.

  Proved: every request of a client is read as the call it was made for (`read_login`,
  `read_clientList`, `say_eq`); a push of the server adds the entry it carries unless that
  is from the client's own uid (`handle_fromServer_push`); a response that is not to a
  login changes neither (`handle_fromServer_answer`), and one to a login gives the client
  its uid (`handle_login`).
-/

import CryptoChat.Net.ChatClient
import CryptoChat.Net.ServerAppContext

namespace CryptoChat.Net

open CryptoChat.Lib Message ServerAppContext

/-! ## Requests -/

/-- A text a user sends: to all, or to one uid. -/
structure Line where
  toUid : Option (BitVec 32)
  text : String
  deriving DecidableEq

namespace Line

def isPrivate (line : Line) : Bool := line.toUid.isSome

def call (line : Line) : Call :=
  match line.toUid with
  | none => .sendPublic line.text
  | some toUid => .sendPrivate toUid line.text

end Line

/-- The line a call sends, if it sends one. -/
def ServerAppContext.Call.line? : Call → Option Line
  | .sendPublic text => some ⟨none, text⟩
  | .sendPrivate toUid text => some ⟨some toUid, text⟩
  | _ => none

/-- The line a message asks to send. -/
def line? (request : Message) : Option Line := (call? request).bind Call.line?

theorem Line.line?_call (line : Line) : line.call.line? = some line := by
  obtain ⟨toUid, text⟩ := line
  cases toUid <;> rfl

theorem read_makeRequest (time : Nat) (id : BitVec 32) {method : String} (hm : method ≠ "") (params : Json)
    {call : Call} (hc : Call.read method params = some (.ok call)) :
    ServerAppContext.read (makeRequest time id method params) = .ok (id, .inr call) := by
  unfold ServerAppContext.read
  rw [id_makeRequest, method_makeRequest, params_makeRequest]
  simp [bind, Except.bind, pure, Except.pure, hm, hc, makeRequest]

theorem read_login (time : Nat) (id : BitVec 32) (s : ClientAppContext) :
    ServerAppContext.read (makeRequest time id s.loginRequest.method s.loginRequest.params) =
      .ok (id, .inr (.login s.mLoginName)) :=
  read_makeRequest time id (by decide : "login" ≠ "") _ rfl

theorem read_clientList (time : Nat) (id : BitVec 32) :
    ServerAppContext.read (makeRequest time id ClientAppContext.clientListRequest.method
      ClientAppContext.clientListRequest.params) = .ok (id, .inr .clientList) :=
  read_makeRequest time id (by decide : "client_list" ≠ "") _ rfl

namespace ChatClient

/-- A user sends a line. -/
def say (now : Nat) (line : Line) (s : ChatClient) : ChatClient × List Message :=
  match line.toUid with
  | none => s.sendPublic now line.text
  | some toUid => s.sendPrivate now toUid line.text

/-- The line is echoed and a request for it goes out, under the next id. -/
theorem say_eq (now : Nat) {line : Line} (ht : line.text ≠ "") {s : ChatClient} (hc : s.mClient = true)
    (hr : s.mIsRunning = true) :
    ∃ request, ServerAppContext.read request = .ok (s.mNextRequestId, .inr line.call) ∧
      s.say now line = ({ s with
        ctx := ClientAppContext.echo line.isPrivate line.text s.ctx
        mNextRequestId := s.mNextRequestId + 1
        mResponseCallbacks := s.mResponseCallbacks.insert s.mNextRequestId (some .nothing) }, [request]) := by
  obtain ⟨toUid, text⟩ := line
  cases toUid with
  | none =>
    refine ⟨_, read_makeRequest now s.mNextRequestId (by decide : "send_public" ≠ "") (.object [("text", .str text)])
      rfl, ?_⟩
    simp [say, sendPublic, hc, ClientAppContext.sendPublic, show text ≠ "" from ht, requestAsync, hr, Line.isPrivate]
  | some toUid =>
    have hread : Call.read "send_private" (.object [("to_uid", .uint32 toUid), ("text", .str text)]) =
        some (.ok (.sendPrivate toUid text)) := by
      simp [Call.read, Json.object, Json.valueInt, Json.valueString, Json.valueWith, Json.lookup_assign,
        Json.getString, bind, Except.bind, pure, Except.pure]
    refine ⟨_, read_makeRequest now s.mNextRequestId (by decide : "send_private" ≠ "") _ hread, ?_⟩
    simp [say, sendPrivate, hc, ClientAppContext.sendPrivate, show text ≠ "" from ht, requestAsync, hr, Line.isPrivate]

end ChatClient

/-! ## Messages of the server -/

/-- The push of a line. -/
def posting (isPrivate : Bool) (uid : BitVec 32) (name text : String) : Json :=
  if isPrivate then privateMessage uid name text else publicMessage uid name text

/-- What the server sends: the pushes, and the results of calls. -/
inductive FromServer : Message → Prop where
  | joined (now : Nat) (uid : BitVec 32) (name : String) : FromServer (makePush now (userJoined uid name))
  | left (now : Nat) (uid : BitVec 32) : FromServer (makePush now (userLeft uid))
  | line (now : Nat) (isPrivate : Bool) (uid : BitVec 32) (name text : String) :
    FromServer (makePush now (posting isPrivate uid name text))
  | answer (now : Nat) (id : BitVec 32) (call : Call) (uid : BitVec 32) (m : SessionManager Nat) :
    FromServer (makeResponse now id (call.result uid m))

/-- The entry a push carries. -/
def entryOf? (msg : Message) : Option ChatMessage := do
  let p ← msg.j.find? "push"
  let isPrivate ←
    if p.find? "event" = some (.str "public_message") then some false
    else if p.find? "event" = some (.str "private_message") then some true
    else none
  let uid ← (ClientAppContext.uidAt p "from_uid").toOption
  let name ← (ClientAppContext.stringAt p "from_name").toOption
  let text ← (ClientAppContext.stringAt p "text").toOption
  return ⟨uid, name, text, isPrivate⟩

theorem index_of_find? {j v : Json} {key : String} (h : j.find? key = some v) :
    ClientAppContext.index j key = .ok v := by
  cases j with
  | obj fields =>
    have h : fields.lookup key = some v := h
    simp [ClientAppContext.index, h]
  | _ => cases h

theorem uidAt_of_find? {j : Json} {key : String} {uid : BitVec 32} (h : j.find? key = some (uidJson uid)) :
    ClientAppContext.uidAt j key = .ok uid := by
  simp [ClientAppContext.uidAt, index_of_find? h, uidJson, bind, Except.bind]

theorem stringAt_of_find? {j : Json} {key text : String} (h : j.find? key = some (.str text)) :
    ClientAppContext.stringAt j key = .ok text := by
  simp [ClientAppContext.stringAt, index_of_find? h, bind, Except.bind, Json.getString]

theorem valueString_of_find? {j : Json} {key text : String} (h : j.find? key = some (.str text)) (dflt : String) :
    j.valueString key dflt = .ok text := by
  cases j with
  | obj fields =>
    have h : fields.lookup key = some (.str text) := h
    simp [Json.valueString, Json.valueWith, h, Json.getString]
  | _ => cases h

theorem valueInt_of_find? {j : Json} {key : String} {uid : BitVec 32} (h : j.find? key = some (uidJson uid))
    (dflt : BitVec 32) : j.valueInt key dflt = .ok uid := by
  cases j with
  | obj fields =>
    have h : fields.lookup key = some (uidJson uid) := h
    simp [Json.valueInt, Json.valueWith, h, uidJson]
  | _ => cases h

theorem posting_find? (isPrivate : Bool) (uid : BitVec 32) (name text : String) :
    (posting isPrivate uid name text).find? "event" =
        some (.str (if isPrivate then "private_message" else "public_message")) ∧
      (posting isPrivate uid name text).find? "from_uid" = some (uidJson uid) ∧
      (posting isPrivate uid name text).find? "from_name" = some (.str name) ∧
      (posting isPrivate uid name text).find? "text" = some (.str text) := by
  cases isPrivate
  · exact publicMessage_find? uid name text
  · exact privateMessage_find? uid name text

theorem entryOf?_userJoined (now : Nat) (uid : BitVec 32) (name : String) :
    entryOf? (makePush now (userJoined uid name)) = none := by
  simp [entryOf?, find?_makePush, userJoined_find?]

theorem entryOf?_userLeft (now : Nat) (uid : BitVec 32) : entryOf? (makePush now (userLeft uid)) = none := by
  simp [entryOf?, find?_makePush, userLeft_find?]

theorem entryOf?_posting (now : Nat) (isPrivate : Bool) (uid : BitVec 32) (name text : String) :
    entryOf? (makePush now (posting isPrivate uid name text)) = some ⟨uid, name, text, isPrivate⟩ := by
  obtain ⟨he, hu, hn, ht⟩ := posting_find? isPrivate uid name text
  have hu := uidAt_of_find? hu
  have hn := stringAt_of_find? hn
  have ht := stringAt_of_find? ht
  cases isPrivate <;> simp [entryOf?, find?_makePush, he, hu, hn, ht, Except.toOption]

theorem entryOf?_makeResponse (now : Nat) (id : BitVec 32) (result : Json) :
    entryOf? (makeResponse now id result) = none := by
  simp [entryOf?, makeResponse, withId, Json.find?, Json.lookup_assign]

/-! ## At the client -/

/-- What handling a message keeps of the context, but for the roster and the messages. -/
structure SameUser (s t : ClientAppContext) : Prop where
  uid : t.mMyUid = s.mMyUid
  login : t.mLoginName = s.mLoginName

theorem countUnread_messages (u : BitVec 32) (s : ClientAppContext) :
    SameUser s (ClientAppContext.countUnread u s) ∧ (ClientAppContext.countUnread u s).mMessages = s.mMessages := by
  unfold ClientAppContext.countUnread
  split <;> exact ⟨⟨rfl, rfl⟩, rfl⟩

theorem handlePush_posting (isPrivate : Bool) (uid : BitVec 32) (name text : String) (s : ClientAppContext) :
    ∃ t, s.handlePush (posting isPrivate uid name text) = .ok t ∧ SameUser s t ∧
      t.mMessages = s.mMessages ++ if uid ≠ s.mMyUid then [⟨uid, name, text, isPrivate⟩] else [] := by
  obtain ⟨he, hu, hn, ht⟩ := posting_find? isPrivate uid name text
  have hpush : s.handlePush (posting isPrivate uid name text) =
      ClientAppContext.pushMessage isPrivate (posting isPrivate uid name text) s := by
    unfold ClientAppContext.handlePush
    rw [valueString_of_find? he]
    cases isPrivate <;> rfl
  rw [hpush]
  unfold ClientAppContext.pushMessage
  simp only [valueInt_of_find? hu, stringAt_of_find? hn, stringAt_of_find? ht, bind, Except.bind, pure, Except.pure]
  by_cases h : uid = s.mMyUid
  · rw [if_neg (not_not.mpr h), if_neg (not_not.mpr h)]
    exact ⟨s, rfl, ⟨rfl, rfl⟩, (List.append_nil _).symm⟩
  · rw [if_pos h, if_pos h]
    obtain ⟨hsame, hmessages⟩ := countUnread_messages uid (ClientAppContext.addMessage ⟨uid, name, text, isPrivate⟩ s)
    cases isPrivate
    · exact ⟨_, rfl, ⟨rfl, rfl⟩, rfl⟩
    · exact ⟨_, rfl, ⟨hsame.uid, hsame.login⟩, hmessages⟩

theorem handlePush_userJoined (uid : BitVec 32) (name : String) (s : ClientAppContext) :
    s.handlePush (userJoined uid name) = .ok { s with mUsers := s.mUsers.insert uid ⟨uid, name, 0⟩ } := by
  obtain ⟨he, hu, hn⟩ := userJoined_find? uid name
  unfold ClientAppContext.handlePush ClientAppContext.addUser
  rw [valueString_of_find? he, uidAt_of_find? hu, stringAt_of_find? hn]
  rfl

theorem handlePush_userLeft (uid : BitVec 32) (s : ClientAppContext) :
    s.handlePush (userLeft uid) = .ok { s with mUsers := s.mUsers.erase uid } := by
  obtain ⟨he, hu⟩ := userLeft_find? uid
  unfold ClientAppContext.handlePush
  rw [valueString_of_find? he, uidAt_of_find? hu]
  rfl

/-- The entry of a push, if it is not from the client's own uid. -/
def shown (mMyUid : BitVec 32) (msg : Message) : List ChatMessage := (entryOf? msg).toList.filter fun m => m.uid ≠ mMyUid

theorem handle_makePush (now time : Nat) (body : Json) {s : ChatClient} {t : ClientAppContext}
    (h : s.ctx.handlePush body = .ok t) : s.handle now (makePush time body) = ({ s with ctx := t }, []) := by
  rw [ChatClient.handle_push now rfl, value_makePush]
  simp only [ChatClient.handlePush, h]

/-- A push of the server is handled: its entry is added, unless it is from the client's own uid. -/
theorem handle_fromServer_push (now : Nat) {msg : Message} (h : FromServer msg) (ht : msg.type = .push)
    (s : ChatClient) :
    ∃ ctx, s.handle now msg = ({ s with ctx := ctx }, []) ∧ SameUser s.ctx ctx ∧
      ctx.mMessages = s.ctx.mMessages ++ shown s.ctx.mMyUid msg := by
  cases h with
  | joined time uid name =>
    refine ⟨_, handle_makePush now time _ (handlePush_userJoined uid name s.ctx), ⟨rfl, rfl⟩, ?_⟩
    simp [shown, entryOf?_userJoined]
  | left time uid =>
    refine ⟨_, handle_makePush now time _ (handlePush_userLeft uid s.ctx), ⟨rfl, rfl⟩, ?_⟩
    simp [shown, entryOf?_userLeft]
  | line time isPrivate uid name text =>
    obtain ⟨ctx, hctx, hsame, hmessages⟩ := handlePush_posting isPrivate uid name text s.ctx
    refine ⟨ctx, handle_makePush now time _ hctx, hsame, hmessages.trans ?_⟩
    by_cases hu : uid = s.ctx.mMyUid <;> simp [shown, entryOf?_posting, hu]
  | answer time id call uid m => cases ht

theorem addUser_object (uid : BitVec 32) (name : String) (s : ClientAppContext) :
    ClientAppContext.addUser (.object [("uid", uidJson uid), ("name", .str name)]) s =
      .ok { s with mUsers := s.mUsers.insert uid ⟨uid, name, 0⟩ } := by
  have hu : (Json.object [("uid", uidJson uid), ("name", .str name)]).find? "uid" = some (uidJson uid) := by
    simp [Json.object, Json.find?, Json.lookup_assign]
  have hn : (Json.object [("uid", uidJson uid), ("name", .str name)]).find? "name" = some (.str name) := by
    simp [Json.object, Json.find?, Json.lookup_assign]
  unfold ClientAppContext.addUser
  rw [uidAt_of_find? hu, stringAt_of_find? hn]
  rfl

theorem addUsers_map (name : BitVec 32 → String) (ids : List (BitVec 32)) (s : ClientAppContext) :
    ∃ t, ClientAppContext.addUsers (ids.map fun id => .object [("uid", uidJson id), ("name", .str (name id))]) s =
      (t, .ok ()) ∧ SameUser s t ∧ t.mMessages = s.mMessages := by
  induction ids generalizing s with
  | nil => exact ⟨s, rfl, ⟨rfl, rfl⟩, rfl⟩
  | cons id ids ih =>
    obtain ⟨t, ht, hsame, hmessages⟩ := ih { s with mUsers := s.mUsers.insert id ⟨id, name id, 0⟩ }
    refine ⟨t, ?_, ⟨hsame.uid, hsame.login⟩, hmessages⟩
    rw [List.map_cons, ClientAppContext.addUsers, addUser_object]
    exact ht

/-- The callback of the list of clients takes the result of any call. -/
theorem handleClientList_result (uid : BitVec 32) (m : SessionManager Nat) (call : Call) (s : ClientAppContext) :
    ∃ t, s.handleClientList (call.result uid m) = (t, .ok ()) ∧ SameUser s t ∧ t.mMessages = s.mMessages := by
  cases call with
  | clientList =>
    obtain ⟨t, ht, hsame, hmessages⟩ := addUsers_map m.getName m.listIds s
    exact ⟨t, ht, hsame, hmessages⟩
  | _ =>
    refine ⟨s, ?_, ⟨rfl, rfl⟩, rfl⟩
    simp [ClientAppContext.handleClientList, Call.result, Json.object, Json.find?, Json.lookup_assign]

theorem handle_makeResponse (now time : Nat) (id : BitVec 32) (result : Json) (s : ChatClient) :
    s.handle now (makeResponse time id result) =
      match s.mResponseCallbacks.lookup id with
      | none => (s, [])
      | some (some .login) =>
        ChatClient.handleLoginResponse now result { s with mResponseCallbacks := s.mResponseCallbacks.erase id }
      | some (some .clientList) =>
        ChatClient.handleClientList result { s with mResponseCallbacks := s.mResponseCallbacks.erase id }
      | some _ => ({ s with mResponseCallbacks := s.mResponseCallbacks.erase id }, []) := by
  have hid : (makeResponse time id result).j.valueInt "id" 0#32 = .ok id := id_toMessage time id (.result result)
  have harg : Client.responseArgument (makeResponse time id result) = .ok result :=
    Client.responseArgument_toMessage time id (.result result)
  have ht : (makeResponse time id result).type = .response := rfl
  unfold ChatClient.handle Client.handleMessage
  simp only [ht, if_true, hid, harg, Except.map]
  cases s.mResponseCallbacks.lookup id with
  | none => rfl
  | some entry =>
    cases entry with
    | none => rfl
    | some callback => cases callback <;> rfl

/-- A response whose callback is not that of a login leaves the uid and the messages. -/
theorem handle_fromServer_answer (now time : Nat) (id : BitVec 32) (call : Call) (uid : BitVec 32)
    (m : SessionManager Nat) {s : ChatClient} (h : s.mResponseCallbacks.lookup id ≠ some (some .login)) :
    ∃ ctx callbacks, s.handle now (makeResponse time id (call.result uid m)) =
        ({ s with ctx := ctx, mResponseCallbacks := callbacks }, []) ∧
      SameUser s.ctx ctx ∧ ctx.mMessages = s.ctx.mMessages ∧
      (callbacks = s.mResponseCallbacks ∨ callbacks = s.mResponseCallbacks.erase id) := by
  rw [handle_makeResponse]
  cases hl : s.mResponseCallbacks.lookup id with
  | none => exact ⟨s.ctx, s.mResponseCallbacks, rfl, ⟨rfl, rfl⟩, rfl, .inl rfl⟩
  | some entry =>
    cases entry with
    | none => exact ⟨s.ctx, _, rfl, ⟨rfl, rfl⟩, rfl, .inr rfl⟩
    | some callback =>
      cases callback with
      | login => exact absurd hl h
      | nothing => exact ⟨s.ctx, _, rfl, ⟨rfl, rfl⟩, rfl, .inr rfl⟩
      | clientList =>
        obtain ⟨ctx, hctx, hsame, hmessages⟩ := handleClientList_result uid m call s.ctx
        refine ⟨ctx, _, ?_, hsame, hmessages, .inr rfl⟩
        simp only [ChatClient.handleClientList, hctx]

/-- A callback that is there after a response was there before it. -/
theorem lookup_of_handled {callbacks handled : ResponseCallbacks Callback} {id i : BitVec 32} {entry : Option Callback}
    (h : handled = callbacks ∨ handled = callbacks.erase id) (hl : handled.lookup i = some entry) :
    callbacks.lookup i = some entry := by
  rcases h with rfl | rfl
  · exact hl
  · by_cases hi : i = id
    · subst hi
      simp at hl
    · rwa [AList.lookup_erase_ne hi] at hl

/-- A response to the login gives the client its uid, and it asks for the list of clients. -/
theorem handle_login (now time : Nat) (id : BitVec 32) (name : String) (uid : BitVec 32) (m : SessionManager Nat)
    {s : ChatClient} (h : s.mResponseCallbacks.lookup id = some (some .login)) :
    s.handle now (makeResponse time id (Call.result uid m (.login name))) =
      ChatClient.requestAsync now ClientAppContext.clientListRequest .clientList { s with
        ctx := { s.ctx with mMyUid := uid, mMyName := name }
        mResponseCallbacks := s.mResponseCallbacks.erase id } := by
  have hm : (Call.result uid m (.login name)).contains "message" = false := by
    simp [Call.result, Json.object, Json.contains, Json.find?, Json.lookup_assign]
  have hu : (Call.result uid m (.login name)).find? "uid" = some (uidJson uid) := by
    simp [Call.result, Json.object, Json.find?, Json.lookup_assign]
  have hn : (Call.result uid m (.login name)).find? "name" = some (.str name) := by
    simp [Call.result, Json.object, Json.find?, Json.lookup_assign]
  rw [handle_makeResponse, h]
  simp only [ChatClient.handleLoginResponse, ClientAppContext.handleLoginResponse, hm, uidAt_of_find? hu,
    stringAt_of_find? hn, Bool.false_eq_true, if_false]

end CryptoChat.Net
