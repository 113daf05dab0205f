/-
  CryptoChat.Net.ClientAppContext — what the chat client keeps and shows: its uid, the users
  it knows and the messages, and what responses, pushes and its own sends do to them
  (`ClientAppContext`).

  The functions here are those of the class without its `Client`: where one makes a
  request, it returns what it asks for. On a const object `operator[]` with a key that is
  not there is undefined; the model reads null there.
-/

import CryptoChat.Net.Json

namespace CryptoChat.Net

structure User where
  uid : BitVec 32
  name : String
  unreadCount : Int
  deriving DecidableEq

structure ChatMessage where
  uid : BitVec 32
  fromName : String
  text : String
  isPrivate : Bool
  deriving DecidableEq

structure ClientAppContext where
  mMyUid : BitVec 32
  mMyName : String
  mLoginName : String
  mUsers : AList fun _ : BitVec 32 => User
  mMessages : List ChatMessage

namespace ClientAppContext

/-! ## Reading -/

def typeError305 (j : Json) : Exn :=
  .json ("[json.exception.type_error.305] cannot use operator[] with a string argument with " ++ j.typeName)

/-- `operator[]`, on a const value. -/
def index (j : Json) (key : String) : Except Exn Json :=
  match j with
  | .obj fields => .ok ((fields.lookup key).getD .null)
  | j => .error (typeError305 j)

/-- `static_cast<uint32_t>` of a double, as the x86-64 instruction has it out of range. -/
def truncateUnsigned (x : Rat) : BitVec 32 :=
  let n := x.num.tdiv x.den
  if -9223372036854775808 ≤ n ∧ n < 9223372036854775808 then BitVec.ofInt 32 n else 0#32

/-- `get<uint32_t>()`. -/
def getUint32 : Json → Except Exn (BitVec 32)
  | .int n => .ok (BitVec.ofInt 32 n.val)
  | .float x => .ok (truncateUnsigned x)
  | .bool b => .ok (BitVec.ofBool b |>.setWidth 32)
  | j => .error (Json.typeError302 "number" j)

@[simp] theorem getUint32_uint32 (x : BitVec 32) : getUint32 (.uint32 x) = .ok x := by
  simp [getUint32, Json.uint32]

def uidAt (j : Json) (key : String) : Except Exn (BitVec 32) := index j key >>= getUint32

def stringAt (j : Json) (key : String) : Except Exn String := index j key >>= Json.getString

/-- What a range-based `for` goes over. -/
def items : Json → List Json
  | .null => []
  | .arr items => items
  | .obj fields => fields.map fun f => f.2
  | j => [j]

/-! ## Responses and pushes -/

def init (mLoginName : String) : ClientAppContext := ⟨0#32, "", mLoginName, ∅, []⟩

/-- `disconnect`, apart from the Client. -/
def clear (s : ClientAppContext) : ClientAppContext :=
  { s with mUsers := ∅, mMessages := [], mMyUid := 0#32, mMyName := "" }

/-- What `handleLoginResponse` does after that: it disconnects, asks for the list of clients, or
    throws. -/
inductive LoggedIn where
  | disconnect
  | clientList
  | threw (e : Exn)
  deriving DecidableEq

/-- `onError` is whether that event has a handler, which is given the text. -/
def handleLoginResponse (onError : Bool) (response : Json) (s : ClientAppContext) : ClientAppContext × LoggedIn :=
  if response.contains "message" then
    match if onError then response.valueString "message" "Unknown" else .ok "" with
    | .error e => (s, .threw e)
    | .ok _ => (s, .disconnect)
  else
    match uidAt response "uid" with
    | .error e => (s, .threw e)
    | .ok uid =>
      match stringAt response "name" with
      | .error e => ({ s with mMyUid := uid }, .threw e)
      | .ok name => ({ s with mMyUid := uid, mMyName := name }, .clientList)

/-- `mUsers[j["uid"]] = {j["uid"], j["name"]}`. -/
def addUser (j : Json) (s : ClientAppContext) : Except Exn ClientAppContext := do
  let uid ← uidAt j "uid"
  let name ← stringAt j "name"
  return { s with mUsers := s.mUsers.insert uid ⟨uid, name, 0⟩ }

def addUsers : List Json → ClientAppContext → ClientAppContext × Except Exn Unit
  | [], s => (s, .ok ())
  | c :: rest, s =>
    match addUser c s with
    | .error e => (s, .error e)
    | .ok s => addUsers rest s

/-- The callback of the list of clients. -/
def handleClientList (list : Json) (s : ClientAppContext) : ClientAppContext × Except Exn Unit :=
  match list.find? "clients" with
  | none => (s, .ok ())
  | some clients => addUsers (items clients) s

def addMessage (m : ChatMessage) (s : ClientAppContext) : ClientAppContext :=
  { s with mMessages := s.mMessages ++ [m] }

def countUnread (uid : BitVec 32) (s : ClientAppContext) : ClientAppContext :=
  match s.mUsers.lookup uid with
  | some user => { s with mUsers := s.mUsers.insert uid { user with unreadCount := user.unreadCount + 1 } }
  | none => s

/-- The entry of a message from somebody else. -/
def pushMessage (isPrivate : Bool) (p : Json) (s : ClientAppContext) : Except Exn ClientAppContext := do
  let fromUid ← p.valueInt "from_uid" 0#32
  if fromUid ≠ s.mMyUid then
    let fromName ← stringAt p "from_name"
    let text ← stringAt p "text"
    let s := addMessage ⟨fromUid, fromName, text, isPrivate⟩ s
    return if isPrivate then countUnread fromUid s else s
  else return s

def handlePush (p : Json) (s : ClientAppContext) : Except Exn ClientAppContext := do
  let evt ← p.valueString "event" ""
  if evt = "user_joined" then addUser p s
  else if evt = "user_left" then
    let uid ← uidAt p "uid"
    return { s with mUsers := s.mUsers.erase uid }
  else if evt = "public_message" then pushMessage false p s
  else if evt = "private_message" then pushMessage true p s
  else return s

variable {p j : Json} {s t : ClientAppContext}

theorem addUser_cases (h : addUser j s = .ok t) : ∃ uid name, uidAt j "uid" = .ok uid ∧
    stringAt j "name" = .ok name ∧ t = { s with mUsers := s.mUsers.insert uid ⟨uid, name, 0⟩ } := by
  unfold addUser at h
  cases hu : uidAt j "uid" with
  | error e => simp [hu, bind, Except.bind] at h
  | ok uid =>
    cases hn : stringAt j "name" with
    | error e => simp [hu, hn, bind, Except.bind] at h
    | ok name =>
      simp only [hu, hn, bind, Except.bind, pure, Except.pure, Except.ok.injEq] at h
      exact ⟨uid, name, rfl, rfl, h.symm⟩

theorem pushMessage_cases {isPrivate : Bool} (h : pushMessage isPrivate p s = .ok t) :
    ∃ fromUid, p.valueInt "from_uid" 0#32 = .ok fromUid ∧ ((fromUid = s.mMyUid ∧ t = s) ∨
      (fromUid ≠ s.mMyUid ∧ ∃ fromName text, stringAt p "from_name" = .ok fromName ∧ stringAt p "text" = .ok text ∧
        t = if isPrivate then countUnread fromUid (addMessage ⟨fromUid, fromName, text, isPrivate⟩ s)
          else addMessage ⟨fromUid, fromName, text, isPrivate⟩ s)) := by
  unfold pushMessage at h
  cases hf : p.valueInt "from_uid" 0#32 with
  | error e => simp [hf, bind, Except.bind] at h
  | ok fromUid =>
    simp only [hf, bind, Except.bind, pure, Except.pure] at h
    refine ⟨fromUid, rfl, ?_⟩
    split at h
    · rename_i hne
      cases hn : stringAt p "from_name" with
      | error e => simp [hn] at h
      | ok fromName =>
        cases ht : stringAt p "text" with
        | error e => simp [hn, ht] at h
        | ok text =>
          simp only [hn, ht, Except.ok.injEq] at h
          exact .inr ⟨hne, fromName, text, rfl, rfl, h.symm⟩
    · rename_i heq
      cases h
      exact .inl ⟨not_not.mp heq, rfl⟩

/-- All that a push can do. -/
theorem handlePush_cases (h : s.handlePush p = .ok t) : ∃ evt, p.valueString "event" "" = .ok evt ∧
    ((evt = "user_joined" ∧ addUser p s = .ok t) ∨
      (evt = "user_left" ∧ ∃ uid, uidAt p "uid" = .ok uid ∧ t = { s with mUsers := s.mUsers.erase uid }) ∨
      (evt = "public_message" ∧ pushMessage false p s = .ok t) ∨
      (evt = "private_message" ∧ pushMessage true p s = .ok t) ∨
      (evt ≠ "user_joined" ∧ evt ≠ "user_left" ∧ evt ≠ "public_message" ∧ evt ≠ "private_message" ∧ t = s)) := by
  unfold handlePush at h
  cases he : p.valueString "event" "" with
  | error e => simp [he, bind, Except.bind] at h
  | ok evt =>
    simp only [he, bind, Except.bind, pure, Except.pure] at h
    refine ⟨evt, rfl, ?_⟩
    by_cases h1 : evt = "user_joined"
    · rw [if_pos h1] at h
      exact .inl ⟨h1, h⟩
    rw [if_neg h1] at h
    by_cases h2 : evt = "user_left"
    · rw [if_pos h2] at h
      cases hu : uidAt p "uid" with
      | error e => simp [hu] at h
      | ok uid =>
        simp only [hu, Except.ok.injEq] at h
        exact .inr (.inl ⟨h2, uid, rfl, h.symm⟩)
    rw [if_neg h2] at h
    by_cases h3 : evt = "public_message"
    · rw [if_pos h3] at h
      exact .inr (.inr (.inl ⟨h3, h⟩))
    rw [if_neg h3] at h
    by_cases h4 : evt = "private_message"
    · rw [if_pos h4] at h
      exact .inr (.inr (.inr (.inl ⟨h4, h⟩)))
    rw [if_neg h4] at h
    cases h
    exact .inr (.inr (.inr (.inr ⟨h1, h2, h3, h4, rfl⟩)))

/-! ## Sends -/

/-- What is asked of the server. -/
structure Asked where
  method : String
  params : Json
  deriving DecidableEq

/-- The local echo. -/
def echo (isPrivate : Bool) (text : String) (s : ClientAppContext) : ClientAppContext :=
  addMessage ⟨s.mMyUid, s.mMyName, text, isPrivate⟩ s

def sendPublic (text : String) (s : ClientAppContext) : ClientAppContext × Option Asked :=
  if text = "" then (s, none) else (echo false text s, some ⟨"send_public", .object [("text", .str text)]⟩)

def sendPrivate (toUid : BitVec 32) (text : String) (s : ClientAppContext) : ClientAppContext × Option Asked :=
  if text = "" then (s, none)
  else (echo true text s, some ⟨"send_private", .object [("to_uid", .uint32 toUid), ("text", .str text)]⟩)

/-- The request of `onConnect`. -/
def loginRequest (s : ClientAppContext) : Asked := ⟨"login", .object [("name", .str s.mLoginName)]⟩

/-- `{}` as a json argument is null. -/
def clientListRequest : Asked := ⟨"client_list", .null⟩

end ClientAppContext

end CryptoChat.Net
