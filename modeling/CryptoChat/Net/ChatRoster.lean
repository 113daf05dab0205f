/-
  CryptoChat.Net.ChatRoster — the rosters of the clients of one server (`mUsers`), against
  the sessions it has registered and the names these logged in with.

  What a client has on its roster is what the messages it received have put there
  (`Follower.shows`): a list of clients does so through its callback, which waits under the id
  of the request until the answer comes (`Follower.waiting`). What was sent to an open session
  replays to a part of the registry, and from its list of clients on to all that logged in
  (`Rosters.sound`, `Rosters.complete`).

  Proved: with fewer than 2^32 sessions, and no client sending a line once it made 2^32 - 1
  requests, once nothing is in flight every roster has the open sessions, each under the name
  it logged in with (`rosters_agree`).
-/

import CryptoChat.Net.Chat
import CryptoChat.Lib.Feed

namespace CryptoChat.Net.Chat

open CryptoChat.Lib Message ServerAppContext ServerRun

/-! ## What messages change -/

abbrev Change := Feed.Change (BitVec 32) String

/-- What a list of clients and a push that somebody joined have in common. -/
def entry (j : Json) : Option Change := do
  let uid ← (ClientAppContext.uidAt j "uid").toOption
  let name ← (ClientAppContext.stringAt j "name").toOption
  return .put uid name

/-- What a message of the server changes of a roster, if its callback is still there. -/
def changes (msg : Message) : List Change :=
  match msg.j.find? "push" with
  | some p =>
    if p.find? "event" = some (.str "user_joined") then (entry p).toList
    else if p.find? "event" = some (.str "user_left") then
      (ClientAppContext.uidAt p "uid").toOption.toList.map .drop
    else []
  | none =>
    match (msg.j.find? "result").bind (Json.find? · "clients") with
    | some clients => (ClientAppContext.items clients).filterMap entry
    | none => []

theorem changes_userJoined (now : Nat) (uid : BitVec 32) (name : String) :
    changes (makePush now (userJoined uid name)) = [.put uid name] := by
  obtain ⟨he, hu, hn⟩ := userJoined_find? uid name
  simp [changes, find?_makePush, he, entry, uidAt_of_find? hu, stringAt_of_find? hn, Except.toOption]

theorem changes_userLeft (now : Nat) (uid : BitVec 32) : changes (makePush now (userLeft uid)) = [.drop uid] := by
  obtain ⟨he, hu⟩ := userLeft_find? uid
  simp [changes, find?_makePush, he, uidAt_of_find? hu, Except.toOption]

theorem changes_posting (now : Nat) (isPrivate : Bool) (uid : BitVec 32) (name text : String) :
    changes (makePush now (posting isPrivate uid name text)) = [] := by
  obtain ⟨he, -, -, -⟩ := posting_find? isPrivate uid name text
  cases isPrivate <;> simp [changes, find?_makePush, he]

theorem makeResponse_find? (now : Nat) (id : BitVec 32) (result : Json) :
    (makeResponse now id result).j.find? "push" = none ∧ (makeResponse now id result).j.find? "result" = some result := by
  simp [makeResponse, withId, Json.find?, Json.lookup_assign]

theorem entry_object (uid : BitVec 32) (name : String) :
    entry (.object [("uid", uidJson uid), ("name", .str name)]) = some (.put uid name) := by
  have hu : (Json.object [("uid", uidJson uid), ("name", .str name)]).find? "uid" = some (uidJson uid) := by
    simp [Json.object, Json.find?, Json.lookup_assign]
  have hn : (Json.object [("uid", uidJson uid), ("name", .str name)]).find? "name" = some (.str name) := by
    simp [Json.object, Json.find?, Json.lookup_assign]
  simp [entry, uidAt_of_find? hu, stringAt_of_find? hn, Except.toOption]

/-- The answer to a call changes a roster only if the call is for the list of clients. -/
theorem changes_answer (now : Nat) (id : BitVec 32) (call : Call) (uid : BitVec 32) (m : SessionManager Nat) :
    changes (makeResponse now id (call.result uid m)) =
      if call = .clientList then m.listIds.map fun u => .put u (m.getName u) else [] := by
  obtain ⟨hp, hr⟩ := makeResponse_find? now id (call.result uid m)
  unfold changes
  rw [hp, hr, Option.bind_some]
  cases call with
  | clientList =>
    have hc : (Call.result uid m .clientList).find? "clients" = some (.arr (m.listIds.map fun id =>
        .object [("uid", uidJson id), ("name", .str (m.getName id))])) := by
      simp [Call.result, Json.object, Json.find?, Json.lookup_assign]
    rw [hc, if_pos rfl]
    simp [ClientAppContext.items, List.filterMap_map, entry_object]
  | _ => simp [Call.result, Json.object, Json.find?, Json.lookup_assign]

/-! ## At the client -/

/-- The roster has just the uids of `f`, each under its name. -/
def Shows (users : AList fun _ : BitVec 32 => User) (f : BitVec 32 → Option String) : Prop :=
  ∀ u, (users.lookup u).map (fun user => (user.uid, user.name)) = (f u).map fun name => (u, name)

variable {users : AList fun _ : BitVec 32 => User} {f : BitVec 32 → Option String}

theorem Shows.insert (h : Shows users f) (uid : BitVec 32) (name : String) :
    Shows (users.insert uid ⟨uid, name, 0⟩) (Function.update f uid (some name)) := by
  intro u
  by_cases hu : u = uid
  · subst hu
    simp
  · rw [AList.lookup_insert_ne hu, Function.update_of_ne hu]
    exact h u

theorem Shows.erase (h : Shows users f) (uid : BitVec 32) : Shows (users.erase uid) (Function.update f uid none) := by
  intro u
  by_cases hu : u = uid
  · subst hu
    simp
  · rw [AList.lookup_erase_ne hu, Function.update_of_ne hu]
    exact h u

theorem Shows.countUnread {s : ClientAppContext} (h : Shows s.mUsers f) (uid : BitVec 32) :
    Shows (ClientAppContext.countUnread uid s).mUsers f := by
  unfold ClientAppContext.countUnread
  cases hl : s.mUsers.lookup uid with
  | none => exact h
  | some user =>
    intro u
    by_cases hu : u = uid
    · subst hu
      rw [← h u, hl]
      simp
    · simp only [AList.lookup_insert_ne hu]
      exact h u

/-- A line leaves the roster. -/
theorem Shows.pushMessage {isPrivate : Bool} {p : Json} {s t : ClientAppContext} (h : Shows s.mUsers f)
    (hp : ClientAppContext.pushMessage isPrivate p s = .ok t) : Shows t.mUsers f := by
  obtain ⟨fromUid, -, ⟨-, rfl⟩ | ⟨-, fromName, text, -, -, rfl⟩⟩ := ClientAppContext.pushMessage_cases hp
  · exact h
  · cases isPrivate
    · exact h
    · exact Shows.countUnread (s := ClientAppContext.addMessage _ s) h fromUid

theorem handlePush_posting_users (isPrivate : Bool) (uid : BitVec 32) (name text : String) {s t : ClientAppContext}
    (h : Shows s.mUsers f) (ht : s.handlePush (posting isPrivate uid name text) = .ok t) : Shows t.mUsers f := by
  obtain ⟨he, -, -, -⟩ := posting_find? isPrivate uid name text
  have hpush : s.handlePush (posting isPrivate uid name text) =
      ClientAppContext.pushMessage isPrivate (posting isPrivate uid name text) s := by
    unfold ClientAppContext.handlePush
    rw [valueString_of_find? he]
    cases isPrivate <;> rfl
  exact h.pushMessage (hpush.symm.trans ht)

/-- A push of the server changes the roster as it says. -/
theorem handle_push_users (now : Nat) {msg : Message} (hfrom : FromServer msg) (ht : msg.type = .push) {s : ChatClient}
    (h : Shows s.ctx.mUsers f) :
    ∃ ctx, s.handle now msg = ({ s with ctx := ctx }, []) ∧ SameUser s.ctx ctx ∧
      Shows ctx.mUsers (Feed.replay (changes msg) f) := by
  cases hfrom with
  | joined time uid name =>
    refine ⟨_, handle_makePush now time _ (handlePush_userJoined uid name s.ctx), ⟨rfl, rfl⟩, ?_⟩
    rw [changes_userJoined, Feed.replay_put]
    exact h.insert uid name
  | left time uid =>
    refine ⟨_, handle_makePush now time _ (handlePush_userLeft uid s.ctx), ⟨rfl, rfl⟩, ?_⟩
    rw [changes_userLeft, Feed.replay_drop]
    exact h.erase uid
  | line time isPrivate uid name text =>
    obtain ⟨ctx, hctx, hsame, -⟩ := handlePush_posting isPrivate uid name text s.ctx
    refine ⟨ctx, handle_makePush now time _ hctx, hsame, ?_⟩
    rw [changes_posting, Feed.replay_nil]
    exact handlePush_posting_users isPrivate uid name text h hctx
  | answer time id call uid m => cases ht

theorem addUsers_users (name : BitVec 32 → String) (ids : List (BitVec 32)) {s : ClientAppContext}
    (h : Shows s.mUsers f) :
    Shows (ClientAppContext.addUsers
        (ids.map fun id => .object [("uid", uidJson id), ("name", .str (name id))]) s).1.mUsers
      (Feed.replay (ids.map fun id => .put id (name id)) f) := by
  induction ids generalizing s f with
  | nil => exact h
  | cons id ids ih =>
    rw [List.map_cons, List.map_cons, ClientAppContext.addUsers, addUser_object, Feed.replay_cons]
    exact ih (h.insert id (name id))

/-- The callback a client makes its request for a call with. -/
def callbackOf : Call → Callback
  | .login _ => .login
  | .clientList => .clientList
  | _ => .nothing

/-- An answer whose callback is still there changes the roster as it says, unless it is to a login. -/
theorem handle_answer_users (now time : Nat) (id : BitVec 32) {call : Call} (hlogin : ∀ name, call ≠ .login name)
    (uid : BitVec 32) (m : SessionManager Nat) {s : ChatClient}
    (hl : s.mResponseCallbacks.lookup id = some (some (callbackOf call))) (h : Shows s.ctx.mUsers f) :
    ∃ ctx, s.handle now (makeResponse time id (call.result uid m)) =
        ({ s with ctx := ctx, mResponseCallbacks := s.mResponseCallbacks.erase id }, []) ∧ SameUser s.ctx ctx ∧
      Shows ctx.mUsers (Feed.replay (changes (makeResponse time id (call.result uid m))) f) := by
  rw [handle_makeResponse, hl, changes_answer]
  cases call with
  | login name => exact absurd rfl (hlogin name)
  | clientList =>
    obtain ⟨t, ht, hsame, -⟩ := addUsers_map m.getName m.listIds s.ctx
    refine ⟨t, ?_, hsame, ?_⟩
    · have hlist : s.ctx.handleClientList (Call.result uid m .clientList) = (t, .ok ()) := ht
      simp only [callbackOf, ChatClient.handleClientList, hlist]
    · have hs := addUsers_users m.getName m.listIds h
      rwa [ht] at hs
  | _ => exact ⟨s.ctx, rfl, ⟨rfl, rfl⟩, h⟩

/-! ## The requests of a client and their answers -/

variable {sent : List (Nat × Message)} {posted : List Posted} {k : Nat} {c : Connection} {m : SessionManager Nat}
  {s s' : St} {c' : Connection}

/-- The id of a client's request, which are numbered from 0 here. -/
def requestId (i : Nat) : BitVec 32 := BitVec.ofNat 32 (i + 1)

theorem requestId_inj {i n : Nat} (hi : i < 2 ^ 32) (hn : n < 2 ^ 32) (h : requestId i = requestId n) : i = n :=
  ServerRun.sessionUid_inj hi hn h

def callAt (asked : List Message) (i : Nat) : Option Call := asked[i]?.bind call?

theorem call?_of_read {request : Message} {id : BitVec 32} {call : Call}
    (h : ServerAppContext.read request = .ok (id, .inr call)) : call? request = some call := by simp [call?, h]

theorem callAt_lt {asked : List Message} {i : Nat} {call : Call} (h : callAt asked i = some call) :
    i < asked.length := by
  obtain ⟨request, hr, -⟩ := Option.bind_eq_some_iff.mp h
  exact (List.getElem?_eq_some_iff.mp hr).1

theorem callAt_append {asked : List Message} {i : Nat} {call : Call} (h : callAt asked i = some call)
    (more : List Message) : callAt (asked ++ more) i = some call := by
  obtain ⟨request, hr, hc⟩ := Option.bind_eq_some_iff.mp h
  rw [callAt, ListAt.getElem?_append_some hr, Option.bind_some, hc]

theorem callAt_snoc {asked : List Message} {i : Nat} {call : Call} {request : Message}
    (h : callAt (asked ++ [request]) i = some call) :
    callAt asked i = some call ∨ i = asked.length ∧ call? request = some call := by
  obtain ⟨r, hr, hc⟩ := Option.bind_eq_some_iff.mp h
  rcases ListAt.getElem?_snoc hr with hr | ⟨hi, rfl⟩
  · exact .inl (by rw [callAt, hr, Option.bind_some, hc])
  · exact .inr ⟨hi, hc⟩

def isAnswer (msg : Message) : Bool := msg.type = .response

/-- How many answers the client of a session received. -/
def answered (sent : List (Nat × Message)) (k : Nat) (c : Connection) : Nat :=
  ((inbox sent k).take c.received).countP isAnswer

/-- The changes that were sent to a session. -/
def feed (sent : List (Nat × Message)) (k : Nat) : BitVec 32 → Option String :=
  Feed.replay ((inbox sent k).flatMap changes) fun _ => none

/-- A client's requests have ids of their own and the first is its login; the answers come in the
    order of the requests, and the callback of each request waits until then. -/
structure Follower (sent : List (Nat × Message)) (k : Nat) (c : Connection) : Prop where
  requests : ∀ (i : Nat) request, c.asked[i]? = some request → ∃ call,
    ServerAppContext.read request = .ok (requestId i, .inr call) ∧
      ((i = 0 ∧ call = .login c.client.ctx.mLoginName) ∨ (0 < i ∧ ∀ name, call ≠ .login name))
  /-- One request is kept for the list of clients. -/
  asked : c.asked.length + (if c.client.ctx.mMyUid = 0#32 then 1 else 0) ≤ 2 ^ 32
  taken : ((inbox sent k).filter isAnswer).length = c.taken
  answers : ∀ (i : Nat) msg, ((inbox sent k).filter isAnswer)[i]? = some msg → ∃ call time, ∃ m : SessionManager Nat,
    callAt c.asked i = some call ∧ msg = makeResponse time (requestId i) (call.result c.uid m)
  waiting : ∀ i call, answered sent k c ≤ i → callAt c.asked i = some call →
    c.client.mResponseCallbacks.lookup (requestId i) = some (some (callbackOf call))
  listing : c.client.ctx.mMyUid ≠ 0#32 → ∃ request ∈ c.asked, call? request = some .clientList
  shows : Shows c.client.ctx.mUsers (Feed.replay (((inbox sent k).take c.received).flatMap changes) fun _ => none)

/-- The client makes a request, which changes nothing of its roster. -/
theorem Follower.ask (h : Follower sent k c) (hnext : c.client.mNextRequestId = requestId c.asked.length)
    {request : Message} {call : Call} (hread : ServerAppContext.read request = .ok (c.client.mNextRequestId, .inr call))
    (hfirst : (c.asked.length = 0 ∧ call = .login c.client.ctx.mLoginName) ∨
      (0 < c.asked.length ∧ ∀ name, call ≠ .login name))
    (ctx : ClientAppContext) (husers : ctx.mUsers = c.client.ctx.mUsers)
    (hname : ctx.mLoginName = c.client.ctx.mLoginName)
    (hasked : c.asked.length + 1 + (if ctx.mMyUid = 0#32 then 1 else 0) ≤ 2 ^ 32)
    (hlisting : ctx.mMyUid ≠ 0#32 → call = .clientList ∨ c.client.ctx.mMyUid ≠ 0#32) :
    Follower sent k { c with
      client := { c.client with
        ctx := ctx
        mNextRequestId := c.client.mNextRequestId + 1
        mResponseCallbacks := c.client.mResponseCallbacks.insert c.client.mNextRequestId (some (callbackOf call)) }
      asked := c.asked ++ [request] } := by
  refine { h with requests := ?_, asked := ?_, answers := ?_, waiting := ?_, listing := ?_, shows := ?_ }
  · intro i r hr
    rcases ListAt.getElem?_snoc hr with hr | ⟨rfl, rfl⟩
    · rw [hname]
      exact h.requests i r hr
    · rw [hname]
      exact ⟨call, hnext ▸ hread, hfirst⟩
  · rwa [List.length_append, List.length_singleton]
  · intro i msg hm
    obtain ⟨call, time, m, hc, hmsg⟩ := h.answers i msg hm
    exact ⟨call, time, m, callAt_append hc _, hmsg⟩
  · intro i other hi hc
    rcases callAt_snoc hc with hc | ⟨rfl, hlast⟩
    · have hlt := callAt_lt hc
      have hne : requestId i ≠ c.client.mNextRequestId := by
        rw [hnext]
        intro he
        exact Nat.ne_of_lt hlt (requestId_inj (by omega) (by omega) he)
      rw [AList.lookup_insert_ne hne]
      exact h.waiting i other hi hc
    · obtain rfl := Option.some.inj ((call?_of_read hread).symm.trans hlast)
      rw [← hnext, AList.lookup_insert]
  · intro hu
    rcases hlisting hu with rfl | hu
    · exact ⟨request, List.mem_append_right _ (List.mem_singleton_self _), call?_of_read hread⟩
    · obtain ⟨r, hr, hc⟩ := h.listing hu
      exact ⟨r, List.mem_append_left _ hr, hc⟩
  · rw [husers]
    exact h.shows

/-- The client is through with a message. -/
theorem Follower.receive (h : Follower sent k c) {msg : Message} {rest : List Message}
    (hrest : (inbox sent k).drop c.received = msg :: rest) {ctx : ClientAppContext} (hsame : SameUser c.client.ctx ctx)
    (hshows : Shows ctx.mUsers
      (Feed.replay (changes msg) (Feed.replay (((inbox sent k).take c.received).flatMap changes) fun _ => none)))
    (callbacks : ResponseCallbacks Callback)
    (hwaiting : ∀ i call, answered sent k c + (if isAnswer msg then 1 else 0) ≤ i → callAt c.asked i = some call →
      callbacks.lookup (requestId i) = some (some (callbackOf call))) :
    Follower sent k { c with
      received := c.received + 1
      client := { c.client with ctx := ctx, mResponseCallbacks := callbacks } } := by
  obtain ⟨hget, -⟩ := ListAt.drop_eq_cons hrest
  have htake : (inbox sent k).take (c.received + 1) = (inbox sent k).take c.received ++ [msg] := by
    rw [List.take_add_one, hget, Option.toList_some]
  refine { h with requests := ?_, asked := ?_, waiting := ?_, listing := ?_, shows := ?_ }
  · rw [hsame.login]
    exact h.requests
  · rw [hsame.uid]
    exact h.asked
  · intro i call hi hc
    refine hwaiting i call ?_ hc
    rw [answered, htake, List.countP_append, List.countP_singleton] at hi
    exact hi
  · rw [hsame.uid]
    exact h.listing
  · rw [htake, List.flatMap_append, Feed.replay_append, List.flatMap_singleton]
    exact hshows

/-! ## A client's steps -/

theorem Follower.asked_lt (h : Follower sent k c) {i : Nat} {call : Call} (hc : callAt c.asked i = some call) :
    i < 2 ^ 32 := by
  have hlt := callAt_lt hc
  have hasked := h.asked
  omega

theorem follower_connected (h : Follower sent k c) (hconn : Conn sent posted k c) (hcon : c.connected = false)
    (now : Nat) :
    Follower sent k { c with
      connected := true
      client := (c.client.onConnect now).1
      asked := c.asked ++ (c.client.onConnect now).2 } := by
  have hempty : c.asked = [] := (hconn.fresh hcon).1
  have hread := read_login now c.client.mNextRequestId c.client.ctx
  have huid : c.client.ctx.mMyUid = 0#32 := by
    cases hconn.login with
    | asked hu => exact hu
    | answered hu => exact hu
    | received _ ht =>
      have htaken := hconn.taken
      rw [hempty, List.length_nil] at htaken
      omega
  rw [ChatClient.onConnect, ChatClient.requestAsync, if_pos hconn.mIsRunning]
  have hask := h.ask hconn.next_id hread (.inl ⟨by rw [hempty]; rfl, rfl⟩) c.client.ctx rfl rfl
    (by rw [hempty, huid]; decide) (fun hu => absurd huid hu)
  exact { hask with }

theorem follower_say (h : Follower sent k c) (hconn : Conn sent posted k c) (hcon : c.connected = true) {line : Line}
    (ht : line.text ≠ "") (now : Nat) (hb : c.asked.length + 1 < 2 ^ 32) :
    Follower sent k { c with
      client := (c.client.say now line).1
      asked := c.asked ++ (c.client.say now line).2
      said := c.said ++ [line] } := by
  obtain ⟨request, hread, hsay⟩ := ChatClient.say_eq now ht hconn.mClient hconn.mIsRunning
  obtain ⟨first, name, hfirst, -⟩ := hconn.first hcon
  have hpos : 0 < c.asked.length := (List.getElem?_eq_some_iff.mp hfirst).1
  have hcallback : callbackOf line.call = .nothing := by
    obtain ⟨toUid, text⟩ := line
    cases toUid <;> rfl
  have hnot (name : String) : line.call ≠ .login name := by
    obtain ⟨toUid, text⟩ := line
    cases toUid <;> nofun
  rw [hsay]
  have hask := h.ask hconn.next_id hread (.inr ⟨hpos, hnot⟩)
    (ClientAppContext.echo line.isPrivate line.text c.client.ctx) rfl rfl (by split <;> omega) .inr
  rw [hcallback] at hask
  exact { hask with }

/-- The answer a client is to receive next is that to its first request not answered. -/
theorem Follower.next_answer (h : Follower sent k c) {msg : Message} (hget : (inbox sent k)[c.received]? = some msg)
    (hmsg : isAnswer msg = true) : ∃ call time, ∃ m : SessionManager Nat,
      callAt c.asked (answered sent k c) = some call ∧
        msg = makeResponse time (requestId (answered sent k c)) (call.result c.uid m) :=
  h.answers _ msg (ListAt.getElem?_filter hget hmsg)

theorem follower_deliver (h : Follower sent k c) (hconn : Conn sent posted k c) (hne : c.uid ≠ 0#32) {msg : Message}
    (hmsg : ((inbox sent k).drop c.received).head? = some msg) (now : Nat) :
    Follower sent k { c with
      received := c.received + 1
      client := (c.client.handle now msg).1
      asked := c.asked ++ (c.client.handle now msg).2 } := by
  have hrest := ListAt.drop_of_head? hmsg
  have hget := (ListAt.drop_eq_cons hrest).1
  have hfrom := hconn.messages msg (List.mem_of_getElem? hget)
  by_cases hpush : msg.type = .push
  · obtain ⟨ctx, hhandle, hsame, hshows⟩ := handle_push_users now hfrom hpush h.shows
    have hnot : isAnswer msg = false := by
      rw [isAnswer, hpush]
      rfl
    have hr := h.receive hrest hsame hshows c.client.mResponseCallbacks fun i call hi hc =>
      h.waiting i call (by simpa [hnot] using hi) hc
    rw [hhandle, List.append_nil]
    exact hr
  · have hmsg : isAnswer msg = true := by
      cases hfrom with
      | answer => rfl
      | _ => exact absurd rfl hpush
    obtain ⟨call, time, m, hcall, rfl⟩ := h.next_answer hget hmsg
    have hlookup := h.waiting _ call (Nat.le_refl _) hcall
    have hwaiting : ∀ i other, answered sent k c + (if isAnswer (makeResponse time (requestId (answered sent k c))
        (call.result c.uid m)) then 1 else 0) ≤ i → callAt c.asked i = some other →
          (c.client.mResponseCallbacks.erase (requestId (answered sent k c))).lookup (requestId i) =
            some (some (callbackOf other)) := by
      intro i other hi hc
      rw [if_pos hmsg] at hi
      have hids : requestId i ≠ requestId (answered sent k c) := fun he =>
        absurd (requestId_inj (h.asked_lt hc) (h.asked_lt hcall) he) (by omega)
      rw [AList.lookup_erase_ne hids]
      exact h.waiting i other (by omega) hc
    by_cases hlogin : ∃ name, call = .login name
    · obtain ⟨name, rfl⟩ := hlogin
      have huid := (hconn.callbacks _ hlookup).2
      have hshows : Shows c.client.ctx.mUsers (Feed.replay (changes (makeResponse time
          (requestId (answered sent k c)) ((Call.login name).result c.uid m)))
            (Feed.replay (((inbox sent k).take c.received).flatMap changes) fun _ => none)) := by
        rw [changes_answer, if_neg nofun]
        exact h.shows
      have hr := h.receive hrest ⟨rfl, rfl⟩ hshows _ hwaiting
      have hasked := h.asked
      rw [huid, if_pos rfl] at hasked
      have hask := hr.ask hconn.next_id (read_clientList now c.client.mNextRequestId)
        (.inr ⟨Nat.lt_of_le_of_lt (Nat.zero_le _) (callAt_lt hcall), nofun⟩)
        { c.client.ctx with mMyUid := c.uid, mMyName := name } rfl rfl (by rw [if_neg hne]; exact hasked) fun _ => .inl rfl
      rw [handle_login now time _ name c.uid m hlookup, ChatClient.requestAsync, if_pos hconn.mIsRunning]
      exact hask
    · obtain ⟨ctx, hhandle, hsame, hshows⟩ :=
        handle_answer_users now time _ (fun name he => hlogin ⟨name, he⟩) c.uid m hlookup h.shows
      rw [hhandle, List.append_nil]
      exact h.receive hrest hsame hshows _ hwaiting

/-! ## What the server sends -/

theorem feed_append (sent new : List (Nat × Message)) (k : Nat) :
    feed (sent ++ new) k = Feed.replay ((inbox new k).flatMap changes) (feed sent k) := by
  rw [feed, inbox_append, List.flatMap_append, Feed.replay_append]
  rfl

theorem feed_all {sessions : List Nat} (h : sessions.Nodup) (sent : List (Nat × Message)) (msg : Message) (k : Nat) :
    feed (sent ++ sessions.map (·, msg)) k =
      if k ∈ sessions then Feed.replay (changes msg) (feed sent k) else feed sent k := by
  rw [feed_append, inbox_map h]
  split
  · rw [List.flatMap_singleton]
  · rfl

/-- What serving a call makes of the changes sent to a session: a login is told to all, and the
    list of clients to the one who asked. -/
theorem feed_serve (h : OwnUid m) (now : Nat) (uid id : BitVec 32) (call : Call) (sent : List (Nat × Message))
    (a j : Nat) :
    feed (sent ++ (call.pushes now uid m ++ [(a, makeResponse now id (call.result uid m))])) j =
      match call with
      | .login name => if j ∈ m.broadcast then Function.update (feed sent j) uid (some name) else feed sent j
      | .clientList =>
        if j = a then Feed.replay (m.listIds.map fun u => .put u (m.getName u)) (feed sent j) else feed sent j
      | _ => feed sent j := by
  have hanswer (sent : List (Nat × Message)) :
      feed (sent ++ [(a, makeResponse now id (call.result uid m))]) j =
        if j = a ∧ call = .clientList then Feed.replay (m.listIds.map fun u => .put u (m.getName u)) (feed sent j)
        else feed sent j := by
    rw [feed_append]
    by_cases hj : j = a
    · subst hj
      rw [inbox_self, List.flatMap_singleton, changes_answer]
      by_cases hc : call = .clientList <;> simp [hc]
    · rw [inbox_other (Ne.symm hj), if_neg fun h => hj h.1]
      rfl
  rw [← List.append_assoc, hanswer]
  cases call with
  | login name =>
    have hn : (m.setName uid name).broadcast.Nodup := OwnUid.nodup fun u j hu => h u j (by simpa using hu)
    have hmem : j ∈ (m.setName uid name).broadcast ↔ j ∈ m.broadcast := by
      simp [SessionManager.mem_broadcast]
    rw [if_neg (by simp), Call.pushes, feed_all hn, changes_userJoined, Feed.replay_put]
    simp only [hmem]
  | clientList => simp [Call.pushes]
  | sendPublic text =>
    have hchanges : changes (makePush now (publicMessage uid (m.getName uid) text)) = [] :=
      changes_posting now false uid (m.getName uid) text
    rw [if_neg (by simp), Call.pushes, feed_all h.nodup, hchanges, Feed.replay_nil, ite_self]
  | sendPrivate toUid text =>
    have hn : (m.sendTo [toUid]).Nodup := by
      simp only [SessionManager.sendTo, List.filterMap_cons, List.filterMap_nil]
      cases m.get toUid <;> simp
    have hchanges : changes (makePush now (privateMessage uid (m.getName uid) text)) = [] :=
      changes_posting now true uid (m.getName uid) text
    rw [if_neg (by simp), Call.pushes, feed_all hn, hchanges, Feed.replay_nil, ite_self]
  | ping => simp [Call.pushes]

theorem feed_close (h : OwnUid m) (now : Nat) (uid : BitVec 32) (sent : List (Nat × Message)) (j : Nat) :
    feed (sent ++ m.broadcast.map (·, makePush now (userLeft uid))) j =
      if j ∈ m.broadcast then Function.update (feed sent j) uid none else feed sent j := by
  rw [feed_all h.nodup, changes_userLeft, Feed.replay_drop]

/-- Pushes are sent to a session. -/
theorem Follower.grow (h : Follower sent k c) (hreceived : c.received ≤ (inbox sent k).length)
    {new : List (Nat × Message)} (hnew : ∀ msg ∈ inbox new k, isAnswer msg = false) : Follower (sent ++ new) k c := by
  have hnone : (inbox new k).filter isAnswer = [] :=
    List.filter_eq_nil_iff.mpr fun msg hm => by simp [hnew msg hm]
  have hfilter : (inbox (sent ++ new) k).filter isAnswer = (inbox sent k).filter isAnswer := by
    rw [inbox_append, List.filter_append, hnone, List.append_nil]
  have htake : (inbox (sent ++ new) k).take c.received = (inbox sent k).take c.received := by
    rw [inbox_append, List.take_append_of_le_length hreceived]
  have hanswered : answered (sent ++ new) k c = answered sent k c := by rw [answered, htake, answered]
  refine { h with taken := ?_, answers := ?_, waiting := ?_, shows := ?_ }
  · rw [hfilter]
    exact h.taken
  · rw [hfilter]
    exact h.answers
  · rw [hanswered]
    exact h.waiting
  · rw [htake]
    exact h.shows

/-- The answer to the next request is sent. -/
theorem Follower.serve (h : Follower sent k c) (hreceived : c.received ≤ (inbox sent k).length) {call : Call}
    (hcall : callAt c.asked c.taken = some call) (now : Nat) (m : SessionManager Nat) :
    Follower (sent ++ [(k, makeResponse now (requestId c.taken) (call.result c.uid m))]) k
      { c with taken := c.taken + 1 } := by
  have hinbox : inbox (sent ++ [(k, makeResponse now (requestId c.taken) (call.result c.uid m))]) k =
      inbox sent k ++ [makeResponse now (requestId c.taken) (call.result c.uid m)] := by
    rw [inbox_append, inbox_self]
  have hfilter : (inbox (sent ++ [(k, makeResponse now (requestId c.taken) (call.result c.uid m))]) k).filter isAnswer =
      (inbox sent k).filter isAnswer ++ [makeResponse now (requestId c.taken) (call.result c.uid m)] := by
    rw [hinbox, List.filter_append]
    rfl
  have htake : (inbox (sent ++ [(k, makeResponse now (requestId c.taken) (call.result c.uid m))]) k).take c.received =
      (inbox sent k).take c.received := by
    rw [hinbox, List.take_append_of_le_length hreceived]
  refine { h with taken := ?_, answers := ?_, waiting := ?_, shows := ?_ }
  · rw [hfilter, List.length_append, h.taken, List.length_singleton]
  · intro i msg hm
    rw [hfilter] at hm
    rcases ListAt.getElem?_snoc hm with hm | ⟨hi, rfl⟩
    · exact h.answers i msg hm
    · rw [h.taken] at hi
      exact ⟨call, now, m, hi ▸ hcall, by rw [hi]⟩
  · intro i other hi hc
    refine h.waiting i other ?_ hc
    rw [answered, htake] at hi
    exact hi
  · rw [htake]
    exact h.shows

/-! ## The rosters -/

/-- What `mUsers` holds is what was received; the registry has the open sessions under the names
    they logged in with; and what was sent to one replays to a part of it, after the list of
    clients to all that logged in. -/
structure Rosters (s : St) : Prop where
  follower : ∀ k c, s.connections k = some c → Follower s.store.sent k c
  registered : ∀ k c, s.connections k = some c → s.store.mSessions.name? c.uid =
    if c.isOpen then some (if 0 < c.taken then c.client.ctx.mLoginName else "guest") else none
  sound : ∀ k c, s.connections k = some c → c.isOpen = true →
    Feed.Sound s.store.mSessions.name? (feed s.store.sent k)
  complete : ∀ k c, s.connections k = some c → c.isOpen = true →
    (∃ request ∈ c.asked.take c.taken, call? request = some .clientList) →
      ∀ j d, s.connections j = some d → d.isOpen = true → 0 < d.taken → (feed s.store.sent k d.uid).isSome

/-- No client sends a line once it made 2^32 - 1 requests. -/
def IdsKept (s : St) : Ev → Prop
  | .say k _ _ => ∀ c, s.connections k = some c → c.asked.length + 1 < 2 ^ 32
  | _ => True

theorem IdsKept.left {e : Ev} (h : IdsKept s e) : IdsLeft s e := by
  cases e with
  | say k now line =>
    intro c hc _
    have hlt := h c hc
    omega
  | _ => trivial

theorem rosters_init : Rosters init where
  follower := by simp [init]
  registered := by simp [init]
  sound := by simp [init]
  complete := by simp [init]

/-- A client does something to itself and asks. -/
theorem rosters_put (h : Rosters s) (hc : s.connections k = some c) (huid : c'.uid = c.uid)
    (hopen : c'.isOpen = c.isOpen) (htaken : c'.taken = c.taken)
    (hname : c'.client.ctx.mLoginName = c.client.ctx.mLoginName)
    (hasked : c'.asked.take c.taken = c.asked.take c.taken) (hf : Follower s.store.sent k c') :
    Rosters (put k c' s) := by
  have hold {j : Nat} {d : Connection} (hd : (put k c' s).connections j = some d) :
      ∃ d₀, s.connections j = some d₀ ∧ d.uid = d₀.uid ∧ d.isOpen = d₀.isOpen ∧ d.taken = d₀.taken ∧
        d.client.ctx.mLoginName = d₀.client.ctx.mLoginName ∧ d.asked.take d.taken = d₀.asked.take d₀.taken := by
    rcases put_some hd with ⟨rfl, rfl⟩ | ⟨-, hd⟩
    · exact ⟨c, hc, huid, hopen, htaken, hname, htaken ▸ hasked⟩
    · exact ⟨d, hd, rfl, rfl, rfl, rfl, rfl⟩
  refine ⟨?_, ?_, ?_, ?_⟩
  · intro j d hd
    rcases put_some hd with ⟨rfl, rfl⟩ | ⟨-, hd⟩
    · exact hf
    · exact h.follower j d hd
  · intro j d hd
    obtain ⟨d₀, hd₀, hu, ho, ht, hn, -⟩ := hold hd
    rw [hu, ho, ht, hn]
    exact h.registered j d₀ hd₀
  · intro j d hd hopen
    obtain ⟨d₀, hd₀, -, ho, -, -, -⟩ := hold hd
    exact h.sound j d₀ hd₀ (ho ▸ hopen)
  · intro j d hd hopen hlist i e he heopen htaken
    obtain ⟨d₀, hd₀, -, ho, -, -, ha⟩ := hold hd
    obtain ⟨e₀, he₀, hu, heo, ht, -, -⟩ := hold he
    rw [hu]
    exact h.complete j d₀ hd₀ (ho ▸ hopen) (ha ▸ hlist) i e₀ he₀ (heo ▸ heopen) (ht ▸ htaken)

theorem name?_isSome {u : BitVec 32} : (m.name? u).isSome ↔ (m.get u).isSome := by
  simp [SessionManager.name?, SessionManager.get]

/-- An open session is registered, under its uid. -/
theorem Rosters.get (h : Rosters s) (hi : Inv s) (hs : s.made < 2 ^ 32) (hc : s.connections k = some c)
    (ho : c.isOpen = true) : s.store.mSessions.get (sessionUid k) = some k := by
  have hu := (hi.conn k c hc).uid
  have hsome : (s.store.mSessions.get (sessionUid k)).isSome := by
    rw [← name?_isSome, ← hu, h.registered k c hc, if_pos ho]
    rfl
  obtain ⟨j, hj⟩ := Option.isSome_iff_exists.mp hsome
  obtain ⟨hlt, he⟩ := hi.get _ j hj
  rw [hj, ServerRun.sessionUid_inj (Nat.lt_trans (hi.lt hc) hs) (Nat.lt_trans hlt hs) he]

theorem Rosters.mem_broadcast (h : Rosters s) (hi : Inv s) (hs : s.made < 2 ^ 32) (hc : s.connections k = some c)
    (ho : c.isOpen = true) : k ∈ s.store.mSessions.broadcast :=
  hi.ownUid.mem_broadcast.mpr (h.get hi hs hc ho)

/-- Two sessions have two uids. -/
theorem Inv.uid_ne {j : Nat} {d : Connection} (h : Inv s) (hs : s.made < 2 ^ 32) (hc : s.connections k = some c)
    (hd : s.connections j = some d) (hne : j ≠ k) : d.uid ≠ c.uid := by
  rw [(h.conn j d hd).uid, (h.conn k c hc).uid]
  exact fun he => hne (h.sessionUid_inj hs hd hc he)

theorem rosters_close (h : Rosters s) (hi : Inv s) (hs : s.made < 2 ^ 32) (hc : s.connections k = some c) (now : Nat) :
    Rosters (put k { c with isOpen := false } { s with store := ((onClose now c.uid).run exec s.store).1 }) := by
  have hm : OwnUid (s.store.mSessions.remove c.uid) := by
    intro u j hg
    simp only [SessionManager.get_remove, Option.ite_none_left_eq_some] at hg
    exact hi.ownUid u j hg.2
  have hname : (s.store.mSessions.remove c.uid).name? = Function.update s.store.mSessions.name? c.uid none := by
    funext u
    rw [SessionManager.name?_remove, Function.update_apply]
  have hpushes (j : Nat) : ∀ msg ∈ inbox ((s.store.mSessions.remove c.uid).broadcast.map
      (·, makePush now (userLeft c.uid))) j, isAnswer msg = false := by
    intro msg hin
    rw [inbox_map hm.nodup] at hin
    split at hin
    · rw [List.mem_singleton.mp hin]
      rfl
    · cases hin
  have hgrow (j : Nat) (d : Connection) (hd : s.connections j = some d) :
      Follower (s.store.sent ++ (s.store.mSessions.remove c.uid).broadcast.map (·, makePush now (userLeft c.uid))) j d :=
    (h.follower j d hd).grow (hi.conn j d hd).received (hpushes j)
  -- An open session other than this is told that it left.
  have hfeed {j : Nat} {d : Connection} (hd : s.connections j = some d) (ho : d.isOpen = true) (hne : j ≠ k) :
      feed (s.store.sent ++ (s.store.mSessions.remove c.uid).broadcast.map (·, makePush now (userLeft c.uid))) j =
        Function.update (feed s.store.sent j) c.uid none := by
    have hu := hi.uid_ne hs hc hd hne
    have hin : j ∈ (s.store.mSessions.remove c.uid).broadcast := by
      rw [hm.mem_broadcast, SessionManager.get_remove, ← (hi.conn j d hd).uid, if_neg hu, (hi.conn j d hd).uid]
      exact h.get hi hs hd ho
    rw [feed_close hm, if_pos hin]
  rw [run_onClose]
  refine ⟨?_, ?_, ?_, ?_⟩
  · intro j d hd
    rcases put_some hd with ⟨rfl, rfl⟩ | ⟨-, hd⟩
    · exact { hgrow _ c hc with }
    · exact hgrow j d hd
  · intro j d hd
    show (s.store.mSessions.remove c.uid).name? d.uid = _
    rw [SessionManager.name?_remove]
    rcases put_some hd with ⟨rfl, rfl⟩ | ⟨hne, hd⟩
    · rw [if_pos rfl]
      rfl
    · rw [if_neg (hi.uid_ne hs hc hd hne)]
      exact h.registered j d hd
  · intro j d hd ho
    rcases put_some hd with ⟨rfl, rfl⟩ | ⟨hne, hd⟩
    · cases ho
    · show Feed.Sound (s.store.mSessions.remove c.uid).name? (feed (_ ++ _) j)
      rw [hname, hfeed hd ho hne]
      exact (h.sound j d hd ho).drop
  · intro j d hd ho hlist i e he heo ht
    rcases put_some hd with ⟨rfl, rfl⟩ | ⟨hne, hd⟩
    · cases ho
    rcases put_some he with ⟨rfl, rfl⟩ | ⟨hie, he⟩
    · cases heo
    show (feed (_ ++ _) j e.uid).isSome
    rw [hfeed hd ho hne, Function.update_of_ne (hi.uid_ne hs hc he hie)]
    exact h.complete j d hd ho hlist i e he heo ht

theorem rosters_accept (h : Rosters s) (hi : Inv s) (hs : s.made < 2 ^ 32) (onError : Bool) (username : String) :
    Rosters (put s.made ⟨(s.store.mSessions.add s.made).2, true, .start onError username, false, [], 0, 0, []⟩ { s with
      store := { s.store with mSessions := (s.store.mSessions.add s.made).1 }, made := s.made + 1 }) := by
  have hinbox : inbox s.store.sent s.made = [] := inbox_eq_nil fun e he => Nat.ne_of_lt (hi.sent e he)
  have hfeed : feed s.store.sent s.made = fun _ => none := by rw [feed, hinbox, List.flatMap_nil, Feed.replay_nil]
  have hnew : s.store.mSessions.name? s.store.mSessions.mNextUid = none := by
    rw [← Option.not_isSome_iff_eq_none, name?_isSome]
    intro hsome
    obtain ⟨j, hj⟩ := Option.isSome_iff_exists.mp hsome
    obtain ⟨hlt, he⟩ := hi.get _ j hj
    rw [hi.next_uid] at he
    exact Nat.ne_of_lt hlt (ServerRun.sessionUid_inj hs (Nat.lt_trans hlt hs) he).symm
  have hname : (s.store.mSessions.add s.made).1.name? =
      Function.update s.store.mSessions.name? s.store.mSessions.mNextUid (some "guest") := by
    funext u
    rw [SessionManager.name?_add, Function.update_apply]
  have hold {j : Nat} {d : Connection} (hd : s.connections j = some d) : d.uid ≠ s.store.mSessions.mNextUid := by
    rw [(hi.conn j d hd).uid, hi.next_uid]
    intro he
    exact Nat.ne_of_lt (hi.lt hd) (ServerRun.sessionUid_inj (Nat.lt_trans (hi.lt hd) hs) hs he)
  refine ⟨?_, ?_, ?_, ?_⟩
  · intro j d hd
    rcases put_some hd with ⟨rfl, rfl⟩ | ⟨-, hd⟩
    · refine ⟨by simp, by simp [ChatClient.start, ClientAppContext.init], ?_, ?_, by simp [callAt], ?_, ?_⟩
      · simp [put, hinbox]
      · simp [put, hinbox]
      · simp [ChatClient.start, ClientAppContext.init]
      · intro u
        simp [ChatClient.start, ClientAppContext.init]
    · exact h.follower j d hd
  · intro j d hd
    show (s.store.mSessions.add s.made).1.name? d.uid = _
    rw [hname]
    rcases put_some hd with ⟨rfl, rfl⟩ | ⟨-, hd⟩
    · simp [SessionManager.add]
    · rw [Function.update_of_ne (hold hd)]
      exact h.registered j d hd
  · intro j d hd ho
    show Feed.Sound (s.store.mSessions.add s.made).1.name? (feed s.store.sent j)
    rw [hname]
    rcases put_some hd with ⟨rfl, rfl⟩ | ⟨-, hd⟩
    · rw [hfeed]
      exact .empty
    · exact (h.sound j d hd ho).add hnew
  · intro j d hd ho hlist i e he heo ht
    rcases put_some hd with ⟨rfl, rfl⟩ | ⟨-, hd⟩
    · simp at hlist
    rcases put_some he with ⟨rfl, rfl⟩ | ⟨-, he⟩
    · exact absurd ht (Nat.lt_irrefl 0)
    exact h.complete j d hd ho hlist i e he heo ht

/-- The followers after a call of `k` was served. -/
theorem follower_served (h : Rosters s) (hi : Inv s) (hc : s.connections k = some c) {call : Call}
    (hcall : callAt c.asked c.taken = some call) (now : Nat) {j : Nat} {d : Connection}
    (hd : (put k { c with taken := c.taken + 1 } s).connections j = some d) :
    Follower (s.store.sent ++ (call.pushes now c.uid s.store.mSessions ++
      [(k, makeResponse now (requestId c.taken) (call.result c.uid s.store.mSessions))])) j d := by
  have hpushes (j : Nat) : ∀ msg ∈ inbox (call.pushes now c.uid s.store.mSessions) j, isAnswer msg = false := by
    intro msg hin
    rw [(hi.conn k c hc).uid] at hin
    rw [isAnswer, ((inbox_pushes hi.ownUid now call).1 msg hin).2.1]
    rfl
  rw [← List.append_assoc]
  rcases put_some hd with ⟨rfl, rfl⟩ | ⟨hne, hd⟩
  · have hreceived := (hi.conn _ c hc).received
    refine ((h.follower _ c hc).grow hreceived (hpushes _)).serve ?_ hcall now s.store.mSessions
    rw [inbox_append, List.length_append]
    omega
  · have hreceived := (hi.conn j d hd).received
    refine ((h.follower j d hd).grow hreceived (hpushes j)).grow ?_ ?_
    · rw [inbox_append, List.length_append]
      omega
    · rw [inbox_other (Ne.symm hne)]
      simp

/-- A login is served: all open sessions are told the name. -/
theorem rosters_login (h : Rosters s) (hi : Inv s) (hs : s.made < 2 ^ 32) (hc : s.connections k = some c)
    (ho : c.isOpen = true) {request : Message} (hq : c.asked[c.taken]? = some request) (ht : c.taken = 0)
    (hread : ServerAppContext.read request = .ok (requestId c.taken, .inr (.login c.client.ctx.mLoginName)))
    (now : Nat) :
    Rosters (put k { c with taken := c.taken + 1 } { s with
      store := ((onMessage now c.uid request k).run exec s.store).1
      posted := s.posted ++ posts k request s.store.mSessions }) := by
  have hcall : callAt c.asked c.taken = some (.login c.client.ctx.mLoginName) := by
    rw [callAt, hq, Option.bind_some, call?_of_read hread]
  have hname : (s.store.mSessions.setName c.uid c.client.ctx.mLoginName).name? =
      Function.update s.store.mSessions.name? c.uid (some c.client.ctx.mLoginName) := by
    funext u
    rw [SessionManager.name?_setName, Function.update_apply]
    by_cases hu : u = c.uid
    · subst hu
      rw [if_pos rfl, if_pos rfl, h.registered k c hc, if_pos ho]
      rfl
    · rw [if_neg hu, if_neg hu]
  have hfeed {j : Nat} {d : Connection} (hd : s.connections j = some d) (hopen : d.isOpen = true) :
      feed (s.store.sent ++ ((Call.login c.client.ctx.mLoginName).pushes now c.uid s.store.mSessions ++
        [(k, makeResponse now (requestId c.taken)
          ((Call.login c.client.ctx.mLoginName).result c.uid s.store.mSessions))])) j =
        Function.update (feed s.store.sent j) c.uid (some c.client.ctx.mLoginName) := by
    rw [feed_serve hi.ownUid]
    exact if_pos (h.mem_broadcast hi hs hd hopen)
  rw [onMessage_call hread]
  refine ⟨fun j d hd => follower_served h hi hc hcall now hd, ?_, ?_, ?_⟩
  · intro j d hd
    show (s.store.mSessions.setName c.uid c.client.ctx.mLoginName).name? d.uid = _
    rw [hname]
    rcases put_some hd with ⟨rfl, rfl⟩ | ⟨hne, hd⟩
    · simp [ho]
    · rw [Function.update_of_ne (hi.uid_ne hs hc hd hne)]
      exact h.registered j d hd
  · intro j d hd hopen
    show Feed.Sound (s.store.mSessions.setName c.uid c.client.ctx.mLoginName).name? (feed (_ ++ _) j)
    rw [hname]
    rcases put_some hd with ⟨rfl, rfl⟩ | ⟨-, hd⟩
    · rw [hfeed hc ho]
      exact (h.sound _ c hc ho).put
    · rw [hfeed hd hopen]
      exact (h.sound j d hd hopen).put
  · intro j d hd hopen hlist i e he heo hte
    show (feed (_ ++ _) j e.uid).isSome
    rcases put_some hd with ⟨rfl, rfl⟩ | ⟨-, hd⟩
    · -- It has asked for no list of clients yet.
      obtain ⟨r, hr, hcr⟩ := hlist
      have hr : r ∈ c.asked.take (c.taken + 1) := hr
      rw [List.take_add_one, hq, ht, List.take_zero, List.nil_append, Option.toList_some, List.mem_singleton] at hr
      rw [hr, call?_of_read hread] at hcr
      cases hcr
    · rw [hfeed hd hopen]
      rcases put_some he with ⟨rfl, rfl⟩ | ⟨hie, he⟩
      · simp
      · rw [Function.update_of_ne (hi.uid_ne hs hc he hie)]
        exact h.complete j d hd hopen hlist i e he heo hte

/-- What a listing makes of a part of the registry. -/
theorem replay_clients {f : BitVec 32 → Option String} (h : Feed.Sound m.name? f) :
    Feed.replay (m.listIds.map fun u => .put u (m.getName u)) f = m.name? := by
  have hsome {u : BitVec 32} : u ∈ m.listIds ↔ (m.name? u).isSome := by
    rw [name?_isSome, SessionManager.mem_listIds, Option.isSome_iff_exists]
  refine Feed.replay_listing h (fun u => hsome) ?_
  intro u hu
  obtain ⟨name, hn⟩ := Option.isSome_iff_exists.mp (hsome.mp hu)
  rw [SessionManager.getName_eq, hn, Option.getD_some]

/-- Any other call is served: only a list of clients changes a roster. -/
theorem rosters_call (h : Rosters s) (hi : Inv s) (hc : s.connections k = some c)
    (ho : c.isOpen = true) {request : Message} (hq : c.asked[c.taken]? = some request) (ht : 0 < c.taken) {call : Call}
    (hnot : ∀ name, call ≠ .login name)
    (hread : ServerAppContext.read request = .ok (requestId c.taken, .inr call)) (now : Nat) :
    Rosters (put k { c with taken := c.taken + 1 } { s with
      store := ((onMessage now c.uid request k).run exec s.store).1
      posted := s.posted ++ posts k request s.store.mSessions }) := by
  have hcall : callAt c.asked c.taken = some call := by rw [callAt, hq, Option.bind_some, call?_of_read hread]
  have hsessions : call.sessions c.uid s.store.mSessions = s.store.mSessions := by
    cases call with
    | login name => exact absurd rfl (hnot name)
    | _ => rfl
  have hfeed (j : Nat) : feed (s.store.sent ++ (call.pushes now c.uid s.store.mSessions ++
      [(k, makeResponse now (requestId c.taken) (call.result c.uid s.store.mSessions))])) j =
        if j = k ∧ call = .clientList then s.store.mSessions.name? else feed s.store.sent j := by
    rw [feed_serve hi.ownUid]
    cases call with
    | login name => exact absurd rfl (hnot name)
    | clientList =>
      by_cases hj : j = k
      · subst hj
        simp [replay_clients (h.sound _ c hc ho)]
      · simp [hj]
    | _ => simp
  -- A request handled is either the one served or was handled before.
  have hlisted (hlist : ∃ r ∈ c.asked.take (c.taken + 1), call? r = some .clientList) :
      call = .clientList ∨ ∃ r ∈ c.asked.take c.taken, call? r = some .clientList := by
    obtain ⟨r, hr, hcr⟩ := hlist
    rw [List.take_add_one, hq] at hr
    rcases List.mem_append.mp hr with hr | hr
    · exact .inr ⟨r, hr, hcr⟩
    · rw [Option.toList_some, List.mem_singleton] at hr
      rw [hr, call?_of_read hread] at hcr
      exact .inl (Option.some.inj hcr)
  have hold {j : Nat} {d : Connection} (hd : (put k { c with taken := c.taken + 1 } s).connections j = some d) :
      ∃ d₀, s.connections j = some d₀ ∧ d.uid = d₀.uid ∧ d.isOpen = d₀.isOpen ∧ (0 < d.taken → 0 < d₀.taken) ∧
        (0 < d₀.taken → 0 < d.taken) ∧ d.client = d₀.client := by
    rcases put_some hd with ⟨rfl, rfl⟩ | ⟨-, hd⟩
    · exact ⟨c, hc, rfl, rfl, fun _ => ht, fun _ => Nat.succ_pos _, rfl⟩
    · exact ⟨d, hd, rfl, rfl, id, id, rfl⟩
  rw [onMessage_call hread, hsessions]
  refine ⟨fun j d hd => follower_served h hi hc hcall now hd, ?_, ?_, ?_⟩
  · intro j d hd
    obtain ⟨d₀, hd₀, hu, hopen, htd, htd₀, hclient⟩ := hold hd
    show s.store.mSessions.name? d.uid = _
    rw [hu, hopen, hclient, h.registered j d₀ hd₀]
    simp only [show (0 < d.taken) = (0 < d₀.taken) from propext ⟨htd, htd₀⟩]
  · intro j d hd hopen
    obtain ⟨d₀, hd₀, -, ho₀, -⟩ := hold hd
    show Feed.Sound s.store.mSessions.name? (feed (_ ++ _) j)
    rw [hfeed]
    split
    · exact fun _ _ hv => hv
    · exact h.sound j d₀ hd₀ (ho₀ ▸ hopen)
  · intro j d hd hopen hlist i e he heo hte
    obtain ⟨e₀, he₀, hu, heo₀, hte₀, -⟩ := hold he
    show (feed (_ ++ _) j e.uid).isSome
    rw [hfeed, hu]
    split
    · rw [h.registered i e₀ he₀, if_pos (heo₀ ▸ heo)]
      rfl
    · rename_i hne
      rcases put_some hd with ⟨rfl, rfl⟩ | ⟨-, hd⟩
      · rcases hlisted hlist with hl | hl
        · exact absurd ⟨rfl, hl⟩ hne
        · exact h.complete _ c hc ho hl i e₀ he₀ (heo₀ ▸ heo) (hte₀ hte)
      · exact h.complete j d hd hopen hlist i e₀ he₀ (heo₀ ▸ heo) (hte₀ hte)

theorem rosters_serve (h : Rosters s) (hi : Inv s) (hs : s.made < 2 ^ 32) (hc : s.connections k = some c)
    (ho : c.isOpen = true) {request : Message} (hq : c.asked[c.taken]? = some request) (now : Nat) :
    Rosters (put k { c with taken := c.taken + 1 } { s with
      store := ((onMessage now c.uid request k).run exec s.store).1
      posted := s.posted ++ posts k request s.store.mSessions }) := by
  obtain ⟨call, hread, ⟨ht, rfl⟩ | ⟨ht, hnot⟩⟩ := (h.follower k c hc).requests c.taken request hq
  · exact rosters_login h hi hs hc ho hq ht hread now
  · exact rosters_call h hi hc ho hq ht hnot hread now

/-! ## Runs -/

/-- The name a client logs in with is that of its first request. -/
theorem Follower.same_name (h : Follower sent k c) (h' : Follower sent k c') {request : Message}
    (hq : c.asked[0]? = some request) (hq' : c'.asked[0]? = some request) :
    c'.client.ctx.mLoginName = c.client.ctx.mLoginName := by
  obtain ⟨call, hread, ⟨-, rfl⟩ | ⟨hpos, -⟩⟩ := h.requests 0 request hq
  · obtain ⟨call', hread', ⟨-, rfl⟩ | ⟨hpos, -⟩⟩ := h'.requests 0 request hq'
    · rw [hread, Except.ok.injEq, Prod.mk.injEq, Sum.inr.injEq, Call.login.injEq] at hread'
      exact hread'.2.symm
    · exact absurd hpos (Nat.lt_irrefl 0)
  · exact absurd hpos (Nat.lt_irrefl 0)

theorem rosters_next {e : Ev} (h : Rosters s) (hi : Inv s) (hs : s.made < 2 ^ 32) (hids : IdsKept s e)
    (he : next s e = some s') : Rosters s' := by
  cases e with
  | accept onError username =>
    cases he
    exact rosters_accept h hi hs onError username
  | connected k now =>
    obtain ⟨c, hc, he⟩ := Option.bind_eq_some_iff.mp he
    simp only [Option.ite_none_right_eq_some, Option.some.injEq, Bool.and_eq_true, Bool.not_eq_true'] at he
    obtain ⟨⟨-, hcon⟩, rfl⟩ := he
    refine rosters_put h hc rfl rfl rfl ?_ ?_ (follower_connected (h.follower k c hc) (hi.conn k c hc) hcon now)
    · simp [ChatClient.onConnect]
    · exact List.take_append_of_le_length (hi.conn k c hc).taken
  | say k now line =>
    obtain ⟨c, hc, he⟩ := Option.bind_eq_some_iff.mp he
    simp only [Option.ite_none_right_eq_some, Option.some.injEq, Bool.and_eq_true, bne_iff_ne] at he
    obtain ⟨⟨⟨-, hcon⟩, ht⟩, rfl⟩ := he
    have hf := follower_say (h.follower k c hc) (hi.conn k c hc) hcon ht now (hids c hc)
    refine rosters_put h hc rfl rfl rfl ?_ ?_ hf
    · obtain ⟨request, -, hsay⟩ := ChatClient.say_eq now ht (hi.conn k c hc).mClient (hi.conn k c hc).mIsRunning
      rw [hsay]
      rfl
    · exact List.take_append_of_le_length (hi.conn k c hc).taken
  | serve k now =>
    obtain ⟨c, hc, he⟩ := Option.bind_eq_some_iff.mp he
    obtain ⟨request, hq, he⟩ := Option.bind_eq_some_iff.mp he
    simp only [Option.ite_none_right_eq_some, Option.some.injEq] at he
    obtain ⟨ho, rfl⟩ := he
    exact rosters_serve h hi hs hc ho hq now
  | deliver k now =>
    obtain ⟨c, hc, he⟩ := Option.bind_eq_some_iff.mp he
    obtain ⟨msg, hm, he⟩ := Option.bind_eq_some_iff.mp he
    simp only [Option.ite_none_right_eq_some, Option.some.injEq, Bool.and_eq_true] at he
    obtain ⟨⟨⟨-, hcon⟩, -⟩, rfl⟩ := he
    have hconn := hi.conn k c hc
    have hne : c.uid ≠ 0#32 := hconn.uid ▸ sessionUid_ne_zero hs (hi.lt hc)
    have hf := follower_deliver (h.follower k c hc) hconn hne hm now
    obtain ⟨request, -, hq, -⟩ := hconn.first hcon
    refine rosters_put h hc rfl rfl rfl ?_ ?_ hf
    · exact (h.follower k c hc).same_name hf hq (ListAt.getElem?_append_some hq _)
    · exact List.take_append_of_le_length hconn.taken
  | close k now =>
    obtain ⟨c, hc, he⟩ := Option.bind_eq_some_iff.mp he
    simp only [Option.ite_none_right_eq_some, Option.some.injEq] at he
    obtain ⟨-, rfl⟩ := he
    exact rosters_close h hi hs hc now

theorem run_rosters (hrun : Machine.Run next IdsKept init s) (hmade : s.made < 2 ^ 32) : Inv s ∧ Rosters s := by
  have h : Numbered s ∧ (s.made < 2 ^ 32 → Inv s ∧ Rosters s) := by
    refine Machine.run_invariant (fun s => Numbered s ∧ (s.made < 2 ^ 32 → Inv s ∧ Rosters s))
      ⟨by simp [Numbered, init], fun _ => ⟨inv_init, rosters_init⟩⟩ ?_ hrun
    intro s e s' ih hids he
    obtain ⟨hn, h⟩ := ih
    refine ⟨numbered_next hn he, ?_⟩
    intro hs'
    have hs : s.made < 2 ^ 32 := Nat.lt_of_le_of_lt (made_le hn he) hs'
    obtain ⟨hi, hr⟩ := h hs
    exact ⟨inv_next hi hs hids.left he, rosters_next hr hi hs hids he⟩
  exact h.2 hmade

/-! ## Agreement -/

/-- The registry has the open sessions, each under the name it logged in with, or "guest"; a
    connected client has on its roster all that logged in, under these names, and nobody else but
    open sessions that did not. -/
structure RostersAgree (s : St) : Prop where
  registered : ∀ a ca, s.connections a = some ca → s.store.mSessions.name? ca.uid =
    if ca.isOpen then some (if ca.connected then ca.client.ctx.mLoginName else "guest") else none
  present : ∀ a ca b cb, s.connections a = some ca → s.connections b = some cb → ca.isOpen = true →
    cb.isOpen = true → ca.connected = true → cb.connected = true →
      ∃ user ∈ cb.client.ctx.mUsers.lookup ca.uid, user.uid = ca.uid ∧ user.name = ca.client.ctx.mLoginName
  nobody : ∀ b cb, s.connections b = some cb → cb.isOpen = true → cb.connected = true →
    ∀ u, ∀ user ∈ cb.client.ctx.mUsers.lookup u, ∃ a ca, s.connections a = some ca ∧ ca.isOpen = true ∧ ca.uid = u ∧
      user.uid = u ∧ user.name = if ca.connected then ca.client.ctx.mLoginName else "guest"

/-- A client whose login was asked and that has nothing in flight: all was handled. -/
theorem taken_of_settled (hi : Inv s) (hset : Settled s) (hc : s.connections k = some c) (ho : c.isOpen = true) :
    0 < c.taken ↔ c.connected = true := by
  have hconn := hi.conn k c hc
  rw [(hset k c hc ho).1]
  constructor
  · intro hpos
    by_contra hcon
    rw [(hconn.fresh (by simpa using hcon)).1] at hpos
    exact Nat.lt_irrefl 0 hpos
  · intro hcon
    obtain ⟨request, -, hq, -⟩ := hconn.first hcon
    exact (List.getElem?_eq_some_iff.mp hq).1

/-- It has its uid then, so its list of clients was asked for and served. -/
theorem listed_of_settled (h : Rosters s) (hi : Inv s) (hs : s.made < 2 ^ 32) (hset : Settled s)
    (hc : s.connections k = some c) (ho : c.isOpen = true) (hcon : c.connected = true) :
    ∃ request ∈ c.asked.take c.taken, call? request = some .clientList := by
  have hconn := hi.conn k c hc
  obtain ⟨htaken, hpending⟩ := hset k c hc ho
  have hpos := (taken_of_settled hi hset hc ho).mpr hcon
  have huid : c.client.ctx.mMyUid ≠ 0#32 := by
    have hlogin := hconn.login
    rw [show (inbox s.store.sent k).drop c.received = [] from hpending] at hlogin
    cases hlogin with
    | asked _ _ ht => exact absurd ht (Nat.ne_of_gt hpos)
    | answered _ _ _ pre _ _ _ post hsplit => simp at hsplit
    | received hu => exact hu ▸ hconn.uid ▸ sessionUid_ne_zero hs (hi.lt hc)
  rw [htaken, List.take_length]
  exact (h.follower k c hc).listing huid

theorem agree_of_rosters (h : Rosters s) (hi : Inv s) (hs : s.made < 2 ^ 32) (hset : Settled s) : RostersAgree s := by
  have hregistered : ∀ a ca, s.connections a = some ca → s.store.mSessions.name? ca.uid =
      if ca.isOpen then some (if ca.connected then ca.client.ctx.mLoginName else "guest") else none := by
    intro a ca ha
    rw [h.registered a ca ha]
    by_cases ho : ca.isOpen = true
    · simp only [if_pos ho, taken_of_settled hi hset ha ho]
    · rw [if_neg ho, if_neg ho]
  -- With nothing in flight a roster is what was sent to its session.
  have hshows {b : Nat} {cb : Connection} (hb : s.connections b = some cb) (ho : cb.isOpen = true) :
      Shows cb.client.ctx.mUsers (feed s.store.sent b) := by
    have hall : (inbox s.store.sent b).take cb.received = inbox s.store.sent b :=
      List.take_of_length_le (List.drop_eq_nil_iff.mp (hset b cb hb ho).2)
    have hfollows := (h.follower b cb hb).shows
    rwa [hall] at hfollows
  refine ⟨hregistered, ?_, ?_⟩
  · intro a ca b cb ha hb hoa hob hca hcb
    have hsome := h.complete b cb hb hob (listed_of_settled h hi hs hset hb hob hcb) a ca ha hoa
      ((taken_of_settled hi hset ha hoa).mpr hca)
    obtain ⟨name, hn⟩ := Option.isSome_iff_exists.mp hsome
    have hreg := h.sound b cb hb hob ca.uid name hn
    rw [hregistered a ca ha, if_pos hoa, if_pos hca, Option.some.injEq] at hreg
    have hroster := hshows hb hob ca.uid
    rw [hn, Option.map_some, Option.map_eq_some_iff] at hroster
    obtain ⟨user, hl, he⟩ := hroster
    obtain ⟨hu, hname⟩ := Prod.mk.inj he
    exact ⟨user, hl, hu, hname.trans hreg.symm⟩
  · intro b cb hb hob hcb u user hl
    have hroster := hshows hb hob u
    rw [hl, Option.map_some] at hroster
    obtain ⟨name, hn, he⟩ := Option.map_eq_some_iff.mp hroster.symm
    obtain ⟨hu, hname⟩ := Prod.mk.inj he
    have hreg := h.sound b cb hb hob u name hn
    have hsome : (s.store.mSessions.get u).isSome := name?_isSome.mp (by rw [hreg]; rfl)
    obtain ⟨a, ha⟩ := Option.isSome_iff_exists.mp hsome
    obtain ⟨hlt, hua⟩ := hi.get u a ha
    obtain ⟨ca, hca⟩ := Option.isSome_iff_exists.mp ((hi.made a).mp hlt)
    have huid : ca.uid = u := (hi.conn a ca hca).uid.trans hua.symm
    rw [← huid, hregistered a ca hca, Option.ite_none_right_eq_some, Option.some.injEq] at hreg
    exact ⟨a, ca, hca, hreg.1, huid, hu.symm, hname.symm.trans hreg.2.symm⟩

/-- As `IdsKept`, for evaluation. -/
def idsKept (s : St) : Ev → Bool
  | .say k _ _ => decide (∀ c ∈ s.connections k, c.asked.length + 1 < 2 ^ 32)
  | _ => true

theorem idsKept_ok (s : St) (e : Ev) (h : idsKept s e = true) : IdsKept s e := by
  cases e with
  | say k now line =>
    have h : ∀ c ∈ s.connections k, c.asked.length + 1 < 2 ^ 32 := of_decide_eq_true h
    exact h
  | _ => trivial

end CryptoChat.Net.Chat
