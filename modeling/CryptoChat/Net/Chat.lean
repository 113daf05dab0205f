/-
  CryptoChat.Net.Chat — what the users of a server see of each other's texts. Clients
  connect, log in and send lines; the server, on one port with one thread, handles each
  request and each close whole (`Roster` has what a second thread does in between); the
  requests of a client, and what the server sends it, arrive whole and in order. A session
  may be closed; its client then does nothing more.

  A client shows its own line when it is sent and leaves out the push of it that comes
  back, which it knows by its uid. It learns the uid from the answer to its login, and
  `Conn.login` is why it has it in time: that answer is ahead of every push of its own.

  Proved: with fewer than 2^32 sessions, and no client asking 2^32 times more before its
  login is answered, once nothing is in flight every line is shown exactly once where it
  belongs, and in order (`exactly_once`).
-/

import CryptoChat.Net.ChatMessages
import CryptoChat.Net.ServerRun
import CryptoChat.Lib.ListAt
import CryptoChat.Lib.Machine

namespace CryptoChat.Net.Chat

open CryptoChat.Lib Message ServerAppContext ServerRun

/-! ## The server and its clients -/

/-- A session and the client at the other end. -/
structure Connection where
  uid : BitVec 32
  isOpen : Bool
  client : ChatClient
  /-- Whether its login request was issued. -/
  connected : Bool
  /-- Its requests, and how many of them the server handled; how many messages it received. -/
  asked : List Message
  taken : Nat
  received : Nat
  /-- The lines its user sent. -/
  said : List Line

/-- A line the server handled, with the sessions registered then. -/
structure Posted where
  author : Nat
  line : Line
  registered : List Nat

structure St where
  store : Store Nat
  made : Nat
  connections : Nat → Option Connection
  posted : List Posted

def init : St := ⟨⟨.new, []⟩, 0, fun _ => none, []⟩

/-- What is on the way to the client of `k`. -/
def pending (s : St) (k : Nat) (c : Connection) : List Message := (inbox s.store.sent k).drop c.received

inductive Ev where
  | accept (onError : Bool) (username : String)
  | connected (k now : Nat)
  | say (k now : Nat) (line : Line)
  /-- The server handles the next request of `k`. -/
  | serve (k now : Nat)
  /-- The client of `k` handles the next message sent to it. -/
  | deliver (k now : Nat)
  | close (k now : Nat)

def put (k : Nat) (c : Connection) (s : St) : St :=
  { s with connections := Function.update s.connections k (some c) }

/-- What a client does to itself and asks. -/
def acts (k : Nat) (c : Connection) (r : ChatClient × List Message) (s : St) : St :=
  put k { c with client := r.1, asked := c.asked ++ r.2 } s

/-- The line of a request, if it has one. -/
def posts (k : Nat) (request : Message) (m : SessionManager Nat) : List Posted :=
  (line? request).toList.map fun line => ⟨k, line, m.broadcast⟩

def next (s : St) : Ev → Option St
  | .accept onError username =>
    let added := s.store.mSessions.add s.made
    some (put s.made ⟨added.2, true, .start onError username, false, [], 0, 0, []⟩ { s with
      store := { s.store with mSessions := added.1 }, made := s.made + 1 })
  | .connected k now =>
    (s.connections k).bind fun c =>
      if c.isOpen && !c.connected then some (acts k { c with connected := true } (c.client.onConnect now) s) else none
  | .say k now line =>
    (s.connections k).bind fun c =>
      if c.isOpen && c.connected && line.text != "" then
        some (acts k { c with said := c.said ++ [line] } (c.client.say now line) s)
      else none
  | .serve k now =>
    (s.connections k).bind fun c =>
      c.asked[c.taken]?.bind fun request =>
        if c.isOpen then
          some (put k { c with taken := c.taken + 1 } { s with
            store := ((onMessage now c.uid request k).run exec s.store).1
            posted := s.posted ++ posts k request s.store.mSessions })
        else none
  | .deliver k now =>
    (s.connections k).bind fun c =>
      (pending s k c).head?.bind fun msg =>
        if c.isOpen && c.connected && c.client.mIsRunning then
          some (acts k { c with received := c.received + 1 } (c.client.handle now msg) s)
        else none
  | .close k now =>
    (s.connections k).bind fun c =>
      if c.isOpen then
        some (put k { c with isOpen := false } { s with store := ((onClose now c.uid).run exec s.store).1 })
      else none

/-! ## What is to be shown -/

/-- The entries a client has from its own user: those before its login was answered have no uid. -/
def own (c : Connection) : List ChatMessage :=
  c.client.ctx.mMessages.filter fun m => m.uid = 0#32 ∨ m.uid = c.uid

/-- Those it has from others. -/
def heard (c : Connection) : List ChatMessage :=
  c.client.ctx.mMessages.filter fun m => m.uid ≠ 0#32 ∧ m.uid ≠ c.uid

/-- Every request of an open client was handled, and it received all that was sent to it. -/
def Settled (s : St) : Prop :=
  ∀ k c, s.connections k = some c → c.isOpen = true → c.taken = c.asked.length ∧ pending s k c = []

/-- The lines of `a` the server handled. -/
def linesOf (posted : List Posted) (a : Nat) : List Line := (posted.filter fun x => x.author = a).map Posted.line

/-- Every line is shown once at its author, and once, in the order sent, at each other client it is
    for that was registered when it was handled. -/
structure ExactlyOnce (s : St) : Prop where
  uids : ∀ a ca, s.connections a = some ca → ca.uid ≠ 0#32 ∧
    ∀ b cb, s.connections b = some cb → ca.uid = cb.uid → a = b
  handled : ∀ a ca, s.connections a = some ca →
    linesOf s.posted a <+: ca.said ∧ (ca.isOpen = true → linesOf s.posted a = ca.said)
  echoed : ∀ a ca, s.connections a = some ca →
    (own ca).map (fun m => (m.isPrivate, m.text)) = ca.said.map fun line => (line.isPrivate, line.text)
  publicly : ∀ a ca b cb, a ≠ b → s.connections a = some ca → s.connections b = some cb → cb.isOpen = true →
    ((cb.client.ctx.mMessages.filter fun m => m.uid = ca.uid ∧ m.isPrivate = false).map ChatMessage.text) =
      (s.posted.filter fun x => x.author = a ∧ x.line.toUid = none ∧ b ∈ x.registered).map fun x => x.line.text
  privately : ∀ a ca b cb, a ≠ b → s.connections a = some ca → s.connections b = some cb → cb.isOpen = true →
    ((cb.client.ctx.mMessages.filter fun m => m.uid = ca.uid ∧ m.isPrivate = true).map ChatMessage.text) =
      (s.posted.filter fun x => x.author = a ∧ x.line.toUid = some cb.uid ∧ b ∈ x.registered).map fun x => x.line.text
  nobody : ∀ b cb, s.connections b = some cb → ∀ m ∈ cb.client.ctx.mMessages,
    m ∈ own cb ∨ ∃ a ca, a ≠ b ∧ s.connections a = some ca ∧ m.uid = ca.uid

/-! ## What a call sends -/

/-- What an entry tells, and what a line is to tell. -/
def told (m : ChatMessage) : BitVec 32 × Bool × String := (m.uid, m.isPrivate, m.text)

def Posted.told (x : Posted) : BitVec 32 × Bool × String := (sessionUid x.author, x.line.isPrivate, x.line.text)

/-- The line goes to the session `k`. -/
def goesTo (k : Nat) (x : Posted) : Bool :=
  k ∈ x.registered ∧ (x.line.toUid = none ∨ x.line.toUid = some (sessionUid k))

/-- A push that carries no entry but of others. -/
def Foreign (uid : BitVec 32) (msg : Message) : Prop := msg.type = .push ∧ ∀ m, entryOf? msg = some m → m.uid ≠ uid

theorem inbox_map {sessions : List Nat} (h : sessions.Nodup) (msg : Message) (k : Nat) :
    inbox (sessions.map (·, msg)) k = if k ∈ sessions then [msg] else [] := by
  induction sessions with
  | nil => rfl
  | cons j sessions ih =>
    obtain ⟨hj, hn⟩ := List.nodup_cons.mp h
    have hcons : inbox ((j :: sessions).map (·, msg)) k =
        (if j = k then [msg] else []) ++ inbox (sessions.map (·, msg)) k := by
      by_cases hjk : j = k <;> simp [inbox, hjk]
    rw [hcons, ih hn]
    by_cases hjk : j = k
    · subst hjk
      simp [hj]
    · simp [hjk, Ne.symm hjk]

variable {m : SessionManager Nat} {a j k : Nat}

/-- Each session is registered under its own uid only. -/
def OwnUid (m : SessionManager Nat) : Prop := ∀ u j, m.get u = some j → u = sessionUid j

theorem OwnUid.nodup (h : OwnUid m) : m.broadcast.Nodup :=
  SessionManager.nodup_broadcast fun u v j hu hv => (h u j hu).trans (h v j hv).symm

theorem OwnUid.mem_broadcast (h : OwnUid m) : j ∈ m.broadcast ↔ m.get (sessionUid j) = some j := by
  rw [SessionManager.mem_broadcast]
  constructor
  · rintro ⟨u, hu⟩
    exact h u j hu ▸ hu
  · intro hj
    exact ⟨_, hj⟩

/-- A push goes out as one message that carries at most an entry of the author's. -/
theorem inbox_push (now : Nat) (body : Json) {sessions : List Nat} (hn : sessions.Nodup)
    (hf : FromServer (makePush now body)) {entry : Option ChatMessage} (he : entryOf? (makePush now body) = entry)
    (hu : ∀ e ∈ entry, e.uid = sessionUid a) :
    (∀ msg ∈ inbox (sessions.map (·, makePush now body)) j, FromServer msg ∧ msg.type = .push ∧
      ∀ e, entryOf? msg = some e → e.uid = sessionUid a) ∧
    (inbox (sessions.map (·, makePush now body)) j).filterMap entryOf? = if j ∈ sessions then entry.toList else [] := by
  rw [inbox_map hn]
  constructor
  · intro msg hmsg
    split at hmsg
    · obtain rfl := List.mem_singleton.mp hmsg
      exact ⟨hf, rfl, fun e h => hu e (he ▸ h)⟩
    · cases hmsg
  · split
    · cases entry <;> simp [he]
    · rfl

theorem inbox_pushes (h : OwnUid m) (now : Nat) (call : Call) :
    (∀ msg ∈ inbox (call.pushes now (sessionUid a) m) j, FromServer msg ∧ msg.type = .push ∧
      ∀ e, entryOf? msg = some e → e.uid = sessionUid a) ∧
    ((inbox (call.pushes now (sessionUid a) m) j).filterMap entryOf?).map told =
      ((call.line?.toList.map fun line => (⟨a, line, m.broadcast⟩ : Posted)).filter (goesTo j)).map Posted.told := by
  cases call with
  | login name =>
    have hn : (m.setName (sessionUid a) name).broadcast.Nodup := OwnUid.nodup fun u j hu => h u j (by simpa using hu)
    obtain ⟨hall, he⟩ := inbox_push (a := a) (j := j) now _ hn (.joined now (sessionUid a) name)
      (entryOf?_userJoined now _ name) (by simp)
    refine ⟨hall, ?_⟩
    rw [Call.pushes, he]
    split <;> rfl
  | clientList => exact ⟨fun msg hmsg => absurd hmsg List.not_mem_nil, rfl⟩
  | sendPublic text =>
    obtain ⟨hall, he⟩ := inbox_push (a := a) (j := j) now _ h.nodup
      (.line now false (sessionUid a) (m.getName (sessionUid a)) text) (entryOf?_posting now false _ _ text) (by simp)
    refine ⟨hall, ?_⟩
    have he : (inbox (Call.pushes now (sessionUid a) m (.sendPublic text)) j).filterMap entryOf? = _ := he
    rw [he]
    by_cases hj : j ∈ m.broadcast <;> simp [hj, Call.line?, goesTo, told, Posted.told, Line.isPrivate]
  | sendPrivate toUid text =>
    have hn : (m.sendTo [toUid]).Nodup := by
      simp only [SessionManager.sendTo, List.filterMap_cons, List.filterMap_nil]
      cases m.get toUid <;> simp
    obtain ⟨hall, he⟩ := inbox_push (a := a) (j := j) now _ hn
      (.line now true (sessionUid a) (m.getName (sessionUid a)) text) (entryOf?_posting now true _ _ text) (by simp)
    refine ⟨hall, ?_⟩
    have he : (inbox (Call.pushes now (sessionUid a) m (.sendPrivate toUid text)) j).filterMap entryOf? = _ := he
    have hgoes : j ∈ m.sendTo [toUid] ↔ j ∈ m.broadcast ∧ toUid = sessionUid j := by
      rw [h.mem_broadcast, SessionManager.mem_sendTo]
      simp only [List.mem_singleton, exists_eq_left]
      constructor
      · intro hg
        obtain rfl := h toUid j hg
        exact ⟨hg, rfl⟩
      · rintro ⟨hg, rfl⟩
        exact hg
    rw [he]
    simp only [hgoes]
    by_cases hj : j ∈ m.broadcast ∧ toUid = sessionUid j <;>
      simp [hj, Call.line?, goesTo, told, Posted.told, Line.isPrivate]
  | ping => exact ⟨fun msg hmsg => absurd hmsg List.not_mem_nil, rfl⟩

/-! ## The invariant -/

/-- The login of a client, with the messages on the way to it: it has no uid and the callback waits,
    and the request was not handled, or the answer is ahead of every push of its own; or it has its
    uid. -/
inductive Login (c : Connection) (rest : List Message) : Prop where
  | asked (uid : c.client.ctx.mMyUid = 0#32)
    (callback : c.connected = true → c.client.mResponseCallbacks.lookup 1#32 = some (some .login))
    (taken : c.taken = 0) (foreign : ∀ msg ∈ rest, Foreign c.uid msg)
  | answered (uid : c.client.ctx.mMyUid = 0#32)
    (callback : c.client.mResponseCallbacks.lookup 1#32 = some (some .login)) (taken : 0 < c.taken)
    (pre : List Message) (time : Nat) (name : String) (m : SessionManager Nat) (post : List Message)
    (split : rest = pre ++ makeResponse time 1#32 (Call.result c.uid m (.login name)) :: post)
    (foreign : ∀ msg ∈ pre, Foreign c.uid msg)
  | received (uid : c.client.ctx.mMyUid = c.uid) (taken : 0 < c.taken)

structure Conn (sent : List (Nat × Message)) (posted : List Posted) (k : Nat) (c : Connection) : Prop where
  uid : c.uid = sessionUid k
  mClient : c.client.mClient = true
  mIsRunning : c.client.mIsRunning = true
  next_id : c.client.mNextRequestId = BitVec.ofNat 32 (c.asked.length + 1)
  calls : ∀ request ∈ c.asked, ∃ id call, ServerAppContext.read request = .ok (id, .inr call)
  taken : c.taken ≤ c.asked.length
  received : c.received ≤ (inbox sent k).length
  messages : ∀ msg ∈ inbox sent k, FromServer msg
  first : c.connected = true → ∃ request name, c.asked[0]? = some request ∧
    ServerAppContext.read request = .ok (1#32, .inr (.login name))
  fresh : c.connected = false → c.asked = [] ∧ c.client.mResponseCallbacks = ∅
  callbacks : ∀ id, c.client.mResponseCallbacks.lookup id = some (some .login) →
    id = 1#32 ∧ c.client.ctx.mMyUid = 0#32
  login : Login c ((inbox sent k).drop c.received)
  said : c.asked.filterMap line? = c.said
  handled : (c.asked.take c.taken).filterMap line? = linesOf posted k
  entries : ((inbox sent k).filterMap entryOf?).map told = (posted.filter (goesTo k)).map Posted.told
  own : (own c).map (fun m => (m.isPrivate, m.text)) = c.said.map fun line => (line.isPrivate, line.text)
  heard : heard c = (((inbox sent k).take c.received).filterMap entryOf?).filter fun m => m.uid ≠ c.uid

structure Inv (s : St) : Prop where
  next_uid : s.store.mSessions.mNextUid = sessionUid s.made
  get : ∀ u j, s.store.mSessions.get u = some j → j < s.made ∧ u = sessionUid j
  made : ∀ k, k < s.made ↔ (s.connections k).isSome
  sent : ∀ e ∈ s.store.sent, e.1 < s.made
  posted : ∀ x ∈ s.posted, x.author < s.made ∧ ∀ j ∈ x.registered, j < s.made
  conn : ∀ k c, s.connections k = some c → Conn s.store.sent s.posted k c

/-- A client that has no uid yet does not ask so often that the id of its login comes again. -/
def IdsLeft (s : St) : Ev → Prop
  | .say k _ _ => ∀ c, s.connections k = some c → c.client.ctx.mMyUid = 0#32 → c.asked.length < 2 ^ 32
  | _ => True

theorem inv_init : Inv init where
  next_uid := rfl
  get := by simp [init]
  made := by simp [init]
  sent := by simp [init]
  posted := by simp [init]
  conn := by simp [init]

variable {s s' : St} {c c' : Connection}

theorem sessionUid_ne_zero (hs : s.made < 2 ^ 32) (hk : k < s.made) : sessionUid k ≠ 0#32 := by
  intro h
  have := congrArg BitVec.toNat h
  simp only [sessionUid, BitVec.toNat_ofNat] at this
  omega

theorem Inv.lt (h : Inv s) (hc : s.connections k = some c) : k < s.made := (h.made k).mpr (by rw [hc]; rfl)

theorem Inv.sessionUid_inj {c d : Connection} (h : Inv s) (hs : s.made < 2 ^ 32) (hc : s.connections k = some c)
    (hd : s.connections j = some d) (he : sessionUid k = sessionUid j) : k = j :=
  ServerRun.sessionUid_inj (Nat.lt_trans (h.lt hc) hs) (Nat.lt_trans (h.lt hd) hs) he

/-- An entry on the way to a client has the uid of a session. -/
theorem Inv.entry_uid (h : Inv s) (hc : s.connections k = some c) {msg : Message} (hm : msg ∈ inbox s.store.sent k)
    {e : ChatMessage} (he : entryOf? msg = some e) : ∃ j < s.made, e.uid = sessionUid j := by
  have hin : told e ∈ ((inbox s.store.sent k).filterMap entryOf?).map told :=
    List.mem_map_of_mem (List.mem_filterMap.mpr ⟨msg, hm, he⟩)
  rw [(h.conn k c hc).entries] at hin
  obtain ⟨x, hx, hu⟩ := List.mem_map.mp hin
  exact ⟨x.author, (h.posted x (List.mem_of_mem_filter hx)).1, (congrArg Prod.fst hu).symm⟩

/-! ## A client's steps -/

theorem put_some {i : Nat} {d : Connection} (h : (put k c s).connections i = some d) :
    i = k ∧ d = c ∨ i ≠ k ∧ s.connections i = some d := by
  by_cases hi : i = k
  · subst hi
    simp only [put, Function.update_self, Option.some.injEq] at h
    exact .inl ⟨rfl, h.symm⟩
  · simp only [put, Function.update_of_ne hi] at h
    exact .inr ⟨hi, h⟩

theorem put_isSome (hc : s.connections k = some c) (i : Nat) :
    ((put k c' s).connections i).isSome = (s.connections i).isSome := by
  by_cases hi : i = k
  · subst hi
    simp [put, hc]
  · simp [put, Function.update_of_ne hi]

theorem inv_put (h : Inv s) (hc : s.connections k = some c) (hconn : Conn s.store.sent s.posted k c') :
    Inv (put k c' s) := by
  refine { h with made := ?_, conn := ?_ }
  · intro i
    rw [put_isSome hc]
    exact h.made i
  · intro i d hd
    rcases put_some hd with ⟨rfl, rfl⟩ | ⟨-, hd⟩
    · exact hconn
    · exact h.conn i d hd

variable {sent : List (Nat × Message)} {posted : List Posted}

/-- Past the first request, ids are not the login's. -/
theorem Conn.id_ne_one (h : Conn sent posted k c) (hcon : c.connected = true) (hb : c.asked.length < 2 ^ 32) :
    c.client.mNextRequestId ≠ 1#32 := by
  obtain ⟨request, name, hfirst, -⟩ := h.first hcon
  have hlt := (List.getElem?_eq_some_iff.mp hfirst).1
  rw [h.next_id]
  intro he
  have := congrArg BitVec.toNat he
  simp only [BitVec.toNat_ofNat] at this
  omega

theorem Login.uid_cases {rest : List Message} (h : Login c rest) :
    c.client.ctx.mMyUid = 0#32 ∨ c.client.ctx.mMyUid = c.uid := by
  cases h with
  | asked hu => exact .inl hu
  | answered hu => exact .inl hu
  | received hu => exact .inr hu

theorem Login.congr {rest : List Message} (h : Login c rest) (huid : c'.uid = c.uid) (hclient : c'.client = c.client)
    (hcon : c'.connected = c.connected) (htaken : c'.taken = c.taken) : Login c' rest := by
  cases h with
  | asked hu hcb ht hforeign =>
    exact .asked (hclient ▸ hu) (hclient ▸ hcon ▸ hcb) (htaken.trans ht) (huid ▸ hforeign)
  | answered hu hcb ht pre time name m post hsplit hforeign =>
    exact .answered (hclient ▸ hu) (hclient ▸ hcb) (htaken ▸ ht) pre time name m post (huid ▸ hsplit) (huid ▸ hforeign)
  | received hu ht => exact .received (huid ▸ hclient ▸ hu) (htaken ▸ ht)

theorem conn_connected (h : Conn sent posted k c) (hcon : c.connected = false) (now : Nat) :
    Conn sent posted k { c with
      connected := true
      client := (c.client.onConnect now).1
      asked := c.asked ++ (c.client.onConnect now).2 } := by
  obtain ⟨hasked, hcallbacks⟩ := h.fresh hcon
  have htaken : c.taken = 0 := by
    have := h.taken
    simp only [hasked, List.length_nil] at this
    omega
  have hid : c.client.mNextRequestId = 1#32 := by
    rw [h.next_id, hasked]
    rfl
  have hread := read_login now 1#32 c.client.ctx
  have hline : line? (makeRequest now 1#32 c.client.ctx.loginRequest.method c.client.ctx.loginRequest.params) =
      none := by
    simp [line?, call?, hread, Call.line?]
  have hr : c.client.onConnect now = ({ c.client with
      mNextRequestId := 1#32 + 1
      mResponseCallbacks := AList.insert 1#32 (some .login) ∅ },
      [makeRequest now 1#32 c.client.ctx.loginRequest.method c.client.ctx.loginRequest.params]) := by
    rw [ChatClient.onConnect, ChatClient.requestAsync, if_pos h.mIsRunning, hid, hcallbacks]
  have hlogin : c.client.ctx.mMyUid = 0#32 ∧ ∀ msg ∈ (inbox sent k).drop c.received, Foreign c.uid msg := by
    cases h.login with
    | asked hu hcallback ht hforeign => exact ⟨hu, hforeign⟩
    | answered hu hcallback ht => omega
    | received hu ht => omega
  rw [hr, hasked, List.nil_append]
  refine { h with
    next_id := rfl, calls := ?_, taken := ?_, first := fun _ => ⟨_, _, rfl, hread⟩
    fresh := by simp, callbacks := ?_, said := ?_, handled := ?_
    login := .asked hlogin.1 (fun _ => AList.lookup_insert _) htaken hlogin.2 }
  · intro request hq
    rw [List.mem_singleton.mp hq]
    exact ⟨_, _, hread⟩
  · simp [htaken]
  · intro id hl
    by_cases hi : id = 1#32
    · exact ⟨hi, hlogin.1⟩
    · rw [AList.lookup_insert_ne hi, AList.lookup_empty] at hl
      cases hl
  · simp [hline, ← h.said, hasked]
  · simp [htaken, ← h.handled]

theorem line?_of_read {request : Message} {id : BitVec 32} {call : Call}
    (h : ServerAppContext.read request = .ok (id, .inr call)) : line? request = call.line? := by
  simp [line?, call?, h]

/-- A request of the client's that is not its first, with what its user said by it. -/
theorem conn_request (h : Conn sent posted k c) (hcon : c.connected = true)
    (hb : c.client.ctx.mMyUid = 0#32 → c.asked.length < 2 ^ 32) {request : Message} {id : BitVec 32} {call : Call}
    (hread : ServerAppContext.read request = .ok (id, .inr call)) {callback : Callback} (hcallback : callback ≠ .login)
    {ctx : ClientAppContext} (huid : ctx.mMyUid = c.client.ctx.mMyUid)
    (hc : c' = { c with
      client := { c.client with
        ctx := ctx
        mNextRequestId := c.client.mNextRequestId + 1
        mResponseCallbacks := c.client.mResponseCallbacks.insert c.client.mNextRequestId (some callback) }
      asked := c.asked ++ [request]
      said := c.said ++ call.line?.toList })
    (hown : (own c').map (fun m => (m.isPrivate, m.text)) = c'.said.map fun line => (line.isPrivate, line.text))
    (hheard : heard c' = heard c) : Conn sent posted k c' := by
  have hlookup (hu : c.client.ctx.mMyUid = 0#32) :
      (c.client.mResponseCallbacks.insert c.client.mNextRequestId (some callback)).lookup 1#32 =
        c.client.mResponseCallbacks.lookup 1#32 := AList.lookup_insert_ne (Ne.symm (h.id_ne_one hcon (hb hu)))
  obtain ⟨first, name, hfirst, hname⟩ := h.first hcon
  subst hc
  refine { h with
    next_id := ?_, calls := ?_, taken := ?_, first := fun _ => ⟨first, name, ?_, hname⟩
    fresh := ?_, callbacks := ?_, login := ?_, said := ?_, handled := ?_, own := hown
    heard := hheard.trans h.heard }
  · simp [h.next_id, BitVec.ofNat_add]
  · intro r hr
    rcases List.mem_append.mp hr with hr | hr
    · exact h.calls r hr
    · rw [List.mem_singleton.mp hr]
      exact ⟨_, _, hread⟩
  · have := h.taken
    simp only [List.length_append, List.length_singleton]
    omega
  · exact ListAt.getElem?_append_some hfirst _
  · intro hf
    cases hcon.symm.trans hf
  · intro i hl
    by_cases hi : i = c.client.mNextRequestId
    · subst hi
      simp only [AList.lookup_insert, Option.some.injEq] at hl
      exact absurd hl hcallback
    · rw [AList.lookup_insert_ne hi] at hl
      exact huid ▸ h.callbacks i hl
  · cases h.login with
    | asked hu hcb ht hforeign => exact .asked (huid.trans hu) (fun _ => (hlookup hu).trans (hcb hcon)) ht hforeign
    | answered hu hcb ht pre time name m post hsplit hforeign =>
      exact .answered (huid.trans hu) ((hlookup hu).trans hcb) ht pre time name m post hsplit hforeign
    | received hu ht => exact .received (huid.trans hu) ht
  · rw [List.filterMap_append, h.said, List.filterMap_cons, line?_of_read hread]
    cases call.line? <;> rfl
  · rw [List.take_append_of_le_length h.taken]
    exact h.handled

theorem conn_say (h : Conn sent posted k c) (hcon : c.connected = true) {line : Line} (ht : line.text ≠ "") (now : Nat)
    (hb : c.client.ctx.mMyUid = 0#32 → c.asked.length < 2 ^ 32) :
    Conn sent posted k { c with
      client := (c.client.say now line).1
      asked := c.asked ++ (c.client.say now line).2
      said := c.said ++ [line] } := by
  obtain ⟨request, hread, hsay⟩ := ChatClient.say_eq now ht h.mClient h.mIsRunning
  rw [hsay]
  have hmine : c.client.ctx.mMyUid = 0#32 ∨ c.client.ctx.mMyUid = c.uid := h.login.uid_cases
  have huid : (ClientAppContext.echo line.isPrivate line.text c.client.ctx).mMyUid = c.client.ctx.mMyUid := rfl
  refine conn_request h hcon hb hread (by decide : Callback.nothing ≠ .login) huid
    (by rw [Line.line?_call]; rfl) ?_ ?_
  · have hown := h.own
    simp only [own, ClientAppContext.echo, ClientAppContext.addMessage, List.filter_append, List.map_append] at hown ⊢
    rw [hown]
    rcases hmine with hu | hu <;> simp [hu]
  · simp only [heard, ClientAppContext.echo, ClientAppContext.addMessage, List.filter_append]
    rcases hmine with hu | hu <;> simp [hu]

/-- An entry that comes in is heard from another. -/
theorem own_heard_append {c c' : Connection} {new : List ChatMessage} (hu : c'.uid = c.uid)
    (hm : c'.client.ctx.mMessages = c.client.ctx.mMessages ++ new)
    (hnew : ∀ m ∈ new, m.uid ≠ 0#32 ∧ m.uid ≠ c.uid) : own c' = own c ∧ heard c' = heard c ++ new := by
  have hout : new.filter (fun m => decide (m.uid = 0#32 ∨ m.uid = c.uid)) = [] :=
    List.filter_eq_nil_iff.mpr fun m hin => by simpa using hnew m hin
  have hin : new.filter (fun m => decide (m.uid ≠ 0#32 ∧ m.uid ≠ c.uid)) = new :=
    List.filter_eq_self.mpr fun m hin => by simpa using hnew m hin
  constructor
  · rw [own, own, hm, hu, List.filter_append, hout, List.append_nil]
  · rw [heard, heard, hm, hu, List.filter_append, hin]

/-- What a message carries that its client is to hear. -/
def hears (c : Connection) (msg : Message) : List ChatMessage := (entryOf? msg).toList.filter fun m => m.uid ≠ c.uid

/-- The client is through with a message, having heard what it carries. -/
theorem conn_receive (h : Conn sent posted k c) (hcon : c.connected = true) {msg : Message} {rest : List Message}
    (hrest : (inbox sent k).drop c.received = msg :: rest) (hzero : ∀ e, entryOf? msg = some e → e.uid ≠ 0#32)
    {ctx : ClientAppContext} {callbacks : ResponseCallbacks Callback}
    (hm : ctx.mMessages = c.client.ctx.mMessages ++ hears c msg)
    (hcallbacks : ∀ id, callbacks.lookup id = some (some .login) → id = 1#32 ∧ ctx.mMyUid = 0#32)
    (hlogin : Login { c with client := { c.client with ctx := ctx, mResponseCallbacks := callbacks } } rest) :
    Conn sent posted k { c with
      received := c.received + 1
      client := { c.client with ctx := ctx, mResponseCallbacks := callbacks } } := by
  obtain ⟨hget, hdrop⟩ := ListAt.drop_eq_cons hrest
  have hlt : c.received < (inbox sent k).length := (List.getElem?_eq_some_iff.mp hget).1
  have hnew : ∀ m ∈ hears c msg, m.uid ≠ 0#32 ∧ m.uid ≠ c.uid := by
    intro m hin
    obtain ⟨hin, hne⟩ := List.mem_filter.mp hin
    exact ⟨hzero m (Option.mem_toList.mp hin), by simpa using hne⟩
  obtain ⟨hown, hheard⟩ := @own_heard_append c { c with
    received := c.received + 1, client := { c.client with ctx := ctx, mResponseCallbacks := callbacks } } _ rfl hm hnew
  refine { h with
    received := hlt, fresh := ?_, callbacks := hcallbacks, login := ?_, own := ?_, heard := ?_ }
  · intro hf
    cases hcon.symm.trans hf
  · rw [hdrop]
    exact hlogin.congr rfl rfl rfl rfl
  · rw [hown]
    exact h.own
  · rw [hheard, h.heard, List.take_add_one, hget, Option.toList_some, List.filterMap_append, List.filter_append]
    rfl

/-- The answer to the login is handled: the client has its uid and asks for the list of clients. -/
theorem conn_login (h : Conn sent posted k c) (hcon : c.connected = true) (hne : c.uid ≠ 0#32) (ht : 0 < c.taken)
    (hcb : c.client.mResponseCallbacks.lookup 1#32 = some (some .login)) {time : Nat} {name : String}
    {m : SessionManager Nat} {rest : List Message}
    (hrest : (inbox sent k).drop c.received = makeResponse time 1#32 (Call.result c.uid m (.login name)) :: rest)
    (now : Nat) {msg : Message} (hmsg : msg = makeResponse time 1#32 (Call.result c.uid m (.login name))) :
    Conn sent posted k { c with
      received := c.received + 1
      client := (c.client.handle now msg).1
      asked := c.asked ++ (c.client.handle now msg).2 } := by
  have hentry := entryOf?_makeResponse time 1#32 (Call.result c.uid m (.login name))
  have hnone (id : BitVec 32) : (c.client.mResponseCallbacks.erase 1#32).lookup id ≠ some (some .login) := by
    by_cases hi : id = 1#32
    · subst hi
      simp
    · rw [AList.lookup_erase_ne hi]
      intro hl
      exact hi (h.callbacks id hl).1
  have hreceived : Conn sent posted k { c with
      received := c.received + 1
      client := { c.client with
        ctx := { c.client.ctx with mMyUid := c.uid, mMyName := name }
        mResponseCallbacks := c.client.mResponseCallbacks.erase 1#32 } } :=
    conn_receive h hcon hrest (by simp [hentry]) (by simp [hears, hentry]) (fun id hl => absurd hl (hnone id))
      (.received rfl ht)
  subst hmsg
  rw [handle_login now time 1#32 name c.uid m hcb, ChatClient.requestAsync, if_pos h.mIsRunning]
  refine conn_request hreceived hcon (fun h0 => absurd h0 hne) (read_clientList now c.client.mNextRequestId)
    (by decide : Callback.clientList ≠ .login) rfl ?_ ?_ rfl
  · simp [Call.line?]
  · exact hreceived.own

/-- A push is handled: what it carries is heard, if it is not the client's own. -/
theorem conn_push (h : Conn sent posted k c) (hcon : c.connected = true) {msg : Message} {rest : List Message}
    (hrest : (inbox sent k).drop c.received = msg :: rest) (hfrom : FromServer msg) (ht : msg.type = .push)
    (hzero : ∀ e, entryOf? msg = some e → e.uid ≠ 0#32)
    (hown : c.client.ctx.mMyUid = 0#32 → ∀ e, entryOf? msg = some e → e.uid ≠ c.uid)
    (hlogin : ∀ ctx : ClientAppContext, ctx.mMyUid = c.client.ctx.mMyUid →
      Login { c with client := { c.client with ctx := ctx } } rest) (now : Nat) :
    Conn sent posted k { c with
      received := c.received + 1
      client := (c.client.handle now msg).1
      asked := c.asked ++ (c.client.handle now msg).2 } := by
  obtain ⟨ctx, hhandle, hsame, hm⟩ := handle_fromServer_push now hfrom ht c.client
  have hshown : shown c.client.ctx.mMyUid msg = hears c msg := by
    unfold shown hears
    rcases h.login.uid_cases with hu | hu
    · cases he : entryOf? msg with
      | none => rfl
      | some e => simp [hu, hzero e he, hown hu e he]
    · rw [hu]
  rw [hhandle, List.append_nil]
  exact conn_receive h hcon hrest hzero (hm.trans (by rw [hshown]))
    (fun id hl => hsame.uid ▸ h.callbacks id hl) (hlogin ctx hsame.uid)

theorem conn_deliver (h : Conn sent posted k c) (hcon : c.connected = true) (hne : c.uid ≠ 0#32) {msg : Message}
    (hmsg : ((inbox sent k).drop c.received).head? = some msg)
    (hzero : ∀ msg ∈ inbox sent k, ∀ e, entryOf? msg = some e → e.uid ≠ 0#32) (now : Nat) :
    Conn sent posted k { c with
      received := c.received + 1
      client := (c.client.handle now msg).1
      asked := c.asked ++ (c.client.handle now msg).2 } := by
  have hrest := ListAt.drop_of_head? hmsg
  have hmem : msg ∈ inbox sent k := List.mem_of_getElem? (ListAt.drop_eq_cons hrest).1
  have hfrom := h.messages msg hmem
  have hlogin := h.login
  rw [hrest] at hlogin
  cases hlogin with
  | asked hu hcb ht hforeign =>
    obtain ⟨hpush, hother⟩ := hforeign msg List.mem_cons_self
    refine conn_push h hcon hrest hfrom hpush (hzero msg hmem) (fun _ => hother) ?_ now
    intro ctx hctx
    exact .asked (hctx.trans hu) hcb ht fun m hm => hforeign m (List.mem_cons_of_mem msg hm)
  | answered hu hcb ht pre time name m post hsplit hforeign =>
    cases pre with
    | nil =>
      obtain ⟨rfl, rfl⟩ := List.cons.inj hsplit
      exact conn_login h hcon hne ht hcb hrest now rfl
    | cons p pre =>
      obtain ⟨rfl, hpost⟩ := List.cons.inj hsplit
      obtain ⟨hpush, hother⟩ := hforeign msg List.mem_cons_self
      refine conn_push h hcon hrest hfrom hpush (hzero msg hmem) (fun _ => hother) ?_ now
      intro ctx hctx
      exact .answered (hctx.trans hu) hcb ht pre time name m post hpost fun m hm =>
        hforeign m (List.mem_cons_of_mem msg hm)
  | received hu ht =>
    by_cases hpush : msg.type = .push
    · refine conn_push h hcon hrest hfrom hpush (hzero msg hmem) (fun h0 => absurd (hu.symm.trans h0) hne)
        (fun ctx hctx => .received (hctx.trans hu) ht) now
    · cases hfrom with
      | answer time id call uid m =>
        have hlookup : c.client.mResponseCallbacks.lookup id ≠ some (some .login) := fun hl =>
          hne (hu.symm.trans (h.callbacks id hl).2)
        obtain ⟨ctx, callbacks, hhandle, hsame, hm, hcb⟩ := handle_fromServer_answer now time id call uid m hlookup
        have hentry := entryOf?_makeResponse time id (call.result uid m)
        rw [hhandle, List.append_nil]
        refine conn_receive h hcon hrest (by simp [hentry]) (by simp [hm, hears, hentry]) ?_
          (.received (hsame.uid.trans hu) ht)
        intro i hl
        rw [hsame.uid]
        exact h.callbacks i (lookup_of_handled hcb hl)
      | _ => exact absurd rfl hpush

/-! ## The server's steps -/

/-- More is sent, and more lines were handled. -/
theorem conn_grow (h : Conn sent posted k c) {new : List (Nat × Message)} {more : List Posted}
    (hfrom : ∀ msg ∈ inbox new k, FromServer msg)
    (hentries : ((inbox new k).filterMap entryOf?).map told = (more.filter (goesTo k)).map Posted.told) {taken : Nat}
    (htaken : taken ≤ c.asked.length) (hhandled : (c.asked.take taken).filterMap line? = linesOf (posted ++ more) k)
    (hlogin : Login { c with taken := taken } ((inbox sent k).drop c.received ++ inbox new k)) :
    Conn (sent ++ new) (posted ++ more) k { c with taken := taken } := by
  refine { h with
    taken := htaken, received := ?_, messages := ?_, login := ?_, handled := hhandled
    entries := ?_, heard := ?_ }
  · rw [inbox_append, List.length_append]
    exact Nat.le_trans h.received (Nat.le_add_right _ _)
  · intro msg hm
    rw [inbox_append] at hm
    rcases List.mem_append.mp hm with hm | hm
    · exact h.messages msg hm
    · exact hfrom msg hm
  · rw [inbox_append, List.drop_append_of_le_length h.received]
    exact hlogin
  · rw [inbox_append, List.filterMap_append, List.map_append, h.entries, hentries, List.filter_append, List.map_append]
  · rw [inbox_append, List.take_append_of_le_length h.received]
    exact h.heard

/-- To a client that is not the author. -/
theorem conn_other (h : Conn sent posted k c) {new : List (Nat × Message)} {more : List Posted}
    (hfrom : ∀ msg ∈ inbox new k, FromServer msg) (hforeign : ∀ msg ∈ inbox new k, Foreign c.uid msg)
    (hentries : ((inbox new k).filterMap entryOf?).map told = (more.filter (goesTo k)).map Posted.told)
    (hauthor : ∀ x ∈ more, x.author ≠ k) : Conn (sent ++ new) (posted ++ more) k c := by
  have hnone : more.filter (fun x => decide (x.author = k)) = [] :=
    List.filter_eq_nil_iff.mpr fun x hx => by simpa using hauthor x hx
  refine conn_grow h hfrom hentries h.taken ?_ ?_
  · rw [h.handled, linesOf, linesOf, List.filter_append, hnone, List.append_nil]
  · cases h.login with
    | asked hu hcb ht hf =>
      refine .asked hu hcb ht ?_
      intro msg hm
      rcases List.mem_append.mp hm with hm | hm
      · exact hf msg hm
      · exact hforeign msg hm
    | answered hu hcb ht pre time name m post hsplit hf =>
      exact .answered hu hcb ht pre time name m (post ++ inbox new k) (by rw [hsplit]; simp) hf
    | received hu ht => exact .received hu ht

/-- To the author itself, whose request it was: the answer comes after the pushes. -/
theorem conn_author (h : Conn sent posted k c) {request : Message} (hq : c.asked[c.taken]? = some request)
    {id : BitVec 32} {call : Call} (hread : ServerAppContext.read request = .ok (id, .inr call)) (hm : OwnUid m)
    (now : Nat) :
    Conn (sent ++ (call.pushes now c.uid m ++ [(k, makeResponse now id (call.result c.uid m))]))
      (posted ++ posts k request m) k { c with taken := c.taken + 1 } := by
  obtain ⟨hpushes, hentries⟩ := @inbox_pushes m k k hm now call
  rw [← h.uid] at hpushes hentries
  have hline := line?_of_read hread
  have hinbox : inbox (call.pushes now c.uid m ++ [(k, makeResponse now id (call.result c.uid m))]) k =
      inbox (call.pushes now c.uid m) k ++ [makeResponse now id (call.result c.uid m)] := by
    rw [inbox_append, inbox_self]
  refine conn_grow h (fun msg hin => ?_) ?_ (List.getElem?_eq_some_iff.mp hq).1 ?_ ?_
  · rw [hinbox] at hin
    rcases List.mem_append.mp hin with hin | hin
    · exact (hpushes msg hin).1
    · rw [List.mem_singleton.mp hin]
      exact .answer now id call c.uid m
  · rw [hinbox, List.filterMap_append, List.map_append, hentries, posts, hline]
    simp [entryOf?_makeResponse]
  · have hposts : linesOf (posts k request m) k = (line? request).toList := by
      cases hl : line? request <;> simp [linesOf, posts, hl]
    rw [List.take_add_one, hq, Option.toList_some, List.filterMap_append, h.handled]
    rw [linesOf, linesOf, List.filter_append, List.map_append]
    congr 1
    rw [← linesOf, hposts]
    cases hl : line? request <;> simp [hl]
  · rw [hinbox]
    cases h.login with
    | asked hu hcb ht hforeign =>
      have hcon : c.connected = true := by
        by_contra hcon
        simp [(h.fresh (by simpa using hcon)).1] at hq
      obtain ⟨first, name, hfirst, hname⟩ := h.first hcon
      obtain rfl : first = request := Option.some.inj (hfirst.symm.trans (ht ▸ hq))
      obtain ⟨rfl, hcall⟩ := Prod.mk.inj (Except.ok.inj (hname.symm.trans hread))
      obtain rfl := Sum.inr.inj hcall
      -- The push of a login carries no entry.
      have hnone : ∀ msg ∈ inbox (Call.pushes now c.uid m (.login name)) k, Foreign c.uid msg := by
        intro msg hin
        refine ⟨(hpushes msg hin).2.1, ?_⟩
        intro e he
        have hmem : told e ∈ ((inbox (Call.pushes now c.uid m (.login name)) k).filterMap entryOf?).map told :=
          List.mem_map_of_mem (List.mem_filterMap.mpr ⟨msg, hin, he⟩)
        rw [hentries] at hmem
        simp [Call.line?] at hmem
      refine .answered hu (hcb hcon) (Nat.succ_pos _)
        ((inbox sent k).drop c.received ++ inbox (Call.pushes now c.uid m (.login name)) k) now name m [] (by simp) ?_
      intro msg hin
      rcases List.mem_append.mp hin with hin | hin
      · exact hforeign msg hin
      · exact hnone msg hin
    | answered hu hcb ht pre time name m' post hsplit hforeign =>
      exact .answered hu hcb (Nat.succ_pos _) pre time name m' _ (by rw [hsplit, List.append_assoc]; rfl) hforeign
    | received hu ht => exact .received hu (Nat.succ_pos _)

/-- The server sends, and perhaps handled a line: nothing else of what `Inv` says changes. -/
theorem inv_send (h : Inv s) (hc : s.connections k = some c) {mSessions : SessionManager Nat}
    (hnext : mSessions.mNextUid = s.store.mSessions.mNextUid)
    (hget : ∀ u j, mSessions.get u = some j → s.store.mSessions.get u = some j) {new : List (Nat × Message)}
    (hnew : ∀ e ∈ new, e.1 < s.made) {more : List Posted}
    (hmore : ∀ x ∈ more, x.author = k ∧ ∀ j ∈ x.registered, j < s.made)
    (hself : Conn (s.store.sent ++ new) (s.posted ++ more) k c')
    (hothers : ∀ j d, j ≠ k → s.connections j = some d → Conn (s.store.sent ++ new) (s.posted ++ more) j d) :
    Inv (put k c' { s with store := ⟨mSessions, s.store.sent ++ new⟩, posted := s.posted ++ more }) := by
  refine ⟨hnext.trans h.next_uid, ?_, ?_, ?_, ?_, ?_⟩
  · intro u j hg
    exact h.get u j (hget u j hg)
  · intro i
    rw [put_isSome (s := { s with store := ⟨mSessions, s.store.sent ++ new⟩, posted := s.posted ++ more }) hc]
    exact h.made i
  · intro e he
    rcases List.mem_append.mp he with he | he
    · exact h.sent e he
    · exact hnew e he
  · intro x hx
    rcases List.mem_append.mp hx with hx | hx
    · exact h.posted x hx
    · obtain ⟨ha, hr⟩ := hmore x hx
      refine ⟨?_, hr⟩
      rw [ha]
      exact h.lt hc
  · intro i d hd
    rcases put_some hd with ⟨rfl, rfl⟩ | ⟨hi, hd⟩
    · exact hself
    · exact hothers i d hi hd

theorem pushes_registered {now : Nat} {uid : BitVec 32} {call : Call} {e : Nat × Message}
    (he : e ∈ call.pushes now uid m) : ∃ u, m.get u = some e.1 := by
  cases call with
  | login name =>
    obtain ⟨i, hi, rfl⟩ := List.mem_map.mp he
    simpa [SessionManager.mem_broadcast] using hi
  | clientList => cases he
  | sendPublic text =>
    obtain ⟨i, hi, rfl⟩ := List.mem_map.mp he
    exact SessionManager.mem_broadcast.mp hi
  | sendPrivate toUid text =>
    obtain ⟨i, hi, rfl⟩ := List.mem_map.mp he
    obtain ⟨u, -, hu⟩ := SessionManager.mem_sendTo.mp hi
    exact ⟨u, hu⟩
  | ping => cases he

theorem Inv.ownUid (h : Inv s) : OwnUid s.store.mSessions := fun u j hg => (h.get u j hg).2

theorem inv_serve (h : Inv s) (hs : s.made < 2 ^ 32) (hc : s.connections k = some c) {request : Message}
    (hq : c.asked[c.taken]? = some request) (now : Nat) :
    Inv (put k { c with taken := c.taken + 1 } { s with
      store := ((onMessage now c.uid request k).run exec s.store).1
      posted := s.posted ++ posts k request s.store.mSessions }) := by
  have hconn := h.conn k c hc
  obtain ⟨id, call, hread⟩ := hconn.calls request (List.mem_of_getElem? hq)
  have hm := h.ownUid
  have hsetName (m : SessionManager Nat) (u : BitVec 32) (name : String) :
      (m.setName u name).mNextUid = m.mNextUid := by
    unfold SessionManager.setName
    split <;> rfl
  rw [onMessage_call hread]
  refine inv_send h hc ?_ ?_ ?_ ?_ (conn_author hconn hq hread hm now) ?_
  · cases call with
    | login name => exact hsetName _ _ name
    | _ => rfl
  · intro u j hg
    cases call with
    | login name => simpa [Call.sessions] using hg
    | _ => exact hg
  · intro e he
    rcases List.mem_append.mp he with he | he
    · obtain ⟨u, hu⟩ := pushes_registered he
      exact (h.get u _ hu).1
    · rw [List.mem_singleton.mp he]
      exact h.lt hc
  · intro x hx
    obtain ⟨line, -, rfl⟩ := List.mem_map.mp hx
    refine ⟨rfl, ?_⟩
    intro j hj
    obtain ⟨u, hu⟩ := SessionManager.mem_broadcast.mp hj
    exact (h.get u j hu).1
  · intro j d hj hd
    have hdconn := h.conn j d hd
    obtain ⟨hpushes, hentries⟩ := @inbox_pushes s.store.mSessions k j hm now call
    rw [← hconn.uid] at hpushes hentries
    have hinbox : inbox (call.pushes now c.uid s.store.mSessions ++
        [(k, makeResponse now id (call.result c.uid s.store.mSessions))]) j =
          inbox (call.pushes now c.uid s.store.mSessions) j := by
      rw [inbox_append, inbox_other (Ne.symm hj), List.append_nil]
    refine conn_other hdconn ?_ ?_ ?_ ?_
    · intro msg hin
      rw [hinbox] at hin
      exact (hpushes msg hin).1
    · intro msg hin
      rw [hinbox] at hin
      refine ⟨(hpushes msg hin).2.1, fun e he heq => hj ?_⟩
      have hu := (hpushes msg hin).2.2 e he
      rw [heq, hconn.uid, hdconn.uid] at hu
      exact h.sessionUid_inj hs hd hc hu
    · rw [hinbox, hentries, posts, line?_of_read hread]
    · intro x hx
      obtain ⟨line, -, rfl⟩ := List.mem_map.mp hx
      exact Ne.symm hj

theorem inv_close (h : Inv s) (hc : s.connections k = some c) (now : Nat) :
    Inv (put k { c with isOpen := false } { s with store := ((onClose now c.uid).run exec s.store).1 }) := by
  have hconn := h.conn k c hc
  have hget (u : BitVec 32) (j : Nat) (hg : (s.store.mSessions.remove c.uid).get u = some j) :
      s.store.mSessions.get u = some j := by
    simp only [SessionManager.get_remove, Option.ite_none_left_eq_some] at hg
    exact hg.2
  have hm : OwnUid (s.store.mSessions.remove c.uid) := fun u j hg => h.ownUid u j (hget u j hg)
  have hgrow {j : Nat} {d : Connection} (hd : Conn s.store.sent s.posted j d) :
      Conn (s.store.sent ++ (s.store.mSessions.remove c.uid).broadcast.map (·, makePush now (userLeft c.uid)))
        (s.posted ++ []) j d := by
    obtain ⟨hpushes, hentries⟩ := @inbox_push k j now _ _ hm.nodup (.left now c.uid) _ (entryOf?_userLeft now c.uid) nofun
    refine conn_other hd (fun msg hin => (hpushes msg hin).1) ?_ ?_ (by simp)
    · intro msg hin
      refine ⟨(hpushes msg hin).2.1, ?_⟩
      intro e he
      have hmem := List.mem_filterMap.mpr ⟨msg, hin, he⟩
      rw [hentries] at hmem
      simp at hmem
    · rw [hentries]
      split <;> rfl
  have hself := hgrow hconn
  have hinv : Inv (put k { c with isOpen := false } { s with
      store := ⟨s.store.mSessions.remove c.uid, s.store.sent ++
        (s.store.mSessions.remove c.uid).broadcast.map (·, makePush now (userLeft c.uid))⟩
      posted := s.posted ++ [] }) := by
    have hnext : (s.store.mSessions.remove c.uid).mNextUid = s.store.mSessions.mNextUid := rfl
    refine inv_send h hc hnext hget ?_ (by simp) { hself with login := hself.login.congr rfl rfl rfl rfl }
      (fun j d _ hd => hgrow (h.conn j d hd))
    intro e he
    obtain ⟨i, hi, rfl⟩ := List.mem_map.mp he
    obtain ⟨u, hu⟩ := SessionManager.mem_broadcast.mp hi
    exact (h.get u i (hget u i hu)).1
  rw [run_onClose]
  rwa [List.append_nil] at hinv

/-- A new session: nothing was sent to it, and no line went to it or came from it. -/
theorem inv_accept (h : Inv s) (onError : Bool) (username : String) :
    Inv (put s.made ⟨(s.store.mSessions.add s.made).2, true, .start onError username, false, [], 0, 0, []⟩ { s with
      store := { s.store with mSessions := (s.store.mSessions.add s.made).1 }, made := s.made + 1 }) := by
  have hinbox : inbox s.store.sent s.made = [] := inbox_eq_nil fun e he => Nat.ne_of_lt (h.sent e he)
  have hlines : linesOf s.posted s.made = [] := by
    rw [linesOf, List.filter_eq_nil_iff.mpr, List.map_nil]
    intro x hx
    simpa using Nat.ne_of_lt (h.posted x hx).1
  have hgoes : s.posted.filter (goesTo s.made) = [] := by
    refine List.filter_eq_nil_iff.mpr ?_
    intro x hx
    have hnot : s.made ∉ x.registered := fun hr => Nat.lt_irrefl _ ((h.posted x hx).2 _ hr)
    simp [goesTo, hnot]
  refine ⟨?_, ?_, ?_, fun e he => Nat.lt_succ_of_lt (h.sent e he), ?_, ?_⟩
  · simp [put, SessionManager.add, h.next_uid, sessionUid, BitVec.ofNat_add]
  · intro u j hg
    simp only [put, SessionManager.get_add] at hg ⊢
    split at hg
    · rename_i hu
      cases hg
      exact ⟨Nat.lt_succ_self _, hu.trans h.next_uid⟩
    · obtain ⟨hj, hu⟩ := h.get u j hg
      exact ⟨Nat.lt_succ_of_lt hj, hu⟩
  · intro i
    by_cases hi : i = s.made
    · subst hi
      simp [put]
    · have := h.made i
      simp only [put, Function.update_of_ne hi, ← this]
      omega
  · intro x hx
    obtain ⟨ha, hr⟩ := h.posted x hx
    exact ⟨Nat.lt_succ_of_lt ha, fun j hj => Nat.lt_succ_of_lt (hr j hj)⟩
  · intro i d hd
    by_cases hi : i = s.made
    · subst hi
      simp only [put, Function.update_self, Option.some.injEq] at hd
      subst hd
      refine ⟨h.next_uid, rfl, rfl, rfl, by simp, Nat.le_refl _, Nat.zero_le _, ?_, by simp, fun _ => ⟨rfl, rfl⟩, ?_, ?_,
        rfl, ?_, ?_, rfl, ?_⟩
      · simp [put, hinbox]
      · simp [ChatClient.start]
      · exact .asked rfl (by simp) rfl (by simp [put, hinbox])
      · simp [put, hlines]
      · simp [put, hinbox, hgoes]
      · simp [heard, ChatClient.start, ClientAppContext.init]
    · simp only [put, Function.update_of_ne hi] at hd
      exact h.conn i d hd

/-! ## Runs -/

/-- A step changes or adds one connection. -/
theorem next_put {e : Ev} (hn : ∀ k c, s.connections k = some c → k < s.made) (he : next s e = some s') :
    ∃ k c' t, s' = put k c' t ∧ t.connections = s.connections ∧ s.made ≤ t.made ∧ k < t.made ∧
      ∀ c, s.connections k = some c → c.isOpen = true := by
  cases e with
  | accept onError username =>
    cases he
    exact ⟨_, _, _, rfl, rfl, Nat.le_succ _, Nat.lt_succ_self _, fun c hc => absurd (hn _ c hc) (Nat.lt_irrefl _)⟩
  | connected k now =>
    obtain ⟨c, hc, he⟩ := Option.bind_eq_some_iff.mp he
    simp only [Option.ite_none_right_eq_some, Option.some.injEq, Bool.and_eq_true] at he
    obtain ⟨⟨ho, -⟩, rfl⟩ := he
    exact ⟨_, _, _, rfl, rfl, Nat.le_refl _, hn k c hc, fun d hd => Option.some.inj (hc.symm.trans hd) ▸ ho⟩
  | say k now line =>
    obtain ⟨c, hc, he⟩ := Option.bind_eq_some_iff.mp he
    simp only [Option.ite_none_right_eq_some, Option.some.injEq, Bool.and_eq_true] at he
    obtain ⟨⟨⟨ho, -⟩, -⟩, rfl⟩ := he
    exact ⟨_, _, _, rfl, rfl, Nat.le_refl _, hn k c hc, fun d hd => Option.some.inj (hc.symm.trans hd) ▸ ho⟩
  | serve k now =>
    obtain ⟨c, hc, he⟩ := Option.bind_eq_some_iff.mp he
    obtain ⟨request, -, he⟩ := Option.bind_eq_some_iff.mp he
    simp only [Option.ite_none_right_eq_some, Option.some.injEq] at he
    obtain ⟨ho, rfl⟩ := he
    exact ⟨_, _, _, rfl, rfl, Nat.le_refl _, hn k c hc, fun d hd => Option.some.inj (hc.symm.trans hd) ▸ ho⟩
  | deliver k now =>
    obtain ⟨c, hc, he⟩ := Option.bind_eq_some_iff.mp he
    obtain ⟨msg, -, he⟩ := Option.bind_eq_some_iff.mp he
    simp only [Option.ite_none_right_eq_some, Option.some.injEq, Bool.and_eq_true] at he
    obtain ⟨⟨⟨ho, -⟩, -⟩, rfl⟩ := he
    exact ⟨_, _, _, rfl, rfl, Nat.le_refl _, hn k c hc, fun d hd => Option.some.inj (hc.symm.trans hd) ▸ ho⟩
  | close k now =>
    obtain ⟨c, hc, he⟩ := Option.bind_eq_some_iff.mp he
    simp only [Option.ite_none_right_eq_some, Option.some.injEq] at he
    obtain ⟨ho, rfl⟩ := he
    exact ⟨_, _, _, rfl, rfl, Nat.le_refl _, hn k c hc, fun d hd => Option.some.inj (hc.symm.trans hd) ▸ ho⟩

theorem inv_next {e : Ev} (h : Inv s) (hs : s.made < 2 ^ 32) (hids : IdsLeft s e) (he : next s e = some s') :
    Inv s' := by
  cases e with
  | accept onError username =>
    cases he
    exact inv_accept h onError username
  | connected k now =>
    obtain ⟨c, hc, he⟩ := Option.bind_eq_some_iff.mp he
    simp only [Option.ite_none_right_eq_some, Option.some.injEq, Bool.and_eq_true, Bool.not_eq_true'] at he
    obtain ⟨⟨-, hcon⟩, rfl⟩ := he
    exact inv_put h hc (conn_connected (h.conn k c hc) hcon now)
  | say k now line =>
    obtain ⟨c, hc, he⟩ := Option.bind_eq_some_iff.mp he
    simp only [Option.ite_none_right_eq_some, Option.some.injEq, Bool.and_eq_true, bne_iff_ne] at he
    obtain ⟨⟨⟨-, hcon⟩, ht⟩, rfl⟩ := he
    exact inv_put h hc (conn_say (h.conn k c hc) hcon ht now (hids c hc))
  | serve k now =>
    obtain ⟨c, hc, he⟩ := Option.bind_eq_some_iff.mp he
    obtain ⟨request, hq, he⟩ := Option.bind_eq_some_iff.mp he
    simp only [Option.ite_none_right_eq_some, Option.some.injEq] at he
    obtain ⟨-, rfl⟩ := he
    exact inv_serve h hs hc hq now
  | deliver k now =>
    obtain ⟨c, hc, he⟩ := Option.bind_eq_some_iff.mp he
    obtain ⟨msg, hm, he⟩ := Option.bind_eq_some_iff.mp he
    simp only [Option.ite_none_right_eq_some, Option.some.injEq, Bool.and_eq_true] at he
    obtain ⟨⟨⟨-, hcon⟩, -⟩, rfl⟩ := he
    have hconn := h.conn k c hc
    have hne : c.uid ≠ 0#32 := hconn.uid ▸ sessionUid_ne_zero hs (h.lt hc)
    refine inv_put h hc (conn_deliver hconn hcon hne hm ?_ now)
    intro msg hin e he
    obtain ⟨j, hj, hu⟩ := h.entry_uid hc hin he
    exact hu ▸ sessionUid_ne_zero hs hj
  | close k now =>
    obtain ⟨c, hc, he⟩ := Option.bind_eq_some_iff.mp he
    simp only [Option.ite_none_right_eq_some, Option.some.injEq] at he
    obtain ⟨-, rfl⟩ := he
    exact inv_close h hc now

/-- Connections are numbered in the order they were accepted. -/
def Numbered (s : St) : Prop := ∀ k c, s.connections k = some c → k < s.made

theorem numbered_next {e : Ev} (h : Numbered s) (he : next s e = some s') : Numbered s' := by
  obtain ⟨k, c', t, rfl, ht, hle, hk, -⟩ := next_put h he
  intro i d hd
  by_cases hik : i = k
  · exact hik ▸ hk
  · simp only [put, Function.update_of_ne hik, ht] at hd
    exact Nat.lt_of_lt_of_le (h i d hd) hle

theorem made_le {e : Ev} (h : Numbered s) (he : next s e = some s') : s.made ≤ s'.made := by
  obtain ⟨k, c', t, rfl, -, hle, -⟩ := next_put h he
  exact hle

theorem run_numbered (hrun : Machine.Run next Machine.any init s) : Numbered s :=
  Machine.run_invariant Numbered (by simp [Numbered, init]) (fun _ _ _ h _ he => numbered_next h he) hrun

theorem run_inv (hrun : Machine.Run next IdsLeft init s) (hmade : s.made < 2 ^ 32) : Inv s := by
  have h : Numbered s ∧ (s.made < 2 ^ 32 → Inv s) := by
    refine Machine.run_invariant (fun s => Numbered s ∧ (s.made < 2 ^ 32 → Inv s))
      ⟨by simp [Numbered, init], fun _ => inv_init⟩ ?_ hrun
    intro s e s' ih hids he
    obtain ⟨hn, hi⟩ := ih
    refine ⟨numbered_next hn he, ?_⟩
    intro hs'
    have hs : s.made < 2 ^ 32 := Nat.lt_of_le_of_lt (made_le hn he) hs'
    exact inv_next (hi hs) hs hids he
  exact h.2 hmade

/-! ## Exactly once -/

/-- What a client with nothing on the way to it has from another: the lines that went to it. -/
theorem heard_from {b : Nat} {ca cb : Connection} (h : Inv s) (hs : s.made < 2 ^ 32) (hab : a ≠ b)
    (ha : s.connections a = some ca) (hcb : s.connections b = some cb) (hp : pending s b cb = []) (isPrivate : Bool) :
    ((cb.client.ctx.mMessages.filter fun m => m.uid = ca.uid ∧ m.isPrivate = isPrivate).map ChatMessage.text) =
      (s.posted.filter fun x => x.author = a ∧ x.line.isPrivate = isPrivate ∧ goesTo b x).map fun x => x.line.text := by
  have hca := h.conn a ca ha
  have hconn := h.conn b cb hcb
  have hzero : ca.uid ≠ 0#32 := hca.uid ▸ sessionUid_ne_zero hs (h.lt ha)
  have hne : ca.uid ≠ cb.uid := by
    rw [hca.uid, hconn.uid]
    exact fun he => hab (h.sessionUid_inj hs ha hcb he)
  have hall : (inbox s.store.sent b).take cb.received = inbox s.store.sent b :=
    List.take_of_length_le (List.drop_eq_nil_iff.mp hp)
  have hheard := hconn.heard
  rw [hall] at hheard
  let mine : BitVec 32 × Bool × String → Bool := fun t => t.1 = ca.uid ∧ t.2.1 = isPrivate
  calc ((cb.client.ctx.mMessages.filter fun m => m.uid = ca.uid ∧ m.isPrivate = isPrivate).map ChatMessage.text)
      = ((heard cb).filter (mine ∘ told)).map ChatMessage.text := by
        rw [heard, List.filter_filter]
        congr 1
        refine List.filter_congr ?_
        intro m _
        by_cases hu : m.uid = ca.uid <;> simp [mine, told, hu, hzero, hne]
    _ = (((inbox s.store.sent b).filterMap entryOf?).filter (mine ∘ told)).map ChatMessage.text := by
        rw [hheard, List.filter_filter]
        congr 1
        refine List.filter_congr ?_
        intro m _
        by_cases hu : m.uid = ca.uid <;> simp [mine, told, hu, hne]
    _ = ((((inbox s.store.sent b).filterMap entryOf?).map told).filter mine).map fun t => t.2.2 := by
        rw [List.filter_map, List.map_map]
        rfl
    _ = (((s.posted.filter (goesTo b)).map Posted.told).filter mine).map fun t => t.2.2 := by rw [hconn.entries]
    _ = _ := by
        rw [List.filter_map, List.map_map, List.filter_filter]
        refine congrArg (List.map _) (List.filter_congr ?_)
        intro x hx
        have hauthor : sessionUid x.author = ca.uid ↔ x.author = a := by
          rw [hca.uid]
          have hlt := Nat.lt_trans (h.posted x hx).1 hs
          exact ⟨sessionUid_inj hlt (Nat.lt_trans (h.lt ha) hs), fun he => he ▸ rfl⟩
        by_cases hx : x.author = a
        · have hu := hauthor.mpr hx
          subst hx
          by_cases hl : x.line.isPrivate = isPrivate <;> simp [mine, Posted.told, hu, hl]
        · have hu : sessionUid x.author ≠ ca.uid := fun he => hx (hauthor.mp he)
          simp [mine, Posted.told, hu, hx]

theorem exactly_once_of_inv (h : Inv s) (hs : s.made < 2 ^ 32) (hset : Settled s) : ExactlyOnce s where
  uids a ca ha := by
    have hca := h.conn a ca ha
    refine ⟨hca.uid ▸ sessionUid_ne_zero hs (h.lt ha), ?_⟩
    intro b cb hb he
    rw [hca.uid, (h.conn b cb hb).uid] at he
    exact h.sessionUid_inj hs ha hb he
  handled a ca ha := by
    have hca := h.conn a ca ha
    rw [← hca.handled, ← hca.said]
    refine ⟨(List.take_prefix _ _).filterMap line?, ?_⟩
    intro ho
    rw [(hset a ca ha ho).1, List.take_length]
  echoed a ca ha := (h.conn a ca ha).own
  publicly a ca b cb hab ha hb ho := by
    rw [heard_from h hs hab ha hb (hset b cb hb ho).2 false]
    refine congrArg (List.map _) (List.filter_congr ?_)
    intro x _
    cases hx : x.line.toUid <;> simp [goesTo, Line.isPrivate, hx]
  privately a ca b cb hab ha hb ho := by
    rw [heard_from h hs hab ha hb (hset b cb hb ho).2 true]
    refine congrArg (List.map _) (List.filter_congr ?_)
    intro x _
    cases hx : x.line.toUid with
    | none => simp [Line.isPrivate, hx]
    | some u => simp [goesTo, Line.isPrivate, hx, (h.conn b cb hb).uid, and_comm]
  nobody b cb hb m hm := by
    have hconn := h.conn b cb hb
    by_cases hown : m.uid = 0#32 ∨ m.uid = cb.uid
    · exact .inl (List.mem_filter.mpr ⟨hm, by simpa using hown⟩)
    · have hin : m ∈ heard cb := List.mem_filter.mpr ⟨hm, by simpa using hown⟩
      rw [hconn.heard] at hin
      obtain ⟨msg, hmsg, he⟩ := List.mem_filterMap.mp (List.mem_of_mem_filter hin)
      obtain ⟨j, hj, hu⟩ := h.entry_uid hb (List.mem_of_mem_take hmsg) he
      obtain ⟨cj, hcj⟩ := Option.isSome_iff_exists.mp ((h.made j).mp hj)
      refine .inr ⟨j, cj, fun hjb => hown (.inr ?_), hcj, hu.trans (h.conn j cj hcj).uid.symm⟩
      rw [hu, hjb, hconn.uid]

/-- With fewer than 2^32 sessions, and ids left to every client that waits for its uid: once nothing
    is in flight, every line is shown where it belongs, once. -/
theorem exactly_once (hrun : Machine.Run next IdsLeft init s) (hmade : s.made < 2 ^ 32) (hset : Settled s) :
    ExactlyOnce s :=
  exactly_once_of_inv (run_inv hrun hmade) hmade hset

/-! ## A conversation -/

/-- Two clients log in and send a line to each other, one of them before it has its uid. -/
def conversation : List Ev := List.flatten [
  [.accept true "ann", .accept true "bob", .connected 0 0, .say 0 1 ⟨none, "hello"⟩, .connected 1 1],
  List.replicate 2 (.serve 0 2), [.serve 1 2], List.replicate 5 (.deliver 0 3), List.replicate 4 (.deliver 1 3),
  [.say 1 4 ⟨some 1#32, "hi"⟩], List.replicate 2 (.serve 1 5), [.serve 0 5], List.replicate 2 (.deliver 0 6),
  List.replicate 2 (.deliver 1 6)]

/-- As `Settled` and the bound on sessions, for the connections there are. -/
def quiet (s : St) : Bool :=
  decide (s.made < 2 ^ 32) && decide (∀ k < s.made, ∀ c ∈ s.connections k,
    c.isOpen = true → c.taken = c.asked.length ∧ pending s k c = [])

theorem settled_of_quiet (hn : Numbered s) (h : quiet s = true) : Settled s := fun k c hc =>
  of_decide_eq_true (Bool.and_eq_true_iff.mp h).2 k (hn k c hc) c hc

/-- As `IdsLeft`, for evaluation. -/
def idsLeft (s : St) : Ev → Bool
  | .say k _ _ => decide (∀ c ∈ s.connections k, c.client.ctx.mMyUid = 0#32 → c.asked.length < 2 ^ 32)
  | _ => true

theorem idsLeft_ok (s : St) (e : Ev) (h : idsLeft s e = true) : IdsLeft s e := by
  cases e with
  | say k now line =>
    have h : ∀ c ∈ s.connections k, c.client.ctx.mMyUid = 0#32 → c.asked.length < 2 ^ 32 := of_decide_eq_true h
    exact h
  | _ => trivial

theorem exactly_once_conversation : ∃ s, ExactlyOnce s ∧ ∃ ca ∈ s.connections 0, ∃ cb ∈ s.connections 1,
    ca.client.ctx.mMessages = [⟨0#32, "", "hello", false⟩, ⟨2#32, "bob", "hi", true⟩] ∧
      cb.client.ctx.mMessages = [⟨1#32, "ann", "hello", false⟩, ⟨2#32, "bob", "hi", true⟩] := by
  have h : ∃ s ∈ Machine.execIf next idsLeft init conversation, quiet s = true ∧
      ∃ ca ∈ s.connections 0, ∃ cb ∈ s.connections 1,
        ca.client.ctx.mMessages = [⟨0#32, "", "hello", false⟩, ⟨2#32, "bob", "hi", true⟩] ∧
          cb.client.ctx.mMessages = [⟨1#32, "ann", "hello", false⟩, ⟨2#32, "bob", "hi", true⟩] := by decide
  obtain ⟨s, hs, hquiet, hshown⟩ := h
  have hrun : Machine.Run next IdsLeft init s := Machine.run_of_execIf idsLeft_ok _ hs
  have hn : Numbered s := run_numbered (hrun.mono fun _ _ _ => trivial)
  have hmade : s.made < 2 ^ 32 := of_decide_eq_true (Bool.and_eq_true_iff.mp hquiet).1
  exact ⟨s, exactly_once hrun hmade (settled_of_quiet hn hquiet), hshown⟩

end CryptoChat.Net.Chat
