/-
  CryptoChat.Net.Roster — the rosters of the clients against the session manager, with the
  server's threads interleaved.

  A thread runs one program at a time: what its server does with a message, a close (from
  any thread), a broadcast of the dashboard. One step is one operation of it, so a list of
  clients is taken, each name read and the answer sent in separate steps. What is sent to
  a session reaches its client in that order, and what the client asks reaches the server
  so. A client that connects again is a new one.

  Proved: if a message that names a uid goes to a client only while the uid is registered
  or the client's `user_left` for it still to be sent, a client with nothing in flight has
  no uid on its roster but such (`roster_agreement`). As built, a list of clients taken
  before a close can be sent after its `user_left` (`stale_roster`).
-/

import CryptoChat.Net.ChatClient
import CryptoChat.Net.ServerAppContext
import CryptoChat.Lib.ListAt
import CryptoChat.Lib.Machine

namespace CryptoChat.Net.Roster

open CryptoChat.Lib CryptoChat.Lib.ListAt Message ServerAppContext ChatClient

/-! ## The server and its clients -/

/-- What a thread has still to do; nothing, if it returned or threw. -/
abbrev Thread := ServerProg Nat Unit

def idle : Thread → Bool
  | .op _ _ => false
  | _ => true

/-- A session and the client at the other end: the client's requests, and how many of them the
    session passed on; how many messages the client received. -/
structure Connection where
  uid : BitVec 32
  /-- The I/O thread of its server. -/
  thread : Nat
  mIsClosed : Bool
  client : ChatClient
  connected : Bool
  asked : List Message
  taken : Nat
  received : Nat

structure St where
  store : Store Nat
  threads : List Thread
  connections : List Connection

def init : St := ⟨⟨.new, []⟩, [], []⟩

/-- What is on the way to the client of `k`. -/
def pending (s : St) (k : Nat) (c : Connection) : List Message := (inbox s.store.sent k).drop c.received

inductive Ev where
  /-- A thread is started: a server's, or another one. -/
  | thread
  | accept (t : Nat) (onError : Bool) (username : String)
  | connected (k now : Nat)
  | sendPublic (k now : Nat) (text : String)
  | sendPrivate (k now : Nat) (toUid : BitVec 32) (text : String)
  | disconnect (k : Nat)
  /-- The client handles the next message sent to it. -/
  | deliver (k now : Nat)
  /-- The session passes on the next request. -/
  | message (k now : Nat)
  | close (t k now : Nat)
  /-- The dashboard's broadcast. -/
  | announce (t now : Nat) (text : String)
  /-- The next operation of a thread. -/
  | step (t : Nat)

/-- An idle thread takes up a program. -/
def begins (t : Nat) (prog : Thread) (s : St) : Option St :=
  s.threads[t]?.bind fun old => if idle old then some { s with threads := s.threads.set t prog } else none

/-- What a client does to itself and asks. -/
def acts (k : Nat) (c : Connection) (r : ChatClient × List Message) (s : St) : St :=
  { s with connections := s.connections.set k { c with client := r.1, asked := c.asked ++ r.2 } }

def next (s : St) : Ev → Option St
  | .thread => some { s with threads := s.threads ++ [.ret ()] }
  | .accept t onError username =>
    s.threads[t]?.bind fun prog =>
      let added := s.store.mSessions.add s.connections.length
      if idle prog then
        some { s with
          store := { s.store with mSessions := added.1 }
          connections := s.connections ++ [⟨added.2, t, false, .start onError username, false, [], 0, 0⟩] }
      else none
  | .connected k now =>
    s.connections[k]?.bind fun c =>
      if c.client.mClient && !c.connected then some (acts k { c with connected := true } (c.client.onConnect now) s)
      else none
  | .sendPublic k now text => s.connections[k]?.map fun c => acts k c (c.client.sendPublic now text) s
  | .sendPrivate k now toUid text => s.connections[k]?.map fun c => acts k c (c.client.sendPrivate now toUid text) s
  | .disconnect k => s.connections[k]?.map fun c => acts k c (c.client.disconnect, []) s
  | .deliver k now =>
    s.connections[k]?.bind fun c =>
      (pending s k c).head?.bind fun msg =>
        if c.connected && c.client.mIsRunning then
          some (acts k { c with received := c.received + 1 } (c.client.handle now msg) s)
        else none
  | .message k now =>
    s.connections[k]?.bind fun c =>
      c.asked[c.taken]?.bind fun msg =>
        begins c.thread (onMessage now c.uid msg k)
          { s with connections := s.connections.set k { c with taken := c.taken + 1 } }
  | .close t k now =>
    s.connections[k]?.bind fun c =>
      if c.mIsClosed then none
      else begins t (onClose now c.uid) { s with connections := s.connections.set k { c with mIsClosed := true } }
  | .announce t now text => begins t (broadcast (makePush now (publicMessage 0#32 "SYSTEM" text))) s
  | .step t =>
    s.threads[t]?.bind fun prog =>
      (prog.step exec s.store).map fun r => { s with store := r.1, threads := s.threads.set t r.2 }

/-! ## The condition -/

/-- The program has yet to send `user_left` for the uid to the session `k`, if that is registered. -/
def ToLeave (k : Nat) (uid : BitVec 32) (prog : Thread) : Prop :=
  ∃ now, prog = broadcast (makePush now (userLeft uid)) ∨
    ∃ sessions, k ∈ sessions ∧ prog = sendAll sessions (makePush now (userLeft uid))

/-- The uid is registered, or a close under way has still to tell the session `k` that it left. -/
def Present (s : St) (k : Nat) (uid : BitVec 32) : Prop :=
  (s.store.mSessions.get uid).isSome ∨ ∃ (t : Nat) (prog : Thread), s.threads[t]? = some prog ∧ ToLeave k uid prog

/-- No message to the session `k` names a uid that is not present. -/
def Timely (k : Nat) (s : St) : Ev → Prop
  | .step t => ∀ msg rest, s.threads[t]? = some (.op (.send k msg) rest) → ∀ uid ∈ named msg, Present s k uid
  | _ => True

/-! ## Programs -/

/-- No operation of a message's program removes a session, and it sends to the sessions there are. -/
def may (n : Nat) : ServerOp Nat → Prop
  | .remove _ => False
  | .send j _ => j < n
  | _ => True

def gives (n : Nat) : (o : ServerOp Nat) → o.Res → Prop
  | .allSessions, sessions => ∀ j ∈ sessions, j < n
  | .targets _, sessions => ∀ j ∈ sessions, j < n
  | _, _ => True

variable {n k t : Nat} {uid : BitVec 32} {s s' : St}

theorem only_sendAll {sessions : List Nat} (h : ∀ j ∈ sessions, j < n) (message : Message) :
    (sendAll sessions message).Only (may n) (gives n) := by
  induction sessions with
  | nil => exact trivial
  | cons j sessions ih =>
    exact ⟨h j List.mem_cons_self, fun _ _ => ih fun i hi => h i (List.mem_cons_of_mem j hi)⟩

theorem only_broadcast (message : Message) : (broadcast message).Only (may n) (gives n) :=
  ⟨trivial, fun _ hr => only_sendAll hr message⟩

theorem only_sendTo (uids : List (BitVec 32)) (message : Message) : (sendTo uids message).Only (may n) (gives n) :=
  ⟨trivial, fun _ hr => only_sendAll hr message⟩

theorem only_clients (ids : List (BitVec 32)) (arr : List Json) :
    (clients ids arr : ServerProg Nat Json).Only (may n) (gives n) := by
  induction ids generalizing arr with
  | nil => exact trivial
  | cons id ids ih => exact ⟨trivial, fun _ _ => ih _⟩

theorem only_prog (now : Nat) (uid : BitVec 32) (call : Call) :
    (call.prog now uid : ServerProg Nat Json).Only (may n) (gives n) := by
  cases call with
  | login name => exact ⟨trivial, fun _ _ => (only_broadcast _).bind fun _ => trivial⟩
  | clientList => exact ⟨trivial, fun _ _ => only_clients _ _⟩
  | sendPublic text => exact ⟨trivial, fun _ _ => (only_broadcast _).bind fun _ => trivial⟩
  | sendPrivate toUid text => exact ⟨trivial, fun _ _ => (only_sendTo _ _).bind fun _ => trivial⟩
  | ping => exact trivial

theorem only_onMessage (now : Nat) (uid : BitVec 32) (msg : Message) (hk : k < n) :
    (onMessage now uid msg k).Only (may n) (gives n) := by
  unfold onMessage
  refine Prog.Only.bind ?_ fun response => ⟨hk, fun _ _ => trivial⟩
  rw [handle_read]
  split
  · exact trivial
  · exact trivial
  · exact (only_prog now uid _).attempt fun _ => trivial

/-- A close about to remove its session, or a program that removes none. -/
def Safe (n : Nat) (prog : Thread) : Prop :=
  (∃ now uid, prog = onClose now uid) ∨ ∀ m ≥ n, prog.Only (may m) (gives m)

theorem not_toLeave_idle {prog : Thread} (h : idle prog = true) : ¬ ToLeave k uid prog := by
  rintro ⟨now, rfl | ⟨sessions, hk, rfl⟩⟩
  · cases h
  · cases sessions with
    | nil => cases hk
    | cons j sessions => cases h

/-! ## One operation -/

theorem exec_sent (store : Store Nat) (o : ServerOp Nat) :
    (exec store o).1.sent = store.sent ∨
      ∃ j msg, o = .send j msg ∧ (exec store o).1.sent = store.sent ++ [(j, msg)] := by
  cases o with
  | send j msg => exact .inr ⟨j, msg, rfl, rfl⟩
  | _ => exact .inl rfl

theorem exec_get {store : Store Nat} {o : ServerOp Nat} {u : BitVec 32} {j : Nat}
    (h : (exec store o).1.mSessions.get u = some j) : store.mSessions.get u = some j := by
  cases o with
  | setName v name => simpa [exec] using h
  | remove v =>
    simp only [exec, SessionManager.get_remove, Option.ite_none_left_eq_some] at h
    exact h.2
  | _ => exact h

theorem exec_registered {store : Store Nat} (o : ServerOp Nat) {u : BitVec 32}
    (h : (store.mSessions.get u).isSome) : ((exec store o).1.mSessions.get u).isSome ∨ o = .remove u := by
  cases o with
  | setName v name => exact .inl (by simpa [exec] using h)
  | remove v =>
    by_cases hv : u = v
    · exact .inr (by rw [hv])
    · exact .inl (by simpa [exec, SessionManager.get_remove, hv] using h)
  | _ => exact .inl h

theorem exec_gives {store : Store Nat} (h : ∀ u j, store.mSessions.get u = some j → j < n) (o : ServerOp Nat) :
    gives n o (exec store o).2 := by
  cases o with
  | allSessions =>
    intro j hj
    obtain ⟨u, hu⟩ := SessionManager.mem_broadcast.mp hj
    exact h u j hu
  | targets uids =>
    intro j hj
    obtain ⟨u, -, hu⟩ := SessionManager.mem_sendTo.mp hj
    exact h u j hu
  | _ => exact trivial

/-- Such a program goes on to tell the session `k`, as long as it is registered, until it has. -/
theorem toLeave_op {store : Store Nat} {o : ServerOp Nat} {rest : o.Res → Thread} (h : ToLeave k uid (.op o rest))
    (hk : ∃ u, store.mSessions.get u = some k) :
    ToLeave k uid (rest (exec store o).2) ∨ ∃ now, o = .send k (makePush now (userLeft uid)) := by
  obtain ⟨now, h | ⟨sessions, hs, h⟩⟩ := h
  · cases h
    exact .inl ⟨now, .inr ⟨_, SessionManager.mem_broadcast.mpr hk, rfl⟩⟩
  · cases sessions with
    | nil => cases hs
    | cons j sessions =>
      cases h
      rcases List.mem_cons.mp hs with rfl | hs
      · exact .inr ⟨now, rfl⟩
      · exact .inl ⟨now, .inr ⟨sessions, hs, rfl⟩⟩

theorem safe_op {store : Store Nat} {o : ServerOp Nat} {rest : o.Res → Thread} (h : Safe n (.op o rest))
    (hg : ∀ u j, store.mSessions.get u = some j → j < n) :
    Safe n (rest (exec store o).2) ∧ (∀ j msg, o = .send j msg → j < n) ∧
      ∀ u, o = .remove u → ∀ k, ToLeave k u (rest (exec store o).2) := by
  rcases h with ⟨now, v, h⟩ | h
  · cases h
    refine ⟨.inr fun m _ => only_broadcast _, nofun, ?_⟩
    intro u hu k
    cases hu
    exact ⟨now, .inl rfl⟩
  · refine ⟨.inr ?_, ?_, ?_⟩
    · intro m hm
      exact (h m hm).2 _ (exec_gives (fun u j hj => Nat.lt_of_lt_of_le (hg u j hj) hm) o)
    · intro j msg ho
      subst ho
      exact (h n (Nat.le_refl n)).1
    · intro u ho
      subst ho
      exact (h n (Nat.le_refl n)).1.elim

/-! ## What a client will have on its roster -/

/-- The roster after a message, at most. -/
def after (users : Set (BitVec 32)) (msg : Message) : Set (BitVec 32) :=
  {uid | uid ∈ named msg ∨ uid ∈ users ∧ uid ∉ unnamed msg}

/-- The roster of the client of `k` when it has handled what is on the way to it, at most. -/
def roster (s : St) (k : Nat) (c : Connection) : Set (BitVec 32) :=
  (pending s k c).foldl after {uid | uid ∈ c.client.ctx.mUsers}

theorem after_mono {users users' : Set (BitVec 32)} (h : users ⊆ users') (msg : Message) :
    after users msg ⊆ after users' msg := fun _ hu => hu.imp id fun hu => ⟨h hu.1, hu.2⟩

theorem foldl_after_mono {users users' : Set (BitVec 32)} (h : users ⊆ users') (msgs : List Message) :
    msgs.foldl after users ⊆ msgs.foldl after users' := by
  induction msgs generalizing users users' with
  | nil => exact h
  | cons msg msgs ih => exact ih (after_mono h msg)

theorem named_userLeft (now : Nat) (uid : BitVec 32) :
    named (makePush now (userLeft uid)) = [] ∧ uid ∈ unnamed (makePush now (userLeft uid)) := by
  have he : (userLeft uid).valueString "event" "" = .ok "user_left" := by
    simp [userLeft, Json.object, Json.valueString, Json.valueWith, Json.lookup_assign, Json.getString]
  have hu : ClientAppContext.uidAt (userLeft uid) "uid" = .ok uid := by
    simp [userLeft, Json.object, ClientAppContext.uidAt, ClientAppContext.index, Json.lookup_assign, uidJson, bind,
      Except.bind]
  have ht : (makePush now (userLeft uid)).type = .push := rfl
  unfold named unnamed
  rw [value_makePush, ht, if_neg (by decide), if_pos rfl, if_pos rfl]
  simp [joined, left, he, hu, Except.toOption]

structure Inv (k : Nat) (s : St) : Prop where
  threads : ∀ prog ∈ s.threads, Safe s.connections.length prog
  sessions : ∀ u j, s.store.mSessions.get u = some j → j < s.connections.length
  sent : ∀ e ∈ s.store.sent, e.1 < s.connections.length
  received : ∀ c, s.connections[k]? = some c → c.received ≤ (inbox s.store.sent k).length
  roster : ∀ c, s.connections[k]? = some c → (∃ u, s.store.mSessions.get u = some k) →
    ∀ uid ∈ roster s k c, Present s k uid

theorem inv_init (k : Nat) : Inv k init where
  threads := by simp [init]
  sessions := by simp [init]
  sent := by simp [init]
  received := by simp [init]
  roster := by simp [init]

/-! ## One step -/

/-- A change of a connection, after which the roster of its client is no larger. -/
theorem inv_set (h : Inv k s) {j : Nat} {c c' : Connection} (hc : s.connections[j]? = some c)
    (hr : c.received ≤ (inbox s.store.sent j).length → c'.received ≤ (inbox s.store.sent j).length)
    (hu : roster s j c' ⊆ roster s j c) : Inv k { s with connections := s.connections.set j c' } := by
  have hlen : (s.connections.set j c').length = s.connections.length := List.length_set
  refine ⟨?_, ?_, ?_, ?_, ?_⟩
  · intro prog hp
    exact hlen ▸ h.threads prog hp
  · intro u i hi
    exact hlen ▸ h.sessions u i hi
  · intro e he
    exact hlen ▸ h.sent e he
  · intro d hd
    rcases getElem?_set_some hd with ⟨rfl, rfl⟩ | ⟨-, hd⟩
    · exact hr (h.received c hc)
    · exact h.received d hd
  · intro d hd hreg uid huid
    rcases getElem?_set_some hd with ⟨rfl, rfl⟩ | ⟨-, hd⟩
    · exact h.roster c hc hreg uid (hu huid)
    · exact h.roster d hd hreg uid huid

/-- An idle thread takes up a program. -/
theorem inv_begins {prog : Thread} (h : Inv k s) (hp : Safe s.connections.length prog)
    (he : begins t prog s = some s') : Inv k s' := by
  obtain ⟨old, hold, he⟩ := Option.bind_eq_some_iff.mp he
  simp only [Option.ite_none_right_eq_some, Option.some.injEq] at he
  obtain ⟨hidle, rfl⟩ := he
  refine { h with threads := ?_, roster := ?_ }
  · intro q hq
    rcases List.mem_or_eq_of_mem_set hq with hq | rfl
    · exact h.threads q hq
    · exact hp
  · intro c hc hreg uid hu
    refine (h.roster c hc hreg uid hu).imp id ?_
    intro hl
    obtain ⟨i, q, hq, hl⟩ := hl
    have hne : t ≠ i := by
      rintro rfl
      obtain rfl := Option.some.inj (hold.symm.trans hq)
      exact not_toLeave_idle hidle hl
    exact ⟨i, q, (List.getElem?_set_ne hne).trans hq, hl⟩

theorem inv_acts (h : Inv k s) {j : Nat} {c : Connection} (hc : s.connections[j]? = some c) (connected : Bool)
    (r : ChatClient × List Message) (hu : ∀ uid ∈ r.1.ctx.mUsers, uid ∈ c.client.ctx.mUsers) :
    Inv k (acts j { c with connected := connected } r s) :=
  inv_set h hc id (foldl_after_mono hu _)

theorem inv_deliver (h : Inv k s) {j : Nat} {c : Connection} (hc : s.connections[j]? = some c) {msg : Message}
    (hm : (pending s j c).head? = some msg) (now : Nat) :
    Inv k (acts j { c with received := c.received + 1 } (c.client.handle now msg) s) := by
  have hp : pending s j c = msg :: (inbox s.store.sent j).drop (c.received + 1) := drop_of_head? hm
  refine inv_set h hc ?_ ?_
  · intro _
    exact (List.getElem?_eq_some_iff.mp (drop_eq_cons hp).1).1
  · unfold roster
    rw [hp, List.foldl_cons]
    exact foldl_after_mono (fun uid hu => mem_handle now msg c.client hu) _

theorem inv_thread (h : Inv k s) : Inv k { s with threads := s.threads ++ [.ret ()] } := by
  refine { h with threads := ?_, roster := ?_ }
  · intro prog hp
    rcases List.mem_append.mp hp with hp | hp
    · exact h.threads prog hp
    · rw [List.mem_singleton.mp hp]
      exact .inr fun m _ => trivial
  · intro c hc hreg uid hu
    refine (h.roster c hc hreg uid hu).imp id ?_
    intro hl
    obtain ⟨i, prog, hi, hl⟩ := hl
    exact ⟨i, prog, getElem?_append_some hi _, hl⟩

theorem Safe.mono {m : Nat} {prog : Thread} (h : Safe n prog) (hm : n ≤ m) : Safe m prog :=
  h.imp id fun h i hi => h i (Nat.le_trans hm hi)

/-- A new client has nothing on its roster or on the way to it. -/
theorem inv_accept (h : Inv k s) (t : Nat) (onError : Bool) (username : String) :
    Inv k { s with
      store := { s.store with mSessions := (s.store.mSessions.add s.connections.length).1 }
      connections := s.connections ++
        [⟨(s.store.mSessions.add s.connections.length).2, t, false, .start onError username, false, [], 0, 0⟩] } := by
  refine ⟨?_, ?_, ?_, ?_, ?_⟩
  · intro prog hp
    exact (h.threads prog hp).mono (by simp)
  · intro u j hj
    simp only [SessionManager.get_add] at hj
    simp only [List.length_append, List.length_singleton]
    split at hj
    · cases hj
      omega
    · have := h.sessions u j hj
      omega
  · intro e he
    have := h.sent e he
    simp only [List.length_append, List.length_singleton]
    omega
  · intro c hc
    rcases getElem?_snoc hc with hc | ⟨-, rfl⟩
    · exact h.received c hc
    · exact Nat.zero_le _
  · intro c hc hreg uid hu
    rcases getElem?_snoc hc with hc | ⟨rfl, rfl⟩
    · have hne : s.connections.length ≠ k := Nat.ne_of_gt (List.getElem?_eq_some_iff.mp hc).1
      have hreg : ∃ u, s.store.mSessions.get u = some k := by
        obtain ⟨u, hg⟩ := hreg
        simp only [SessionManager.get_add] at hg
        split at hg
        · exact absurd (Option.some.inj hg) hne
        · exact ⟨u, hg⟩
      refine (h.roster c hc hreg uid hu).imp ?_ id
      intro hg
      simp only [SessionManager.get_add]
      split
      · rfl
      · exact hg
    · have hinbox : inbox s.store.sent s.connections.length = [] := inbox_eq_nil fun e he => Nat.ne_of_lt (h.sent e he)
      simp [roster, pending, hinbox, ChatClient.start, ClientAppContext.init] at hu

/-- What more is sent adds to the roster to come. -/
theorem mem_roster_append {c : Connection} {store : Store Nat} {new : List (Nat × Message)} {threads : List Thread}
    (hr : c.received ≤ (inbox s.store.sent k).length) (hs : store.sent = s.store.sent ++ new)
    (hu : uid ∈ roster ⟨store, threads, s.connections⟩ k c) : uid ∈ (inbox new k).foldl after (roster s k c) := by
  unfold roster pending at hu ⊢
  rwa [hs, inbox_append, List.drop_append_of_le_length hr, List.foldl_append] at hu

/-- A uid that was present is, unless the session `k` was just told that it left. -/
theorem present_op {o : ServerOp Nat} {rest : o.Res → Thread} (hp : s.threads[t]? = some (.op o rest))
    (hremove : ∀ u, o = .remove u → ToLeave k u (rest (exec s.store o).2))
    (hreg : ∃ u, s.store.mSessions.get u = some k) (hu : Present s k uid) :
    Present ⟨(exec s.store o).1, s.threads.set t (rest (exec s.store o).2), s.connections⟩ k uid ∨
      ∃ now, o = .send k (makePush now (userLeft uid)) := by
  have hself : (s.threads.set t (rest (exec s.store o).2))[t]? = some (rest (exec s.store o).2) :=
    List.getElem?_set_self (List.getElem?_eq_some_iff.mp hp).1
  rcases hu with hg | ⟨i, q, hq, hl⟩
  · rcases exec_registered o hg with hg | ho
    · exact .inl (.inl hg)
    · exact .inl (.inr ⟨t, _, hself, hremove uid ho⟩)
  · by_cases hi : t = i
    · subst hi
      obtain rfl := Option.some.inj (hp.symm.trans hq)
      exact (toLeave_op hl hreg).imp (fun hl => .inr ⟨t, _, hself, hl⟩) id
    · exact .inl (.inr ⟨i, q, (List.getElem?_set_ne hi).trans hq, hl⟩)

/-- What the next operation leaves of the roster to come: a message is sent, or not. -/
theorem mem_roster_op {c : Connection} {o : ServerOp Nat} {threads : List Thread}
    (hr : c.received ≤ (inbox s.store.sent k).length)
    (hu : uid ∈ roster ⟨(exec s.store o).1, threads, s.connections⟩ k c) :
    (∃ msg, o = .send k msg ∧ uid ∈ after (roster s k c) msg) ∨ (∀ msg, o ≠ .send k msg) ∧ uid ∈ roster s k c := by
  cases o with
  | send j msg =>
    have h : uid ∈ (inbox [(j, msg)] k).foldl after (roster s k c) := mem_roster_append hr rfl hu
    by_cases hj : j = k
    · subst hj
      exact .inl ⟨msg, rfl, by simpa using h⟩
    · refine .inr ⟨fun m hm => hj ?_, by simpa [inbox_other hj] using h⟩
      cases hm
      rfl
  | _ => exact .inr ⟨nofun, hu⟩

theorem inv_step (h : Inv k s) (ht : Timely k s (.step t)) (he : next s (.step t) = some s') : Inv k s' := by
  obtain ⟨prog, hp, he⟩ := Option.bind_eq_some_iff.mp he
  obtain ⟨⟨store, prog'⟩, hstep, rfl⟩ := Option.map_eq_some_iff.mp he
  cases prog with
  | ret a => cases hstep
  | throw e => cases hstep
  | op o rest =>
    cases hstep
    obtain ⟨hsafe, hsend, hremove⟩ := safe_op (h.threads _ (List.mem_of_getElem? hp)) h.sessions
    refine ⟨?_, fun u j hj => h.sessions u j (exec_get hj), ?_, ?_,
      ?_⟩
    · intro q hq
      rcases List.mem_or_eq_of_mem_set hq with hq | rfl
      · exact h.threads q hq
      · exact hsafe
    · intro e he
      rcases exec_sent s.store o with hs | ⟨j, msg, ho, hs⟩
      · exact h.sent e (hs ▸ he)
      · rw [hs] at he
        rcases List.mem_append.mp he with he | he
        · exact h.sent e he
        · rw [List.mem_singleton.mp he]
          exact hsend j msg ho
    · intro c hc
      have := h.received c hc
      rcases exec_sent s.store o with hs | ⟨j, msg, ho, hs⟩
      · rwa [hs]
      · rw [hs, inbox_append, List.length_append]
        omega
    · intro c hc hreg uid hu
      have hreg : ∃ u, s.store.mSessions.get u = some k := hreg.imp fun u hg => exec_get hg
      have hpresent := fun uid => @present_op k t uid s o rest hp (fun u ho => hremove u ho k) hreg
      rcases mem_roster_op (h.received c hc) hu with ⟨msg, rfl, hafter⟩ | ⟨hno, hin⟩
      · have hold : Present s k uid := by
          rcases hafter with hn | ⟨hin, -⟩
          · exact ht msg rest hp uid hn
          · exact h.roster c hc hreg uid hin
        rcases hpresent uid hold with hu' | ⟨now, ho⟩
        · exact hu'
        · -- What was sent is that `user_left`, which takes the uid off.
          cases ho
          obtain ⟨hn, hl⟩ := named_userLeft now uid
          rcases hafter with hin | ⟨-, hout⟩
          · simp [hn] at hin
          · exact absurd hl hout
      · rcases hpresent uid (h.roster c hc hreg uid hin) with hu' | ⟨now, ho⟩
        · exact hu'
        · exact absurd ho (hno _)

theorem inv_next {e : Ev} (h : Inv k s) (ho : Timely k s e) (he : next s e = some s') : Inv k s' := by
  cases e with
  | thread =>
    cases he
    exact inv_thread h
  | accept t onError username =>
    obtain ⟨prog, -, he⟩ := Option.bind_eq_some_iff.mp he
    simp only [Option.ite_none_right_eq_some, Option.some.injEq] at he
    obtain ⟨-, rfl⟩ := he
    exact inv_accept h t onError username
  | connected j now =>
    obtain ⟨c, hc, he⟩ := Option.bind_eq_some_iff.mp he
    simp only [Option.ite_none_right_eq_some, Option.some.injEq] at he
    obtain ⟨-, rfl⟩ := he
    refine inv_acts h hc true _ ?_
    intro uid hu
    simpa [ChatClient.onConnect] using hu
  | sendPublic j now text =>
    obtain ⟨c, hc, rfl⟩ := Option.map_eq_some_iff.mp he
    exact inv_acts h hc c.connected _ fun uid hu => sendPublic_users now text c.client ▸ hu
  | sendPrivate j now toUid text =>
    obtain ⟨c, hc, rfl⟩ := Option.map_eq_some_iff.mp he
    exact inv_acts h hc c.connected _ fun uid hu => sendPrivate_users now toUid text c.client ▸ hu
  | disconnect j =>
    obtain ⟨c, hc, rfl⟩ := Option.map_eq_some_iff.mp he
    refine inv_acts h hc c.connected _ ?_
    intro uid hu
    simp [ChatClient.disconnect, ClientAppContext.clear] at hu
  | deliver j now =>
    obtain ⟨c, hc, he⟩ := Option.bind_eq_some_iff.mp he
    obtain ⟨msg, hm, he⟩ := Option.bind_eq_some_iff.mp he
    simp only [Option.ite_none_right_eq_some, Option.some.injEq] at he
    obtain ⟨-, rfl⟩ := he
    exact inv_deliver h hc hm now
  | message j now =>
    obtain ⟨c, hc, he⟩ := Option.bind_eq_some_iff.mp he
    obtain ⟨msg, hm, he⟩ := Option.bind_eq_some_iff.mp he
    have hj : j < s.connections.length := (List.getElem?_eq_some_iff.mp hc).1
    have hset : Inv k { s with connections := s.connections.set j { c with taken := c.taken + 1 } } :=
      inv_set h hc id subset_rfl
    refine inv_begins hset (.inr fun m hm => only_onMessage now c.uid msg ?_) he
    rw [List.length_set] at hm
    omega
  | close t j now =>
    obtain ⟨c, hc, he⟩ := Option.bind_eq_some_iff.mp he
    simp only [Option.ite_none_left_eq_some] at he
    have hset : Inv k { s with connections := s.connections.set j { c with mIsClosed := true } } :=
      inv_set h hc id subset_rfl
    exact inv_begins hset (.inl ⟨now, c.uid, rfl⟩) he.2
  | announce t now text => exact inv_begins h (.inr fun m _ => only_broadcast _) he
  | step t => exact inv_step h ho he

/-! ## Agreement -/

/-- The client of a session that is registered, having handled all that was sent to it, has none on
    its roster but who is registered, or whose `user_left` a close under way has still to send it. -/
theorem roster_agreement {k : Nat} {s : St} (hrun : Machine.Run next (Timely k) init s) {c : Connection}
    (hc : s.connections[k]? = some c) (hreg : ∃ uid, s.store.mSessions.get uid = some k) (hp : pending s k c = []) :
    ∀ uid ∈ c.client.ctx.mUsers, Present s k uid := by
  intro uid hu
  have hi := Machine.run_invariant (Inv k) (inv_init k) (fun _ _ _ hi ho he => inv_next hi ho he) hrun
  refine hi.roster c hc hreg uid ?_
  unfold roster
  rw [hp]
  exact hu

/-! ## Two runs -/

/-- No thread has anything to do, and nothing is on the way in either direction. -/
def Quiet (s : St) : Prop :=
  (∀ prog ∈ s.threads, idle prog = true) ∧
    ∀ k < s.connections.length, ∀ c ∈ s.connections[k]?, pending s k c = [] ∧ c.taken = c.asked.length

instance (s : St) : Decidable (Quiet s) := inferInstanceAs (Decidable (_ ∧ _))

def steps (t n : Nat) : List Ev := List.replicate n (.step t)

/-- Two clients log in, and the first gets its list of clients. -/
def loggedIn : List Ev := List.flatten [
  [.thread, .thread, .accept 0 true "ann", .accept 0 true "bob", .connected 0 0, .connected 1 0, .message 0 0],
  steps 0 5, [.message 1 0], steps 0 5, List.replicate 3 (.deliver 0 0), List.replicate 3 (.deliver 1 0),
  [.message 0 0], steps 0 4, [.deliver 0 0]]

/-- A session is closed while the list of clients with its uid is not sent yet. -/
def listThenClose : List Ev := List.flatten [
  loggedIn, [.message 1 0], steps 0 3, [.close 1 0 0], steps 1 3, steps 0 1, List.replicate 2 (.deliver 1 0)]

/-- It is closed when the list was sent. -/
def sentThenClose : List Ev := List.flatten [
  loggedIn, [.message 1 0], steps 0 4, [.close 1 0 0], steps 1 3, List.replicate 2 (.deliver 1 0)]

/-- `user_left` overtakes the list: the client keeps a uid that is not registered, with nothing left
    to come. -/
theorem stale_roster : ∃ s, Machine.Run next Machine.any init s ∧ Quiet s ∧ s.store.mSessions.get 2#32 = some 1 ∧
    s.store.mSessions.get 1#32 = none ∧
    ∃ c ∈ s.connections[1]?, c.client.mIsRunning = true ∧ 1#32 ∈ c.client.ctx.mUsers := by
  have h : ∃ s ∈ Machine.exec next init listThenClose, Quiet s ∧ s.store.mSessions.get 2#32 = some 1 ∧
      s.store.mSessions.get 1#32 = none ∧
      ∃ c ∈ s.connections[1]?, c.client.mIsRunning = true ∧ 1#32 ∈ c.client.ctx.mUsers := by decide
  obtain ⟨s, hs, h⟩ := h
  exact ⟨s, Machine.run_of_exec _ hs, h⟩

/-- What is sent to the session `k` names only uids that are registered. -/
def registeredOnly (k : Nat) (s : St) : Ev → Bool
  | .step t =>
    match s.threads[t]? with
    | some (.op (.send j msg) _) => j ≠ k || (named msg).all fun uid => (s.store.mSessions.get uid).isSome
    | _ => true
  | _ => true

theorem timely_of_registeredOnly {e : Ev} (h : registeredOnly k s e = true) : Timely k s e := by
  cases e with
  | step t =>
    intro msg rest hp uid hu
    simp only [registeredOnly, hp, ne_eq, not_true_eq_false, decide_false, Bool.false_or, List.all_eq_true] at h
    exact .inl (h uid hu)
  | _ => exact trivial

theorem roster_agreement_closed : ∃ s c, s.connections[1]? = some c ∧ s.store.mSessions.get 1#32 = none ∧
    c.client.ctx.mUsers.keys = [2#32] ∧ ∀ uid ∈ c.client.ctx.mUsers, Present s 1 uid := by
  have h : ∃ s ∈ Machine.execIf next (registeredOnly 1) init sentThenClose, s.store.mSessions.get 2#32 = some 1 ∧
      s.store.mSessions.get 1#32 = none ∧
      ∃ c ∈ s.connections[1]?, pending s 1 c = [] ∧ c.client.ctx.mUsers.keys = [2#32] := by decide
  obtain ⟨s, hs, hself, hnone, c, hc, hp, hkeys⟩ := h
  have hrun : Machine.Run next (Timely 1) init s := Machine.run_of_execIf (fun _ _ => timely_of_registeredOnly) _ hs
  exact ⟨s, c, hc, hnone, hkeys, roster_agreement hrun hc ⟨2#32, hself⟩ hp⟩

end CryptoChat.Net.Roster
