/-
  CryptoChat.Net.SessionLifecycle — sessions from their accept to their close, over the
  interleaved operations of `SessionManager`.

  The connection factory enters a session in two steps and sets its close callback after
  them. `close` may be called any number of times, by any thread at any moment (a read error,
  an oversized frame, an exception, a failed write, a kick); the call that finds `mIsClosed`
  clear goes on by itself: it closes the socket, looks at the callback, removes the uid and
  broadcasts `user_left`, with whatever the other threads do in between.

  Proved: each step is one of the operations of `SessionTable` on the table (`run_table`);
  until the counter of uids comes round, what was removed and told is what the closes under
  way and over removed and told, each its own uid and once (`Inv`, `run_inv`).
-/

import CryptoChat.Net.ServerAppContext
import CryptoChat.Net.SessionTable

namespace CryptoChat.Net.SessionLifecycle

open CryptoChat.Lib ListAt SessionTable Message ServerAppContext

/-! ## The machine -/

/-- How far the call of `close` is that goes on. -/
inductive Closing where
  | opened
  | shutting
  /-- In the close callback, before its `remove` and before its `broadcast`. -/
  | removing (uid : BitVec 32)
  | pushing (uid : BitVec 32)
  /-- Over, with the uid and the place of the broadcast if there was one. -/
  | closed (told : Option (BitVec 32 × Nat))

structure Session where
  /-- The place of its `add` among the operations of the table. -/
  add : Nat
  /-- The uid that the close callback holds, once that is set. -/
  mCloseSessionCallback : Option (BitVec 32)
  mIsClosed : Bool
  closing : Closing

/-- In the table a session is its place here. -/
structure St where
  table : SessionTable.St Nat
  sessions : List Session

def init : St := ⟨SessionTable.init, []⟩

/-- A push of `user_left`, which no one broadcasts but a close callback. -/
def isUserLeft (m : Message) : Bool :=
  match (m.j.find? "push").bind fun body => body.find? "event" with
  | some (.str event) => event = "user_left"
  | _ => false

inductive Ev where
  /-- The connection factory: the counter of `add`, its locked section, and `onClose`. -/
  | accept
  | enter (k : Nat)
  | onClose (k : Nat)
  /-- Someone calls `close` of the session `k`. -/
  | close (k : Nat)
  /-- The next step of the call that goes on. -/
  | goOn (k now : Nat)
  /-- What else is done with the table: a login, a push or a broadcast of other kinds, and the
      sends of a broadcast. -/
  | setName (uid : BitVec 32) (name : String)
  | broadcast (message : Message)
  | sendTo (uids : List (BitVec 32)) (message : Message)
  | send (i : Nat)

def put (s : St) (k : Nat) (session : Session) : St := { s with sessions := s.sessions.set k session }

def close (session : Session) : Session :=
  if session.mIsClosed then session else { session with mIsClosed := true, closing := .shutting }

/-- `if(mCloseSessionCallback)`. -/
def called (session : Session) : Closing :=
  match session.mCloseSessionCallback with
  | some uid => .removing uid
  | none => .closed none

def goOn (s : St) (k now : Nat) (session : Session) : Option St :=
  match session.closing with
  | .shutting => some (put s k { session with closing := called session })
  | .removing uid =>
    some { put s k { session with closing := .pushing uid } with table := SessionTable.remove s.table uid }
  | .pushing uid =>
    some { put s k { session with closing := .closed (some (uid, s.table.ops.length)) } with
      table := SessionTable.call s.table none (makePush now (userLeft uid)) }
  | _ => none

def next (s : St) : Ev → Option St
  | .accept => some ⟨take s.table s.sessions.length, s.sessions ++ [⟨s.table.ops.length, none, false, .opened⟩]⟩
  | .enter k =>
    s.sessions[k]?.bind fun session =>
      match s.table.ops[session.add]? with
      | some (.add uid j false) => some { s with table := SessionTable.enter s.table session.add uid j }
      | _ => none
  | .onClose k =>
    s.sessions[k]?.bind fun session =>
      match s.table.ops[session.add]? with
      | some (.add uid _ true) => some (put s k { session with mCloseSessionCallback := some uid })
      | _ => none
  | .close k => s.sessions[k]?.map fun session => put s k (close session)
  | .goOn k now => s.sessions[k]?.bind fun session => goOn s k now session
  | .setName uid name => some { s with table := SessionTable.setName s.table uid name }
  | .broadcast message =>
    if isUserLeft message then none else some { s with table := SessionTable.call s.table none message }
  | .sendTo uids message =>
    if isUserLeft message then none else some { s with table := SessionTable.call s.table (some uids) message }
  | .send i =>
    match s.table.ops[i]? with
    | some (.call c (session :: left)) => some { s with table := SessionTable.send s.table i c session left }
    | _ => none

/-- The uid a session was given. -/
def St.uid? (s : St) (k : Nat) : Option (BitVec 32) :=
  s.sessions[k]?.bind fun session => s.table.ops[session.add]?.bind Op.uid?

/-! ## The operations and the sections of the table -/

/-- What stays of an operation while it goes on. -/
inductive Kind where
  | add (uid : BitVec 32) (session : Nat)
  | call (c : SessionTable.Call Nat)

def kind : Op Nat → Kind
  | .add uid session _ => .add uid session
  | .call c _ => .call c

def kinds (t : SessionTable.St Nat) : List Kind := t.ops.map kind

def Kind.uid? : Kind → Option (BitVec 32)
  | .add uid _ => some uid
  | .call _ => none

def removed? : Section Nat → Option (BitVec 32)
  | .removed uid => some uid
  | _ => none

variable {s s' : St} {t : SessionTable.St Nat} {i k j : Nat} {uid : BitVec 32} {session : Session}

theorem kinds_of {op : Op Nat} (h : t.ops[i]? = some op) : (kinds t)[i]? = some (kind op) := by
  rw [kinds, List.getElem?_map, h, Option.map_some]

theorem uids_kinds (t : SessionTable.St Nat) : (kinds t).filterMap Kind.uid? = t.uids := by
  rw [kinds, List.filterMap_map, SessionTable.St.uids]
  refine List.filterMap_congr ?_
  intro op _
  cases op <;> rfl

/-- An operation that goes on keeps its kind. -/
theorem kinds_set {op op' : Op Nat} (h : t.ops[i]? = some op) (hkind : kind op' = kind op) :
    (t.ops.set i op').map kind = t.ops.map kind := by
  have hset := filterMap_set (f := fun op => some (kind op)) h (congrArg some hkind)
  rwa [List.filterMap_eq_map'] at hset

/-! ## The invariant -/

/-- The uid a close callback was called with. -/
def Closing.uid? : Closing → Option (BitVec 32)
  | .removing uid => some uid
  | .pushing uid => some uid
  | .closed (some (uid, _)) => some uid
  | _ => none

/-- The uid a close callback has removed. -/
def Closing.removed? : Closing → Option (BitVec 32)
  | .pushing uid => some uid
  | .closed (some (uid, _)) => some uid
  | _ => none

theorem uid?_of_removed? {closing : Closing} (h : closing.removed? = some uid) : closing.uid? = some uid := by
  cases closing with
  | opened => cases h
  | shutting => cases h
  | removing u => cases h
  | pushing u => exact h
  | closed told =>
    cases told with
    | none => cases h
    | some told => exact h

/-- A uid is removed after it was entered. -/
def Ordered (history : List (Section Nat)) : Prop :=
  ∀ since uid before, history = since ++ .removed uid :: before → ∃ k, .entered uid k ∈ before

structure Inv (s : St) : Prop where
  kept : Kept s.table
  sends : Sends s.table
  /-- Each session has one `add`. -/
  own : ∀ (k : Nat) session, s.sessions[k]? = some session → ∃ uid, (kinds s.table)[session.add]? = some (.add uid k)
  adds : ∀ (i : Nat) uid k, (kinds s.table)[i]? = some (.add uid k) →
    ∃ session, s.sessions[k]? = some session ∧ session.add = i
  /-- Its close callback holds its uid, which is entered by then. -/
  callback : ∀ (k : Nat) session uid, s.sessions[k]? = some session → session.mCloseSessionCallback = some uid →
    (kinds s.table)[session.add]? = some (.add uid k) ∧ .entered uid k ∈ s.table.history
  flag : ∀ (k : Nat) session, s.sessions[k]? = some session → session.mIsClosed = false → session.closing = .opened
  closing : ∀ (k : Nat) session uid, s.sessions[k]? = some session → session.closing.uid? = some uid →
    session.mCloseSessionCallback = some uid
  /-- What was removed, a close callback removed, once. -/
  removed : ∀ uid, .removed uid ∈ s.table.history ↔
    ∃ (k : Nat) (session : Session), s.sessions[k]? = some session ∧ session.closing.removed? = some uid
  removed_once : (s.table.history.filterMap removed?).Nodup
  ordered : Ordered s.table.history
  /-- A `user_left` was broadcast by a close callback, once, after it removed the uid. -/
  pushes : ∀ (i : Nat) c, (kinds s.table)[i]? = some (.call c) → isUserLeft c.message = true →
    ∃ uid now, ∃ (k : Nat) (session : Session), c.uids = none ∧ c.message = makePush now (userLeft uid) ∧
      s.sessions[k]? = some session ∧ session.closing = .closed (some (uid, i)) ∧ .removed uid ∈ c.before

theorem inv_init : Inv init := by
  refine ⟨kept_init, sends_init, ?_, ?_, ?_, ?_, ?_, ?_, List.nodup_nil, ?_, ?_⟩
  all_goals simp [init, SessionTable.init, kinds, Ordered]

/-! ## Steps of the table -/

theorem Ordered.append {more history : List (Section Nat)} (h : Ordered history)
    (hmore : ∀ e ∈ more, removed? e = none) :
    Ordered (more ++ history) := by
  intro since uid before heq
  rcases List.append_eq_append_iff.mp heq with hsplit | hsplit
  · obtain ⟨rest, -, hrest⟩ := hsplit
    exact h rest uid before hrest
  · obtain ⟨rest, hmid, hrest⟩ := hsplit
    cases rest with
    | nil => exact h [] uid before (by rw [← List.nil_append history, ← hrest]; rfl)
    | cons e rest =>
      have hhead : .removed uid = e := (List.cons.inj hrest).1
      have hnone := hmore e (by rw [hmid]; simp)
      rw [← hhead] at hnone
      cases hnone

theorem mem_removed {more history : List (Section Nat)} (hmore : ∀ e ∈ more, removed? e = none) (uid : BitVec 32) :
    .removed uid ∈ more ++ history ↔ .removed uid ∈ history := by
  rw [List.mem_append]
  constructor
  · intro h
    rcases h with h | h
    · cases hmore _ h
    · exact h
  · exact .inr

/-- Nothing is added or removed, and no `user_left` broadcast. -/
structure Other (t t' : SessionTable.St Nat) : Prop where
  kinds : ∃ new, kinds t' = kinds t ++ new ∧ ∀ x ∈ new, ∃ c, x = .call c ∧ isUserLeft c.message = false
  history : ∃ more, t'.history = more ++ t.history ∧ ∀ e ∈ more, removed? e = none

theorem Inv.table (h : Inv s) (hkept : Kept t) (hsends : Sends t) (hother : Other s.table t) :
    Inv { s with table := t } := by
  obtain ⟨⟨new, hkinds, hnew⟩, ⟨more, hhistory, hmore⟩⟩ := hother
  refine { h with
    kept := hkept, sends := hsends, own := ?_, adds := ?_, callback := ?_, removed := ?_, removed_once := ?_,
    ordered := ?_, pushes := ?_ }
  · intro k session hk
    obtain ⟨uid, hadd⟩ := h.own k session hk
    exact ⟨uid, by rw [hkinds]; exact getElem?_append_some hadd new⟩
  · intro i uid k hi
    rw [hkinds] at hi
    rcases getElem?_append_cases hi with hold | hnewer
    · exact h.adds i uid k hold
    · obtain ⟨c, hc, -⟩ := hnew _ hnewer
      cases hc
  · intro k session uid hk hcb
    obtain ⟨hadd, hentered⟩ := h.callback k session uid hk hcb
    refine ⟨by rw [hkinds]; exact getElem?_append_some hadd new, ?_⟩
    rw [hhistory]
    exact List.mem_append_right more hentered
  · intro uid
    rw [hhistory, mem_removed hmore]
    exact h.removed uid
  · rw [hhistory, List.filterMap_append, List.filterMap_eq_nil_iff.mpr hmore]
    exact h.removed_once
  · rw [hhistory]
    exact h.ordered.append hmore
  · intro i c hi hleft
    rw [hkinds] at hi
    rcases getElem?_append_cases hi with hold | hnewer
    · exact h.pushes i c hold hleft
    · obtain ⟨d, hd, hnot⟩ := hnew _ hnewer
      cases hd
      rw [hnot] at hleft
      cases hleft

theorem other_enter (hi : t.ops[i]? = some (.add uid k false)) : Other t (SessionTable.enter t i uid k) where
  kinds := ⟨[], by rw [List.append_nil]; exact kinds_set hi rfl, nofun⟩
  history := ⟨[.entered uid k], rfl, by simp [removed?]⟩

theorem other_setName (uid : BitVec 32) (name : String) : Other t (SessionTable.setName t uid name) where
  kinds := ⟨[], (List.append_nil _).symm, nofun⟩
  history := ⟨[.named uid name], rfl, by simp [removed?]⟩

theorem other_call (uids : Option (List (BitVec 32))) {message : Message} (hnot : isUserLeft message = false) :
    Other t (SessionTable.call t uids message) where
  kinds := ⟨[.call ⟨uids, message, t.manager, t.history⟩], List.map_append, by simp [hnot]⟩
  history := ⟨[], rfl, nofun⟩

theorem other_send {c : SessionTable.Call Nat} {left : List Nat} (hi : t.ops[i]? = some (.call c (k :: left))) :
    Other t (SessionTable.send t i c k left) where
  kinds := ⟨[], by rw [List.append_nil]; exact kinds_set hi rfl, nofun⟩
  history := ⟨[], rfl, nofun⟩

/-! ## Steps of a session -/

theorem removed_set {l : List Session} {session' : Session} (hk : l[k]? = some session)
    (heq : session'.closing.removed? = session.closing.removed?) (uid : BitVec 32) :
    (∃ (j : Nat) (x : Session), (l.set k session')[j]? = some x ∧ x.closing.removed? = some uid) ↔
      ∃ (j : Nat) (x : Session), l[j]? = some x ∧ x.closing.removed? = some uid := by
  constructor
  · intro h
    obtain ⟨j, x, hj, hx⟩ := h
    rcases getElem?_set_some hj with ⟨rfl, rfl⟩ | ⟨-, hj⟩
    · exact ⟨k, session, hk, heq ▸ hx⟩
    · exact ⟨j, x, hj, hx⟩
  · intro h
    obtain ⟨j, x, hj, hx⟩ := h
    obtain ⟨w, hw, hsame⟩ := getElem?_set_rel (R := fun a b => b.closing.removed? = a.closing.removed?)
      (fun _ => rfl) hk heq hj
    exact ⟨j, w, hw, hsame.trans hx⟩

/-- A session that is closing has its flag set. -/
theorem Inv.flagged (h : Inv s) (hk : s.sessions[k]? = some session) (hne : session.closing ≠ .opened) :
    session.mIsClosed ≠ false := by
  intro hflag
  exact hne (h.flag k session hk hflag)

theorem Inv.own_set (h : Inv s) {session' : Session} (hk : s.sessions[k]? = some session)
    (hadd : session'.add = session.add) (j : Nat) (x : Session) (hj : (s.sessions.set k session')[j]? = some x) :
    ∃ uid, (kinds s.table)[x.add]? = some (.add uid j) := by
  rcases getElem?_set_some hj with ⟨rfl, rfl⟩ | ⟨-, hj⟩
  · rw [hadd]
    exact h.own k session hk
  · exact h.own j x hj

theorem Inv.adds_set (h : Inv s) {session' : Session} (hk : s.sessions[k]? = some session)
    (hadd : session'.add = session.add) (i : Nat) (uid : BitVec 32) (j : Nat)
    (hi : (kinds s.table)[i]? = some (.add uid j)) :
    ∃ x, (s.sessions.set k session')[j]? = some x ∧ x.add = i := by
  obtain ⟨x, hx, hxi⟩ := h.adds i uid j hi
  obtain ⟨w, hw, hsame⟩ := getElem?_set_rel (R := fun a b : Session => b.add = a.add) (fun _ => rfl) hk hadd hx
  exact ⟨w, hw, hsame.trans hxi⟩

theorem Inv.flag_set (h : Inv s) {session' : Session} (hflag : session'.mIsClosed = false → session'.closing = .opened)
    (j : Nat) (x : Session) (hj : (s.sessions.set k session')[j]? = some x) :
    x.mIsClosed = false → x.closing = .opened := by
  rcases getElem?_set_some hj with ⟨rfl, rfl⟩ | ⟨-, hj⟩
  · exact hflag
  · exact h.flag j x hj

theorem Inv.closing_set (h : Inv s) {session' : Session}
    (hclosing : ∀ uid, session'.closing.uid? = some uid → session'.mCloseSessionCallback = some uid) (j : Nat)
    (x : Session) (u : BitVec 32) (hj : (s.sessions.set k session')[j]? = some x) :
    x.closing.uid? = some u → x.mCloseSessionCallback = some u := by
  rcases getElem?_set_some hj with ⟨rfl, rfl⟩ | ⟨-, hj⟩
  · exact hclosing u
  · exact h.closing j x u hj

/-- A step of one session that changes neither what it removed nor what it told. -/
theorem Inv.put (h : Inv s) {session' : Session} (hk : s.sessions[k]? = some session)
    (hadd : session'.add = session.add)
    (hcallback : ∀ uid, session'.mCloseSessionCallback = some uid →
      (kinds s.table)[session.add]? = some (.add uid k) ∧ .entered uid k ∈ s.table.history)
    (hflag : session'.mIsClosed = false → session'.closing = .opened)
    (hclosing : ∀ uid, session'.closing.uid? = some uid → session'.mCloseSessionCallback = some uid)
    (hremoved : session'.closing.removed? = session.closing.removed?)
    (htold : ∀ told, session.closing = .closed told → session'.closing = .closed told) : Inv (put s k session') := by
  refine { h with
    own := h.own_set hk hadd, adds := h.adds_set hk hadd, callback := ?_, flag := h.flag_set hflag,
    closing := h.closing_set hclosing, removed := ?_, pushes := ?_ }
  · intro j x uid hj hcb
    rcases getElem?_set_some hj with ⟨rfl, rfl⟩ | ⟨-, hj⟩
    · rw [hadd]
      exact hcallback uid hcb
    · exact h.callback j x uid hj hcb
  · intro uid
    exact (h.removed uid).trans (removed_set hk hremoved uid).symm
  · intro i c hi hleft
    obtain ⟨uid, now, j, x, huids, hmessage, hj, hx, hbefore⟩ := h.pushes i c hi hleft
    by_cases hjk : k = j
    · subst hjk
      obtain rfl := Option.some.inj (hk.symm.trans hj)
      exact ⟨uid, now, k, session', huids, hmessage,
        List.getElem?_set_self (List.getElem?_eq_some_iff.mp hk).1, htold _ hx, hbefore⟩
    · exact ⟨uid, now, j, x, huids, hmessage, by rw [SessionLifecycle.put, List.getElem?_set_ne hjk, hj], hx, hbefore⟩

theorem inv_accept (h : Inv s) :
    Inv ⟨take s.table s.sessions.length, s.sessions ++ [⟨s.table.ops.length, none, false, .opened⟩]⟩ := by
  have hkinds : kinds (take s.table s.sessions.length) =
      kinds s.table ++ [.add s.table.manager.mNextUid s.sessions.length] := List.map_append
  have hlen : (kinds s.table).length = s.table.ops.length := List.length_map _
  refine ⟨kept_take h.kept _, sends_take h.sends _, ?_, ?_, ?_, ?_, ?_, ?_, h.removed_once, h.ordered, ?_⟩
  · intro k session hk
    rcases getElem?_snoc hk with hk | ⟨rfl, rfl⟩
    · obtain ⟨uid, hadd⟩ := h.own k session hk
      exact ⟨uid, by rw [hkinds]; exact getElem?_append_some hadd _⟩
    · refine ⟨s.table.manager.mNextUid, ?_⟩
      rw [hkinds, ← hlen, List.getElem?_concat_length]
  · intro i uid k hi
    rw [hkinds] at hi
    rcases getElem?_snoc hi with hi | ⟨rfl, heq⟩
    · obtain ⟨session, hk, hadd⟩ := h.adds i uid k hi
      exact ⟨session, getElem?_append_some hk _, hadd⟩
    · cases heq
      exact ⟨_, List.getElem?_concat_length, hlen.symm⟩
  · intro k session uid hk hcb
    rcases getElem?_snoc hk with hk | ⟨rfl, rfl⟩
    · obtain ⟨hadd, hentered⟩ := h.callback k session uid hk hcb
      exact ⟨by rw [hkinds]; exact getElem?_append_some hadd _, hentered⟩
    · cases hcb
  · intro k session hk hflag
    rcases getElem?_snoc hk with hk | ⟨rfl, rfl⟩
    · exact h.flag k session hk hflag
    · rfl
  · intro k session uid hk hclosing
    rcases getElem?_snoc hk with hk | ⟨rfl, rfl⟩
    · exact h.closing k session uid hk hclosing
    · cases hclosing
  · intro uid
    refine (h.removed uid).trans ?_
    constructor
    · intro hr
      obtain ⟨k, session, hk, hremoved⟩ := hr
      exact ⟨k, session, getElem?_append_some hk _, hremoved⟩
    · intro hr
      obtain ⟨k, session, hk, hremoved⟩ := hr
      rcases getElem?_snoc hk with hk | ⟨rfl, rfl⟩
      · exact ⟨k, session, hk, hremoved⟩
      · cases hremoved
  · intro i c hi hleft
    rw [hkinds] at hi
    rcases getElem?_snoc hi with hi | ⟨rfl, heq⟩
    · obtain ⟨uid, now, k, session, huids, hmessage, hk, hclosing, hbefore⟩ := h.pushes i c hi hleft
      exact ⟨uid, now, k, session, huids, hmessage, getElem?_append_some hk _, hclosing, hbefore⟩
    · cases heq

/-- Two sessions whose close callbacks hold one uid are one. -/
theorem Inv.same (h : Inv s) (hnd : s.table.uids.Nodup) {session' : Session} (hk : s.sessions[k]? = some session)
    (hj : s.sessions[j]? = some session') (hcb : session.mCloseSessionCallback = some uid)
    (hcb' : session'.mCloseSessionCallback = some uid) : k = j := by
  obtain ⟨hadd, -⟩ := h.callback k session uid hk hcb
  obtain ⟨hadd', -⟩ := h.callback j session' uid hj hcb'
  rw [← uids_kinds] at hnd
  have hplace : session.add = session'.add := eq_of_nodup_filterMap hnd hadd hadd' rfl rfl
  rw [hplace, hadd'] at hadd
  exact (Kind.add.inj (Option.some.inj hadd)).2.symm

theorem inv_remove (h : Inv s) (hnd : s.table.uids.Nodup) (hk : s.sessions[k]? = some session)
    (hclosing : session.closing = .removing uid) :
    Inv { put s k { session with closing := .pushing uid } with table := SessionTable.remove s.table uid } := by
  have hcb := h.closing k session uid hk (by rw [hclosing]; rfl)
  have hself : (s.sessions.set k { session with closing := .pushing uid })[k]? =
      some { session with closing := .pushing uid } := List.getElem?_set_self (List.getElem?_eq_some_iff.mp hk).1
  have hnew : uid ∉ s.table.history.filterMap removed? := by
    intro hm
    obtain ⟨e, he, heq⟩ := List.mem_filterMap.mp hm
    cases e with
    | removed u =>
      cases heq
      obtain ⟨j, x, hj, hx⟩ := (h.removed uid).mp he
      have hcb' := h.closing j x uid hj (uid?_of_removed? hx)
      obtain rfl := h.same hnd hk hj hcb hcb'
      obtain rfl := Option.some.inj (hk.symm.trans hj)
      rw [hclosing] at hx
      cases hx
    | entered u x => cases heq
    | named u name => cases heq
  have hother {j : Nat} {x : Session} (hj : s.sessions[j]? = some x) (hx : x.closing ≠ .removing uid) :
      (s.sessions.set k { session with closing := .pushing uid })[j]? = some x :=
    getElem?_set_other hk hj (fun heq => hx (heq ▸ hclosing)) _
  refine ⟨kept_remove h.kept uid, ⟨h.sends.split, h.sends.sent⟩, h.own_set hk rfl, h.adds_set hk rfl, ?_, h.flag_set ?_,
    h.closing_set ?_, ?_, ?_, ?_, ?_⟩
  · intro j x u hj hcb
    rcases getElem?_set_some hj with ⟨rfl, rfl⟩ | ⟨-, hj⟩
    · obtain ⟨hadd, hentered⟩ := h.callback k session u hk hcb
      exact ⟨hadd, List.mem_cons_of_mem _ hentered⟩
    · obtain ⟨hadd, hentered⟩ := h.callback j x u hj hcb
      exact ⟨hadd, List.mem_cons_of_mem _ hentered⟩
  · intro hflag
    exact (h.flagged hk (by rw [hclosing]; nofun) hflag).elim
  · intro u hu
    cases hu
    exact hcb
  · intro u
    constructor
    · intro hm
      rcases List.mem_cons.mp hm with heq | hm
      · cases heq
        exact ⟨k, _, hself, rfl⟩
      · obtain ⟨j, x, hj, hx⟩ := (h.removed u).mp hm
        exact ⟨j, x, hother hj (fun heq => nomatch heq ▸ hx), hx⟩
    · intro hr
      obtain ⟨j, x, hj, hx⟩ := hr
      rcases getElem?_set_some hj with ⟨rfl, rfl⟩ | ⟨-, hj⟩
      · cases hx
        exact List.mem_cons_self
      · exact List.mem_cons_of_mem _ ((h.removed u).mpr ⟨j, x, hj, hx⟩)
  · exact List.nodup_cons.mpr ⟨hnew, h.removed_once⟩
  · intro since u before heq
    cases since with
    | nil =>
      obtain ⟨hu, rfl⟩ := List.cons.inj heq
      cases hu
      exact ⟨k, (h.callback k session uid hk hcb).2⟩
    | cons e since => exact h.ordered since u before (List.cons.inj heq).2
  · intro i c hi hleft
    obtain ⟨u, now, j, x, huids, hmessage, hj, hx, hbefore⟩ := h.pushes i c hi hleft
    exact ⟨u, now, j, x, huids, hmessage, hother hj (by rw [hx]; nofun), hx, hbefore⟩

theorem inv_push (h : Inv s) (now : Nat) (hk : s.sessions[k]? = some session)
    (hclosing : session.closing = .pushing uid) :
    Inv { put s k { session with closing := .closed (some (uid, s.table.ops.length)) } with
      table := SessionTable.call s.table none (makePush now (userLeft uid)) } := by
  set session' : Session := { session with closing := .closed (some (uid, s.table.ops.length)) }
  have hlen : (kinds s.table).length = s.table.ops.length := List.length_map _
  have hkinds : kinds (SessionTable.call s.table none (makePush now (userLeft uid))) =
      kinds s.table ++ [.call ⟨none, makePush now (userLeft uid), s.table.manager, s.table.history⟩] := List.map_append
  have hcb := h.closing k session uid hk (by rw [hclosing]; rfl)
  have hremoved : session'.closing.removed? = session.closing.removed? := by rw [hclosing]; rfl
  -- the session's step, which the broadcast adds a place to
  have hput : Inv (put s k session') := by
    refine h.put hk rfl (fun u hu => h.callback k session u hk hu) ?_ ?_ hremoved ?_
    · intro hflag
      exact (h.flagged hk (by rw [hclosing]; nofun) hflag).elim
    · intro u hu
      cases hu
      exact hcb
    · intro told htold
      rw [hclosing] at htold
      cases htold
  refine { hput with
    kept := kept_call h.kept _ _, sends := sends_call h.sends _ _, own := ?_, adds := ?_, callback := ?_, pushes := ?_ }
  · intro j x hj
    obtain ⟨u, hadd⟩ := hput.own j x hj
    exact ⟨u, by rw [hkinds]; exact getElem?_append_some hadd _⟩
  · intro i u j hi
    rw [hkinds] at hi
    rcases getElem?_snoc hi with hi | ⟨-, heq⟩
    · exact hput.adds i u j hi
    · cases heq
  · intro j x u hj hx
    obtain ⟨hadd, hentered⟩ := hput.callback j x u hj hx
    exact ⟨by rw [hkinds]; exact getElem?_append_some hadd _, hentered⟩
  · intro i c hi hleft
    rw [hkinds] at hi
    rcases getElem?_snoc hi with hi | ⟨rfl, heq⟩
    · exact hput.pushes i c hi hleft
    · cases heq
      refine ⟨uid, now, k, session', rfl, rfl, List.getElem?_set_self (List.getElem?_eq_some_iff.mp hk).1, ?_, ?_⟩
      · rw [hlen]
      · exact (h.removed uid).mpr ⟨k, session, hk, by rw [hclosing]; rfl⟩

theorem inv_close (h : Inv s) (hk : s.sessions[k]? = some session) : Inv (put s k (close session)) := by
  have hcb := fun uid => h.callback k session uid hk
  cases hflag : session.mIsClosed with
  | true =>
    have hsame : close session = session := if_pos hflag
    rw [hsame]
    exact h.put hk rfl hcb (h.flag k session hk) (fun uid => h.closing k session uid hk) rfl fun _ => id
  | false =>
    have hopened := h.flag k session hk hflag
    have hfirst : close session = { session with mIsClosed := true, closing := .shutting } := if_neg (by simp [hflag])
    rw [hfirst]
    refine h.put hk rfl hcb nofun nofun ?_ ?_
    · rw [hopened]
      rfl
    · intro told htold
      rw [hopened] at htold
      cases htold

theorem inv_onClose (h : Inv s) (hk : s.sessions[k]? = some session)
    (hop : s.table.ops[session.add]? = some (.add uid j true)) :
    Inv (put s k { session with mCloseSessionCallback := some uid }) := by
  obtain ⟨u, hadd⟩ := h.own k session hk
  have hplace := kinds_of hop
  rw [hadd] at hplace
  obtain ⟨rfl, rfl⟩ := Kind.add.inj (Option.some.inj hplace)
  refine h.put hk rfl ?_ (h.flag k session hk) ?_ rfl fun _ => id
  · intro v hv
    cases hv
    exact ⟨hadd, (h.kept.entered _ _).mpr ⟨session.add, hop⟩⟩
  · intro v hv
    have hcb := h.closing k session v hk hv
    obtain ⟨hadd', -⟩ := h.callback k session v hk hcb
    rw [hadd] at hadd'
    cases hadd'
    rfl

theorem inv_goOn (h : Inv s) (hnd : s.table.uids.Nodup) {now : Nat} (hk : s.sessions[k]? = some session)
    (hgo : goOn s k now session = some s') : Inv s' := by
  unfold goOn at hgo
  split at hgo
  · rename_i hclosing
    cases hgo
    refine h.put hk rfl (fun uid => h.callback k session uid hk) ?_ ?_ ?_ ?_
    · intro hflag
      exact (h.flagged hk (by rw [hclosing]; nofun) hflag).elim
    · intro uid huid
      cases hcb : session.mCloseSessionCallback with
      | none => simp [called, hcb, Closing.uid?] at huid
      | some u => simpa [called, hcb, Closing.uid?] using huid
    · rw [hclosing]
      unfold called
      split <;> rfl
    · intro told htold
      rw [hclosing] at htold
      cases htold
  · rename_i uid hclosing
    cases hgo
    exact inv_remove h hnd hk hclosing
  · rename_i uid hclosing
    cases hgo
    exact inv_push h now hk hclosing
  · cases hgo

theorem inv_next {e : Ev} (h : Inv s) (hnd : s.table.uids.Nodup) (he : next s e = some s') : Inv s' := by
  cases e with
  | accept =>
    cases he
    exact inv_accept h
  | enter k =>
    obtain ⟨session, hk, he⟩ := Option.bind_eq_some_iff.mp he
    split at he
    · rename_i uid j hop
      cases he
      exact h.table (kept_enter h.kept hnd hop) (sends_enter h.sends hop) (other_enter hop)
    · cases he
  | onClose k =>
    obtain ⟨session, hk, he⟩ := Option.bind_eq_some_iff.mp he
    split at he
    · rename_i uid j hop
      cases he
      exact inv_onClose h hk hop
    · cases he
  | close k =>
    obtain ⟨session, hk, rfl⟩ := Option.map_eq_some_iff.mp he
    exact inv_close h hk
  | goOn k now =>
    obtain ⟨session, hk, he⟩ := Option.bind_eq_some_iff.mp he
    exact inv_goOn h hnd hk he
  | setName uid name =>
    cases he
    exact h.table (kept_setName h.kept uid name) ⟨h.sends.split, h.sends.sent⟩ (other_setName uid name)
  | broadcast message =>
    obtain ⟨hnot, he⟩ := Option.ite_none_left_eq_some.mp he
    cases he
    exact h.table (kept_call h.kept _ _) (sends_call h.sends _ _) (other_call _ (Bool.eq_false_iff.mpr hnot))
  | sendTo uids message =>
    obtain ⟨hnot, he⟩ := Option.ite_none_left_eq_some.mp he
    cases he
    exact h.table (kept_call h.kept _ _) (sends_call h.sends _ _) (other_call _ (Bool.eq_false_iff.mpr hnot))
  | send i =>
    rw [next] at he
    split at he
    · rename_i c session left hop
      cases he
      exact h.table (kept_send h.kept hop) (sends_send h.sends hop) (other_send hop)
    · cases he

/-! ## Runs -/

/-- A step does to the table what one of `SessionManager`'s operations does, or nothing. -/
theorem table_next {e : Ev} (he : next s e = some s') :
    s'.table = s.table ∨ ∃ e', SessionTable.next s.table e' = some s'.table := by
  cases e with
  | accept =>
    cases he
    exact .inr ⟨.add s.sessions.length, rfl⟩
  | enter k =>
    obtain ⟨session, -, he⟩ := Option.bind_eq_some_iff.mp he
    split at he
    · rename_i uid j hop
      cases he
      exact .inr ⟨.go session.add, by rw [SessionTable.next, hop]; rfl⟩
    · cases he
  | onClose k =>
    obtain ⟨session, -, he⟩ := Option.bind_eq_some_iff.mp he
    split at he
    · cases he
      exact .inl rfl
    · cases he
  | close k =>
    obtain ⟨session, -, rfl⟩ := Option.map_eq_some_iff.mp he
    exact .inl rfl
  | goOn k now =>
    obtain ⟨session, -, he⟩ := Option.bind_eq_some_iff.mp he
    unfold goOn at he
    split at he
    · cases he
      exact .inl rfl
    · rename_i uid _
      cases he
      exact .inr ⟨.remove uid, rfl⟩
    · rename_i uid _
      cases he
      exact .inr ⟨.broadcast (makePush now (userLeft uid)), rfl⟩
    · cases he
  | setName uid name =>
    cases he
    exact .inr ⟨.setName uid name, rfl⟩
  | broadcast message =>
    obtain ⟨-, he⟩ := Option.ite_none_left_eq_some.mp he
    cases he
    exact .inr ⟨.broadcast message, rfl⟩
  | sendTo uids message =>
    obtain ⟨-, he⟩ := Option.ite_none_left_eq_some.mp he
    cases he
    exact .inr ⟨.sendTo uids message, rfl⟩
  | send i =>
    rw [next] at he
    split at he
    · rename_i c session left hop
      cases he
      exact .inr ⟨.go i, by rw [SessionTable.next, hop]; rfl⟩
    · cases he

/-- The table goes through a run of its own. -/
theorem run_table {ok : St → Ev → Prop} (hrun : Machine.Run next ok init s) :
    Machine.Run SessionTable.next Machine.any SessionTable.init s.table := by
  refine Machine.run_invariant (fun s => Machine.Run SessionTable.next Machine.any SessionTable.init s.table)
    Machine.Run.refl ?_ hrun
  intro a e b ha _ he
  rcases table_next he with hsame | hstep
  · rw [hsame]
    exact ha
  · obtain ⟨e', he'⟩ := hstep
    exact ha.snoc (trivial : Machine.any a.table e') he'

theorem run_inv {ok : St → Ev → Prop} (hrun : Machine.Run next ok init s) (hlen : s.table.uids.length ≤ 2 ^ 32 - 1) :
    Inv s := by
  have hinv : Machine.Run next ok init s ∧ (s.table.uids.length ≤ 2 ^ 32 - 1 → Inv s) := by
    refine Machine.run_invariant (fun s => Machine.Run next ok init s ∧ (s.table.uids.length ≤ 2 ^ 32 - 1 → Inv s))
      ⟨Machine.Run.refl, fun _ => inv_init⟩ ?_ hrun
    intro a e b ha hok he
    obtain ⟨har, hi⟩ := ha
    refine ⟨har.snoc hok he, ?_⟩
    intro hb
    have hgrow : a.table.uids.length ≤ b.table.uids.length := by
      rcases table_next he with hsame | hstep
      · rw [hsame]
      · obtain ⟨e', he'⟩ := hstep
        exact length_uids_next he'
    have ha := hgrow.trans hb
    exact inv_next (hi ha) ((run_counted (run_table har)).nodup ha) he
  exact hinv.2 hlen

end CryptoChat.Net.SessionLifecycle
