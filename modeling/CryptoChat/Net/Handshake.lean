/-
  CryptoChat.Net.Handshake — writes on a TLS stream against its handshake
  (`SecureSession`, the connection factory of `ServerController`, `SessionManager`).

  The factory registers a session before it starts it. `broadcast` and `sendTo` take the
  sessions under the lock and send to them one after another without it; `send` posts a
  handler, and the handler starts an `async_write` whatever the state of the stream.

  Proved: where `broadcast` and `sendTo` are called only when every session they take has
  completed its handshake, no write is started on a TLS stream before that; each call
  that takes another session can be followed by such a write (`no_early_write`). The
  code does not keep to that (`early_write`).
-/

import CryptoChat.Net.Message
import CryptoChat.Net.ServerController

namespace CryptoChat.Net.Handshake

open CryptoChat.Lib CryptoChat.Lib.ListAt

/-! ## The machine -/

/-- How far a session is with its start. -/
inductive Stage where
  | created
  /-- The `async_handshake` is outstanding, or its completion is queued. -/
  | handshaking
  | shaken (ok : Bool)
  /-- The read loop was started, or the session gave up. -/
  | started
  | stopped
  deriving DecidableEq

structure Session where
  mode : ServerMode
  uid : BitVec 32
  /-- Whether the factory has set the callbacks. -/
  wired : Bool
  stage : Stage
  mIsClosed : Bool
  /-- The messages of the handlers `write` posted. -/
  posted : List Message

structure St where
  /-- Registered is the index of the session in `sessions`. -/
  mSessions : SessionManager Nat
  sessions : List Session
  /-- The calls of `broadcast` and `sendTo` under way, and the sessions left to send to. -/
  calls : List (Message × List Nat)
  /-- The sessions in which an `async_write` was started on a stream without a handshake. -/
  early : List Nat

def init : St := ⟨.new, [], [], []⟩

inductive Ev where
  /-- The factory registers a session, sets its callbacks and starts it. -/
  | accept (mode : ServerMode)
  | wire (k : Nat)
  | start (k : Nat)
  /-- The handshake of the session `k` completes, and its handler runs. -/
  | handshake (k : Nat) (ok : Bool)
  | shaken (k : Nat)
  | broadcast (message : Message)
  | sendTo (uids : List (BitVec 32)) (message : Message)
  /-- The call `c` sends to the next of its sessions. -/
  | send (c : Nat)
  /-- A session that reads answers a message of its own. -/
  | reply (k : Nat) (message : Message)
  /-- The posted handler `i` of the session `k` starts its `async_write`. -/
  | write (k i : Nat)
  | close (k : Nat)

/-- Whether the stream can be written to: a plain one always, a TLS one after its handshake. -/
def Session.ready (session : Session) : Bool :=
  match session.mode, session.stage with
  | .plain, _ => true
  | .secure, .shaken ok => ok
  | .secure, .started => true
  | .secure, _ => false

/-- `SessionManager::remove` by the close callback, and the handshake aborted. -/
def Session.close (session : Session) : Session :=
  { session with
    mIsClosed := true, stage := if session.stage = .handshaking then .shaken false else session.stage }

def closeAt (s : St) (k : Nat) (session : Session) : St :=
  if session.mIsClosed then { s with sessions := s.sessions.set k session }
  else { s with
    mSessions := if session.wired then s.mSessions.remove session.uid else s.mSessions
    sessions := s.sessions.set k session.close }

def next (s : St) : Ev → Option St
  | .accept mode =>
    let added := s.mSessions.add s.sessions.length
    some { s with mSessions := added.1, sessions := s.sessions ++ [⟨mode, added.2, false, .created, false, []⟩] }
  | .wire k => s.sessions[k]?.map fun session => { s with sessions := s.sessions.set k { session with wired := true } }
  | .start k =>
    s.sessions[k]?.bind fun session =>
      if session.wired = true ∧ session.stage = .created then
        let stage : Stage :=
          match session.mode with
          | .plain => .started
          | .secure => if session.mIsClosed then .shaken false else .handshaking
        some { s with sessions := s.sessions.set k { session with stage := stage } }
      else none
  | .handshake k ok =>
    s.sessions[k]?.bind fun session =>
      if session.stage = .handshaking then
        some { s with sessions := s.sessions.set k { session with stage := .shaken ok } }
      else none
  | .shaken k =>
    s.sessions[k]?.bind fun session =>
      match session.stage with
      | .shaken true => some { s with sessions := s.sessions.set k { session with stage := .started } }
      | .shaken false => some (closeAt s k { session with stage := .stopped })
      | _ => none
  | .broadcast message => some { s with calls := s.calls ++ [(message, s.mSessions.broadcast)] }
  | .sendTo uids message => some { s with calls := s.calls ++ [(message, s.mSessions.sendTo uids)] }
  | .send c =>
    s.calls[c]?.bind fun call =>
      match call.2 with
      | [] => none
      | k :: rest =>
        s.sessions[k]?.map fun session =>
          { s with
            sessions := s.sessions.set k { session with posted := session.posted ++ [call.1] }
            calls := s.calls.set c (call.1, rest) }
  | .reply k message =>
    s.sessions[k]?.bind fun session =>
      if session.stage = .started then
        some { s with sessions := s.sessions.set k { session with posted := session.posted ++ [message] } }
      else none
  | .write k i =>
    s.sessions[k]?.bind fun session =>
      if i < session.posted.length then
        some { s with
          sessions := s.sessions.set k { session with posted := session.posted.eraseIdx i }
          early := if session.ready then s.early else s.early ++ [k] }
      else none
  | .close k => s.sessions[k]?.map fun session => closeAt s k session

/-! ## Ready streams -/

def ReadyAt (s : St) (k : Nat) : Prop := ∃ session, s.sessions[k]? = some session ∧ session.ready = true

/-- The sessions that a call takes have completed their handshakes. -/
def Ready (s : St) : Ev → Prop
  | .broadcast _ => ∀ k ∈ s.mSessions.broadcast, ReadyAt s k
  | .sendTo uids _ => ∀ k ∈ s.mSessions.sendTo uids, ReadyAt s k
  | _ => True

/-- What is sent, or posted, is for a stream that is ready. -/
structure Inv (s : St) : Prop where
  calls : ∀ call ∈ s.calls, ∀ k ∈ call.2, ReadyAt s k
  posted : ∀ (k : Nat) (session : Session), s.sessions[k]? = some session → session.posted ≠ [] → session.ready = true
  early : s.early = []

variable {s s' : St}

theorem readyAt_set {k j : Nat} {session session' : Session} (hk : s.sessions[k]? = some session)
    (hr : session.ready = true → session'.ready = true) (h : ReadyAt s j) (mSessions : SessionManager Nat)
    (calls : List (Message × List Nat)) (early : List Nat) :
    ReadyAt ⟨mSessions, s.sessions.set k session', calls, early⟩ j := by
  obtain ⟨x, hj, hx⟩ := h
  obtain ⟨w, hw, hready⟩ :=
    getElem?_set_rel (R := fun a b : Session => a.ready = true → b.ready = true) (fun _ => id) hk hr hj
  exact ⟨w, hw, hready hx⟩

/-- A session goes on: it stays ready, and what is posted in it is for a stream that is ready. -/
theorem inv_set (h : Inv s) {k : Nat} {session session' : Session} (hk : s.sessions[k]? = some session)
    (hr : session.ready = true → session'.ready = true) (hp : session'.posted ≠ [] → session'.ready = true)
    (mSessions : SessionManager Nat) :
    Inv { s with mSessions := mSessions, sessions := s.sessions.set k session' } := by
  refine ⟨fun call hc j hj => readyAt_set hk hr (h.calls call hc j hj) _ _ _, ?_, h.early⟩
  intro j x hj hx
  rcases getElem?_set_some hj with ⟨rfl, rfl⟩ | ⟨-, hj⟩
  · exact hp hx
  · exact h.posted j x hj hx

/-- A call takes sessions that are ready. -/
theorem inv_call (h : Inv s) {call : Message × List Nat} (hcall : ∀ k ∈ call.2, ReadyAt s k) :
    Inv { s with calls := s.calls ++ [call] } := by
  refine ⟨?_, h.posted, h.early⟩
  intro other hc k hk
  rcases List.mem_append.mp hc with hc | hc
  · exact h.calls other hc k hk
  · obtain rfl := List.mem_singleton.mp hc
    exact hcall k hk

theorem ready_close (session : Session) (h : session.ready = true) : session.close.ready = true := by
  obtain ⟨mode, uid, wired, stage, mIsClosed, posted⟩ := session
  cases mode <;> cases stage <;> simp_all [Session.close, Session.ready]

/-- A stream that is ready before its handshake is plain, and stays ready. -/
theorem ready_stage {session : Session} (hs : session.stage ∈ [.created, .handshaking, .shaken false]) (stage : Stage)
    (h : session.ready = true) : ({ session with stage := stage } : Session).ready = true := by
  obtain ⟨mode, uid, wired, stage', mIsClosed, posted⟩ := session
  cases mode with
  | plain => rfl
  | secure =>
    simp only [List.mem_cons, List.not_mem_nil, or_false] at hs
    rcases hs with rfl | rfl | rfl <;> cases h

theorem inv_closeAt (h : Inv s) {k : Nat} {session session' : Session} (hk : s.sessions[k]? = some session)
    (hr : session.ready = true → session'.ready = true) (hp : session'.posted ≠ [] → session'.ready = true) :
    Inv (closeAt s k session') := by
  unfold closeAt
  split
  · exact inv_set h hk hr hp s.mSessions
  · exact inv_set h hk (ready_close _ ∘ hr) (ready_close _ ∘ hp) _

theorem inv_next {e : Ev} (h : Inv s) (hready : Ready s e) (he : next s e = some s') : Inv s' := by
  cases e with
  | accept mode =>
    cases he
    refine ⟨?_, ?_, h.early⟩
    · intro call hc k hk
      obtain ⟨session, hs, hr⟩ := h.calls call hc k hk
      exact ⟨session, getElem?_append_some hs _, hr⟩
    · intro k session hk hp
      rcases getElem?_snoc hk with hk | ⟨-, rfl⟩
      · exact h.posted k session hk hp
      · exact absurd rfl hp
  | wire k =>
    obtain ⟨session, hk, rfl⟩ := Option.map_eq_some_iff.mp he
    exact @inv_set s h k session { session with wired := true } hk id (h.posted k session hk) _
  | start k =>
    obtain ⟨session, hk, he⟩ := Option.bind_eq_some_iff.mp he
    simp only [Option.ite_none_right_eq_some, Option.some.injEq] at he
    obtain ⟨⟨-, hs⟩, rfl⟩ := he
    refine inv_set h hk ?_ ?_ _
    · intro hr
      exact ready_stage (by simp [hs]) _ hr
    · intro hp
      exact ready_stage (by simp [hs]) _ (h.posted k session hk hp)
  | handshake k ok =>
    obtain ⟨session, hk, he⟩ := Option.bind_eq_some_iff.mp he
    simp only [Option.ite_none_right_eq_some, Option.some.injEq] at he
    obtain ⟨hs, rfl⟩ := he
    refine inv_set h hk ?_ ?_ _
    · intro hr
      exact ready_stage (by simp [hs]) _ hr
    · intro hp
      exact ready_stage (by simp [hs]) _ (h.posted k session hk hp)
  | shaken k =>
    obtain ⟨session, hk, he⟩ := Option.bind_eq_some_iff.mp he
    split at he
    · rename_i hs
      cases he
      have hready : ({ session with stage := .started } : Session).ready = true := by
        unfold Session.ready
        cases session.mode <;> rfl
      exact inv_set h hk (fun _ => hready) (fun _ => hready) _
    · rename_i hs
      cases he
      refine inv_closeAt h hk ?_ ?_
      · intro hr
        exact ready_stage (by simp [hs]) _ hr
      · intro hp
        exact ready_stage (by simp [hs]) _ (h.posted k session hk hp)
    · cases he
  | broadcast message =>
    cases he
    exact inv_call h hready
  | sendTo uids message =>
    cases he
    exact inv_call h hready
  | send c =>
    obtain ⟨⟨message, sessions⟩, hc, he⟩ := Option.bind_eq_some_iff.mp he
    cases sessions with
    | nil => cases he
    | cons k rest =>
      obtain ⟨session, hk, rfl⟩ := Option.map_eq_some_iff.mp he
      have hcall := h.calls _ (List.mem_of_getElem? hc)
      obtain ⟨session', hk', hr⟩ := hcall k List.mem_cons_self
      obtain rfl := Option.some.inj (hk.symm.trans hk')
      have hi := @inv_set s h k session { session with posted := session.posted ++ [message] } hk id (fun _ => hr)
        s.mSessions
      refine ⟨?_, hi.posted, h.early⟩
      intro call hm j hj
      rcases List.mem_or_eq_of_mem_set hm with hm | rfl
      · exact hi.calls call hm j hj
      · exact hi.calls _ (List.mem_of_getElem? hc) j (List.mem_cons_of_mem k hj)
  | reply k message =>
    obtain ⟨session, hk, he⟩ := Option.bind_eq_some_iff.mp he
    simp only [Option.ite_none_right_eq_some, Option.some.injEq] at he
    obtain ⟨hs, rfl⟩ := he
    have hready : session.ready = true := by
      unfold Session.ready
      cases session.mode <;> simp [hs]
    exact @inv_set s h k session { session with posted := session.posted ++ [message] } hk id (fun _ => hready) _
  | write k i =>
    obtain ⟨session, hk, he⟩ := Option.bind_eq_some_iff.mp he
    simp only [Option.ite_none_right_eq_some, Option.some.injEq] at he
    obtain ⟨hi, rfl⟩ := he
    have hr := h.posted k session hk (List.ne_nil_of_length_pos (by omega))
    have hset := @inv_set s h k session { session with posted := session.posted.eraseIdx i } hk id (fun _ => hr)
      s.mSessions
    exact ⟨hset.calls, hset.posted, by simp [hr, h.early]⟩
  | close k =>
    obtain ⟨session, hk, rfl⟩ := Option.map_eq_some_iff.mp he
    exact inv_closeAt h hk id (h.posted k session hk)

/-! ## Streams that are not ready -/

theorem run_inv (h : Machine.Run next Ready init s) : Inv s :=
  Machine.run_invariant Inv ⟨by simp [init], by simp [init], rfl⟩ (fun _ _ _ hi hr he => inv_next hi hr he) h

/-- Registered and taken are sessions that the factory made. -/
structure Known (s : St) : Prop where
  get : ∀ uid k, s.mSessions.get uid = some k → k < s.sessions.length
  calls : ∀ call ∈ s.calls, ∀ k ∈ call.2, k < s.sessions.length

theorem Known.mono (h : Known s) (hm : ∀ uid k, s'.mSessions.get uid = some k → s.mSessions.get uid = some k)
    (hc : ∀ call ∈ s'.calls, ∃ call' ∈ s.calls, ∀ k ∈ call.2, k ∈ call'.2)
    (hl : s'.sessions.length = s.sessions.length) : Known s' := by
  refine ⟨fun uid k hg => hl ▸ h.get uid k (hm uid k hg), ?_⟩
  intro call hcall k hk
  obtain ⟨call', hcall', hsub⟩ := hc call hcall
  exact hl ▸ h.calls call' hcall' k (hsub k hk)

theorem known_call (h : Known s) {call : Message × List Nat} (hcall : ∀ k ∈ call.2, k < s.sessions.length) :
    Known { s with calls := s.calls ++ [call] } := by
  refine ⟨h.get, ?_⟩
  intro other hc k hk
  rcases List.mem_append.mp hc with hc | hc
  · exact h.calls other hc k hk
  · obtain rfl := List.mem_singleton.mp hc
    exact hcall k hk

theorem known_closeAt (h : Known s) (k : Nat) (session : Session) : Known (closeAt s k session) := by
  unfold closeAt
  split
  · exact h.mono (fun _ _ => id) (fun call hc => ⟨call, hc, fun _ => id⟩) (List.length_set ..)
  · refine h.mono ?_ (fun call hc => ⟨call, hc, fun _ => id⟩) (List.length_set ..)
    intro uid j hg
    dsimp only at hg
    split at hg
    · rw [SessionManager.get_remove] at hg
      exact (Option.ite_none_left_eq_some.mp hg).2
    · exact hg

theorem known_next {e : Ev} (h : Known s) (he : next s e = some s') : Known s' := by
  have hset (k : Nat) (session : Session) : Known { s with sessions := s.sessions.set k session } :=
    h.mono (fun _ _ => id) (fun call hc => ⟨call, hc, fun _ => id⟩) (List.length_set ..)
  cases e with
  | accept mode =>
    cases he
    refine ⟨?_, ?_⟩
    · intro uid k hg
      rw [List.length_append, List.length_singleton]
      rw [SessionManager.get_add] at hg
      split at hg
      · cases hg
        omega
      · have := h.get uid k hg
        omega
    · intro call hc k hk
      have := h.calls call hc k hk
      rw [List.length_append]
      omega
  | wire k =>
    obtain ⟨session, hk, rfl⟩ := Option.map_eq_some_iff.mp he
    exact hset k _
  | start k =>
    obtain ⟨session, hk, he⟩ := Option.bind_eq_some_iff.mp he
    simp only [Option.ite_none_right_eq_some, Option.some.injEq] at he
    obtain ⟨-, rfl⟩ := he
    exact hset k _
  | handshake k ok =>
    obtain ⟨session, hk, he⟩ := Option.bind_eq_some_iff.mp he
    simp only [Option.ite_none_right_eq_some, Option.some.injEq] at he
    obtain ⟨-, rfl⟩ := he
    exact hset k _
  | shaken k =>
    obtain ⟨session, hk, he⟩ := Option.bind_eq_some_iff.mp he
    split at he
    · cases he
      exact hset k _
    · cases he
      exact known_closeAt h k _
    · cases he
  | broadcast message =>
    cases he
    refine known_call h ?_
    intro k hk
    obtain ⟨uid, hg⟩ := SessionManager.mem_broadcast.mp hk
    exact h.get uid k hg
  | sendTo uids message =>
    cases he
    refine known_call h ?_
    intro k hk
    obtain ⟨uid, -, hg⟩ := SessionManager.mem_sendTo.mp hk
    exact h.get uid k hg
  | send c =>
    obtain ⟨⟨message, sessions⟩, hc, he⟩ := Option.bind_eq_some_iff.mp he
    cases sessions with
    | nil => cases he
    | cons k rest =>
      obtain ⟨session, hk, rfl⟩ := Option.map_eq_some_iff.mp he
      refine h.mono (fun _ _ => id) ?_ (List.length_set ..)
      intro call hm
      rcases List.mem_or_eq_of_mem_set hm with hm | rfl
      · exact ⟨call, hm, fun _ => id⟩
      · exact ⟨_, List.mem_of_getElem? hc, fun _ => List.mem_cons_of_mem k⟩
  | reply k message =>
    obtain ⟨session, hk, he⟩ := Option.bind_eq_some_iff.mp he
    simp only [Option.ite_none_right_eq_some, Option.some.injEq] at he
    obtain ⟨-, rfl⟩ := he
    exact hset k _
  | write k i =>
    obtain ⟨session, hk, he⟩ := Option.bind_eq_some_iff.mp he
    simp only [Option.ite_none_right_eq_some, Option.some.injEq] at he
    obtain ⟨-, rfl⟩ := he
    exact h.mono (fun _ _ => id) (fun call hc => ⟨call, hc, fun _ => id⟩) (List.length_set ..)
  | close k =>
    obtain ⟨session, hk, rfl⟩ := Option.map_eq_some_iff.mp he
    exact known_closeAt h k _

theorem run_known (h : Machine.Run next Machine.any init s) : Known s :=
  Machine.run_invariant Known ⟨by simp [init], by simp [init]⟩ (fun _ _ _ hi _ he => known_next hi he) h

/-- A call goes on to the session `k`, and posts its handler there. -/
theorem send_until {c k : Nat} {message : Message} (pre rest : List Nat) {s : St}
    (hc : s.calls[c]? = some (message, pre ++ k :: rest)) (hpre : ∀ j ∈ pre, j < s.sessions.length) {session : Session}
    (hk : s.sessions[k]? = some session) :
    ∃ t session', Machine.Run next Machine.any s t ∧ t.sessions[k]? = some session' ∧
      session'.ready = session.ready ∧ session'.posted ≠ [] := by
  induction pre generalizing s session with
  | nil =>
    have hstep : next s (.send c) = some { s with
        sessions := s.sessions.set k { session with posted := session.posted ++ [message] }
        calls := s.calls.set c (message, rest) } := by simp [next, hc, hk]
    exact ⟨_, _, Machine.Run.refl.snoc trivial hstep,
      List.getElem?_set_self (List.getElem?_eq_some_iff.mp hk).1, rfl, by simp⟩
  | cons j pre ih =>
    obtain ⟨x, hj⟩ : ∃ x, s.sessions[j]? = some x := ⟨_, List.getElem?_eq_getElem (hpre j List.mem_cons_self)⟩
    have hstep : next s (.send c) = some { s with
        sessions := s.sessions.set j { x with posted := x.posted ++ [message] }
        calls := s.calls.set c (message, pre ++ k :: rest) } := by simp [next, hc, hj]
    obtain ⟨session₁, hk₁, hr₁⟩ : ∃ session₁,
        (s.sessions.set j { x with posted := x.posted ++ [message] })[k]? = some session₁ ∧
          session₁.ready = session.ready :=
      getElem?_set_rel (R := fun a b : Session => b.ready = a.ready) (fun _ => rfl)
        (z := { x with posted := x.posted ++ [message] }) hj rfl hk
    have hpre' (i : Nat) (hi : i ∈ pre) :
        i < (s.sessions.set j { x with posted := x.posted ++ [message] }).length := by
      rw [List.length_set]
      exact hpre i (List.mem_cons_of_mem j hi)
    obtain ⟨t, session', hrun, ht, hr, hp⟩ := ih
      (s := { s with
        sessions := s.sessions.set j { x with posted := x.posted ++ [message] }
        calls := s.calls.set c (message, pre ++ k :: rest) })
      (List.getElem?_set_self (List.getElem?_eq_some_iff.mp hc).1) hpre' hk₁
    exact ⟨t, session', (Machine.Run.refl.snoc trivial hstep).trans hrun, ht, hr.trans hr₁, hp⟩

/-- A call that takes a session whose stream is not ready can write to it. -/
theorem early_of_call {message : Message} {sessions : List Nat} {k : Nat} (hl : ∀ j ∈ sessions, j < s.sessions.length)
    (hk : k ∈ sessions) (hn : ¬ ReadyAt s k) :
    ∃ t, Machine.Run next Machine.any { s with calls := s.calls ++ [(message, sessions)] } t ∧ t.early ≠ [] := by
  obtain ⟨pre, rest, rfl⟩ := List.append_of_mem hk
  have hlen : k < s.sessions.length := hl k hk
  obtain ⟨t, session', hrun, ht, hr, hp⟩ := send_until
    (s := { s with calls := s.calls ++ [(message, pre ++ k :: rest)] }) pre rest List.getElem?_concat_length
    (fun j hj => hl j (List.mem_append_left _ hj)) (List.getElem?_eq_getElem hlen)
  have hnot : session'.ready = false := by
    rw [hr]
    by_contra h
    exact hn ⟨s.sessions[k], List.getElem?_eq_getElem hlen, Bool.not_eq_false _ |>.mp h⟩
  have hwrite : next t (.write k 0) = some { t with
      sessions := t.sessions.set k { session' with posted := session'.posted.eraseIdx 0 }
      early := t.early ++ [k] } := by
    simp [next, ht, hnot, List.length_pos_of_ne_nil hp]
  exact ⟨_, hrun.snoc trivial hwrite, by simp⟩

theorem early_after {e : Ev} (hk : Known s) (hn : ¬ Ready s e) (he : next s e = some s') :
    ∃ t, Machine.Run next Machine.any s' t ∧ t.early ≠ [] := by
  cases e with
  | broadcast message =>
    cases he
    simp only [Ready, not_forall] at hn
    obtain ⟨k, hm, hn⟩ := hn
    refine early_of_call ?_ hm hn
    intro j hj
    obtain ⟨uid, hg⟩ := SessionManager.mem_broadcast.mp hj
    exact hk.get uid j hg
  | sendTo uids message =>
    cases he
    simp only [Ready, not_forall] at hn
    obtain ⟨k, hm, hn⟩ := hn
    refine early_of_call ?_ hm hn
    intro j hj
    obtain ⟨uid, -, hg⟩ := SessionManager.mem_sendTo.mp hj
    exact hk.get uid j hg
  | _ => exact absurd trivial hn

/-- In every run whose calls of `broadcast` and `sendTo` take only sessions with a completed
    handshake, no `async_write` is started on a TLS stream before its handshake has completed.
    After a call that takes another session, one can be. -/
theorem no_early_write {s : St} :
    (Machine.Run next Ready init s → s.early = []) ∧
    (Machine.Run next Machine.any init s → ∀ e s', next s e = some s' → ¬ Ready s e →
      ∃ t, Machine.Run next Machine.any s' t ∧ t.early ≠ []) :=
  ⟨fun h => (run_inv h).early, fun h _ _ he hn => early_after (run_known h) hn he⟩

/-! ## A broadcast during a handshake -/

/-- A session that is connected. -/
def connect (k : Nat) : List Ev := [.accept .secure, .wire k, .start k, .handshake k true, .shaken k]

/-- A broadcast to the one session, which is ready. -/
theorem no_early_write_ready :
    ∃ s, Machine.Run next Ready init s ∧ s.calls = [(samplePush, [])] ∧ s.early = [] := by
  have h0 : Machine.Run next Ready init init := .refl
  have h1 := (h0.snoc (e := .accept .secure) trivial rfl).snoc (e := .wire 0) trivial rfl
  have h1 := h1.snoc (e := .start 0) trivial rfl
  have h2 := (h1.snoc (e := .handshake 0 true) trivial rfl).snoc (e := .shaken 0) trivial rfl
  have h3 := (h2.snoc (e := .broadcast samplePush) (fun k hk => by
    obtain rfl : k = 0 := List.mem_singleton.mp hk
    exact ⟨_, rfl, rfl⟩) rfl).snoc (e := .send 0) trivial rfl
  have h4 := h3.snoc (e := .write 0 0) trivial rfl
  exact ⟨_, h4, rfl, no_early_write.1 h4⟩

/-- The second session is registered, and its handshake under way, when the first one's message
    is broadcast. -/
theorem early_write : ∃ s, Machine.Run next Machine.any init s ∧ s.early = [1] := by
  have hex : ((Machine.exec next init (connect 0 ++ [.accept .secure, .wire 1, .start 1, .broadcast samplePush,
      .send 0, .send 0, .write 1 0])).map fun s => s.early) = some [1] := by decide
  obtain ⟨s, hs, he⟩ := Option.map_eq_some_iff.mp hex
  exact ⟨s, Machine.run_of_exec _ hs, he⟩

end CryptoChat.Net.Handshake
