/-
  CryptoChat.Net.ServerRun — runs of the server in whole operations: sessions are added
  to the session manager and removed, pushes are broadcast (a close, the dashboard), and
  messages come in on sessions, in any order.

  Proved: the sessions' uids count up from 1, and a uid is registered for the session it
  was given to only (`run_inv`).
-/

import CryptoChat.Net.ServerAppContext
import CryptoChat.Lib.ListAt
import CryptoChat.Lib.Machine

namespace CryptoChat.Net.ServerRun

open CryptoChat.Lib CryptoChat.Lib.ListAt Message

inductive Ev where
  | add
  | remove (uid : BitVec 32)
  | broadcast (now : Nat) (push : Json)
  /-- A message comes in on the session `k`. -/
  | message (k now : Nat) (msg : Message)

structure St where
  store : Store Nat
  /-- The uids the sessions were given, which their callbacks hold. -/
  uids : List (BitVec 32)
  /-- What happened, the latest first. -/
  history : List Ev

def init : St := ⟨⟨.new, []⟩, [], []⟩

def next (s : St) : Ev → Option St
  | .add =>
    let added := s.store.mSessions.add s.uids.length
    some ⟨{ s.store with mSessions := added.1 }, s.uids ++ [added.2], .add :: s.history⟩
  | .remove uid =>
    some { s with
      store := { s.store with mSessions := s.store.mSessions.remove uid }, history := .remove uid :: s.history }
  | .broadcast now push =>
    some { s with
      store := ((ServerAppContext.broadcast (makePush now push)).run ServerAppContext.exec s.store).1
      history := .broadcast now push :: s.history }
  | .message k now msg =>
    s.uids[k]?.map fun uid => { s with
      store := ((ServerAppContext.onMessage now uid msg k).run ServerAppContext.exec s.store).1
      history := .message k now msg :: s.history }

/-- The uid of the session `k`: `mNextUid` starts at 1. -/
def sessionUid (k : Nat) : BitVec 32 := BitVec.ofNat 32 (k + 1)

theorem sessionUid_inj {k n : Nat} (hk : k < 2 ^ 32) (hn : n < 2 ^ 32) (h : sessionUid k = sessionUid n) : k = n := by
  have := congrArg BitVec.toNat h
  simp only [sessionUid, BitVec.toNat_ofNat] at this
  omega

/-- How many sessions were added. -/
def adds (history : List Ev) : Nat := history.countP fun | .add => true | _ => false

/-- Uids are given in order, and each is registered for its own session. -/
structure Inv (s : St) : Prop where
  next_uid : s.store.mSessions.mNextUid = sessionUid s.uids.length
  uids : ∀ (k : Nat) uid, s.uids[k]? = some uid → uid = sessionUid k
  get : ∀ uid k, s.store.mSessions.get uid = some k → s.uids[k]? = some uid
  adds : s.uids.length = adds s.history

variable {s s' : St}

theorem inv_init : Inv init := ⟨rfl, by simp [init], by simp [init], rfl⟩

/-- The name a message logs in with, if it does. -/
def login? (msg : Message) : Option String :=
  match ServerAppContext.call? msg with
  | some (.login name) => some name
  | _ => none

/-- A message does to the sessions no more than to set a name. -/
theorem sessions_onMessage (now : Nat) (uid : BitVec 32) (msg : Message) (k : Nat) (store : Store Nat) :
    ((ServerAppContext.onMessage now uid msg k).run ServerAppContext.exec store).1.mSessions =
      match login? msg with
      | some name => store.mSessions.setName uid name
      | none => store.mSessions := by
  rw [ServerAppContext.onMessage_read]
  unfold login? ServerAppContext.call?
  cases ServerAppContext.read msg with
  | error e => rfl
  | ok r =>
    obtain ⟨id, answer | call⟩ := r
    · rfl
    · cases call <;> rfl

theorem inv_next {e : Ev} (h : Inv s) (he : next s e = some s') : Inv s' := by
  cases e with
  | add =>
    cases he
    refine ⟨?_, ?_, ?_, ?_⟩
    · simp [SessionManager.add, h.next_uid, sessionUid, BitVec.ofNat_add]
    · intro k uid hk
      rcases getElem?_snoc hk with hk | ⟨rfl, rfl⟩
      · exact h.uids k uid hk
      · exact h.next_uid
    · intro uid k hg
      simp only [SessionManager.get_add] at hg
      split at hg
      · cases hg
        rename_i hu
        simp [SessionManager.add, hu]
      · exact getElem?_append_some (h.get uid k hg) _
    · simp [h.adds, ServerRun.adds]
  | remove uid =>
    cases he
    refine { h with get := ?_, adds := ?_ }
    · intro u k hg
      simp only [SessionManager.get_remove, Option.ite_none_left_eq_some] at hg
      exact h.get u k hg.2
    · simp [h.adds, ServerRun.adds]
  | broadcast now push =>
    cases he
    simp only [ServerAppContext.run_broadcast]
    exact ⟨h.next_uid, h.uids, h.get, by simp [h.adds, ServerRun.adds]⟩
  | message k now msg =>
    obtain ⟨uid, -, rfl⟩ := Option.map_eq_some_iff.mp he
    have hm := sessions_onMessage now uid msg k s.store
    refine ⟨?_, h.uids, ?_, by simp [h.adds, ServerRun.adds]⟩
    · simp only [hm]
      split
      · unfold SessionManager.setName
        split <;> exact h.next_uid
      · exact h.next_uid
    · intro u j hg
      simp only [hm] at hg
      split at hg
      · exact h.get u j (by simpa using hg)
      · exact h.get u j hg

/-- A session is registered under its own uid only. -/
theorem Inv.get_uid (h : Inv s) {uid : BitVec 32} {k : Nat} (hg : s.store.mSessions.get uid = some k) :
    uid = sessionUid k :=
  h.uids k uid (h.get uid k hg)

theorem next_message {k : Nat} {uid : BitVec 32} (hu : s.uids[k]? = some uid) (now : Nat) (msg : Message) :
    next s (.message k now msg) = some { s with
      store := ((ServerAppContext.onMessage now uid msg k).run ServerAppContext.exec s.store).1
      history := .message k now msg :: s.history } := by
  simp only [next, hu, Option.map_some]

theorem run_inv (h : Machine.Run next Machine.any init s) : Inv s :=
  Machine.run_invariant Inv inv_init (fun _ _ _ hi _ he => inv_next hi he) h

end CryptoChat.Net.ServerRun
