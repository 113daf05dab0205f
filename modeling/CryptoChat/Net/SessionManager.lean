/-
  CryptoChat.Net.SessionManager — the sessions of all ports, by uid (`SessionManager`).

  A session is whatever the caller registers; `broadcast` and `sendTo` give the sessions
  a message goes to. Each operation has its effect on `get`, the session under a uid, and
  the readers are stated through `get`.
-/

import Mathlib

namespace CryptoChat.Net

structure SessionInfo (σ : Type) where
  session : σ
  username : String

structure SessionManager (σ : Type) where
  mNextUid : BitVec 32
  mSessions : AList fun _ : BitVec 32 => SessionInfo σ

namespace SessionManager

variable {σ : Type}

def new : SessionManager σ := ⟨1#32, ∅⟩

/-- The uid it returns is the one before the counter moves. -/
def add (m : SessionManager σ) (session : σ) : SessionManager σ × BitVec 32 :=
  (⟨m.mNextUid + 1, m.mSessions.insert m.mNextUid ⟨session, "guest"⟩⟩, m.mNextUid)

/-- The two atomic steps of `add`: the counter, and the entry under the lock. -/
def takeUid (m : SessionManager σ) : SessionManager σ × BitVec 32 :=
  ({ m with mNextUid := m.mNextUid + 1 }, m.mNextUid)

def enter (m : SessionManager σ) (uid : BitVec 32) (session : σ) : SessionManager σ :=
  { m with mSessions := m.mSessions.insert uid ⟨session, "guest"⟩ }

theorem add_eq (m : SessionManager σ) (session : σ) :
    m.add session = (m.takeUid.1.enter m.takeUid.2 session, m.takeUid.2) := rfl

def remove (m : SessionManager σ) (uid : BitVec 32) : SessionManager σ := { m with mSessions := m.mSessions.erase uid }

def get (m : SessionManager σ) (uid : BitVec 32) : Option σ := (m.mSessions.lookup uid).map SessionInfo.session

def broadcast (m : SessionManager σ) : List σ := m.mSessions.entries.map fun e => e.2.session

def sendTo (m : SessionManager σ) (uids : List (BitVec 32)) : List σ := uids.filterMap m.get

def setName (m : SessionManager σ) (uid : BitVec 32) (name : String) : SessionManager σ :=
  match m.mSessions.lookup uid with
  | some info => { m with mSessions := m.mSessions.insert uid { info with username := name } }
  | none => m

def getName (m : SessionManager σ) (uid : BitVec 32) : String :=
  match m.mSessions.lookup uid with
  | some info => info.username
  | none => "Unknown"

def getCount (m : SessionManager σ) : Nat := m.mSessions.entries.length

def listIds (m : SessionManager σ) : List (BitVec 32) := m.mSessions.keys

/-- The name under a uid that is registered. -/
def name? (m : SessionManager σ) (uid : BitVec 32) : Option String :=
  (m.mSessions.lookup uid).map SessionInfo.username

/-! ## Through `get` -/

@[simp] theorem get_new (uid : BitVec 32) : (new : SessionManager σ).get uid = none := by simp [get, new]

theorem get_add (m : SessionManager σ) (session : σ) (uid : BitVec 32) :
    (m.add session).1.get uid = if uid = m.mNextUid then some session else m.get uid := by
  by_cases h : uid = m.mNextUid
  · subst h
    simp [add, get]
  · simp [add, get, AList.lookup_insert_ne h, h]

theorem get_remove (m : SessionManager σ) (u uid : BitVec 32) :
    (m.remove u).get uid = if uid = u then none else m.get uid := by
  by_cases h : uid = u
  · subst h
    simp [remove, get]
  · simp [remove, get, AList.lookup_erase_ne h, h]

@[simp] theorem get_setName (m : SessionManager σ) (u uid : BitVec 32) (name : String) :
    (m.setName u name).get uid = m.get uid := by
  unfold setName
  split
  · by_cases h : uid = u
    · subst h
      simp [get, *]
    · simp [get, AList.lookup_insert_ne h]
  · rfl

theorem mem_broadcast {m : SessionManager σ} {session : σ} :
    session ∈ m.broadcast ↔ ∃ uid, m.get uid = some session := by
  simp only [broadcast, get, List.mem_map, Option.map_eq_some_iff]
  constructor
  · intro h
    obtain ⟨⟨uid, info⟩, he, hs⟩ := h
    exact ⟨uid, info, AList.mem_lookup_iff.mpr he, hs⟩
  · intro h
    obtain ⟨uid, info, hl, hs⟩ := h
    exact ⟨⟨uid, info⟩, AList.mem_lookup_iff.mp hl, hs⟩

/-- Where each session has one uid, a broadcast takes it once. -/
theorem nodup_broadcast {m : SessionManager σ}
    (h : ∀ u v session, m.get u = some session → m.get v = some session → u = v) : m.broadcast.Nodup := by
  have hget (e : Sigma fun _ : BitVec 32 => SessionInfo σ) (he : e ∈ m.mSessions.entries) :
      m.get e.1 = some e.2.session := by
    rw [get, AList.mem_lookup_iff.mpr he]
    rfl
  refine List.Nodup.map_on ?_ ?_
  · intro a ha b hb hab
    have hkey : a.1 = b.1 := h a.1 b.1 a.2.session (hget a ha) (hab ▸ hget b hb)
    exact m.mSessions.nodupKeys.eq_of_fst_eq ha hb hkey
  · exact (List.nodupKeys_iff_pairwise.mp m.mSessions.nodupKeys).imp fun hne he => hne (congrArg Sigma.fst he)

theorem mem_sendTo {m : SessionManager σ} {uids : List (BitVec 32)} {session : σ} :
    session ∈ m.sendTo uids ↔ ∃ uid ∈ uids, m.get uid = some session := by
  simp [sendTo, List.mem_filterMap]

theorem mem_listIds {m : SessionManager σ} {uid : BitVec 32} :
    uid ∈ m.listIds ↔ ∃ session, m.get uid = some session := by
  rw [listIds, ← AList.mem_keys, ← AList.lookup_isSome, Option.isSome_iff_exists]
  simp [get]

/-! ## Through `name?` -/

@[simp] theorem name?_new (uid : BitVec 32) : (new : SessionManager σ).name? uid = none := by simp [name?, new]

theorem name?_add (m : SessionManager σ) (session : σ) (uid : BitVec 32) :
    (m.add session).1.name? uid = if uid = m.mNextUid then some "guest" else m.name? uid := by
  by_cases h : uid = m.mNextUid
  · subst h
    simp [add, name?]
  · simp [add, name?, AList.lookup_insert_ne h, h]

theorem name?_remove (m : SessionManager σ) (u uid : BitVec 32) :
    (m.remove u).name? uid = if uid = u then none else m.name? uid := by
  by_cases h : uid = u
  · subst h
    simp [remove, name?]
  · simp [remove, name?, AList.lookup_erase_ne h, h]

theorem name?_setName (m : SessionManager σ) (u uid : BitVec 32) (name : String) :
    (m.setName u name).name? uid = if uid = u then (m.name? uid).map fun _ => name else m.name? uid := by
  unfold setName name?
  by_cases h : uid = u
  · subst h
    cases hl : m.mSessions.lookup uid <;> simp [hl]
  · cases hl : m.mSessions.lookup u <;> simp [h, AList.lookup_insert_ne h]

theorem getName_eq (m : SessionManager σ) (uid : BitVec 32) : m.getName uid = (m.name? uid).getD "Unknown" := by
  unfold getName name?
  cases m.mSessions.lookup uid <;> rfl

/-! ## Through the entries -/

theorem lookup_enter (m : SessionManager σ) (u uid : BitVec 32) (session : σ) :
    (m.enter u session).mSessions.lookup uid =
      if uid = u then some ⟨session, "guest"⟩ else m.mSessions.lookup uid := by
  by_cases h : uid = u
  · subst h
    simp [enter]
  · simp [enter, AList.lookup_insert_ne h, h]

theorem lookup_remove (m : SessionManager σ) (u uid : BitVec 32) :
    (m.remove u).mSessions.lookup uid = if uid = u then none else m.mSessions.lookup uid := by
  by_cases h : uid = u
  · subst h
    simp [remove]
  · simp [remove, AList.lookup_erase_ne h, h]

theorem lookup_setName (m : SessionManager σ) (u uid : BitVec 32) (name : String) :
    (m.setName u name).mSessions.lookup uid =
      if uid = u then (m.mSessions.lookup uid).map fun info => { info with username := name }
      else m.mSessions.lookup uid := by
  unfold setName
  by_cases h : uid = u
  · subst h
    cases hl : m.mSessions.lookup uid <;> simp [hl]
  · cases hl : m.mSessions.lookup u <;> simp [h, AList.lookup_insert_ne h]

theorem getCount_eq (m : SessionManager σ) : m.getCount = m.listIds.length := by
  rw [getCount, listIds, AList.keys, List.keys, List.length_map]

theorem nodup_listIds (m : SessionManager σ) : m.listIds.Nodup := m.mSessions.keys_nodup

theorem mNextUid_setName (m : SessionManager σ) (u : BitVec 32) (name : String) :
    (m.setName u name).mNextUid = m.mNextUid := by
  unfold setName
  split <;> rfl

/-- What is not registered can be neither removed nor named. -/
theorem remove_unknown {m : SessionManager σ} {uid : BitVec 32} (h : m.mSessions.lookup uid = none) :
    m.remove uid = m := by
  have hnot : uid ∉ m.mSessions.keys := AList.lookup_eq_none.mp h
  have herase : m.mSessions.erase uid = m.mSessions := AList.ext (List.kerase_of_notMem_keys hnot)
  rw [remove, herase]

theorem setName_unknown {m : SessionManager σ} {uid : BitVec 32} (h : m.mSessions.lookup uid = none) (name : String) :
    m.setName uid name = m := by
  rw [setName, h]

/-- A session is sent a broadcast as often as it is registered. -/
theorem count_broadcast [DecidableEq σ] (m : SessionManager σ) (session : σ) :
    m.broadcast.count session = m.listIds.countP fun uid => m.get uid = some session := by
  have hget (e : Sigma fun _ : BitVec 32 => SessionInfo σ) (he : e ∈ m.mSessions.entries) :
      m.get e.1 = some e.2.session := by
    rw [get, AList.mem_lookup_iff.mpr he]
    rfl
  rw [broadcast, listIds, AList.keys, List.keys, List.count, List.countP_map, List.countP_map]
  refine List.countP_congr ?_
  intro e he
  simp [hget e he]

theorem count_sendTo [DecidableEq σ] (m : SessionManager σ) (uids : List (BitVec 32)) (session : σ) :
    (m.sendTo uids).count session = uids.countP fun uid => m.get uid = some session := by
  induction uids with
  | nil => rfl
  | cons uid uids ih =>
    rw [List.countP_cons, ← ih, sendTo, List.filterMap_cons]
    cases hg : m.get uid with
    | none => simp [sendTo]
    | some other => simp [sendTo, List.count_cons]

end SessionManager

end CryptoChat.Net
