/-
  CryptoChat.Net.SessionTable — `SessionManager` under any interleaving of its operations.

  `add` takes its uid from the atomic counter and enters the session under the lock, in two
  steps. `broadcast` and `sendTo` take their sessions under the lock (`Call`, with the
  table and the sections before it) and send to them afterwards, one by one. Each
  operation has its place in `ops`; `go i` is the next step of the one at `i`.

  `history` has the sections that wrote the table, latest first; `Registered` reads off it
  what is in the table, which is what `SessionManager` holds (`table_kept`).
-/

import CryptoChat.Lib.ListAt
import CryptoChat.Lib.Machine
import CryptoChat.Net.Message
import CryptoChat.Net.SessionManager

namespace CryptoChat.Net.SessionTable

open CryptoChat.Lib

variable {σ : Type}

/-- A section that writes the table. -/
inductive Section (σ : Type) where
  | entered (uid : BitVec 32) (session : σ)
  | removed (uid : BitVec 32)
  | named (uid : BitVec 32) (name : String)

def Section.uid? : Section σ → Option (BitVec 32)
  | .entered uid _ => some uid
  | _ => none

def Section.name? (uid : BitVec 32) : Section σ → Option String
  | .named u name => if u = uid then some name else none
  | _ => none

/-- The session under `uid` was entered, not removed since, and has the last name given since. -/
def Registered (history : List (Section σ)) (uid : BitVec 32) (info : SessionInfo σ) : Prop :=
  ∃ since before, history = since ++ .entered uid info.session :: before ∧ .removed uid ∉ since ∧
    info.username = (since.filterMap (Section.name? uid)).headD "guest"

/-- A `sendTo`, or a `broadcast` (which names no uids), with what it found. -/
structure Call (σ : Type) where
  uids : Option (List (BitVec 32))
  message : Message
  manager : SessionManager σ
  before : List (Section σ)

namespace Call

def targets (c : Call σ) : List σ :=
  match c.uids with
  | none => c.manager.broadcast
  | some uids => c.manager.sendTo uids

/-- The uids it is for. -/
def ids (c : Call σ) : List (BitVec 32) := c.uids.getD c.manager.listIds

theorem count_targets [DecidableEq σ] (c : Call σ) (session : σ) :
    c.targets.count session = c.ids.countP fun uid => c.manager.get uid = some session := by
  unfold targets ids
  cases c.uids with
  | none => exact c.manager.count_broadcast session
  | some uids => exact c.manager.count_sendTo uids session

end Call

inductive Op (σ : Type) where
  | add (uid : BitVec 32) (session : σ) (done : Bool)
  | call (c : Call σ) (left : List σ)

def Op.uid? : Op σ → Option (BitVec 32)
  | .add uid _ _ => some uid
  | .call _ _ => none

structure St (σ : Type) where
  manager : SessionManager σ
  ops : List (Op σ)
  history : List (Section σ)
  /-- The sends, with the call they are of. -/
  sent : List (Nat × σ × Message)

namespace St

/-- The uids given out, in order. -/
def uids (s : St σ) : List (BitVec 32) := s.ops.filterMap Op.uid?

def sentBy (s : St σ) (i : Nat) : List σ := s.sent.filterMap fun e => if e.1 = i then some e.2.1 else none

end St

inductive Ev (σ : Type) where
  | add (session : σ)
  | remove (uid : BitVec 32)
  | setName (uid : BitVec 32) (name : String)
  | broadcast (message : Message)
  | sendTo (uids : List (BitVec 32)) (message : Message)
  | go (i : Nat)

def call (s : St σ) (uids : Option (List (BitVec 32))) (message : Message) : St σ :=
  let c : Call σ := ⟨uids, message, s.manager, s.history⟩
  { s with ops := s.ops ++ [.call c c.targets] }

/-- The counter of an `add`. -/
def take (s : St σ) (session : σ) : St σ :=
  { s with manager := s.manager.takeUid.1, ops := s.ops ++ [.add s.manager.takeUid.2 session false] }

/-- The section of an `add`. -/
def enter (s : St σ) (i : Nat) (uid : BitVec 32) (session : σ) : St σ :=
  { s with
    manager := s.manager.enter uid session
    ops := s.ops.set i (.add uid session true)
    history := .entered uid session :: s.history }

/-- A send of a call. -/
def send (s : St σ) (i : Nat) (c : Call σ) (session : σ) (left : List σ) : St σ :=
  { s with ops := s.ops.set i (.call c left), sent := s.sent ++ [(i, session, c.message)] }

def goOn (s : St σ) (i : Nat) : Op σ → Option (St σ)
  | .add uid session false => some (enter s i uid session)
  | .add _ _ true => none
  | .call c (session :: left) => some (send s i c session left)
  | .call _ [] => none

def remove (s : St σ) (uid : BitVec 32) : St σ :=
  { s with manager := s.manager.remove uid, history := .removed uid :: s.history }

def setName (s : St σ) (uid : BitVec 32) (name : String) : St σ :=
  { s with manager := s.manager.setName uid name, history := .named uid name :: s.history }

def next (s : St σ) : Ev σ → Option (St σ)
  | .add session => some (take s session)
  | .remove uid => some (remove s uid)
  | .setName uid name => some (setName s uid name)
  | .broadcast message => some (call s none message)
  | .sendTo uids message => some (call s (some uids) message)
  | .go i => s.ops[i]?.bind (goOn s i)

def init : St σ := ⟨.new, [], [], []⟩

/-! ## What the sections say is registered -/

theorem registered_cons {e : Section σ} {history : List (Section σ)} {uid : BitVec 32} {info : SessionInfo σ} :
    Registered (e :: history) uid info ↔ (e = .entered uid info.session ∧ info.username = "guest") ∨
      (e ≠ .removed uid ∧ ∃ name, Registered history uid ⟨info.session, name⟩ ∧ info.username = (e.name? uid).getD name) := by
  constructor
  · rintro ⟨since, before, hh, hr, hn⟩
    cases since with
    | nil =>
      obtain ⟨rfl, rfl⟩ := List.cons.inj hh
      exact .inl ⟨rfl, hn⟩
    | cons e' since =>
      obtain ⟨rfl, rfl⟩ := List.cons.inj hh
      refine .inr ⟨fun he => hr (he ▸ List.mem_cons_self), (since.filterMap (Section.name? uid)).headD "guest",
        ⟨since, before, rfl, fun hm => hr (List.mem_cons_of_mem _ hm), rfl⟩, ?_⟩
      rw [hn, List.filterMap_cons]
      cases e.name? uid <;> rfl
  · rintro (⟨rfl, hn⟩ | ⟨he, name, ⟨since, before, rfl, hr, hn⟩, hname⟩)
    · exact ⟨[], history, rfl, List.not_mem_nil, hn⟩
    · refine ⟨e :: since, before, rfl, ?_, ?_⟩
      · intro hm
        rcases List.mem_cons.mp hm with heq | hm
        · exact he heq.symm
        · exact hr hm
      · rw [hname, List.filterMap_cons]
        cases e.name? uid with
        | none => exact hn
        | some new => rfl

theorem Registered.entered {history : List (Section σ)} {uid : BitVec 32} {info : SessionInfo σ}
    (h : Registered history uid info) : .entered uid info.session ∈ history := by
  obtain ⟨since, before, rfl, -, -⟩ := h
  simp

theorem registered_removed {history : List (Section σ)} {u uid : BitVec 32} {info : SessionInfo σ} :
    Registered (.removed u :: history) uid info ↔ uid ≠ u ∧ Registered history uid info := by
  rw [registered_cons]
  constructor
  · rintro (⟨h, -⟩ | ⟨h, name, hr, hn⟩)
    · cases h
    · obtain rfl : name = info.username := hn.symm
      exact ⟨fun huid => h (huid ▸ rfl), hr⟩
  · rintro ⟨hne, hr⟩
    exact .inr ⟨fun h => hne (Section.removed.inj h).symm, info.username, hr, rfl⟩

theorem registered_named {history : List (Section σ)} {u uid : BitVec 32} {name : String} {info : SessionInfo σ} :
    Registered (.named u name :: history) uid info ↔
      ∃ old, Registered history uid ⟨info.session, old⟩ ∧ info.username = if uid = u then name else old := by
  have hname (old : String) : ((Section.named u name : Section σ).name? uid).getD old = if uid = u then name else old := by
    by_cases huid : uid = u
    · simp [Section.name?, huid]
    · simp [Section.name?, huid, Ne.symm huid]
  simp only [registered_cons, hname]
  simp

/-- A uid that was not there before names the session entered. -/
theorem registered_entered {history : List (Section σ)} {u uid : BitVec 32} {session : σ} {info : SessionInfo σ}
    (hnew : ∀ other, .entered u other ∉ history) : Registered (.entered u session :: history) uid info ↔
      if uid = u then ⟨session, "guest"⟩ = info else Registered history uid info := by
  rw [registered_cons]
  by_cases huid : uid = u
  · subst huid
    rw [if_pos rfl]
    constructor
    · rintro (⟨h, hn⟩ | ⟨-, name, hr, -⟩)
      · cases h
        exact congrArg _ hn.symm
      · exact absurd hr.entered (hnew _)
    · rintro rfl
      exact .inl ⟨rfl, rfl⟩
  · rw [if_neg huid]
    constructor
    · rintro (⟨h, -⟩ | ⟨-, name, hr, hn⟩)
      · exact absurd (Section.entered.inj h).1.symm huid
      · obtain rfl : name = info.username := hn.symm
        exact hr
    · intro hr
      exact .inr ⟨by simp, info.username, hr, rfl⟩

/-! ## What a step does -/

theorem next_cases {s s' : St σ} {e : Ev σ} (h : next s e = some s') :
    (∃ session, s' = take s session) ∨ (∃ uid, s' = remove s uid) ∨ (∃ uid name, s' = setName s uid name) ∨
      (∃ uids message, s' = call s uids message) ∨
      (∃ i uid session, s.ops[i]? = some (.add uid session false) ∧ s' = enter s i uid session) ∨
      (∃ i c session left, s.ops[i]? = some (.call c (session :: left)) ∧ s' = send s i c session left) := by
  cases e with
  | add session => exact .inl ⟨session, (Option.some.inj h).symm⟩
  | remove uid => exact .inr (.inl ⟨uid, (Option.some.inj h).symm⟩)
  | setName uid name => exact .inr (.inr (.inl ⟨uid, name, (Option.some.inj h).symm⟩))
  | broadcast message => exact .inr (.inr (.inr (.inl ⟨none, message, (Option.some.inj h).symm⟩)))
  | sendTo uids message => exact .inr (.inr (.inr (.inl ⟨some uids, message, (Option.some.inj h).symm⟩)))
  | go i =>
    obtain ⟨op, hop, h⟩ := Option.bind_eq_some_iff.mp h
    unfold goOn at h
    split at h
    · exact .inr (.inr (.inr (.inr (.inl ⟨i, _, _, hop, (Option.some.inj h).symm⟩))))
    · cases h
    · exact .inr (.inr (.inr (.inr (.inr ⟨i, _, _, _, hop, (Option.some.inj h).symm⟩))))
    · cases h

theorem uids_next {s s' : St σ} {e : Ev σ} (h : next s e = some s') :
    (s'.uids = s.uids ∧ s'.manager.mNextUid = s.manager.mNextUid) ∨
      (s'.uids = s.uids ++ [s.manager.mNextUid] ∧ s'.manager.mNextUid = s.manager.mNextUid + 1) := by
  rcases next_cases h with ⟨session, rfl⟩ | ⟨uid, rfl⟩ | ⟨uid, name, rfl⟩ | ⟨uids, message, rfl⟩ |
    ⟨i, uid, session, hi, rfl⟩ | ⟨i, c, session, left, hi, rfl⟩
  · exact .inr ⟨by simp [St.uids, take, Op.uid?, SessionManager.takeUid], rfl⟩
  · exact .inl ⟨rfl, rfl⟩
  · exact .inl ⟨rfl, s.manager.mNextUid_setName uid name⟩
  · exact .inl ⟨by simp [St.uids, call, Op.uid?], rfl⟩
  · exact .inl ⟨ListAt.filterMap_set hi rfl, rfl⟩
  · exact .inl ⟨ListAt.filterMap_set hi rfl, rfl⟩

/-! ## The uids -/

/-- The uids given out are 1, 2, 3, .. as `uint32_t`. -/
structure Counted (s : St σ) : Prop where
  counter : s.manager.mNextUid = BitVec.ofNat 32 (s.uids.length + 1)
  uids : s.uids = (List.range s.uids.length).map fun k => BitVec.ofNat 32 (k + 1)

theorem counted_next {s s' : St σ} {e : Ev σ} (hs : Counted s) (h : next s e = some s') : Counted s' := by
  rcases uids_next h with ⟨huids, hnext⟩ | ⟨huids, hnext⟩
  · refine ⟨?_, ?_⟩
    · rw [huids, hnext, hs.counter]
    · rw [huids]
      exact hs.uids
  · refine ⟨?_, ?_⟩
    · rw [huids, hnext, hs.counter, List.length_append]
      simp [BitVec.ofNat_add]
    · rw [huids, List.length_append, List.length_singleton, List.range_succ, List.map_append, ← hs.uids]
      rw [hs.counter, List.map_singleton]

theorem Counted.ne_zero {s : St σ} (hs : Counted s) (hlen : s.uids.length ≤ 2 ^ 32 - 1) : 0#32 ∉ s.uids := by
  rw [hs.uids, List.mem_map]
  rintro ⟨k, hk, hz⟩
  have hlt := List.mem_range.mp hk
  have hk1 : (BitVec.ofNat 32 (k + 1)).toNat = k + 1 := by
    rw [BitVec.toNat_ofNat, Nat.mod_eq_of_lt (by omega)]
  rw [hz] at hk1
  cases hk1

theorem Counted.nodup {s : St σ} (hs : Counted s) (hlen : s.uids.length ≤ 2 ^ 32 - 1) : s.uids.Nodup := by
  rw [hs.uids]
  refine List.Nodup.map_on ?_ List.nodup_range
  intro k hk l hl hkl
  have hklt := List.mem_range.mp hk
  have hllt := List.mem_range.mp hl
  have hnat := congrArg BitVec.toNat hkl
  rw [BitVec.toNat_ofNat, BitVec.toNat_ofNat, Nat.mod_eq_of_lt (by omega), Nat.mod_eq_of_lt (by omega)] at hnat
  exact Nat.succ.inj hnat

/-! ## The table -/

/-- The table is what `history` says. -/
def Holds (manager : SessionManager σ) (history : List (Section σ)) : Prop :=
  ∀ uid info, manager.mSessions.lookup uid = some info ↔ Registered history uid info

/-- The sections of the `add`s are those done, one for each uid; a call found the table of its time. -/
structure Kept (s : St σ) : Prop where
  entered : ∀ uid session, .entered uid session ∈ s.history ↔ ∃ i : Nat, s.ops[i]? = some (.add uid session true)
  once : (s.history.filterMap Section.uid?).Nodup
  registered : Holds s.manager s.history
  snapshot : ∀ (i : Nat) c left, s.ops[i]? = some (.call c left) → c.before <:+ s.history ∧ Holds c.manager c.before

theorem kept_init : Kept (init : St σ) := by
  refine ⟨?_, List.nodup_nil, ?_, ?_⟩
  · simp [init]
  · intro uid info
    simp [init, SessionManager.new, Registered]
  · simp [init]

/-- The uid of an `add` that waits for the lock is not in the table and never was. -/
theorem Kept.fresh {s : St σ} (hs : Kept s) (hnd : s.uids.Nodup) {i : Nat} {uid : BitVec 32} {session : σ}
    (hi : s.ops[i]? = some (.add uid session false)) (other : σ) : .entered uid other ∉ s.history := by
  intro hm
  obtain ⟨j, hj⟩ := (hs.entered uid other).mp hm
  obtain rfl : i = j := ListAt.eq_of_nodup_filterMap hnd hi hj rfl rfl
  rw [hi] at hj
  cases hj

theorem Kept.lookup_fresh {s : St σ} (hs : Kept s) (hnd : s.uids.Nodup) {i : Nat} {uid : BitVec 32} {session : σ}
    (hi : s.ops[i]? = some (.add uid session false)) : s.manager.mSessions.lookup uid = none := by
  rw [Option.eq_none_iff_forall_ne_some]
  intro info hl
  exact hs.fresh hnd hi info.session ((hs.registered uid info).mp hl).entered

theorem kept_take {s : St σ} (hs : Kept s) (session : σ) : Kept (take s session) := by
  refine { hs with entered := ?_, snapshot := ?_ }
  · intro uid other
    exact (hs.entered uid other).trans (ListAt.exists_getElem?_snoc (by simp)).symm
  · intro i c left hi
    rcases ListAt.getElem?_snoc hi with hi | ⟨-, hnew⟩
    · exact hs.snapshot i c left hi
    · cases hnew

theorem kept_remove {s : St σ} (hs : Kept s) (u : BitVec 32) : Kept (remove s u) := by
  refine { hs with entered := ?_, registered := ?_, snapshot := ?_ }
  · intro uid session
    refine Iff.trans ?_ (hs.entered uid session)
    simp [remove]
  · intro uid info
    rw [remove, SessionManager.lookup_remove, registered_removed, ← hs.registered]
    by_cases huid : uid = u
    · simp [huid]
    · simp [huid]
  · intro i c left hi
    obtain ⟨hbefore, hholds⟩ := hs.snapshot i c left hi
    exact ⟨hbefore.trans (List.suffix_cons _ _), hholds⟩

theorem kept_setName {s : St σ} (hs : Kept s) (u : BitVec 32) (name : String) : Kept (setName s u name) := by
  refine { hs with entered := ?_, registered := ?_, snapshot := ?_ }
  · intro uid session
    refine Iff.trans ?_ (hs.entered uid session)
    simp [setName]
  · intro uid info
    have hheld (old : String) : Registered s.history uid ⟨info.session, old⟩ ↔
        s.manager.mSessions.lookup uid = some ⟨info.session, old⟩ := (hs.registered uid _).symm
    rw [setName, SessionManager.lookup_setName, registered_named]
    simp only [hheld]
    by_cases huid : uid = u
    · simp only [if_pos huid, Option.map_eq_some_iff]
      constructor
      · rintro ⟨old, hold, rfl⟩
        exact ⟨old.username, hold, rfl⟩
      · rintro ⟨old, hold, hname⟩
        exact ⟨_, hold, by rw [← hname]⟩
    · simp only [if_neg huid]
      constructor
      · intro hl
        exact ⟨info.username, hl, rfl⟩
      · rintro ⟨old, hold, rfl⟩
        exact hold
  · intro i c left hi
    obtain ⟨hbefore, hholds⟩ := hs.snapshot i c left hi
    exact ⟨hbefore.trans (List.suffix_cons _ _), hholds⟩

theorem kept_call {s : St σ} (hs : Kept s) (uids : Option (List (BitVec 32))) (message : Message) :
    Kept (call s uids message) := by
  refine { hs with entered := ?_, snapshot := ?_ }
  · intro uid session
    exact (hs.entered uid session).trans (ListAt.exists_getElem?_snoc (by simp)).symm
  · intro i c left hi
    rcases ListAt.getElem?_snoc hi with hi | ⟨-, hnew⟩
    · exact hs.snapshot i c left hi
    · cases hnew
      exact ⟨List.suffix_refl _, hs.registered⟩

theorem kept_enter {s : St σ} (hs : Kept s) (hnd : s.uids.Nodup) {i : Nat} {uid : BitVec 32} {session : σ}
    (hi : s.ops[i]? = some (.add uid session false)) : Kept (enter s i uid session) := by
  have hfresh := hs.fresh hnd hi
  have hlt := (List.getElem?_eq_some_iff.mp hi).1
  refine ⟨?_, ?_, ?_, ?_⟩
  · intro u other
    rw [enter, List.mem_cons, hs.entered]
    constructor
    · rintro (heq | ⟨j, hj⟩)
      · cases heq
        exact ⟨i, List.getElem?_set_self hlt⟩
      · exact ⟨j, ListAt.getElem?_set_other hi hj (by simp) _⟩
    · rintro ⟨j, hj⟩
      rcases ListAt.getElem?_set_some hj with ⟨-, heq⟩ | ⟨-, hj⟩
      · cases heq
        exact .inl rfl
      · exact .inr ⟨j, hj⟩
  · have hnot : uid ∉ s.history.filterMap Section.uid? := by
      intro hm
      obtain ⟨e, he, huid⟩ := List.mem_filterMap.mp hm
      cases e with
      | entered u other =>
        cases huid
        exact hfresh other he
      | removed u => cases huid
      | named u name => cases huid
    exact List.nodup_cons.mpr ⟨hnot, hs.once⟩
  · intro u info
    rw [enter, SessionManager.lookup_enter, registered_entered hfresh]
    by_cases huid : u = uid
    · rw [if_pos huid, if_pos huid, Option.some.injEq]
    · rw [if_neg huid, if_neg huid]
      exact hs.registered u info
  · intro j c left hj
    rcases ListAt.getElem?_set_some hj with ⟨-, heq⟩ | ⟨-, hj⟩
    · cases heq
    · obtain ⟨hbefore, hholds⟩ := hs.snapshot j c left hj
      exact ⟨hbefore.trans (List.suffix_cons _ _), hholds⟩

theorem kept_send {s : St σ} (hs : Kept s) {i : Nat} {c : Call σ} {session : σ} {left : List σ}
    (hi : s.ops[i]? = some (.call c (session :: left))) : Kept (send s i c session left) := by
  refine { hs with entered := ?_, snapshot := ?_ }
  · intro u other
    refine (hs.entered u other).trans ?_
    constructor
    · rintro ⟨j, hj⟩
      exact ⟨j, ListAt.getElem?_set_other hi hj (by simp) _⟩
    · rintro ⟨j, hj⟩
      rcases ListAt.getElem?_set_some hj with ⟨-, heq⟩ | ⟨-, hj⟩
      · cases heq
      · exact ⟨j, hj⟩
  · intro j d rest hj
    rcases ListAt.getElem?_set_some hj with ⟨-, heq⟩ | ⟨-, hj⟩
    · cases heq
      exact hs.snapshot i c _ hi
    · exact hs.snapshot j d rest hj

theorem kept_next {s s' : St σ} {e : Ev σ} (hs : Kept s) (hnd : s.uids.Nodup) (h : next s e = some s') : Kept s' := by
  rcases next_cases h with ⟨session, rfl⟩ | ⟨uid, rfl⟩ | ⟨uid, name, rfl⟩ | ⟨uids, message, rfl⟩ |
    ⟨i, uid, session, hi, rfl⟩ | ⟨i, c, session, left, hi, rfl⟩
  · exact kept_take hs session
  · exact kept_remove hs uid
  · exact kept_setName hs uid name
  · exact kept_call hs uids message
  · exact kept_enter hs hnd hi
  · exact kept_send hs hi

/-! ## The sends -/

/-- What a call sent and has left is what it found, and every send is of a call. -/
structure Sends (s : St σ) : Prop where
  split : ∀ (i : Nat) c left, s.ops[i]? = some (.call c left) → s.sentBy i ++ left = c.targets
  sent : ∀ e ∈ s.sent, ∃ c left, s.ops[e.1]? = some (.call c left) ∧ e.2.2 = c.message

theorem sends_init : Sends (init : St σ) := by
  refine ⟨?_, ?_⟩
  · simp [init]
  · simp [init]

/-- An operation that begins leaves the sends with their calls. -/
theorem Sends.sent_append {s : St σ} (hs : Sends s) (op : Op σ) :
    ∀ e ∈ s.sent, ∃ c left, (s.ops ++ [op])[e.1]? = some (.call c left) ∧ e.2.2 = c.message := by
  intro e he
  obtain ⟨c, left, hi, hm⟩ := hs.sent e he
  exact ⟨c, left, ListAt.getElem?_append_some hi _, hm⟩

theorem sends_take {s : St σ} (hs : Sends s) (session : σ) : Sends (take s session) := by
  refine ⟨?_, ?_⟩
  · intro i c left hi
    rcases ListAt.getElem?_snoc hi with hi | ⟨-, hnew⟩
    · exact hs.split i c left hi
    · cases hnew
  · exact hs.sent_append _

/-- A new call has no sends yet. -/
theorem Sends.sentBy_new {s : St σ} (hs : Sends s) : s.sentBy s.ops.length = [] := by
  refine List.filterMap_eq_nil_iff.mpr ?_
  intro e he
  obtain ⟨c, left, hi, -⟩ := hs.sent e he
  have hlt := (List.getElem?_eq_some_iff.mp hi).1
  exact if_neg (Nat.ne_of_lt hlt)

theorem sends_call {s : St σ} (hs : Sends s) (uids : Option (List (BitVec 32))) (message : Message) :
    Sends (call s uids message) := by
  refine ⟨?_, ?_⟩
  · intro i c left hi
    rcases ListAt.getElem?_snoc hi with hi | ⟨rfl, hnew⟩
    · exact hs.split i c left hi
    · cases hnew
      exact congrArg (· ++ _) hs.sentBy_new
  · exact hs.sent_append _

theorem sends_enter {s : St σ} (hs : Sends s) {i : Nat} {uid : BitVec 32} {session : σ}
    (hi : s.ops[i]? = some (.add uid session false)) : Sends (enter s i uid session) := by
  refine ⟨?_, ?_⟩
  · intro j c left hj
    rcases ListAt.getElem?_set_some hj with ⟨-, heq⟩ | ⟨-, hj⟩
    · cases heq
    · exact hs.split j c left hj
  · intro e he
    obtain ⟨c, left, hj, hm⟩ := hs.sent e he
    exact ⟨c, left, ListAt.getElem?_set_other hi hj (by simp) _, hm⟩

theorem sentBy_send {s : St σ} (i : Nat) (c : Call σ) (session : σ) (left : List σ) (j : Nat) :
    (send s i c session left).sentBy j = s.sentBy j ++ if i = j then [session] else [] := by
  simp only [St.sentBy, send, List.filterMap_append, List.filterMap_cons, List.filterMap_nil]
  split <;> simp_all

theorem sends_send {s : St σ} (hs : Sends s) {i : Nat} {c : Call σ} {session : σ} {left : List σ}
    (hi : s.ops[i]? = some (.call c (session :: left))) : Sends (send s i c session left) := by
  have hlt := (List.getElem?_eq_some_iff.mp hi).1
  have hnow : (send s i c session left).ops[i]? = some (.call c left) := List.getElem?_set_self hlt
  refine ⟨?_, ?_⟩
  · intro j d rest hj
    rw [sentBy_send]
    rcases ListAt.getElem?_set_some hj with ⟨rfl, heq⟩ | ⟨hij, hj⟩
    · cases heq
      rw [if_pos rfl, List.append_assoc, List.singleton_append]
      exact hs.split i c _ hi
    · rw [if_neg hij, List.append_nil]
      exact hs.split j d rest hj
  · intro e he
    rcases List.mem_append.mp he with he | he
    · obtain ⟨d, rest, hj, hm⟩ := hs.sent e he
      by_cases hij : i = e.1
      · rw [← hij, hi, Option.some.injEq, Op.call.injEq] at hj
        exact ⟨c, left, hij ▸ hnow, hj.1 ▸ hm⟩
      · exact ⟨d, rest, by rw [send, List.getElem?_set_ne hij, hj], hm⟩
    · obtain rfl := List.mem_singleton.mp he
      exact ⟨c, left, hnow, rfl⟩

theorem sends_next {s s' : St σ} {e : Ev σ} (hs : Sends s) (h : next s e = some s') : Sends s' := by
  rcases next_cases h with ⟨session, rfl⟩ | ⟨uid, rfl⟩ | ⟨uid, name, rfl⟩ | ⟨uids, message, rfl⟩ |
    ⟨i, uid, session, hi, rfl⟩ | ⟨i, c, session, left, hi, rfl⟩
  · exact sends_take hs session
  · exact ⟨hs.split, hs.sent⟩
  · exact ⟨hs.split, hs.sent⟩
  · exact sends_call hs uids message
  · exact sends_enter hs hi
  · exact sends_send hs hi

/-! ## Every run -/

/-- What `SessionManager` is for, in a state of a run. -/
structure Correct [DecidableEq σ] (s : St σ) : Prop where
  uids_nodup : s.uids.Nodup
  uids_ne_zero : 0#32 ∉ s.uids
  no_overwrite : ∀ (i : Nat) uid session, s.ops[i]? = some (.add uid session false) →
    s.manager.mSessions.lookup uid = none
  entered : ∀ uid session, .entered uid session ∈ s.history ↔ ∃ i : Nat, s.ops[i]? = some (.add uid session true)
  registered : Holds s.manager s.history
  /-- Once removed, a uid names no session again. -/
  never_again : ∀ uid session since before, s.history = since ++ .entered uid session :: before →
    .removed uid ∈ since → s.manager.get uid = none
  reads : ∀ uid info, Registered s.history uid info →
    s.manager.get uid = some info.session ∧ s.manager.getName uid = info.username
  unknown : ∀ uid, (∀ info, ¬ Registered s.history uid info) →
    s.manager.get uid = none ∧ s.manager.getName uid = "Unknown" ∧ s.manager.remove uid = s.manager ∧
      ∀ name, s.manager.setName uid name = s.manager
  listed : s.manager.listIds.Nodup ∧ s.manager.getCount = s.manager.listIds.length ∧
    ∀ uid, uid ∈ s.manager.listIds ↔ ∃ info, Registered s.history uid info
  /-- A call found the table of its time. -/
  snapshot : ∀ (i : Nat) c left, s.ops[i]? = some (.call c left) → c.before <:+ s.history ∧ Holds c.manager c.before
  /-- It sends to a session once for each of its uids that is registered for that session, and a
      `broadcast` has all registered uids once. -/
  sends : ∀ (i : Nat) c left, s.ops[i]? = some (.call c left) → ∀ session,
    (s.sentBy i).count session + left.count session = c.ids.countP fun uid => c.manager.get uid = some session
  broadcast_ids : ∀ (i : Nat) c left, s.ops[i]? = some (.call c left) → c.uids = none →
    c.ids.Nodup ∧ ∀ uid, uid ∈ c.ids ↔ ∃ info, Registered c.before uid info
  broadcast_once : ∀ (i : Nat) c, s.ops[i]? = some (.call c []) → c.uids = none →
    ∀ uid session, c.manager.get uid = some session → (∀ v, c.manager.get v = some session → v = uid) →
      (s.sentBy i).count session = 1
  messages : ∀ e ∈ s.sent, ∃ c left, s.ops[e.1]? = some (.call c left) ∧ e.2.2 = c.message

theorem Holds.get_eq_some {manager : SessionManager σ} {history : List (Section σ)} (h : Holds manager history)
    {uid : BitVec 32} {session : σ} :
    manager.get uid = some session ↔ ∃ name, Registered history uid ⟨session, name⟩ := by
  rw [SessionManager.get, Option.map_eq_some_iff]
  constructor
  · rintro ⟨info, hl, rfl⟩
    exact ⟨info.username, (h uid info).mp hl⟩
  · rintro ⟨name, hr⟩
    exact ⟨⟨session, name⟩, (h uid _).mpr hr, rfl⟩

theorem Holds.mem_listIds {manager : SessionManager σ} {history : List (Section σ)} (h : Holds manager history)
    (uid : BitVec 32) : uid ∈ manager.listIds ↔ ∃ info, Registered history uid info := by
  rw [SessionManager.mem_listIds]
  constructor
  · rintro ⟨session, hg⟩
    obtain ⟨name, hr⟩ := h.get_eq_some.mp hg
    exact ⟨⟨session, name⟩, hr⟩
  · rintro ⟨info, hr⟩
    exact ⟨info.session, h.get_eq_some.mpr ⟨info.username, hr⟩⟩

/-- Where a uid entered once was removed since, nothing is registered under it. -/
theorem not_registered {history : List (Section σ)} (honce : (history.filterMap Section.uid?).Nodup)
    {since before : List (Section σ)} {uid : BitVec 32} {session : σ}
    (hh : history = since ++ .entered uid session :: before) (hr : .removed uid ∈ since) (info : SessionInfo σ) :
    ¬ Registered history uid info := by
  rintro ⟨since', before', hh', hr', -⟩
  have hat : history[since.length]? = some (.entered uid session) := by
    rw [hh, List.getElem?_append_right (Nat.le_refl _), Nat.sub_self]
    rfl
  have hat' : history[since'.length]? = some (.entered uid info.session) := by
    rw [hh', List.getElem?_append_right (Nat.le_refl _), Nat.sub_self]
    rfl
  have hlen : since.length = since'.length := ListAt.eq_of_nodup_filterMap honce hat hat' rfl rfl
  have hsince : since = since' := (List.append_inj (hh.symm.trans hh') hlen).1
  exact hr' (hsince ▸ hr)

theorem count_once [DecidableEq σ] {m : SessionManager σ} {uid : BitVec 32} {session : σ}
    (hg : m.get uid = some session) (hone : ∀ v, m.get v = some session → v = uid) :
    (m.listIds.countP fun v => m.get v = some session) = 1 := by
  have hiff (v : BitVec 32) : m.get v = some session ↔ v = uid :=
    ⟨hone v, fun hv => hv ▸ hg⟩
  have hcount : (m.listIds.countP fun v => m.get v = some session) = m.listIds.count uid := by
    refine List.countP_congr ?_
    intro v _
    simp [hiff]
  rw [hcount]
  exact List.count_eq_one_of_mem m.nodup_listIds (SessionManager.mem_listIds.mpr ⟨session, hg⟩)

theorem correct_of [DecidableEq σ] {s : St σ} (hnd : s.uids.Nodup) (hz : 0#32 ∉ s.uids) (hk : Kept s) (hs : Sends s) :
    Correct s where
  uids_nodup := hnd
  uids_ne_zero := hz
  no_overwrite i uid session hi := hk.lookup_fresh hnd hi
  entered := hk.entered
  registered := hk.registered
  never_again uid session since before hh hr := by
    rw [Option.eq_none_iff_forall_ne_some]
    intro other hg
    obtain ⟨name, hreg⟩ := hk.registered.get_eq_some.mp hg
    exact not_registered hk.once hh hr _ hreg
  reads uid info hr := by
    have hl := (hk.registered uid info).mpr hr
    exact ⟨by rw [SessionManager.get, hl]; rfl, by rw [SessionManager.getName, hl]⟩
  unknown uid hr := by
    have hl : s.manager.mSessions.lookup uid = none := by
      rw [Option.eq_none_iff_forall_ne_some]
      intro info hl
      exact hr info ((hk.registered uid info).mp hl)
    exact ⟨by rw [SessionManager.get, hl]; rfl, by rw [SessionManager.getName, hl],
      SessionManager.remove_unknown hl, SessionManager.setName_unknown hl⟩
  listed := ⟨s.manager.nodup_listIds, s.manager.getCount_eq, hk.registered.mem_listIds⟩
  snapshot := hk.snapshot
  sends i c left hi session := by
    rw [← List.count_append, hs.split i c left hi, c.count_targets]
  broadcast_ids i c left hi hu := by
    rw [Call.ids, hu]
    exact ⟨c.manager.nodup_listIds, (hk.snapshot i c left hi).2.mem_listIds⟩
  broadcast_once i c hi hu uid session hg hone := by
    have hall := hs.split i c [] hi
    rw [List.append_nil] at hall
    rw [hall, c.count_targets, Call.ids, hu]
    exact count_once hg hone
  messages := hs.sent

theorem length_uids_next {s s' : St σ} {e : Ev σ} (h : next s e = some s') : s.uids.length ≤ s'.uids.length := by
  rcases uids_next h with ⟨huids, -⟩ | ⟨huids, -⟩
  · rw [huids]
  · rw [huids, List.length_append]
    exact Nat.le_add_right _ _

theorem run_counted {s : St σ} (hrun : Machine.Run next Machine.any init s) : Counted s :=
  Machine.run_invariant Counted ⟨rfl, rfl⟩ (fun _ _ _ hc _ h => counted_next hc h) hrun

/-- In every run with at most 2^32 - 1 `add`s. -/
theorem table_kept [DecidableEq σ] {s : St σ} (hrun : Machine.Run next Machine.any init s)
    (hadds : s.uids.length ≤ 2 ^ 32 - 1) : Correct s := by
  have hc := run_counted hrun
  have hinv : Counted s ∧ Sends s ∧ (s.uids.length ≤ 2 ^ 32 - 1 → Kept s) := by
    refine Machine.run_invariant (fun s => Counted s ∧ Sends s ∧ (s.uids.length ≤ 2 ^ 32 - 1 → Kept s))
      ⟨⟨rfl, rfl⟩, sends_init, fun _ => kept_init⟩ ?_ hrun
    intro a e b ha _ hab
    obtain ⟨hc, hs, hk⟩ := ha
    refine ⟨counted_next hc hab, sends_next hs hab, ?_⟩
    intro hb
    have hlen := Nat.le_trans (length_uids_next hab) hb
    exact kept_next (hk hlen) (hc.nodup hlen) hab
  obtain ⟨-, hs, hk⟩ := hinv
  exact correct_of (hc.nodup hadds) (hc.ne_zero hadds) (hk hadds) hs

/-- Two sessions, one named and gone while a broadcast to both is under way. -/
theorem table_kept_pair : ∃ s : St Nat, s.uids = [1#32, 2#32] ∧ s.sentBy 2 = [7, 8] ∧ s.manager.listIds = [2#32] ∧
    Correct s := by
  have hrun : Machine.Run next Machine.any (init : St Nat) _ :=
    Machine.run_of_exec [.add 7, .add 8, .go 1, .go 0, .setName 1#32 "a", .broadcast (Message.makePush 0 (.str "hi")),
      .go 2, .remove 1#32, .go 2] rfl
  exact ⟨_, rfl, rfl, rfl, table_kept hrun (by decide)⟩

/-- A session that was added twice gets a broadcast twice. -/
theorem broadcast_twice : ¬ ∀ s : St Nat, Machine.Run next Machine.any init s → s.uids.length ≤ 2 ^ 32 - 1 →
    ∀ (i : Nat) c, s.ops[i]? = some (.call c []) → c.uids = none →
      ∀ session, (∃ uid, c.manager.get uid = some session) → (s.sentBy i).count session = 1 := by
  intro h
  have hrun : Machine.Run next Machine.any (init : St Nat) _ :=
    Machine.run_of_exec [.add 7, .go 0, .add 7, .go 1, .broadcast (Message.makePush 0 (.str "hi")), .go 2, .go 2] rfl
  have hcount := h _ hrun (by decide) 2 _ rfl rfl 7 ⟨1#32, rfl⟩
  cases hcount

end CryptoChat.Net.SessionTable
