/-
  CryptoChat.Net.Authenticity — who a push says it is from. The client chooses the whole
  body of its messages; a push carries the uid of the session the message came in on, and
  the name the history of the run gives that uid.

  Proved: with fewer than 2^32 sessions, the session manager's names are those of the
  history (`names`), and every push a route makes carries them (`sender_authentic`).
-/

import CryptoChat.Net.ServerRun

namespace CryptoChat.Net.Authenticity

open CryptoChat.Lib ServerRun ServerAppContext Message

/-! ## Names by the history -/

/-- The uid was added and not removed since. -/
def registered : List Ev → BitVec 32 → Bool
  | [], _ => false
  | .add :: past, uid => uid = sessionUid (adds past) || registered past uid
  | .remove u :: past, uid => u ≠ uid && registered past uid
  | _ :: past, uid => registered past uid

/-- The names of the logins handled for the uid while it was registered, the latest first. -/
def logins : List Ev → BitVec 32 → List String
  | [], _ => []
  | .message k _ msg :: past, uid =>
    match login? msg with
    | some name => if sessionUid k = uid ∧ registered past uid then name :: logins past uid else logins past uid
    | none => logins past uid
  | _ :: past, uid => logins past uid

/-- The latest of them, `guest` if there is none, and `Unknown` for a uid that is not registered. -/
def nameOf (history : List Ev) (uid : BitVec 32) : String :=
  if registered history uid then (logins history uid).headD "guest" else "Unknown"

/-- What the body of a push has to say if its message came in for the uid. -/
def Authentic (history : List Ev) (uid : BitVec 32) (body : Json) : Prop :=
  body.find? "event" = some (.str "user_joined") ∧ body.find? "uid" = some (uidJson uid) ∨
  (body.find? "event" = some (.str "public_message") ∨ body.find? "event" = some (.str "private_message")) ∧
    body.find? "from_uid" = some (uidJson uid) ∧ body.find? "from_name" = some (.str (nameOf history uid))

/-! ## The session manager's names -/

/-- Only uids that were given out have been registered or logged in. -/
def Given (history : List Ev) : Prop :=
  ∀ uid, registered history uid = true ∨ logins history uid ≠ [] → ∃ k < adds history, uid = sessionUid k

/-- The names in the session manager are those of the history. -/
def Names (s : St) : Prop :=
  ∀ uid, s.store.mSessions.name? uid =
    if registered s.history uid then some ((logins s.history uid).headD "guest") else none

variable {s s' : St}

@[simp] theorem adds_cons_add (past : List Ev) : adds (.add :: past) = adds past + 1 := by simp [adds]

theorem adds_cons_message (k now : Nat) (msg : Message) (past : List Ev) :
    adds (.message k now msg :: past) = adds past := by simp [adds]

theorem given_cons {e : Ev} {past : List Ev} (h : Given past) : Given (e :: past) := by
  intro uid hu
  cases e with
  | add =>
    simp only [registered, logins, Bool.or_eq_true, decide_eq_true_eq] at hu
    rw [adds_cons_add]
    rcases hu with (rfl | hr) | hl
    · exact ⟨adds past, by omega, rfl⟩
    · obtain ⟨k, hk, hu⟩ := h uid (.inl hr)
      exact ⟨k, by omega, hu⟩
    · obtain ⟨k, hk, hu⟩ := h uid (.inr hl)
      exact ⟨k, by omega, hu⟩
  | remove u =>
    refine h uid (hu.imp ?_ id)
    intro hr
    simp only [registered, Bool.and_eq_true] at hr
    exact hr.2
  | broadcast now push => exact h uid hu
  | message k now msg =>
    rw [adds_cons_message]
    rcases hu with hr | hl
    · exact h uid (.inl hr)
    · simp only [logins] at hl
      split at hl
      · split at hl
        · rename_i hreg
          exact h uid (.inl hreg.2)
        · exact h uid (.inr hl)
      · exact h uid (.inr hl)

/-- A uid not given out before has no logins. -/
theorem logins_fresh {past : List Ev} (h : Given past) (hn : adds past < 2 ^ 32) :
    logins past (sessionUid (adds past)) = [] := by
  by_contra hne
  obtain ⟨k, hk, he⟩ := h _ (.inr hne)
  have := sessionUid_inj hn (by omega) he
  omega

theorem names_next {e : Ev} (hi : Inv s) (hg : Given s.history) (hn : adds s.history < 2 ^ 32) (h : Names s)
    (he : next s e = some s') : Names s' := by
  intro uid
  cases e with
  | add =>
    cases he
    simp only [SessionManager.name?_add, registered, logins, h uid, hi.next_uid, hi.adds]
    by_cases hu : uid = sessionUid (adds s.history)
    · subst hu
      simp [logins_fresh hg hn]
    · simp [hu]
  | remove u =>
    cases he
    simp only [SessionManager.name?_remove, registered, logins, h uid]
    by_cases hu : uid = u
    · subst hu
      simp
    · simp [hu, Ne.symm hu]
  | broadcast now push =>
    cases he
    simp only [run_broadcast, registered, logins]
    exact h uid
  | message k now msg =>
    obtain ⟨u, hu, rfl⟩ := Option.map_eq_some_iff.mp he
    obtain rfl := hi.uids k u hu
    simp only [sessions_onMessage, registered, logins]
    cases login? msg with
    | none => exact h uid
    | some name =>
      simp only [SessionManager.name?_setName, h uid]
      by_cases hk : uid = sessionUid k
      · subst hk
        by_cases hr : registered s.history (sessionUid k) = true <;> simp [hr]
      · simp [hk, Ne.symm hk]

theorem adds_next {e : Ev} (he : next s e = some s') :
    adds s.history ≤ adds s'.history ∧ s'.history = e :: s.history := by
  cases e with
  | add =>
    cases he
    simp
  | remove uid =>
    cases he
    simp [adds]
  | broadcast now push =>
    cases he
    simp [adds]
  | message k now msg =>
    obtain ⟨uid, -, rfl⟩ := Option.map_eq_some_iff.mp he
    simp [adds]

/-- With fewer than 2^32 sessions, the session manager has the names of the history. -/
theorem names (h : Machine.Run next Machine.any init s) (hn : adds s.history < 2 ^ 32) : Names s := by
  have hrun := Machine.run_invariant
    (fun s => Inv s ∧ Given s.history ∧ (adds s.history < 2 ^ 32 → Names s)) ?_ ?_ h
  · exact hrun.2.2 hn
  · exact ⟨inv_init, by simp [Given, init, registered, logins], fun _ uid => by simp [init, registered]⟩
  · intro a e b ha _ he
    obtain ⟨hi, hg, hnames⟩ := ha
    obtain ⟨hle, hb⟩ := adds_next he
    refine ⟨inv_next hi he, hb ▸ given_cons hg, ?_⟩
    intro hlt
    exact names_next hi hg (by omega) (hnames (by omega)) he

/-! ## The pushes -/

/-- What a call pushes says who it is from, by the names in the session manager. -/
theorem pushes_authentic (hs : Names s) (now : Nat) (uid : BitVec 32) (call : Call) :
    ∀ m ∈ call.pushes now uid s.store.mSessions,
      ∃ body, m.2.j.find? "push" = some body ∧ Authentic s.history uid body := by
  have hname : s.store.mSessions.getName uid = nameOf s.history uid := by
    rw [SessionManager.getName_eq, hs uid, nameOf]
    split <;> rfl
  intro m hm
  cases call with
  | login name =>
    obtain ⟨session, -, rfl⟩ := List.mem_map.mp hm
    exact ⟨_, find?_makePush now _, .inl ⟨(userJoined_find? uid name).1, (userJoined_find? uid name).2.1⟩⟩
  | clientList => cases hm
  | sendPublic text =>
    obtain ⟨session, -, rfl⟩ := List.mem_map.mp hm
    obtain ⟨hevent, huid, hfrom, -⟩ := publicMessage_find? uid (s.store.mSessions.getName uid) text
    exact ⟨_, find?_makePush now _, .inr ⟨.inl hevent, huid, hname ▸ hfrom⟩⟩
  | sendPrivate toUid text =>
    obtain ⟨session, -, rfl⟩ := List.mem_map.mp hm
    obtain ⟨hevent, huid, hfrom, -⟩ := privateMessage_find? uid (s.store.mSessions.getName uid) text
    exact ⟨_, find?_makePush now _, .inr ⟨.inr hevent, huid, hname ▸ hfrom⟩⟩
  | ping => cases hm

/-- With fewer than 2^32 sessions, whatever message comes in on a session, every push it leads
    to is from the uid of that session and, if it is a message, under the name of that uid. -/
theorem sender_authentic (h : Machine.Run next Machine.any init s) (hn : adds s.history < 2 ^ 32) {k now : Nat}
    {msg : Message} (he : next s (.message k now msg) = some s') :
    ∃ uid new, s.uids[k]? = some uid ∧ s'.store.sent = s.store.sent ++ new ∧
      ∀ m ∈ new, m.2.type = .push → ∃ body, m.2.j.find? "push" = some body ∧ Authentic s.history uid body := by
  obtain ⟨uid, hu, rfl⟩ := Option.map_eq_some_iff.mp he
  simp only [onMessage_read]
  cases read msg with
  | error e => exact ⟨uid, [], hu, (List.append_nil _).symm, by simp⟩
  | ok r =>
    obtain ⟨id, answer | call⟩ := r
    · refine ⟨uid, _, hu, rfl, ?_⟩
      intro m hm ht
      obtain rfl := List.mem_singleton.mp hm
      rw [Answer.toMessage_type] at ht
      cases ht
    · refine ⟨uid, _, hu, List.append_assoc _ _ _, ?_⟩
      intro m hm ht
      rcases List.mem_append.mp hm with hm | hm
      · exact pushes_authentic (names h hn) now uid call m hm
      · obtain rfl := List.mem_singleton.mp hm
        cases ht

/-- Two sessions, the first logged in as `ann`. -/
def loggedIn : List Ev := [.add, .add, .message 0 5 (makeRequest 5 1#32 "login" (.object [("name", .str "ann")]))]

/-- A message of hers that claims to be another's. -/
def forged : Message :=
  makeRequest 6 2#32 "send_public" (.object [("text", .str "hi"), ("from_uid", .int32 2), ("from_name", .str "bob")])

theorem sender_authentic_forged :
    ∃ s s' new, Machine.Run next Machine.any init s ∧ next s (.message 0 6 forged) = some s' ∧
      s'.store.sent = s.store.sent ++ new ∧ new.length = 3 ∧ nameOf s.history 1#32 = "ann" ∧
        ∀ m ∈ new, m.2.type = .push → ∃ body, m.2.j.find? "push" = some body ∧ Authentic s.history 1#32 body := by
  have hex : ((Machine.exec next init loggedIn).bind fun s => (next s (.message 0 6 forged)).map fun s' =>
      (s.uids, adds s.history, nameOf s.history 1#32, s.store.sent.length, s'.store.sent.length)) =
      some ([1#32, 2#32], 2, "ann", 3, 6) := by decide
  obtain ⟨s, hs, hv⟩ := Option.bind_eq_some_iff.mp hex
  obtain ⟨s', hs', hv⟩ := Option.map_eq_some_iff.mp hv
  simp only [Prod.mk.injEq] at hv
  obtain ⟨huids, hadds, hname, hlen, hlen'⟩ := hv
  have hrun := Machine.run_of_exec loggedIn hs
  obtain ⟨uid, new, hu, hsent, hnew⟩ := sender_authentic hrun (by omega) hs'
  rw [huids] at hu
  cases hu
  refine ⟨s, s', new, hrun, hs', hsent, ?_, hname, hnew⟩
  have := congrArg List.length hsent
  rw [List.length_append] at this
  omega

end CryptoChat.Net.Authenticity
