/-
  CryptoChat.Net.Secrecy — the text of a private message. Two runs of the server that
  differ in the clocks, and in the texts of `send_private` requests that a session `o`
  neither makes nor is addressed by, send the same messages to `o`, timestamps aside.

  Such a request changes nothing in the sessions and sends `o` nothing, whether it is
  read or throws (`private_silent`); everything else is the same in both runs, which go in
  lockstep (`private_text_secret`).
-/

import CryptoChat.Net.ServerRun

namespace CryptoChat.Net.Secrecy

open CryptoChat.Lib ServerRun ServerAppContext Message

/-! ## What a session sees -/

/-- A message without its timestamp. -/
def untimed (m : Message) : Message :=
  match m.j with
  | .obj fields => ⟨m.type, .obj (fields.filter fun f => f.1 ≠ "timestamp")⟩
  | _ => m

/-- The messages among these that go to the session `o`. -/
def view (o : Nat) (sent : List (Nat × Message)) : List Message :=
  (sent.filter fun m => m.1 = o).map fun m => untimed m.2

def observed (o : Nat) (s : St) : List Message := view o s.store.sent

theorem view_append (o : Nat) (sent sent' : List (Nat × Message)) :
    view o (sent ++ sent') = view o sent ++ view o sent' := by
  simp [view]

theorem filter_assign (fields : List (String × Json)) (key : String) (v : Json) :
    ((Json.assign fields key v).filter fun f => f.1 ≠ key) = fields.filter fun f => f.1 ≠ key := by
  induction fields with
  | nil => simp [Json.assign]
  | cons f fields ih =>
    unfold Json.assign
    split
    · rename_i hk
      simp [hk]
    · split
      · simp
      · rw [List.filter_cons, List.filter_cons, ih]

theorem untimed_makePush (now now' : Nat) (body : Json) :
    untimed (makePush now body) = untimed (makePush now' body) := by
  simp only [untimed, makePush, filter_assign]

theorem untimed_toMessage (now now' : Nat) (id : BitVec 32) (a : Answer) :
    untimed (a.toMessage now id) = untimed (a.toMessage now' id) := by
  cases a <;> simp only [untimed, Answer.toMessage, makeResponse, makeError, filter_assign]

/-- The clock makes no difference to who is sent what. -/
theorem view_map (o now now' : Nat) (sessions : List Nat) (body : Json) :
    view o (sessions.map (·, makePush now body)) = view o (sessions.map (·, makePush now' body)) := by
  simp only [view, List.filter_map, List.map_map, Function.comp_def, untimed_makePush now now']

theorem view_pushes (o now now' : Nat) (uid : BitVec 32) (m : SessionManager Nat) (call : Call) :
    view o (call.pushes now uid m) = view o (call.pushes now' uid m) := by
  cases call with
  | login name => exact view_map o now now' _ _
  | sendPublic text => exact view_map o now now' _ _
  | sendPrivate toUid text => exact view_map o now now' _ _
  | clientList => rfl
  | ping => rfl

/-! ## Texts for others -/

/-- A `send_private` request that is not addressed to the uid. -/
def Elsewhere (uid : BitVec 32) (msg : Message) : Prop :=
  ∃ fields params, msg.j = .obj fields ∧ fields.lookup "method" = some (.str "send_private") ∧
    fields.lookup "params" = some (.obj params) ∧ (Json.obj params).valueInt "to_uid" 0#32 ≠ .ok uid

/-- The same message with another string as its text. -/
def WithText (text : String) (msg msg' : Message) : Prop :=
  ∃ fields params old, msg.j = .obj fields ∧ fields.lookup "params" = some (.obj params) ∧
    params.lookup "text" = some (.str old) ∧
    msg' = ⟨msg.type, .obj (Json.assign fields "params" (.obj (Json.assign params "text" (.str text))))⟩

/-- The events of two runs that are to look the same to the session `o`. -/
inductive Same (o : Nat) : Ev → Ev → Prop where
  | add : Same o .add .add
  | remove (uid : BitVec 32) : Same o (.remove uid) (.remove uid)
  | broadcast (now now' : Nat) (push : Json) : Same o (.broadcast now push) (.broadcast now' push)
  | message (k now now' : Nat) (msg : Message) : Same o (.message k now msg) (.message k now' msg)
  | text (k now now' : Nat) (msg msg' : Message) (text : String) : k ≠ o → Elsewhere (sessionUid o) msg →
    WithText text msg msg' → Same o (.message k now msg) (.message k now' msg')

theorem Elsewhere.withText {uid : BitVec 32} {text : String} {msg msg' : Message} (h : Elsewhere uid msg)
    (ht : WithText text msg msg') : Elsewhere uid msg' := by
  obtain ⟨fields, params, hj, hmethod, hparams, hto⟩ := h
  obtain ⟨fields', params', old, hj', hparams', -, rfl⟩ := ht
  obtain rfl := Json.obj.inj (hj.symm.trans hj')
  obtain rfl := Json.obj.inj (Option.some.inj (hparams.symm.trans hparams'))
  refine ⟨_, Json.assign params "text" (.str text), rfl, by simp [Json.lookup_assign, hmethod],
    by simp [Json.lookup_assign], ?_⟩
  simpa [Json.valueInt, Json.valueWith, Json.lookup_assign] using hto

/-- Such a request is read as a private message to another uid, if it is read as a call. -/
theorem Elsewhere.read {uid : BitVec 32} {msg : Message} (h : Elsewhere uid msg) {id : BitVec 32} {call : Call}
    (hr : ServerAppContext.read msg = .ok (id, .inr call)) :
    ∃ toUid text, call = .sendPrivate toUid text ∧ toUid ≠ uid := by
  obtain ⟨fields, params, hj, hmethod, hparams, hto⟩ := h
  have hm : msg.j.valueString "method" "" = .ok "send_private" := by
    simp [hj, Json.valueString, Json.valueWith, hmethod, Json.getString]
  have hp : msg.j.value "params" (.obj []) = .ok (.obj params) := by
    simp [hj, Json.value, Json.valueWith, hparams]
  unfold ServerAppContext.read at hr
  cases hid : msg.j.valueInt "id" 0#32 with
  | error e => simp [hid, bind, Except.bind] at hr
  | ok id' =>
    simp only [hid, hm, hp, bind, Except.bind, pure, Except.pure] at hr
    split at hr
    · cases hr
    · simp only [show "send_private" ≠ "" by decide, if_false] at hr
      cases hto' : (Json.obj params).valueInt "to_uid" 0#32 with
      | error e => simp [Call.read, hto', bind, Except.bind] at hr
      | ok toUid =>
        cases ht : (Json.obj params).valueString "text" "" with
        | error e => simp [Call.read, hto', ht, bind, Except.bind] at hr
        | ok text =>
          simp only [Call.read, hto', ht, bind, Except.bind, pure, Except.pure] at hr
          cases hr
          exact ⟨toUid, text, rfl, fun he => hto (he ▸ hto')⟩

/-! ## Lockstep -/

/-- Two states that are the same to the session `o`. -/
structure Alike (o : Nat) (s t : St) : Prop where
  inv : Inv s
  sessions : t.store.mSessions = s.store.mSessions
  uids : t.uids = s.uids
  observed : observed o t = observed o s

variable {o : Nat} {s s' t : St}

/-- A private message to another uid, of another session, changes no session and sends `o`
    nothing. -/
theorem private_silent (hg : ∀ uid, s.store.mSessions.get uid = some o → uid = sessionUid o) {k now : Nat}
    {msg : Message} {uid : BitVec 32} (hk : k ≠ o) (h : Elsewhere (sessionUid o) msg) :
    ((onMessage now uid msg k).run exec s.store).1.mSessions = s.store.mSessions ∧
      view o ((onMessage now uid msg k).run exec s.store).1.sent = observed o s := by
  rw [onMessage_read]
  cases hr : read msg with
  | error e => exact ⟨rfl, rfl⟩
  | ok r =>
    obtain ⟨id, answer | call⟩ := r
    · refine ⟨rfl, ?_⟩
      rw [view_append, observed]
      simp [view, hk]
    · obtain ⟨toUid, text, rfl, hne⟩ := h.read hr
      refine ⟨rfl, ?_⟩
      have hpush : view o ((Call.sendPrivate toUid text).pushes now uid s.store.mSessions) = [] := by
        simp only [view, Call.pushes, List.filter_map, List.map_map, List.map_eq_nil_iff, List.filter_eq_nil_iff]
        intro j hj
        obtain ⟨u, hu, hget⟩ := SessionManager.mem_sendTo.mp hj
        obtain rfl := List.mem_singleton.mp hu
        simp only [Function.comp_apply, decide_eq_true_eq]
        rintro rfl
        exact hne (hg u hget)
      simp only [view_append, hpush, List.append_nil, observed]
      simp [view, hk]

theorem alike_next {e f : Ev} (h : Alike o s t) (hef : Same o e f) (he : next s e = some s') :
    ∃ t', next t f = some t' ∧ Alike o s' t' := by
  have hi := inv_next h.inv he
  cases hef with
  | add =>
    cases he
    refine ⟨_, rfl, hi, ?_, ?_, h.observed⟩
    · simp only [h.sessions, h.uids]
    · simp only [h.sessions, h.uids]
  | remove uid =>
    cases he
    exact ⟨_, rfl, hi, by simp only [h.sessions], h.uids, h.observed⟩
  | broadcast now now' push =>
    cases he
    refine ⟨_, rfl, hi, ?_, h.uids, ?_⟩
    · simp only [run_broadcast, h.sessions]
    · have ho := h.observed
      simp only [observed, run_broadcast, h.sessions, view_append] at ho ⊢
      rw [ho, view_map o now' now]
  | message k now now' msg =>
    obtain ⟨uid, hu, rfl⟩ := Option.map_eq_some_iff.mp he
    refine ⟨_, next_message (h.uids ▸ hu) now' msg, hi, ?_, h.uids, ?_⟩
    · simp only [sessions_onMessage, h.sessions]
    · have ho : view o t.store.sent = view o s.store.sent := h.observed
      have hanswer (id : BitVec 32) (a : Answer) :
          view o [(k, a.toMessage now' id)] = view o [(k, a.toMessage now id)] := by
        by_cases hk : k = o <;> simp [view, hk, untimed_toMessage now' now id a]
      simp only [observed, onMessage_read]
      cases read msg with
      | error e => exact ho
      | ok r =>
        obtain ⟨id, answer | call⟩ := r
        · simp only [view_append, ho, hanswer]
        · have hresult := hanswer id (.result (call.result uid s.store.mSessions))
          simp only [Answer.toMessage] at hresult
          simp only [view_append, ho, h.sessions, view_pushes o now' now, hresult]
  | text k now now' msg msg' text hk hmsg htext =>
    obtain ⟨uid, hu, rfl⟩ := Option.map_eq_some_iff.mp he
    obtain ⟨hs, hv⟩ := @private_silent _ _ (fun u => h.inv.get_uid) k now msg uid hk hmsg
    obtain ⟨ht, hw⟩ := @private_silent _ _ (fun u hg => h.inv.get_uid (h.sessions ▸ hg)) k now' _ uid hk
      (hmsg.withText htext)
    refine ⟨_, next_message (h.uids ▸ hu) now' msg', hi, ?_, h.uids, ?_⟩
    · simp only [hs, ht, h.sessions]
    · simp only [observed, hv, hw]
      exact h.observed

/-- In any two runs from a reachable state that differ, for the session `o`, only in clocks and in
    the texts of private messages that it neither sends nor is addressed by, it is sent the same. -/
theorem private_text_secret (h : Machine.Run next Machine.any init s) {es es' : List Ev}
    (hes : List.Forall₂ (Same o) es es') (hs : Machine.exec next s es = some s') :
    ∃ t', Machine.exec next s es' = some t' ∧ observed o t' = observed o s' := by
  obtain ⟨t', ht', halike⟩ := Machine.exec_lockstep (fun _ _ _ _ _ => alike_next) hes
    ⟨run_inv h, rfl, rfl, rfl⟩ hs
  exact ⟨t', ht', halike.observed⟩

/-- A private message of the first session to the second, then a public one of the second. -/
def whispers (text : String) (now : Nat) : List Ev :=
  [.message 0 now (makeRequest 3 1#32 "send_private" (.object [("to_uid", .int32 2), ("text", .str text)])),
    .message 1 now (makeRequest 4 1#32 "send_public" (.object [("text", .str "to all")]))]

theorem private_text_secret_whispers :
    ∃ s t t', Machine.Run next Machine.any init s ∧ Machine.exec next s (whispers "one" 5) = some t ∧
      Machine.exec next s (whispers "two" 8) = some t' ∧ (observed 2 t).length = 1 ∧ observed 2 t' = observed 2 t := by
  have hex : ((Machine.exec next init [Ev.add, .add, .add]).bind fun s =>
      (Machine.exec next s (whispers "one" 5)).map fun t => (observed 2 t).length) = some 1 := by decide
  obtain ⟨s, hs, hv⟩ := Option.bind_eq_some_iff.mp hex
  obtain ⟨t, ht, hv⟩ := Option.map_eq_some_iff.mp hv
  have hrun := Machine.run_of_exec [Ev.add, .add, .add] hs
  have hsame : List.Forall₂ (Same 2) (whispers "one" 5) (whispers "two" 8) := by
    refine .cons (.text 0 5 8 _ _ "two" (by decide) ?_ ?_) (.cons (.message 1 5 8 _) .nil)
    · exact ⟨_, _, rfl, rfl, rfl, by decide⟩
    · exact ⟨_, _, _, rfl, rfl, rfl, rfl⟩
  obtain ⟨t', ht', ho⟩ := private_text_secret hrun hsame ht
  exact ⟨s, t, t', hrun, ht, ht', hv, ho⟩

end CryptoChat.Net.Secrecy
