/-
  CryptoChat.Net.SessionLeft — how a session leaves: its uid is removed and `user_left` is
  told, once.

  - `closes_once`: until the counter of uids comes round, each session is removed at most
    once, its push is broadcast at most once, after that and not to itself, and no session
    takes out another.
  - `run_told`, `close_follows`: whichever handlers of a session call `close`, and how often,
    it has one close in `SessionLifecycle`.
  - `closes_another`: after 2^32 accepts a session takes out the one that has its uid.
-/

import CryptoChat.Net.SessionClose
import CryptoChat.Net.SessionLifecycle

namespace CryptoChat.Net.SessionLifecycle

open CryptoChat.Lib ListAt SessionTable Message ServerAppContext

variable {s s' : St} {i k : Nat} {uid : BitVec 32} {session : Session}

/-! ## One close -/

def IsLeft (uid : BitVec 32) (m : Message) : Prop := ∃ now, m = makePush now (userLeft uid)

theorem IsLeft.isUserLeft {m : Message} (h : IsLeft uid m) : isUserLeft m = true := by
  obtain ⟨now, rfl⟩ := h
  simp [SessionLifecycle.isUserLeft, find?_makePush, (userLeft_find? uid).1]

theorem IsLeft.uid_eq {m : Message} {u : BitVec 32} (h : IsLeft uid m) (h' : IsLeft u m) : uid = u := by
  obtain ⟨now, rfl⟩ := h
  obtain ⟨now', heq⟩ := h'
  have hbody := congrArg (fun m : Message => m.j.find? "push") heq
  simp only [find?_makePush, Option.some.injEq] at hbody
  have huid := congrArg (fun body : Json => body.find? "uid") hbody
  simp only [(userLeft_find? _).2, Option.some.injEq, uidJson, Json.uint32_inj] at huid
  exact huid

theorem Ordered.suffix {history before : List (Section Nat)} (h : Ordered history) (hsuf : before <:+ history) :
    Ordered before := by
  obtain ⟨since, rfl⟩ := hsuf
  intro between uid rest heq
  exact h (since ++ between) uid rest (by rw [heq, List.append_assoc])

/-- A uid that was removed is gone, now and in any table found since. -/
theorem Inv.gone (h : Inv s) {history : List (Section Nat)} (hsuf : history <:+ s.table.history)
    (hr : .removed uid ∈ history) (info : SessionInfo Nat) : ¬ Registered history uid info := by
  have honce : (history.filterMap Section.uid?).Nodup := h.kept.once.sublist (hsuf.sublist.filterMap _)
  obtain ⟨since, before, heq⟩ := List.append_of_mem hr
  obtain ⟨k, hk⟩ := h.ordered.suffix hsuf since uid before heq
  obtain ⟨between, rest, hbefore⟩ := List.append_of_mem hk
  have hall : history = (since ++ .removed uid :: between) ++ .entered uid k :: rest := by
    rw [heq, hbefore, List.append_assoc, List.cons_append]
  exact not_registered honce hall (by simp) info

/-- The session that a uid was entered for. -/
theorem Inv.entered_uid (h : Inv s) (hu : s.uid? k = some uid) {u : BitVec 32} (he : .entered u k ∈ s.table.history) :
    u = uid := by
  obtain ⟨session, hk, hop⟩ := Option.bind_eq_some_iff.mp hu
  obtain ⟨op, hop, huid⟩ := Option.bind_eq_some_iff.mp hop
  obtain ⟨i, hi⟩ := (h.kept.entered u k).mp he
  obtain ⟨session', hk', hadd⟩ := h.adds i u k (kinds_of hi)
  obtain rfl := Option.some.inj (hk.symm.trans hk')
  rw [hadd, hi] at hop
  cases hop
  exact Option.some.inj huid

theorem Inv.entered_session (h : Inv s) {j : Nat} (he : .entered uid k ∈ s.table.history)
    (he' : .entered uid j ∈ s.table.history) : k = j := by
  obtain ⟨i, hi⟩ := List.getElem?_of_mem he
  obtain ⟨i', hi'⟩ := List.getElem?_of_mem he'
  obtain rfl : i = i' := eq_of_nodup_filterMap h.kept.once hi hi' rfl rfl
  rw [hi] at hi'
  cases hi'
  rfl

/-- What the run of a session comes to, seen in the table and in what was sent. -/
structure ClosesOnce (s : St) (k : Nat) (uid : BitVec 32) : Prop where
  removed_once : (s.table.history.filterMap removed?).count uid ≤ 1
  told_once : ∀ (i j : Nat) c d left left', s.table.ops[i]? = some (.call c left) →
    s.table.ops[j]? = some (.call d left') → IsLeft uid c.message → IsLeft uid d.message → i = j
  /-- The push is broadcast after the removal, and not to the session. -/
  told_after : ∀ (i : Nat) c left, s.table.ops[i]? = some (.call c left) → IsLeft uid c.message →
    c.uids = none ∧ .removed uid ∈ c.before ∧ k ∉ c.targets
  not_told : ∀ e ∈ s.table.sent, IsLeft uid e.2.2 → e.2.1 ≠ k
  /-- Its close leaves the other sessions registered, and theirs leave it. -/
  others : ∀ now s', next s (.goOn k now) = some s' → ∀ v j, j ≠ k → s.table.manager.get v = some j →
    s'.table.manager.get v = some j
  registered : ∀ session, s.sessions[k]? = some session → s.table.ops[session.add]? = some (.add uid k true) →
    session.closing.removed? = none → s.table.manager.get uid = some k

theorem Inv.told (h : Inv s) {c : SessionTable.Call Nat} {left : List Nat} (hi : s.table.ops[i]? = some (.call c left))
    (hleft : IsLeft uid c.message) : ∃ (j : Nat) (session : Session), c.uids = none ∧ s.sessions[j]? = some session ∧
      session.closing = .closed (some (uid, i)) ∧ .removed uid ∈ c.before := by
  obtain ⟨u, now, j, session, huids, hmessage, hj, hclosing, hbefore⟩ := h.pushes i c (kinds_of hi) hleft.isUserLeft
  obtain rfl := hleft.uid_eq ⟨now, hmessage⟩
  exact ⟨j, session, huids, hj, hclosing, hbefore⟩

theorem Inv.told_after (h : Inv s) (hu : s.uid? k = some uid) {c : SessionTable.Call Nat} {left : List Nat}
    (hi : s.table.ops[i]? = some (.call c left)) (hleft : IsLeft uid c.message) :
    c.uids = none ∧ .removed uid ∈ c.before ∧ k ∉ c.targets := by
  obtain ⟨j, session, huids, -, -, hbefore⟩ := h.told hi hleft
  refine ⟨huids, hbefore, ?_⟩
  intro hk
  obtain ⟨hsuf, hholds⟩ := h.kept.snapshot i c left hi
  rw [SessionTable.Call.targets, huids] at hk
  obtain ⟨u, hget⟩ := SessionManager.mem_broadcast.mp hk
  obtain ⟨name, hreg⟩ := hholds.get_eq_some.mp hget
  obtain rfl := h.entered_uid hu (hsuf.subset hreg.entered)
  exact h.gone hsuf hbefore _ hreg

theorem Inv.not_told (h : Inv s) (hu : s.uid? k = some uid) {e : Nat × Nat × Message} (he : e ∈ s.table.sent)
    (hleft : IsLeft uid e.2.2) : e.2.1 ≠ k := by
  obtain ⟨c, left, hi, hmessage⟩ := h.sends.sent e he
  rintro rfl
  have hsent : e.2.1 ∈ s.table.sentBy e.1 := List.mem_filterMap.mpr ⟨e, he, if_pos rfl⟩
  have htarget : e.2.1 ∈ c.targets := by
    rw [← h.sends.split e.1 c left hi]
    exact List.mem_append_left left hsent
  exact (h.told_after hu hi (hmessage ▸ hleft)).2.2 htarget

theorem Inv.others (h : Inv s) {now : Nat} (he : next s (.goOn k now) = some s') {v : BitVec 32} {j : Nat} (hne : j ≠ k)
    (hget : s.table.manager.get v = some j) : s'.table.manager.get v = some j := by
  obtain ⟨session, hk, hgo⟩ := Option.bind_eq_some_iff.mp he
  unfold goOn at hgo
  split at hgo
  · cases hgo
    exact hget
  · rename_i uid hclosing
    cases hgo
    obtain ⟨-, hentered⟩ := h.callback k session uid hk (h.closing k session uid hk (by rw [hclosing]; rfl))
    have hvu : v ≠ uid := by
      rintro rfl
      obtain ⟨name, hreg⟩ := h.kept.registered.get_eq_some.mp hget
      exact hne (h.entered_session hreg.entered hentered)
    simp only [SessionTable.remove, SessionManager.get_remove, if_neg hvu, hget]
  · cases hgo
    exact hget
  · cases hgo

/-- A session stays in the table until its own close removes it. -/
theorem Inv.registered (h : Inv s) (hnd : s.table.uids.Nodup) (hk : s.sessions[k]? = some session)
    (hop : s.table.ops[session.add]? = some (.add uid k true)) (hclosing : session.closing.removed? = none) :
    s.table.manager.get uid = some k := by
  have hentered := (h.kept.entered uid k).mpr ⟨session.add, hop⟩
  have hnot : .removed uid ∉ s.table.history := by
    intro hr
    obtain ⟨j, x, hj, hx⟩ := (h.removed uid).mp hr
    obtain ⟨hadd, -⟩ := h.callback j x uid hj (h.closing j x uid hj (uid?_of_removed? hx))
    rw [← uids_kinds] at hnd
    have hplace : session.add = x.add := eq_of_nodup_filterMap hnd (kinds_of hop) hadd rfl rfl
    have hsame := kinds_of hop
    rw [hplace, hadd] at hsame
    obtain rfl := (Kind.add.inj (Option.some.inj hsame)).2
    obtain rfl := Option.some.inj (hk.symm.trans hj)
    rw [hclosing] at hx
    cases hx
  obtain ⟨since, before, heq⟩ := List.append_of_mem hentered
  refine h.kept.registered.get_eq_some.mpr
    ⟨(since.filterMap (Section.name? uid)).headD "guest", since, before, heq, ?_, rfl⟩
  intro hr
  exact hnot (heq ▸ List.mem_append_left _ hr)

/-- For every session, in every run with fewer than 2^32 accepts. -/
theorem closes_once (hrun : Machine.Run next Machine.any init s) (hlen : s.table.uids.length ≤ 2 ^ 32 - 1) {k : Nat}
    {uid : BitVec 32} (hu : s.uid? k = some uid) : ClosesOnce s k uid := by
  have h := run_inv hrun hlen
  have hnd := (run_counted (run_table hrun)).nodup hlen
  refine ⟨List.nodup_iff_count_le_one.mp h.removed_once uid, ?_, fun i c left hi => h.told_after hu hi,
    fun e he => h.not_told hu he, fun now s' he v j => h.others he, fun session hk => h.registered hnd hk⟩
  intro i j c d left left' hi hj hc hd
  obtain ⟨n, x, -, hn, hx, -⟩ := h.told hi hc
  obtain ⟨m, y, -, hm, hy, -⟩ := h.told hj hd
  have hcb := h.closing n x uid hn (by rw [hx]; rfl)
  have hcb' := h.closing m y uid hm (by rw [hy]; rfl)
  obtain rfl := h.same hnd hn hm hcb hcb'
  obtain rfl := Option.some.inj (hn.symm.trans hm)
  rw [hx] at hy
  cases hy
  rfl

/-- Two sessions: the first is closed from two sides, and then the other is told. -/
theorem closes_once_pair : ∃ s, s.uid? 0 = some 1#32 ∧ s.table.history.filterMap removed? = [1#32] ∧
    s.table.sent = [(2, 1, makePush 7 (userLeft 1#32))] ∧ ClosesOnce s 0 1#32 := by
  have hrun : Machine.Run next Machine.any init _ :=
    Machine.run_of_exec [.accept, .enter 0, .onClose 0, .accept, .enter 1, .close 0, .onClose 1, .goOn 0 7, .close 0,
      .goOn 0 7, .setName 1#32 "a", .goOn 0 7, .send 2] rfl
  exact ⟨_, rfl, rfl, rfl, closes_once hrun (by decide) rfl⟩

/-! ## Who calls `close` -/

section Handlers

variable {text : JsonText} {cb : Callbacks} {mode : ServerMode} {a b c : ReadLoop} {p p' : SessionClose.St}

/-- From `a` to `b` there was no first call of `close`, or one. -/
def Asks (a b : ReadLoop) : Prop :=
  (b.mIsClosed = a.mIsClosed ∧ b.closes = a.closes) ∨
    (a.mIsClosed = false ∧ b.mIsClosed = true ∧ b.closes = a.closes + 1)

theorem asks_of_eq (hflag : b.mIsClosed = a.mIsClosed) (hcloses : b.closes = a.closes) : Asks a b :=
  .inl ⟨hflag, hcloses⟩

/-- What does not touch the flag goes before. -/
theorem Asks.after (h : Asks b c) (hflag : b.mIsClosed = a.mIsClosed) (hcloses : b.closes = a.closes) : Asks a c := by
  unfold Asks at h ⊢
  rwa [hflag, hcloses] at h

theorem asks_close (a : ReadLoop) : Asks a (ReadLoop.close a) := by
  unfold ReadLoop.close
  split
  · exact asks_of_eq rfl rfl
  · rename_i hopen
    exact .inr ⟨by simpa using hopen, rfl, rfl⟩

theorem asks_report (what : String) (a : ReadLoop) : Asks a (ReadLoop.close (ReadLoop.report cb what a)) := by
  refine (asks_close _).after ?_ ?_
  · unfold ReadLoop.report
    split <;> rfl
  · unfold ReadLoop.report
    split <;> rfl

theorem asks_onHeaderRead (limit : Option Nat) (ec : Option String) (a : ReadLoop) :
    Asks a (ReadLoop.onHeaderRead cb limit ec a) := by
  unfold ReadLoop.onHeaderRead
  cases ec with
  | some e => exact asks_report e a
  | none =>
    dsimp only
    split
    · exact asks_report _ a
    · exact asks_of_eq rfl rfl

theorem asks_decodeBody (a : ReadLoop) : Asks a (SessionClose.decodeBody text cb a).1 := by
  unfold SessionClose.decodeBody
  split
  · exact asks_of_eq rfl rfl
  · split
    · exact asks_report _ a
    · exact asks_of_eq rfl rfl

theorem asks_afterCall (r : Except Exn Unit) (a : ReadLoop) : Asks a (SessionClose.afterCall cb r a) := by
  cases r with
  | error e => exact asks_report _ a
  | ok _ => exact asks_of_eq rfl rfl

theorem fill_flags (bytes : Bytes) (a : ReadLoop) :
    (ReadLoop.fill bytes a).mIsClosed = a.mIsClosed ∧ (ReadLoop.fill bytes a).closes = a.closes := by
  unfold ReadLoop.fill
  split <;> exact ⟨rfl, rfl⟩

theorem asks_complete (limit : Option Nat) (e : String) (a : ReadLoop) :
    Asks a (ReadLoop.complete (ReadLoop.onHeaderRead cb limit) (ReadLoop.onBodyRead text cb id) (some e) a) := by
  unfold ReadLoop.complete
  split
  · exact asks_of_eq rfl rfl
  · exact (asks_onHeaderRead limit (some e) { a with pending := none }).after rfl rfl
  · exact (asks_report e { a with pending := none }).after rfl rfl

theorem asks_runHandler (h : SessionClose.runHandler text cb mode p = some p') : Asks p.loop p'.loop := by
  unfold SessionClose.runHandler at h
  split at h
  · cases h
    exact asks_of_eq rfl rfl
  · cases h
    exact asks_report _ _
  · cases h
    exact asks_complete _ _ _
  · rename_i bytes _
    obtain ⟨hflag, hcloses⟩ := fill_flags bytes p.loop
    dsimp only at h
    split at h
    · cases h
      exact (asks_onHeaderRead _ none _).after hflag hcloses
    · have hdecode : Asks p.loop
          (SessionClose.decodeBody text cb { ReadLoop.fill bytes p.loop with pending := none }).1 :=
        (asks_decodeBody _).after hflag hcloses
      split at h
      · rename_i heq
        rw [heq] at hdecode
        cases h
        exact hdecode
      · rename_i heq
        rw [heq] at hdecode
        cases h
        exact hdecode
    · cases h
  · cases h

theorem loop_close (p : SessionClose.St) : (SessionClose.close p).loop = ReadLoop.close p.loop := by
  unfold SessionClose.close ReadLoop.close
  split <;> rfl

/-- Whatever a session's handlers do, and whoever else calls `close`. -/
theorem asks_next {e : SessionClose.Ev} (h : SessionClose.next text cb mode p e = some p') : Asks p.loop p'.loop := by
  cases e with
  | start =>
    simp only [SessionClose.next] at h
    split at h <;> cases h <;> exact asks_of_eq rfl rfl
  | handshake ec =>
    simp only [SessionClose.next] at h
    split at h <;> cases h
    exact asks_of_eq rfl rfl
  | read bytes =>
    simp only [SessionClose.next] at h
    split at h
    · obtain ⟨-, h⟩ := Option.ite_none_right_eq_some.mp h
      cases h
      exact asks_of_eq rfl rfl
    · cases h
  | readError x =>
    simp only [SessionClose.next] at h
    split at h <;> cases h
    exact asks_of_eq rfl rfl
  | run => exact asks_runHandler h
  | call =>
    simp only [SessionClose.next] at h
    split at h
    · rename_i m f _ _
      cases h
      refine asks_of_eq ?_ ?_
      · unfold ReadLoop.callback
        split <;> rfl
      · unfold ReadLoop.callback
        split <;> rfl
    · cases h
  | finish =>
    simp only [SessionClose.next] at h
    split at h <;> cases h
    exact asks_afterCall _ _
  | writeFails x =>
    simp only [SessionClose.next, Option.ite_none_right_eq_some, Option.some.injEq] at h
    obtain ⟨-, rfl⟩ := h
    cases mode with
    | plain =>
      refine asks_of_eq ?_ ?_
      · simp only [ReadLoop.report]
        split <;> rfl
      · simp only [ReadLoop.report]
        split <;> rfl
    | secure =>
      rw [loop_close]
      exact asks_report x p.loop
  | runClose =>
    simp only [SessionClose.next, Option.ite_none_right_eq_some, Option.some.injEq] at h
    obtain ⟨-, rfl⟩ := h
    rw [loop_close]
    exact asks_close p.loop
  | close =>
    cases h
    rw [loop_close]
    exact asks_close p.loop

/-- The owner of a session is told once, whichever of its handlers calls `close` and how often. -/
theorem run_told {ok : SessionClose.St → SessionClose.Ev → Prop}
    (hrun : Machine.Run (SessionClose.next text cb mode) ok SessionClose.init p) :
    p.loop.closes = if p.loop.mIsClosed then 1 else 0 := by
  refine Machine.run_invariant (fun p => p.loop.closes = if p.loop.mIsClosed then 1 else 0) rfl ?_ hrun
  intro x e y hx _ he
  rcases asks_next he with ⟨hflag, hcloses⟩ | ⟨hopen, hclosed, hcloses⟩
  · rw [hflag, hcloses, hx]
  · rw [hcloses, hx, hopen, hclosed]
    rfl

/-- A step of the handlers is at most one call of `close` here. -/
theorem close_follows (h : Asks a b) (hk : s.sessions[k]? = some session) (hflag : session.mIsClosed = a.mIsClosed) :
    ∃ s' session', Machine.Run next Machine.any s s' ∧ s'.table = s.table ∧ s'.sessions[k]? = some session' ∧
      session'.mIsClosed = b.mIsClosed := by
  rcases h with ⟨hsame, -⟩ | ⟨hopen, hclosed, -⟩
  · exact ⟨s, session, Machine.Run.refl, rfl, hk, hflag.trans hsame.symm⟩
  · have hnext : next s (.close k) = some (put s k (close session)) := by
      rw [next, hk]
      rfl
    refine ⟨_, close session, Machine.Run.refl.snoc (trivial : Machine.any s (Ev.close k)) hnext, rfl,
      List.getElem?_set_self (List.getElem?_eq_some_iff.mp hk).1, ?_⟩
    rw [hclosed, close, if_neg (by simp [hflag, hopen])]

end Handlers

/-! ## When the counter comes round -/

/-- The session after those of `s`. -/
def newcomer (s : St) : Session := ⟨s.table.ops.length, some s.table.manager.mNextUid, false, .opened⟩

def arrived (s : St) : St :=
  ⟨SessionTable.enter (take s.table s.sessions.length) s.table.ops.length s.table.manager.mNextUid s.sessions.length,
    s.sessions ++ [newcomer s]⟩

/-- The connection factory without interruption. -/
theorem run_factory (s : St) : Machine.Run next Machine.any s (arrived s) := by
  refine Machine.run_of_exec [.accept, .enter s.sessions.length, .onClose s.sessions.length] ?_
  simp [Machine.exec, next, take, SessionTable.enter, put, SessionManager.takeUid, arrived, newcomer]

/-- A close without interruption, up to its removal and from there to its sends. -/
theorem run_removing (s : St) {i : Nat} (hk : s.sessions[k]? = some ⟨i, some uid, false, .opened⟩) :
    Machine.Run next Machine.any s (put s k ⟨i, some uid, true, .removing uid⟩) := by
  obtain ⟨hlt, hat⟩ := List.getElem?_eq_some_iff.mp hk
  refine Machine.run_of_exec [.close k, .goOn k 0] ?_
  simp [Machine.exec, next, hlt, hat, close, goOn, called, put]

theorem run_close (s : St) {i : Nat} (hk : s.sessions[k]? = some ⟨i, some uid, true, .removing uid⟩) :
    Machine.Run next Machine.any s ⟨SessionTable.call (SessionTable.remove s.table uid) none (makePush 0 (userLeft uid)),
      s.sessions.set k ⟨i, some uid, true, .closed (some (uid, s.table.ops.length))⟩⟩ := by
  obtain ⟨hlt, hat⟩ := List.getElem?_eq_some_iff.mp hk
  refine Machine.run_of_exec [.goOn k 0, .goOn k 0] ?_
  simp [Machine.exec, next, hlt, hat, goOn, put, SessionTable.remove]

/-- `n` sessions came and went after the first, which is still there. -/
structure Round (n : Nat) (s : St) : Prop where
  run : Machine.Run next Machine.any init s
  length : s.sessions.length = n + 1
  counter : s.table.manager.mNextUid = BitVec.ofNat 32 (n + 2)
  first : s.sessions[0]? = some ⟨0, some 1#32, false, .opened⟩
  op : s.table.ops[0]? = some (.add 1#32 0 true)

theorem Round.arrived_op {n : Nat} (h : Round n s) : (arrived s).table.ops[0]? = some (.add 1#32 0 true) := by
  have hplace : s.table.ops.length ≠ 0 := by
    have hlt := (List.getElem?_eq_some_iff.mp h.op).1
    omega
  exact (List.getElem?_set_ne hplace).trans (getElem?_append_some h.op _)

theorem round_next {n : Nat} (h : Round n s) : ∃ s', Round (n + 1) s' := by
  have hlast : (arrived s).sessions[s.sessions.length]? = some (newcomer s) := List.getElem?_concat_length
  have hne : s.sessions.length ≠ 0 := by
    rw [h.length]
    exact Nat.succ_ne_zero n
  have hremoving : (put (arrived s) s.sessions.length { newcomer s with
      mIsClosed := true, closing := .removing s.table.manager.mNextUid }).sessions[s.sessions.length]? =
      some ⟨s.table.ops.length, some s.table.manager.mNextUid, true, .removing s.table.manager.mNextUid⟩ :=
    List.getElem?_set_self (List.getElem?_eq_some_iff.mp hlast).1
  have hrun := ((h.run.trans (run_factory s)).trans (run_removing (arrived s) hlast)).trans (run_close _ hremoving)
  refine ⟨_, hrun, ?_, ?_, ?_, ?_⟩
  · simp [put, arrived, h.length]
  · have hcounter : s.table.manager.mNextUid + 1 = BitVec.ofNat 32 (n + 1 + 2) := by
      rw [h.counter]
      exact (BitVec.ofNat_add (n + 2) 1).symm
    exact hcounter
  · exact (List.getElem?_set_ne hne).trans ((List.getElem?_set_ne hne).trans (getElem?_append_some h.first _))
  · exact getElem?_append_some h.arrived_op _

theorem exists_round (n : Nat) : ∃ s, Round n s := by
  induction n with
  | zero => exact ⟨_, run_factory init, rfl, rfl, rfl, rfl⟩
  | succ n ih =>
    obtain ⟨s, hs⟩ := ih
    exact round_next hs

/-- After 2^32 others a session gets the uid of the first, which takes it out when it closes. -/
theorem closes_another : ¬ ∀ s, Machine.Run next Machine.any init s → ∀ k uid, s.uid? k = some uid → ClosesOnce s k uid := by
  intro h
  obtain ⟨s, hs⟩ := exists_round (2 ^ 32 - 1)
  have huid : s.table.manager.mNextUid = 1#32 := hs.counter
  have hfirst : (arrived s).sessions[0]? = some ⟨0, some 1#32, false, .opened⟩ := getElem?_append_some hs.first _
  set s₁ := put (arrived s) 0 ⟨0, some 1#32, true, .removing 1#32⟩
  have hrun : Machine.Run next Machine.any init s₁ :=
    (hs.run.trans (run_factory s)).trans (run_removing (arrived s) hfirst)
  have hremoving : s₁.sessions[0]? = some ⟨0, some 1#32, true, .removing 1#32⟩ :=
    List.getElem?_set_self (List.getElem?_eq_some_iff.mp hfirst).1
  have hu : s₁.uid? 0 = some 1#32 := by
    rw [St.uid?, hremoving, Option.bind_some]
    exact congrArg (Option.bind · Op.uid?) hs.arrived_op
  have hget : s₁.table.manager.get 1#32 = some s.sessions.length := by
    have hmanager : s₁.table.manager = s.table.manager.takeUid.1.enter s.table.manager.mNextUid s.sessions.length := rfl
    rw [hmanager, huid, SessionManager.get, SessionManager.lookup_enter, if_pos rfl, Option.map_some]
  have hnext : next s₁ (.goOn 0 0) = some { put s₁ 0 ⟨0, some 1#32, true, .pushing 1#32⟩ with
      table := SessionTable.remove s₁.table 1#32 } := by
    rw [next, hremoving]
    rfl
  have hkept := (h s₁ hrun 0 1#32 hu).others 0 _ hnext 1#32 s.sessions.length (by rw [hs.length]; decide) hget
  simp [SessionTable.remove, SessionManager.get_remove] at hkept

end CryptoChat.Net.SessionLifecycle
