/-
  CryptoChat.Net.ClientThread — the thread of a `Client` in threaded mode, and its joins.

  `mThread` is joinable from the launch in `connect` to the join in `close`, whether the
  thread still runs or not, and `close` does nothing once `mIsRunning` is false. Proved:
  where the I/O thread never clears the flag while it is set, `connect` never assigns to a
  joinable thread, the destructor never destroys one and no thread joins itself
  (`no_thread_fault`). The code does not keep to that: a connect failure clears the flag
  there, and an I/O error calls `close` there (`thread_faults`).
-/

import CryptoChat.Net.ClientIo

namespace CryptoChat.Net.ClientThread

open CryptoChat.Lib ClientIo

variable {cfg : Config} {s : Core} {a : Action} {t t' : St}

/-! ## The programs of the two threads -/

def joinable : Thread → Bool
  | .none => false
  | _ => true

/-- Whether a program of the user's thread, from a flag and a thread, never assigns to or destroys
    a joinable thread, and leaves a joinable thread exactly with the flag set. -/
def sound (running thread : Bool) : List Action → Bool
  | [] => thread == running
  | .connect :: rest => if running then sound running thread rest else !thread && sound true true rest
  | .spawn :: rest => !thread && sound running true rest
  | .close _ :: rest => if running then sound false false rest else sound false thread rest
  | .join :: rest => sound running false rest
  | .destroyMembers :: rest => !thread && sound running thread rest
  | _ :: rest => sound running thread rest

/-- The actions of a user that is not called back. -/
def ofUser : Action → Bool
  | .poll | .clear _ | .onError _ _ | .onDisconnect _ | .onConnect | .onMessage | .callback | .handleIoError _ _
  | .start _ _ | .readNext _ => false
  | _ => true

/-- The actions of handlers, up to a `close` that goes on. -/
def ofHandler : Action → Bool
  | .close _ | .requestAsync | .postWrite _ | .clear _ | .onError _ _ | .onDisconnect _ | .onConnect | .onMessage
  | .callback | .handleIoError _ _ | .start _ _ | .readNext _ => true
  | _ => false

theorem program_ofHandler (c : Nat) (h : Handler) : ∀ b ∈ program cfg c h, ofHandler b = true := by
  rcases h with ⟨op, r⟩ | - | -
  · cases op <;> cases r <;> simp only [program, handleConnectResult] <;>
      first | (split <;> simp [ofHandler]) | simp [ofHandler]
  · simp [program, ofHandler]
  · simp only [program]
    split <;> simp [ofHandler]

theorem exec_ofUser (ha : ofUser a = true) : ∀ b ∈ (exec cfg s a).2, ofUser b = true := by
  cases a <;> first | (cases ha; done) | (dsimp only [exec]; first | (split <;> simp [ofUser]) | simp)

theorem exec_ofHandler (ha : ofHandler a = true) (hclose : ∀ caller, a = .close caller → s.mIsRunning = false) :
    ∀ b ∈ (exec cfg s a).2, ofHandler b = true := by
  cases a with
  | close caller =>
    dsimp only [exec]
    rw [if_neg (by simp [hclose caller rfl])]
    simp
  | _ => first | (cases ha; done) | (dsimp only [exec]; first | (split <;> simp [ofHandler]) | simp [ofHandler])

/-- The user's next action is sound, and what is left is sound in the state after it. -/
theorem sound_exec (hmode : cfg.mode = .threaded) {rest : List Action} (ha : ofUser a = true)
    (h : sound s.mIsRunning (joinable s.mThread) (a :: rest) = true) :
    sound (exec cfg s a).1.mIsRunning (joinable (exec cfg s a).1.mThread) ((exec cfg s a).2 ++ rest) = true ∧
      (exec cfg s a).1.faults = s.faults := by
  cases a with
  | connect =>
    dsimp only [exec, sound] at h ⊢
    split <;> rename_i hr
    · simp only [hr, if_true] at h
      exact ⟨by rw [hr]; exact h, rfl⟩
    · simp only [hr] at h
      exact ⟨h, rfl⟩
  | spawn =>
    obtain ⟨hfree, hrest⟩ := Bool.and_eq_true_iff.mp h
    cases ht : s.mThread with
    | none =>
      simp only [exec, hmode, ht]
      exact ⟨hrest, trivial⟩
    | running => simp [ht, joinable] at hfree
    | finished => simp [ht, joinable] at hfree
  | close caller =>
    dsimp only [exec, sound] at h ⊢
    split <;> rename_i hr
    · simp only [hr, if_true] at h
      exact ⟨h, note_faults ..⟩
    · simp only [hr] at h
      exact ⟨by rw [Bool.eq_false_iff.mpr hr]; exact h, rfl⟩
  | destroyMembers =>
    obtain ⟨hfree, hrest⟩ := Bool.and_eq_true_iff.mp h
    cases ht : s.mThread with
    | none =>
      simp only [exec, ht, if_true]
      exact ⟨ht ▸ hrest, rfl⟩
    | running => simp [ht, joinable] at hfree
    | finished => simp [ht, joinable] at hfree
  | requestAsync =>
    dsimp only [exec]
    split <;> exact ⟨h, rfl⟩
  | _ => first | (cases ha; done) | exact ⟨h, rfl⟩

/-- An action of a handler that does not clear the flag changes neither the flag nor the thread. -/
theorem exec_same (ha : ofHandler a = true) (hclose : ∀ caller, a = .close caller → s.mIsRunning = false)
    (hclear : ∀ c, a = .clear c → s.mIsRunning = false) :
    (exec cfg s a).1.mIsRunning = s.mIsRunning ∧ (exec cfg s a).1.mThread = s.mThread ∧
      (exec cfg s a).1.faults = s.faults := by
  cases a with
  | close caller =>
    dsimp only [exec]
    rw [if_neg (by simp [hclose caller rfl])]
    exact ⟨rfl, rfl, rfl⟩
  | clear c => exact ⟨(hclear c rfl).symm, note_thread .., note_faults ..⟩
  | onError c what =>
    dsimp only [exec]
    split <;> simp
  | onDisconnect c =>
    dsimp only [exec]
    split <;> simp
  | _ =>
    first | (cases ha; done) | (dsimp only [exec]; first | exact ⟨rfl, rfl, rfl⟩ | (split <;> exact ⟨rfl, rfl, rfl⟩))

/-! ## Runs -/

/-- The I/O thread does not clear the flag while it is set. -/
def Clean (t : St) : Ev → Prop
  | .io =>
    match t.io with
    | .close _ :: _ | .clear _ :: _ => t.core.mIsRunning = false
    | _ => True
  | _ => True

instance (e : Ev) : Decidable (Clean t e) := by
  unfold Clean
  split
  · split <;> infer_instance
  · infer_instance

structure Inv (t : St) : Prop where
  sound : sound t.core.mIsRunning (joinable t.core.mThread) t.user = true
  user : ∀ a ∈ t.user, ofUser a = true
  io : ∀ a ∈ t.io, ofHandler a = true
  faults : t.core.faults = []

theorem inv_live (hmode : cfg.mode = .threaded) {e : Ev} (hi : Inv t) (hclean : Clean t e)
    (h : live cfg t e = some t') : Inv t' := by
  cases e with
  | user =>
    obtain ⟨a, rest, hu, -, -, -, rfl⟩ := live_user h
    have ha := hi.user a (hu ▸ List.mem_cons_self)
    obtain ⟨hs, hf⟩ := sound_exec hmode ha (hu ▸ hi.sound)
    refine ⟨hs, ?_, hi.io, hf.trans hi.faults⟩
    intro b hb
    rcases List.mem_append.mp hb with hb | hb
    · exact exec_ofUser ha b hb
    · exact hi.user b (hu ▸ List.mem_cons_of_mem a hb)
  | io =>
    obtain ⟨a, rest, hio, -, -, hstep⟩ := live_io h
    have ha := hi.io a (hio ▸ List.mem_cons_self)
    rcases hstep with rfl | ⟨rfl, -⟩
    · have hclose (caller : Option Nat) (he : a = .close caller) : t.core.mIsRunning = false := by
        simpa [Clean, hio, he] using hclean
      have hclear (c : Nat) (he : a = .clear c) : t.core.mIsRunning = false := by simpa [Clean, hio, he] using hclean
      obtain ⟨hr, hm, hf⟩ := @exec_same cfg _ _ ha hclose hclear
      refine ⟨by simp only [hr, hm]; exact hi.sound, hi.user, ?_, hf.trans hi.faults⟩
      intro b hb
      rcases List.mem_append.mp hb with hb | hb
      · exact exec_ofHandler ha hclose b hb
      · exact hi.io b (hio ▸ List.mem_cons_of_mem a hb)
    · cases ha
  | call f =>
    simp only [live, Option.ite_none_right_eq_some, Option.some.injEq] at h
    obtain ⟨⟨hu, -⟩, rfl⟩ := h
    have hnil : t.user = [] := by
      cases hu' : t.user with
      | nil => rfl
      | cons a rest =>
        have ha := hi.user a (hu' ▸ List.mem_cons_self)
        rw [hu'] at hu
        unfold userRuns at hu
        split at hu <;> simp_all [ofUser]
    have hs := hi.sound
    rw [hnil] at hs ⊢
    refine ⟨?_, ?_, hi.io, hi.faults⟩
    · revert hs
      cases f <;> cases t.core.mIsRunning <;> cases joinable t.core.mThread <;>
        simp [Call.action, ClientThread.sound, hmode]
    · cases f <;> simp [Call.action, ofUser, hmode]
  | delete =>
    simp only [live, Option.ite_none_right_eq_some, Option.some.injEq] at h
    obtain ⟨⟨hu, -⟩, rfl⟩ := h
    have hs := hi.sound
    rw [hu] at hs
    refine ⟨?_, by simp [ofUser], hi.io, hi.faults⟩
    revert hs
    cases t.core.mIsRunning <;> cases joinable t.core.mThread <;> simp [ClientThread.sound]
  | ioRequest =>
    dsimp only [live] at h
    split at h
    · cases h
      exact ⟨hi.sound, hi.user, fun b hb => (List.mem_cons.mp hb).elim (fun he => he ▸ rfl) (hi.io b), hi.faults⟩
    · cases h
  | userReturn =>
    dsimp only [live] at h
    split at h
    · rename_i rest hu
      cases hi.user .callback (hu ▸ List.mem_cons_self)
    · cases h
  | ioReturn =>
    dsimp only [live] at h
    split at h
    · rename_i rest hio
      cases h
      exact ⟨hi.sound, hi.user, fun b hb => hi.io b (hio ▸ List.mem_cons_of_mem _ hb), hi.faults⟩
    · cases h
  | take i =>
    dsimp only [live] at h
    split at h
    · rename_i rest hu
      cases hi.user .poll (hu ▸ List.mem_cons_self)
    · cases h
  | endPoll =>
    dsimp only [live] at h
    split at h
    · rename_i rest hu
      cases hi.user .poll (hu ▸ List.mem_cons_self)
    · cases h
  | ioTake i =>
    simp only [live, Option.ite_none_right_eq_some] at h
    obtain ⟨-, h⟩ := h
    obtain ⟨⟨x, core⟩, hd, rfl⟩ := Option.map_eq_some_iff.mp h
    obtain ⟨-, rfl⟩ := dequeue_some hd
    exact ⟨hi.sound, hi.user, program_ofHandler x.1 x.2, hi.faults⟩
  | ioExit =>
    simp only [live, Option.ite_none_right_eq_some, Option.some.injEq] at h
    obtain ⟨⟨hm, -⟩, rfl⟩ := h
    have hs := hi.sound
    rw [hm] at hs
    exact ⟨hs, hi.user, hi.io, hi.faults⟩
  | complete i r =>
    obtain ⟨core, hc, rfl⟩ := Option.map_eq_some_iff.mp h
    obtain ⟨x, -, hc⟩ := Option.bind_eq_some_iff.mp hc
    simp only [Option.ite_none_right_eq_some, Option.some.injEq] at hc
    obtain ⟨-, rfl⟩ := hc
    exact ⟨hi.sound, hi.user, hi.io, hi.faults⟩

/-- In every run of a Client in threaded mode in which the I/O thread never clears `mIsRunning` while
    it is set, `connect` never assigns to a joinable `mThread`, the destructor never destroys
    one, and no thread joins itself. -/
theorem no_thread_fault (hmode : cfg.mode = .threaded) (h : Machine.Run (next cfg) Clean init t) :
    t.core.faults = [] := by
  have hi := Machine.run_invariant Inv ⟨rfl, by simp [init], by simp [init], rfl⟩
    (fun _ _ _ hi hclean he => inv_live hmode hi hclean (next_live he).2) h
  exact hi.faults

/-! ## Faults -/

/-- `connect`, and the host is found or not. -/
def resolved (r : Result) : List Ev := List.flatten [.call .connect :: acts 5, [.complete 0 r, .ioTake 0]]

/-- A connection that the user closes, and another; then the Client is deleted. -/
def closedByUser : List Ev :=
  List.flatten [resolved .ok, [.io], .call .close :: acts 5, [.ioExit], acts 2, .call .connect :: acts 5,
    .delete :: acts 5, [.ioExit], acts 3]

theorem no_thread_fault_closed :
    ∃ t, Machine.Run (next (sampleConfig .threaded)) Clean init t ∧ t.core.conn = 2 ∧ t.gone = true ∧ t.core.faults = [] := by
  have hex : ((Machine.execIf (next (sampleConfig .threaded)) (fun t e => decide (Clean t e)) init closedByUser).map fun t =>
      (t.core.conn, t.gone)) = some (2, true) := by decide
  obtain ⟨t, ht, hv⟩ := Option.map_eq_some_iff.mp hex
  obtain ⟨hc, hg⟩ := Prod.mk.inj hv
  have hrun := (Machine.run_of_execIf (fun _ _ => of_decide_eq_true) _ ht : Machine.Run _ Clean _ _)
  exact ⟨t, hrun, hc, hg, no_thread_fault rfl hrun⟩

def Faulty (fault : Fault) : Prop :=
  ∃ t, Machine.Run (next (sampleConfig .threaded)) Machine.any init t ∧ t.core.faults = [fault]

theorem faulty_of {fault : Fault} (es : List Ev)
    (h : ((Machine.exec (next (sampleConfig .threaded)) init es).map fun t => t.core.faults) = some [fault]) : Faulty fault := by
  obtain ⟨t, ht, hf⟩ := Option.map_eq_some_iff.mp h
  exact ⟨t, Machine.run_of_exec _ ht, hf⟩

/-- The host is not found. -/
def refused : List Ev := resolved (.failed "Host not found")

/-- The peer closes the connection while the client waits for a header. -/
def closedByPeer : List Ev :=
  List.flatten [resolved .ok, [.io, .complete 0 .ok, .ioTake 0, .io, .ioReturn, .io],
    [.complete 0 (.failed "End of file"), .ioTake 0]]

/-- After a connect failure the next `connect` assigns to the joinable thread, and the destructor
    destroys it; on a failed read the I/O thread closes the Client and joins itself. -/
theorem thread_faults : Faulty .assign ∧ Faulty .destroy ∧ Faulty .selfJoin := by
  refine ⟨?_, ?_, ?_⟩
  · exact faulty_of (List.flatten [refused, [.io], .call .connect :: acts 4]) (by decide)
  · exact faulty_of (List.flatten [refused, [.io], .delete :: acts 2]) (by decide)
  · exact faulty_of (List.flatten [closedByPeer, [.io, .io, .ioReturn], List.replicate 6 .io]) (by decide)

end CryptoChat.Net.ClientThread
