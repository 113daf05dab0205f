/-
  CryptoChat.Net.ClientReconnect — what is left of a connection of a `Client` when it is
  connected again.

  Handlers know nothing of connections: they look at the one flag `mIsRunning`. Proved:
  where `connect` returns true only when nothing is left of the connections before, no
  handler of theirs calls a callback or clears the flag after that (`no_stale_effect`). A
  successful write completion is nothing, and so is the notification of a disconnect where
  no callback is set. The code does not keep to that: `close` leaves both aborted reads and
  the notification in the queue (`stale_effects`).
-/

import CryptoChat.Net.ClientIo

namespace CryptoChat.Net.ClientReconnect

open CryptoChat.Lib ClientIo

variable {cfg : Config} {s : Core} {a : Action} {t t' : St}

/-! ## What actions keep -/

theorem exec_returned (hr : ∀ c, a ≠ .returned c) : (exec cfg s a).1.returned = s.returned := by
  cases a with
  | returned c => exact absurd rfl (hr c)
  | _ =>
    simp only [exec, closeSocket]
    first | done | (split <;> simp) | simp

/-- An action for a connection whose `connect` was the last to return true, or a later one, is
    not stale. -/
theorem exec_stale (ha : ∀ c, a.conn? = some c → s.returned ≤ c) : (exec cfg s a).1.stale = s.stale := by
  have hnote (effect : Effect) : (note a.conn? effect s).stale = s.stale := note_stale ha effect
  cases a <;> simp only [exec, closeSocket] <;> first | done | (split <;> first | rfl | exact hnote _) | exact hnote _

/-! ## Nothing left -/

/-- Nothing of a connection before `r` is queued, outstanding or being run. -/
structure Clear (cfg : Config) (r : Nat) (t : St) : Prop where
  core : Tagged (r ≤ ·) (fun e => AllFor (r ≤ ·) (program cfg e.1 e.2)) t.core
  user : AllFor (r ≤ ·) t.user
  io : AllFor (r ≤ ·) t.io

instance (r : Nat) : Decidable (Clear cfg r t) :=
  decidable_of_iff (Tagged (r ≤ ·) (fun e => AllFor (r ≤ ·) (program cfg e.1 e.2)) t.core ∧ AllFor (r ≤ ·) t.user ∧
    AllFor (r ≤ ·) t.io) ⟨fun h => ⟨h.1, h.2.1, h.2.2⟩, fun h => ⟨h.core, h.user, h.io⟩⟩

/-- The `connect` that the user's thread is about to return true from. -/
def returning (t : St) : Ev → Option Nat
  | .user =>
    match t.user with
    | .returned c :: _ => some c
    | _ => none
  | _ => none

/-- When `connect` returns true nothing of an earlier connection is left. -/
def Clean (cfg : Config) (t : St) (e : Ev) : Prop := ∀ c ∈ returning t e, Clear cfg c t

instance (e : Ev) : Decidable (Clean cfg t e) := inferInstanceAs (Decidable (∀ c ∈ returning t e, Clear cfg c t))

structure Inv (cfg : Config) (t : St) : Prop where
  clear : Clear cfg t.core.returned t
  stale : t.core.stale = []
  le : t.core.returned ≤ t.core.conn
  user : ∀ c, .returned c ∈ t.user → c ≤ t.core.conn
  /-- The I/O thread connects nothing. -/
  io : ∀ a ∈ t.io, a ≠ .connect ∧ ∀ c, a ≠ .returned c

theorem allFor_program {r c : Nat} (h : r ≤ c) (x : Handler) : AllFor (r ≤ ·) (program cfg c x) := by
  intro a ha c' hc
  obtain rfl := program_conn ha hc
  exact h

/-- What an action of a connection that is not earlier than the last leaves behind. -/
theorem tagged_exec_returned (hi : Inv cfg t) (ha : ∀ c, a.conn? = some c → t.core.returned ≤ c) :
    Tagged (t.core.returned ≤ ·) (fun e => AllFor (t.core.returned ≤ ·) (program cfg e.1 e.2)) (exec cfg t.core a).1 ∧
      AllFor (t.core.returned ≤ ·) (exec cfg t.core a).2 := by
  have hle := hi.le
  exact tagged_exec (fun c h hc => allFor_program hc h) hle (fun _ => by omega) ha hi.clear.core

theorem inv_user (hi : Inv cfg t) (hclean : Clean cfg t .user) (h : live cfg t .user = some t') : Inv cfg t' := by
  obtain ⟨a, rest, hu, -, -, -, rfl⟩ := live_user h
  have huser (c : Nat) (hc : .returned c ∈ rest) : c ≤ t.core.conn := hi.user c (hu ▸ List.mem_cons_of_mem a hc)
  by_cases hr : ∃ c, a = .returned c
  · obtain ⟨c, rfl⟩ := hr
    obtain ⟨hcore, hall, hio⟩ := hclean c (by simp [returning, hu])
    rw [hu] at hall
    have hin := hi.user c (hu ▸ List.mem_cons_self)
    exact ⟨⟨⟨hcore.queue, hcore.ops⟩, AllFor.tail hall, hio⟩, hi.stale, hin, huser, hi.io⟩
  · have hr : ∀ c, a ≠ .returned c := not_exists.mp hr
    have hall := hi.clear.user
    rw [hu] at hall
    have ha := hall a List.mem_cons_self
    obtain ⟨hcore, hnew⟩ := tagged_exec_returned hi ha
    have hle := @exec_conn_le cfg t.core a
    have hret := @exec_returned cfg t.core a hr
    refine ⟨⟨?_, ?_, ?_⟩, (exec_stale ha).trans hi.stale, ?_, ?_, hi.io⟩
    · rw [hret]
      exact hcore
    · rw [hret]
      exact hnew.append (AllFor.tail hall)
    · rw [hret]
      exact hi.clear.io
    · rw [hret]
      exact hi.le.trans hle
    · intro c hc
      rcases List.mem_append.mp hc with hc | hc
      · exact ((exec_calls _ hc).2 c rfl).2.le
      · exact (huser c hc).trans hle

theorem inv_io (hi : Inv cfg t) (h : live cfg t .io = some t') : Inv cfg t' := by
  obtain ⟨a, rest, hio, -, -, rfl | ⟨-, rfl⟩⟩ := live_io h
  · obtain ⟨hconnect, hr⟩ := hi.io a (hio ▸ List.mem_cons_self)
    have hall := hi.clear.io
    rw [hio] at hall
    have ha := hall a List.mem_cons_self
    obtain ⟨hcore, hnew⟩ := tagged_exec_returned hi ha
    have hret := @exec_returned cfg t.core a hr
    have hle := @exec_conn_le cfg t.core a
    refine ⟨⟨?_, ?_, ?_⟩, (exec_stale ha).trans hi.stale, ?_, fun c hc => (hi.user c hc).trans hle, ?_⟩
    · rw [hret]
      exact hcore
    · rw [hret]
      exact hi.clear.user
    · rw [hret]
      exact hnew.append (AllFor.tail hall)
    · rw [hret]
      exact hi.le.trans hle
    · intro b hb
      rcases List.mem_append.mp hb with hb | hb
      · obtain ⟨hb1, hb2⟩ := exec_calls b hb
        exact ⟨hb1, fun c hc => hconnect (hb2 c hc).1⟩
      · exact hi.io b (hio ▸ List.mem_cons_of_mem a hb)
  · exact ⟨⟨⟨hi.clear.core.queue, hi.clear.core.ops⟩, hi.clear.user, by simp [AllFor]⟩, hi.stale, hi.le, hi.user,
      by simp⟩

/-- A change of the programs alone, by actions that are for no connection. -/
theorem Inv.programs (hi : Inv cfg t) {user io : List Action} (gone : Bool)
    (hu : ∀ a ∈ user, a ∈ t.user ∨ a.conn? = none ∧ ∀ c, a ≠ .returned c)
    (hio : ∀ a ∈ io, a ∈ t.io ∨ a = .requestAsync) : Inv cfg ⟨t.core, user, io, gone⟩ := by
  refine ⟨⟨hi.clear.core, ?_, ?_⟩, hi.stale, hi.le, ?_, ?_⟩
  · intro a ha c hc
    rcases hu a ha with h | ⟨h, -⟩
    · exact hi.clear.user a h c hc
    · cases h.symm.trans hc
  · intro a ha c hc
    rcases hio a ha with h | rfl
    · exact hi.clear.io a h c hc
    · cases hc
  · intro c hc
    rcases hu _ hc with h | ⟨-, h⟩
    · exact hi.user c h
    · exact absurd rfl (h c)
  · intro a ha
    rcases hio a ha with h | rfl
    · exact hi.io a h
    · exact ⟨nofun, nofun⟩

theorem inv_live {e : Ev} (hi : Inv cfg t) (hclean : Clean cfg t e) (h : live cfg t e = some t') : Inv cfg t' := by
  cases e with
  | user => exact inv_user hi hclean h
  | io => exact inv_io hi h
  | call f =>
    simp only [live, Option.ite_none_right_eq_some, Option.some.injEq] at h
    obtain ⟨-, rfl⟩ := h
    refine hi.programs t.gone ?_ fun a ha => .inl ha
    intro a ha
    rcases List.mem_append.mp ha with ha | ha
    · right
      cases f <;> simp [Call.action] at ha
      all_goals first | (subst ha; exact ⟨rfl, nofun⟩) | (obtain ⟨-, rfl | rfl⟩ := ha <;> exact ⟨rfl, nofun⟩)
    · exact .inl ha
  | delete =>
    simp only [live, Option.ite_none_right_eq_some, Option.some.injEq] at h
    obtain ⟨-, rfl⟩ := h
    exact hi.programs true (by simp [Action.conn?]) fun a ha => .inl ha
  | ioRequest =>
    dsimp only [live] at h
    split at h
    · cases h
      exact hi.programs t.gone (fun a ha => .inl ha) fun a ha => (List.mem_cons.mp ha).symm
    · cases h
  | userReturn =>
    dsimp only [live] at h
    split at h
    · rename_i rest hu
      cases h
      exact hi.programs t.gone (fun a ha => .inl (hu ▸ List.mem_cons_of_mem _ ha)) fun a ha => .inl ha
    · cases h
  | ioReturn =>
    dsimp only [live] at h
    split at h
    · rename_i rest hio
      cases h
      exact hi.programs t.gone (fun a ha => .inl ha) fun a ha => .inl (hio ▸ List.mem_cons_of_mem _ ha)
    · cases h
  | take i =>
    dsimp only [live] at h
    split at h
    · obtain ⟨⟨x, core⟩, hd, rfl⟩ := Option.map_eq_some_iff.mp h
      obtain ⟨hx, rfl⟩ := dequeue_some hd
      refine ⟨⟨hi.clear.core.eraseIdx i, (hi.clear.core.queue x hx).append hi.clear.user, hi.clear.io⟩, hi.stale,
        hi.le, ?_, hi.io⟩
      intro c hc
      rcases List.mem_append.mp hc with hc | hc
      · exact absurd rfl ((program_calls hc).2 c)
      · exact hi.user c hc
    · cases h
  | endPoll =>
    dsimp only [live] at h
    split at h
    · rename_i rest hu
      simp only [Option.ite_none_right_eq_some, Option.some.injEq] at h
      obtain ⟨-, rfl⟩ := h
      exact hi.programs t.gone (fun a ha => .inl (hu ▸ List.mem_cons_of_mem _ ha)) fun a ha => .inl ha
    · cases h
  | ioTake i =>
    simp only [live, Option.ite_none_right_eq_some] at h
    obtain ⟨-, h⟩ := h
    obtain ⟨⟨x, core⟩, hd, rfl⟩ := Option.map_eq_some_iff.mp h
    obtain ⟨hx, rfl⟩ := dequeue_some hd
    exact ⟨⟨hi.clear.core.eraseIdx i, hi.clear.user, hi.clear.core.queue x hx⟩, hi.stale, hi.le, hi.user,
      fun a ha => program_calls ha⟩
  | ioExit =>
    simp only [live, Option.ite_none_right_eq_some, Option.some.injEq] at h
    obtain ⟨-, rfl⟩ := h
    exact ⟨⟨⟨hi.clear.core.queue, hi.clear.core.ops⟩, hi.clear.user, hi.clear.io⟩, hi.stale, hi.le, hi.user, hi.io⟩
  | complete i r =>
    obtain ⟨core, hc, rfl⟩ := Option.map_eq_some_iff.mp h
    obtain ⟨x, hx, hc⟩ := Option.bind_eq_some_iff.mp hc
    simp only [Option.ite_none_right_eq_some, Option.some.injEq] at hc
    obtain ⟨-, rfl⟩ := hc
    have hops := hi.clear.core.ops x (List.mem_of_getElem? hx)
    have hcore := hi.clear.core.post (e := (x.1, .done x.2 r)) (allFor_program hops _)
    exact ⟨⟨⟨hcore.queue, fun e he => hcore.ops e (List.mem_of_mem_eraseIdx he)⟩, hi.clear.user, hi.clear.io⟩, hi.stale,
      hi.le, hi.user, hi.io⟩

theorem inv_init : Inv cfg init := by
  refine ⟨⟨⟨?_, ?_⟩, ?_, ?_⟩, rfl, Nat.le_refl _, ?_, ?_⟩ <;> simp [init, AllFor]

/-- In every run of a Client in which `connect` returns true only when nothing of an earlier connection
    is left, no handler of an earlier connection calls the error or the disconnect callback, or
    clears `mIsRunning`, after a later `connect` has returned true. -/
theorem no_stale_effect (h : Machine.Run (next cfg) (Clean cfg) init t) : t.core.stale = [] := by
  have hi := Machine.run_invariant (Inv cfg) inv_init
    (fun _ _ _ hi hclean he => inv_live hi hclean (next_live he).2) h
  exact hi.stale

/-! ## What `close` leaves -/

/-- `connect`, and the connect failure is handled in `poll`, with both callbacks. -/
def refused : List Ev :=
  List.flatten [.call .connect :: acts 5, [.complete 0 (.failed "Host not found"), .call .poll, .take 0], acts 2,
    [.userReturn], acts 1, [.userReturn, .endPoll], acts 1]

theorem no_stale_effect_refused :
    ∃ t, Machine.Run (next (sampleConfig .manual)) (Clean (sampleConfig .manual)) init t ∧ t.core.returned = 2 ∧
      t.core.stale = [] := by
  have hex : ((Machine.execIf (next (sampleConfig .manual)) (fun t e => decide (Clean (sampleConfig .manual) t e)) init
      (refused ++ .call .connect :: acts 5)).map fun t => t.core.returned) = some 2 := by decide
  obtain ⟨t, ht, hr⟩ := Option.map_eq_some_iff.mp hex
  have hrun : Machine.Run _ (Clean (sampleConfig .manual)) _ _ :=
    Machine.run_of_execIf (fun _ _ => of_decide_eq_true) _ ht
  exact ⟨t, hrun, hr, no_stale_effect hrun⟩

/-- A connection in manual mode whose header read is outstanding when it is closed; then another
    `connect`, and a `poll` in which the aborted read is handled. -/
def reconnected : List Ev :=
  List.flatten [.call .connect :: acts 5, [.complete 0 .ok, .call .poll, .take 0], acts 1, [.complete 0 .ok, .take 0],
    acts 1, [.userReturn], acts 1, [.endPoll], acts 1, .call .close :: acts 7, .call .connect :: acts 5,
    [.call .poll, .take 1], acts 2, [.userReturn], acts 1]

/-- The same in threaded mode: the I/O thread is stopped before it handles the aborted read. -/
def rejoined : List Ev :=
  List.flatten [.call .connect :: acts 5, [.complete 0 .ok, .ioTake 0, .io, .complete 0 .ok, .ioTake 0, .io, .ioReturn,
    .io], .call .close :: acts 5, [.ioExit], acts 2, .call .connect :: acts 5, [.ioTake 0, .io]]

/-- The aborted read of the first connection calls the error callback and closes the second; the
    notification of the first disconnect reaches the second connection. -/
theorem stale_effects :
    (∃ t, Machine.Run (next (sampleConfig .manual)) Machine.any init t ∧ t.core.returned = 2 ∧
      t.core.stale = [.errorCallback, .cleared]) ∧
    (∃ t, Machine.Run (next (sampleConfig .threaded)) Machine.any init t ∧ t.core.returned = 2 ∧
      t.core.stale = [.disconnectCallback]) := by
  have hmanual : ((Machine.exec (next (sampleConfig .manual)) init reconnected).map fun t =>
      (t.core.returned, t.core.stale)) = some (2, [.errorCallback, .cleared]) := by decide
  have hthreaded : ((Machine.exec (next (sampleConfig .threaded)) init rejoined).map fun t =>
      (t.core.returned, t.core.stale)) = some (2, [.disconnectCallback]) := by decide
  obtain ⟨t, ht, hv⟩ := Option.map_eq_some_iff.mp hmanual
  obtain ⟨u, hu, hw⟩ := Option.map_eq_some_iff.mp hthreaded
  exact ⟨⟨t, Machine.run_of_exec _ ht, Prod.mk.inj hv⟩, ⟨u, Machine.run_of_exec _ hu, Prod.mk.inj hw⟩⟩

end CryptoChat.Net.ClientReconnect
