/-
  CryptoChat.Lib.ExactRead — programs that consume a stream by exact reads: at most
  one read is outstanding, it asks for a number of elements, and its completion handler
  gets exactly that many, or an error.

  `drain` is what such a program does with a stream it is given whole. `Conn` is the
  program at one end of a connection: elements arrive in pieces of any size, the
  outstanding read takes them in pieces of any size, and it may fail at any time.

  Proved: in every run of `Conn` the program is where `drain` leaves it on the elements
  taken so far (`conn_inv`), so a connection on which nothing is left to do is in the
  state `drain` gives on everything that arrived, however it was cut (`quiescent_drain`);
  the steps that are not arrivals come to an end (`own_steps_le`, `exists_quiescent`).
-/

import CryptoChat.Lib.Machine
import Mathlib

namespace CryptoChat.Lib.ExactRead

/-- A program reading by exact reads, of elements `β`, with errors `ε`. -/
structure Reader (σ β ε : Type) where
  /-- The size of the outstanding read, `none` when there is none. -/
  want : σ → Option Nat
  /-- The completion handler. -/
  feed : σ → List β → σ
  /-- The completion handler, on an error. -/
  fail : σ → ε → σ
  want_fail : ∀ s e, want (fail s e) = none
  want_feed : ∀ s, want s = some 0 → want (feed s []) ≠ some 0

variable {σ β ε : Type} (R : Reader σ β ε)

/-! ## A stream given whole -/

/-- Whether a read of nothing is outstanding. -/
def rank (s : σ) : Nat := if R.want s = some 0 then 1 else 0

theorem rank_le (s : σ) : rank R s ≤ 1 := by
  unfold rank
  split <;> omega

theorem rank_feed {s : σ} (h : R.want s = some 0) : rank R (R.feed s []) < rank R s := by
  simp [rank, h, R.want_feed s h]

/-- Completes reads while the stream has enough elements; the state then, and the rest. -/
def drain (s : σ) (bs : List β) : σ × List β :=
  match _h : R.want s with
  | none => (s, bs)
  | some n => if n ≤ bs.length then drain (R.feed s (bs.take n)) (bs.drop n) else (s, bs)
termination_by 2 * bs.length + rank R s
decreasing_by
  rename_i hn
  rw [List.length_drop]
  by_cases h0 : n = 0
  · subst h0
    have := rank_feed R _h
    simpa using this
  · have := rank_le R (R.feed s (bs.take n))
    omega

theorem drain_stopped {s : σ} (h : R.want s = none) (bs : List β) : drain R s bs = (s, bs) := by
  rw [drain]
  split
  · rfl
  · rename_i hw
    cases hw.symm.trans h

theorem drain_wants {s : σ} {n : Nat} (h : R.want s = some n) (bs : List β) :
    drain R s bs = if n ≤ bs.length then drain R (R.feed s (bs.take n)) (bs.drop n) else (s, bs) := by
  rw [drain]
  split
  · rename_i hw
    cases hw.symm.trans h
  · rename_i hw
    obtain rfl := Option.some.inj (hw.symm.trans h)
    rfl

theorem drain_short {s : σ} {n : Nat} (h : R.want s = some n) {bs : List β} (hn : bs.length < n) :
    drain R s bs = (s, bs) := by
  rw [drain_wants R h, if_neg (Nat.not_le.mpr hn)]

theorem drain_read {s : σ} {n : Nat} (h : R.want s = some n) {bs : List β} (hn : n ≤ bs.length) :
    drain R s bs = drain R (R.feed s (bs.take n)) (bs.drop n) := by
  rw [drain_wants R h, if_pos hn]

theorem drain_append (s : σ) (as bs : List β) :
    drain R s (as ++ bs) = drain R (drain R s as).1 ((drain R s as).2 ++ bs) := by
  induction s, as using drain.induct R with
  | case1 s as h => rw [drain_stopped R h as]
  | case2 s as n h hn ih =>
    rw [drain_read R h hn, drain_read R h (show n ≤ (as ++ bs).length by simp; omega),
      List.take_append_of_le_length hn, List.drop_append_of_le_length hn, ih]
  | case3 s as n h hn => rw [drain_short R h (show as.length < n by omega)]

/-- Programs that agree on the states they go through agree on every stream. -/
theorem drain_congr {R R' : Reader σ β ε} {P : σ → Prop} (hw : ∀ s, R.want s = R'.want s)
    (hf : ∀ s bs, P s → R.want s ≠ none → R.feed s bs = R'.feed s bs)
    (hP : ∀ s bs, P s → R.want s ≠ none → P (R.feed s bs)) {s : σ} (h : P s) (bs : List β) :
    drain R s bs = drain R' s bs := by
  induction s, bs using drain.induct R with
  | case1 s bs hn => rw [drain_stopped R hn, drain_stopped R' (hw s ▸ hn)]
  | case2 s bs n hn hle ih =>
    have hne : R.want s ≠ none := by simp [hn]
    rw [drain_read R hn hle, drain_read R' (hw s ▸ hn) hle, ih (hP s _ h hne), hf s _ h hne]
  | case3 s bs n hn hle => rw [drain_short R hn (by omega), drain_short R' (hw s ▸ hn) (by omega)]

/-- What every completion keeps or extends, a stream keeps or extends. -/
theorem drain_extends (le : σ → σ → Prop) (hrefl : ∀ s, le s s) (htrans : ∀ a b c, le a b → le b c → le a c)
    (hfeed : ∀ s bs, le s (R.feed s bs)) (s : σ) (bs : List β) : le s (drain R s bs).1 := by
  induction s, bs using drain.induct R with
  | case1 s bs hn =>
    rw [drain_stopped R hn]
    exact hrefl s
  | case2 s bs n hn hle ih =>
    rw [drain_read R hn hle]
    exact htrans _ _ _ (hfeed s _) ih
  | case3 s bs n hn hle =>
    rw [drain_short R hn (by omega)]
    exact hrefl s

/-! ## A connection -/

structure Conn (σ β ε : Type) where
  state : σ
  /-- What the outstanding read has got so far. -/
  got : List β
  /-- What has arrived and is not taken. -/
  avail : List β
  /-- Every element taken, in order. -/
  taken : List β
  failed : Option ε

def Conn.arrived (c : Conn σ β ε) : List β := c.taken ++ c.avail

def Conn.init (s : σ) : Conn σ β ε := ⟨s, [], [], [], none⟩

inductive Ev (β ε : Type) where
  | arrive (bs : List β)
  /-- The outstanding read takes `k` elements. -/
  | transfer (k : Nat)
  | complete
  | fail (e : ε)

def next (c : Conn σ β ε) : Ev β ε → Option (Conn σ β ε)
  | .arrive bs => some { c with avail := c.avail ++ bs }
  | .transfer k =>
    match R.want c.state with
    | none => none
    | some n =>
      if 0 < k ∧ k ≤ c.avail.length ∧ c.got.length + k ≤ n then
        some { c with got := c.got ++ c.avail.take k, avail := c.avail.drop k, taken := c.taken ++ c.avail.take k }
      else none
  | .complete =>
    match R.want c.state with
    | none => none
    | some n => if c.got.length = n then some { c with state := R.feed c.state c.got, got := [] } else none
  | .fail e =>
    match R.want c.state with
    | none => none
    | some n => if c.got.length < n then some { c with state := R.fail c.state e, failed := some e } else none

/-- What a step can do. -/
theorem next_cases {c c' : Conn σ β ε} {e : Ev β ε} (h : next R c e = some c') :
    (∃ bs, e = .arrive bs ∧ c' = { c with avail := c.avail ++ bs }) ∨
      (∃ k n, e = .transfer k ∧ R.want c.state = some n ∧ 0 < k ∧ k ≤ c.avail.length ∧ c.got.length + k ≤ n ∧
        c' = { c with got := c.got ++ c.avail.take k, avail := c.avail.drop k, taken := c.taken ++ c.avail.take k }) ∨
      (e = .complete ∧ R.want c.state = some c.got.length ∧ c' = { c with state := R.feed c.state c.got, got := [] }) ∨
      ∃ x n, e = .fail x ∧ R.want c.state = some n ∧ c.got.length < n ∧
        c' = { c with state := R.fail c.state x, failed := some x } := by
  cases e with
  | arrive bs => exact .inl ⟨bs, rfl, by simpa [next] using h.symm⟩
  | transfer k =>
    cases hw : R.want c.state with
    | none => simp [next, hw] at h
    | some n =>
      simp only [next, hw, Option.ite_none_right_eq_some, Option.some.injEq] at h
      obtain ⟨⟨h0, h1, h2⟩, rfl⟩ := h
      exact .inr (.inl ⟨k, n, rfl, rfl, h0, h1, h2, rfl⟩)
  | complete =>
    cases hw : R.want c.state with
    | none => simp [next, hw] at h
    | some n =>
      simp only [next, hw, Option.ite_none_right_eq_some, Option.some.injEq] at h
      obtain ⟨rfl, rfl⟩ := h
      exact .inr (.inr (.inl ⟨rfl, rfl, rfl⟩))
  | fail x =>
    cases hw : R.want c.state with
    | none => simp [next, hw] at h
    | some n =>
      simp only [next, hw, Option.ite_none_right_eq_some, Option.some.injEq] at h
      obtain ⟨h0, rfl⟩ := h
      exact .inr (.inr (.inr ⟨x, n, rfl, rfl, h0, rfl⟩))

/-- The program against `drain` on what it has taken. -/
structure Inv (s₀ : σ) (c : Conn σ β ε) : Prop where
  got_le : c.failed = none → ∀ n, R.want c.state = some n → c.got.length ≤ n
  got_nil : c.failed = none → R.want c.state = none → c.got = []
  live : c.failed = none → drain R s₀ c.taken = drain R c.state c.got
  dead : ∀ e, c.failed = some e → c.state = R.fail (drain R s₀ c.taken).1 e

theorem inv_init (s₀ : σ) : Inv R s₀ (Conn.init s₀ : Conn σ β ε) :=
  ⟨by simp [Conn.init], by simp [Conn.init], by simp [Conn.init], by simp [Conn.init]⟩

theorem inv_next {s₀ : σ} {c c' : Conn σ β ε} {e : Ev β ε} (hi : Inv R s₀ c) (h : next R c e = some c') :
    Inv R s₀ c' := by
  have hlive {n : Nat} (hw : R.want c.state = some n) : c.failed = none := by
    cases hf : c.failed with
    | none => rfl
    | some e =>
      have := hi.dead e hf
      rw [this, R.want_fail] at hw
      cases hw
  rcases next_cases R h with ⟨bs, -, rfl⟩ | ⟨k, n, -, hw, h0, hk, hn, rfl⟩ | ⟨-, hw, rfl⟩ | ⟨x, n, -, hw, hn, rfl⟩
  · exact ⟨hi.got_le, hi.got_nil, hi.live, hi.dead⟩
  · have hf := hlive hw
    refine ⟨?_, ?_, ?_, ?_⟩
    · intro _ m hm
      rw [hw] at hm
      cases hm
      simp
      omega
    · intro _ hm
      rw [hw] at hm
      cases hm
    · intro _
      rw [drain_append, hi.live hf, ← drain_append]
    · intro e he
      rw [hf] at he
      cases he
  · have hf := hlive hw
    refine ⟨fun _ m _ => by simp, fun _ _ => rfl, ?_, ?_⟩
    · intro _
      rw [hi.live hf, drain_read R hw (Nat.le_refl _), List.take_length, List.drop_length]
    · intro e he
      rw [hf] at he
      cases he
  · have hf := hlive hw
    refine ⟨nofun, nofun, nofun, ?_⟩
    intro e he
    cases he
    rw [hi.live hf, drain_short R hw hn]

theorem conn_inv {s₀ : σ} {c : Conn σ β ε} (h : Machine.Run (next R) Machine.any (Conn.init s₀) c) : Inv R s₀ c :=
  Machine.run_invariant (Inv R s₀) (inv_init R s₀) (fun _ _ _ hi _ => inv_next R hi) h

/-- After its last read the program is not called again. -/
theorem run_stopped {c c' : Conn σ β ε} (hw : R.want c.state = none) (h : Machine.Run (next R) Machine.any c c') :
    c'.state = c.state := by
  refine Machine.run_invariant (fun x => x.state = c.state) rfl ?_ h
  intro a e b ha _ hn
  rcases next_cases R hn with ⟨bs, -, rfl⟩ | ⟨k, n, -, hk, -⟩ | ⟨-, hk, -⟩ | ⟨x, n, -, hk, -⟩
  · exact ha
  all_goals
    rw [ha, hw] at hk
    cases hk

/-! ## Nothing left to do -/

/-- Neither the outstanding read nor its completion can go on with what has arrived. -/
def Quiescent (c : Conn σ β ε) : Prop := (∀ k, next R c (.transfer k) = none) ∧ next R c .complete = none

theorem quiescent_want {c : Conn σ β ε} (hq : Quiescent R c) {n : Nat} (hw : R.want c.state = some n)
    (hg : c.got.length ≤ n) : c.got.length < n ∧ c.avail = [] := by
  have hc := hq.2
  simp only [next, hw] at hc
  have hlt : c.got.length < n := by
    rcases Nat.lt_or_eq_of_le hg with h | h
    · exact h
    · simp [h] at hc
  refine ⟨hlt, ?_⟩
  have ht := hq.1 1
  simp only [next, hw] at ht
  by_contra hne
  have hpos : 0 < c.avail.length := List.length_pos_of_ne_nil hne
  rw [if_pos ⟨by omega, by omega, by omega⟩] at ht
  cases ht

/-- A connection without a read error that has nothing left to do is where `drain` leaves the
    program on everything that arrived. -/
theorem quiescent_drain {s₀ : σ} {c : Conn σ β ε} (hi : Inv R s₀ c) (hf : c.failed = none) (hq : Quiescent R c) :
    drain R s₀ c.arrived = (c.state, c.got ++ c.avail) := by
  rw [Conn.arrived, drain_append, hi.live hf, ← drain_append]
  cases hw : R.want c.state with
  | none => exact drain_stopped R hw _
  | some n =>
    obtain ⟨hlt, ha⟩ := quiescent_want R hq hw (hi.got_le hf n hw)
    exact drain_short R hw (by simpa [ha] using hlt)

/-- The connection has carried `stream` without a read error, and has nothing left to do. -/
structure Settled (s₀ : σ) (stream : List β) (c : Conn σ β ε) : Prop where
  run : Machine.Run (next R) Machine.any (Conn.init s₀) c
  arrived : c.arrived = stream
  failed : c.failed = none
  quiescent : Quiescent R c

theorem Settled.drain_eq {s₀ : σ} {stream : List β} {c : Conn σ β ε} (h : Settled R s₀ stream c) :
    drain R s₀ stream = (c.state, c.got ++ c.avail) := by
  rw [← h.arrived]
  exact quiescent_drain R (conn_inv R h.run) h.failed h.quiescent

/-- The steps of the program itself: transfers and completions. -/
def Own (e : Ev β ε) : Prop := (∃ k, e = .transfer k) ∨ e = .complete

def measure (c : Conn σ β ε) : Nat := 4 * c.avail.length + 2 * c.got.length + rank R c.state

/-- A transfer and a completion use up the connection. -/
theorem measure_lt {c c' : Conn σ β ε} {e : Ev β ε} (he : Own e)
    (h : next R c e = some c') : measure R c' < measure R c := by
  rcases next_cases R h with ⟨bs, rfl, -⟩ | ⟨k, n, -, hw, h0, hk, hn, rfl⟩ | ⟨-, hw, rfl⟩ | ⟨x, n, rfl, -⟩
  · simp [Own] at he
  · simp [measure]
    omega
  · simp only [measure, List.length_nil]
    by_cases h0 : c.got = []
    · rw [h0] at hw ⊢
      have := rank_feed R hw
      simpa using this
    · have := rank_le R (R.feed c.state c.got)
      have := List.length_pos_of_ne_nil h0
      omega
  · simp [Own] at he

theorem own_steps_le {c c' : Conn σ β ε} {es : List (Ev β ε)} (hes : ∀ e ∈ es, Own e)
    (h : Machine.exec (next R) c es = some c') : es.length ≤ measure R c := by
  induction es generalizing c with
  | nil => exact Nat.zero_le _
  | cons e es ih =>
    obtain ⟨d, hd, h⟩ := Option.bind_eq_some_iff.mp h
    have := measure_lt R (hes e (by simp)) hd
    have := ih (fun e he => hes e (by simp [he])) h
    simp only [List.length_cons]
    omega

theorem exists_quiescent (c : Conn σ β ε) :
    ∃ c', Machine.Run (next R) (fun _ => Own) c c' ∧ Quiescent R c' := by
  induction hm : measure R c using Nat.strongRecOn generalizing c with
  | _ m ih =>
    by_cases hq : Quiescent R c
    · exact ⟨c, Machine.Run.refl, hq⟩
    · have : ∃ e, Own e ∧ ∃ c', next R c e = some c' := by
        simp only [Quiescent, not_and_or, not_forall] at hq
        rcases hq with ⟨k, hk⟩ | hk
        · exact ⟨_, .inl ⟨k, rfl⟩, Option.ne_none_iff_exists'.mp hk⟩
        · exact ⟨_, .inr rfl, Option.ne_none_iff_exists'.mp hk⟩
      obtain ⟨e, he, c', hc'⟩ := this
      obtain ⟨c'', hr, hq'⟩ := ih _ (hm ▸ measure_lt R he hc') c' rfl
      exact ⟨c'', Machine.Run.trans (Machine.Run.snoc Machine.Run.refl he hc') hr, hq'⟩

theorem own_keeps {c c' : Conn σ β ε} (h : Machine.Run (next R) (fun _ => Own) c c') :
    c'.arrived = c.arrived ∧ c'.failed = c.failed := by
  refine Machine.run_invariant (fun x => x.arrived = c.arrived ∧ x.failed = c.failed) ⟨rfl, rfl⟩
    ?_ h
  intro a e b ha he hn
  rcases next_cases R hn with ⟨bs, rfl, -⟩ | ⟨k, n, -, -, -, -, -, rfl⟩ | ⟨-, -, rfl⟩ | ⟨x, n, rfl, -⟩
  · simp [Own] at he
  · simpa [Conn.arrived] using ha
  · exact ha
  · simp [Own] at he

/-- Every stream can be carried to its end. -/
theorem exists_settled (s₀ : σ) (stream : List β) : ∃ c : Conn σ β ε, Settled R s₀ stream c := by
  let c₀ : Conn σ β ε := ⟨s₀, [], stream, [], none⟩
  have h0 : Machine.Run (next R) Machine.any (Conn.init s₀) c₀ :=
    Machine.Run.refl.snoc (e := Ev.arrive stream) trivial rfl
  obtain ⟨c, hr, hq⟩ := exists_quiescent R c₀
  obtain ⟨ha, hf⟩ := own_keeps R hr
  exact ⟨c, h0.trans (hr.mono fun _ _ _ => trivial), ha.trans rfl, hf, hq⟩

end CryptoChat.Lib.ExactRead
