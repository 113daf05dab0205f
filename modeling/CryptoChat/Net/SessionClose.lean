/-
  CryptoChat.Net.SessionClose — `close` against the read loop of a server session
  (`PlainSession` and `SecureSession`).

  Handlers of a session run one at a time on its I/O thread; `close` may be called there,
  by a failed write, or on another thread at any moment, also between two steps of a
  handler. Closing the socket aborts what is outstanding; a completion that is queued
  with success stays, and its handler does not look at `mIsClosed`. A read started on a
  closed socket fails, unless it is of no bytes.

  Proved: a closed session passes on another message, in some run, exactly if the body
  handler is at its call of the message callback, or the completion of a body read is
  queued with a payload that decodes; where `close` is called only in other states nothing
  is passed on after it (`silent_once_closed`). The code does not keep to that
  (`closed_passes_on`).
-/

import CryptoChat.Net.FrameReader
import CryptoChat.Net.ServerController

namespace CryptoChat.Net.SessionClose

open CryptoChat.Lib ReadLoop

/-! ## The machine -/

/-- Where a session is between the steps of its handlers. -/
inductive Pos where
  /-- Before `start`. -/
  | created
  /-- The `async_handshake` is outstanding, or its completion is queued. -/
  | handshaking
  | shaken (ec : Option String)
  /-- The read is outstanding, or its completion is queued. -/
  | reading
  | filled (bytes : Bytes)
  | failed (e : String)
  /-- The body handler is at its call of the message callback, or back from it. -/
  | calling (m : Message)
  | called (r : Except Exn Unit)
  | stopped

structure St where
  loop : ReadLoop
  pos : Pos
  /-- The calls of `close` posted by failed writes. -/
  closing : Nat
  /-- The messages passed to the message callback of a closed session. -/
  late : List Message

def init : St := ⟨.start, .created, 0, []⟩

inductive Ev where
  | start
  /-- What is outstanding completes. -/
  | handshake (ec : Option String)
  | read (bytes : Bytes)
  | readError (e : String)
  /-- The queued handler runs, up to its call of the message callback; the call; the rest. -/
  | run
  | call
  | finish
  /-- The handler of a failed write, and the `close` it posts. -/
  | writeFails (e : String)
  | runClose
  /-- `close` is called from elsewhere. -/
  | close

/-- The bound on the declared length. -/
def limit : ServerMode → Option Nat
  | .plain => some PlainSession.maxPayload
  | .secure => none

def aborted : String := "Operation canceled"

def badDescriptor : String := "Bad file descriptor"

/-- Closing the socket aborts what is outstanding, and nothing else. -/
def abort : Pos → Pos
  | .handshaking => .shaken (some aborted)
  | .reading => .failed aborted
  | pos => pos

def close (s : St) : St :=
  if s.loop.mIsClosed then s else { s with loop := ReadLoop.close s.loop, pos := abort s.pos }

/-- Where the read that a handler started, if any, leaves the session. -/
def resume (loop : ReadLoop) (s : St) : St :=
  { s with
    loop := loop
    pos :=
      match loop.pending with
      | none => .stopped
      | some (.body 0) => .filled []
      | some _ => if loop.mIsClosed then .failed badDescriptor else .reading }

/-- Whether no handler is in the middle of its run. -/
def atRest : Pos → Bool
  | .calling _ | .called _ => false
  | _ => true

variable (text : JsonText) (cb : Callbacks)

/-- `onBodyRead` without an error up to the call of the message callback. -/
def decodeBody (s : ReadLoop) : ReadLoop × Option Message :=
  match cb.mMessageCallback with
  | none => (readHeader s, none)
  | some _ =>
    match s.decodeBuffer text with
    | .error e => (ReadLoop.close (report cb e.what s), none)
    | .ok m => (s, some m)

/-- `onBodyRead` from the return of the message callback. -/
def afterCall (r : Except Exn Unit) (s : ReadLoop) : ReadLoop :=
  match r with
  | .error e => ReadLoop.close (report cb e.what s)
  | .ok () => readHeader s

/-- The read loop's handler is made of these steps. -/
theorem onBodyRead_eq (s : ReadLoop) : ReadLoop.onBodyRead text cb id none s =
    match decodeBody text cb s, cb.mMessageCallback with
    | (s, some m), some f => afterCall cb (callback f m s).2 (callback f m s).1
    | (s, _), _ => s := by
  unfold ReadLoop.onBodyRead decodeBody afterCall
  cases cb.mMessageCallback with
  | none => rfl
  | some f =>
    cases hd : s.decodeBuffer text with
    | error e => rfl
    | ok m =>
      dsimp only
      rcases hc : callback f m s with ⟨s', e | u⟩ <;> rfl

variable (mode : ServerMode)

/-- The queued handler. -/
def runHandler (s : St) : Option St :=
  match s.pos with
  | .shaken none => some (resume (readHeader s.loop) s)
  | .shaken (some e) => some (resume (ReadLoop.close (report cb e s.loop)) s)
  | .failed e => some (resume (complete (onHeaderRead cb (limit mode)) (onBodyRead text cb id) (some e) s.loop) s)
  | .filled bytes =>
    let loop := { fill bytes s.loop with pending := none }
    match s.loop.pending with
    | some .header => some (resume (onHeaderRead cb (limit mode) none loop) s)
    | some (.body _) =>
      match decodeBody text cb loop with
      | (loop, none) => some (resume loop s)
      | (loop, some m) => some { s with loop := loop, pos := .calling m }
    | none => none
  | _ => none

def next (s : St) : Ev → Option St
  | .start =>
    match s.pos, mode with
    | .created, .plain => some (resume (readHeader s.loop) s)
    | .created, .secure => some { s with
        pos := if s.loop.mIsClosed then .shaken (some badDescriptor) else .handshaking }
    | _, _ => none
  | .handshake ec =>
    match s.pos with
    | .handshaking => some { s with pos := .shaken ec }
    | _ => none
  | .read bytes =>
    match s.pos with
    | .reading => if want s.loop = some bytes.length then some { s with pos := .filled bytes } else none
    | _ => none
  | .readError e =>
    match s.pos with
    | .reading => some { s with pos := .failed e }
    | _ => none
  | .run => runHandler text cb mode s
  | .call =>
    match s.pos, cb.mMessageCallback with
    | .calling m, some f =>
      let r := callback f m s.loop
      some { s with loop := r.1, pos := .called r.2, late := if s.loop.mIsClosed then s.late ++ [m] else s.late }
    | _, _ => none
  | .finish =>
    match s.pos with
    | .called r => some (resume (afterCall cb r s.loop) s)
    | _ => none
  | .writeFails e =>
    if atRest s.pos then
      let s := { s with loop := report cb e s.loop }
      some (match mode with | .plain => { s with closing := s.closing + 1 } | .secure => close s)
    else none
  | .runClose => if atRest s.pos ∧ s.closing ≠ 0 then some (close { s with closing := s.closing - 1 }) else none
  | .close => some (close s)

/-! ## What is due -/

/-- The message that the handler which is queued or running is going to pass on. -/
def due (s : St) : Option Message :=
  match s.pos, s.loop.pending with
  | .calling m, _ => some m
  | .filled bytes, some (.body _) =>
    if cb.mMessageCallback.isSome then ((fill bytes s.loop).decodeBuffer text).toOption else none
  | _, _ => none

/-- The events in which `close` is called other than by a handler of the read loop. -/
def Closes (mode : ServerMode) : Ev → Prop
  | .close | .runClose => True
  | .writeFails _ => mode = .secure
  | _ => False

/-- A session is not closed while a message is due. -/
def Calm (s : St) (e : Ev) : Prop := Closes mode e → s.loop.mIsClosed = false → due text cb s = none

/-! ## Handlers that pass nothing on -/

variable {text cb mode} {s s' : St}

/-- From `s` to `s'` nothing is passed on, and what was closed stays so. -/
structure Silent (s s' : ReadLoop) : Prop where
  invoked : s'.invoked = s.invoked
  closed : s.mIsClosed = true → s'.mIsClosed = true

theorem silent_close (what : String) (s : ReadLoop) : Silent s (ReadLoop.close (report cb what s)) := by
  unfold ReadLoop.close report
  constructor <;> split <;> split <;> simp [*]

theorem silent_onHeaderRead (ec : Option String) (s : ReadLoop) : Silent s (onHeaderRead cb (limit mode) ec s) := by
  unfold onHeaderRead
  cases ec with
  | some e => exact silent_close e s
  | none =>
    dsimp only
    split
    · exact silent_close _ s
    · exact ⟨rfl, id⟩

theorem silent_decodeBody (s : ReadLoop) : Silent s (decodeBody text cb s).1 := by
  unfold decodeBody
  split
  · exact ⟨rfl, id⟩
  · split
    · exact silent_close _ s
    · exact ⟨rfl, id⟩

theorem silent_afterCall (r : Except Exn Unit) (s : ReadLoop) : Silent s (afterCall cb r s) := by
  cases r with
  | error e => exact silent_close _ s
  | ok _ => exact ⟨rfl, id⟩

theorem silent_fill (bytes : Bytes) (s : ReadLoop) : Silent s { fill bytes s with pending := none } := by
  unfold fill
  split <;> exact ⟨rfl, id⟩

theorem silent_complete (e : String) (s : ReadLoop) :
    Silent s (complete (onHeaderRead cb (limit mode)) (onBodyRead text cb id) (some e) s) := by
  unfold complete
  split
  · exact ⟨rfl, id⟩
  · obtain ⟨hi, hc⟩ := @silent_onHeaderRead cb mode (some e) { s with pending := none }
    exact ⟨hi, hc⟩
  · obtain ⟨hi, hc⟩ := @silent_close cb e { s with pending := none }
    exact ⟨hi, hc⟩

theorem Silent.trans {a b c : ReadLoop} (h : Silent a b) (h' : Silent b c) : Silent a c :=
  ⟨h'.invoked.trans h.invoked, h'.closed ∘ h.closed⟩

/-- A handler that passes on a message found it in the buffer, and has done nothing else. -/
theorem decodeBody_some {loop loop' : ReadLoop} {m : Message} (h : decodeBody text cb loop = (loop', some m)) :
    loop' = loop ∧ cb.mMessageCallback.isSome ∧ loop.decodeBuffer text = .ok m := by
  unfold decodeBody at h
  split at h
  · cases h
  · rename_i hf
    split at h
    · cases h
    · rename_i hd
      cases h
      exact ⟨rfl, by simp [hf], hd⟩

/-- An empty body never decodes. -/
theorem decodeBuffer_empty {loop : ReadLoop} (h : loop.pending = some (.body 0)) :
    ((fill [] loop).decodeBuffer text).toOption = none := by
  have hd : ((fill [] loop).mBuffer.drop kHeaderSize) = [] := by simp [fill, h]
  simp only [decodeBuffer, hd, Message.decode, if_true]
  rfl

theorem due_resume (loop : ReadLoop) (s : St) : due text cb (resume loop s) = none := by
  unfold resume due
  cases hp : loop.pending with
  | none => rfl
  | some p =>
    rcases p with - | (- | n)
    · cases loop.mIsClosed <;> rfl
    · simp only [decodeBuffer_empty hp, ite_self]
    · cases loop.mIsClosed <;> rfl

/-! ## Closed sessions -/

/-- Nothing is outstanding that could still succeed. -/
def Settled : Pos → Prop
  | .handshaking | .reading => False
  | _ => True

/-- A closed session with nothing due. -/
structure Dead (text : JsonText) (cb : Callbacks) (s : St) : Prop where
  closed : s.loop.mIsClosed = true
  settled : Settled s.pos
  due : due text cb s = none

theorem settled_resume {loop : ReadLoop} (h : loop.mIsClosed = true) : Settled (resume loop s).pos := by
  unfold resume Settled
  rcases loop.pending with - | (- | (- | n)) <;> simp [h]

theorem dead_resume {loop : ReadLoop} (h : loop.mIsClosed = true) : Dead text cb (resume loop s) :=
  ⟨h, settled_resume h, due_resume loop s⟩

theorem settled_close (h : s.loop.mIsClosed = true → Settled s.pos) : Settled (close s).pos := by
  unfold close
  split
  · exact h ‹_›
  · cases s.pos <;> trivial

theorem closed_close (s : St) : (close s).loop.mIsClosed = true := by
  unfold close
  split
  · assumption
  · simp [ReadLoop.close, *]

/-- Closing leaves the buffer. -/
theorem decodeBuffer_close (bytes : Bytes) (loop : ReadLoop) :
    (fill bytes (ReadLoop.close loop)).decodeBuffer text = (fill bytes loop).decodeBuffer text := by
  have hbuffer : (fill bytes (ReadLoop.close loop)).mBuffer = (fill bytes loop).mBuffer := by
    unfold ReadLoop.close
    split
    · rfl
    · rcases hp : loop.pending with - | (- | n) <;> simp [fill, hp]
  simp only [decodeBuffer, hbuffer]

theorem due_close (s : St) : due text cb (close s) = due text cb s := by
  by_cases hc : s.loop.mIsClosed = true
  · rw [close, if_pos hc]
  · rw [close, if_neg hc]
    unfold due
    simp only [pending_close, decodeBuffer_close]
    cases s.pos <;> rfl

theorem dead_close (h : s.loop.mIsClosed = true → Settled s.pos) (hd : due text cb s = none) : Dead text cb (close s) :=
  ⟨closed_close s, settled_close h, (due_close s).trans hd⟩

/-- What holds of every session, however it is closed. -/
structure Inv (cb : Callbacks) (s : St) : Prop where
  settled : s.loop.mIsClosed = true → Settled s.pos
  calling : ∀ m, s.pos = .calling m → cb.mMessageCallback.isSome

theorem inv_resume (loop : ReadLoop) (s : St) : Inv cb (resume loop s) := by
  refine ⟨settled_resume, ?_⟩
  intro m h
  unfold resume at h
  rcases hp : loop.pending with - | (- | (- | n)) <;> simp only [hp] at h <;> first | cases h | (split at h <;> cases h)

theorem inv_close (h : Inv cb s) : Inv cb (close s) := by
  refine ⟨fun _ => settled_close h.settled, ?_⟩
  intro m hm
  unfold close at hm
  split at hm
  · exact h.calling m hm
  · refine h.calling m ?_
    cases hp : s.pos <;> simp_all [abort]

/-- What a queued handler does: it goes on from a loop it has not passed a message on in, or comes
    to the call of the message callback, with nothing changed but the buffer. -/
theorem runHandler_cases (h : runHandler text cb mode s = some s') :
    (∃ loop, Silent s.loop loop ∧ s' = resume loop s) ∨
      ∃ bytes n m, s.pos = .filled bytes ∧ s.loop.pending = some (.body n) ∧ cb.mMessageCallback.isSome ∧
        (fill bytes s.loop).decodeBuffer text = .ok m ∧
          s' = { s with loop := { fill bytes s.loop with pending := none }, pos := .calling m } := by
  unfold runHandler at h
  split at h
  · cases h
    exact .inl ⟨readHeader s.loop, ⟨rfl, id⟩, rfl⟩
  · cases h
    exact .inl ⟨_, silent_close _ _, rfl⟩
  · cases h
    exact .inl ⟨_, silent_complete _ _, rfl⟩
  · rename_i bytes hpos
    dsimp only at h
    split at h
    · cases h
      exact .inl ⟨_, (silent_fill bytes s.loop).trans (silent_onHeaderRead _ _), rfl⟩
    · rename_i n hpending
      split at h
      · rename_i heq
        cases h
        have hs := @silent_decodeBody text cb { fill bytes s.loop with pending := none }
        rw [heq] at hs
        exact .inl ⟨_, (silent_fill bytes s.loop).trans hs, rfl⟩
      · rename_i heq
        cases h
        obtain ⟨rfl, hf, hd⟩ := decodeBody_some heq
        exact .inr ⟨bytes, n, _, hpos, hpending, hf, hd, rfl⟩
    · cases h
  · cases h

/-- What the errors reported and the closes posted have no part in. -/
def noting (errors : List String) (closing : Nat) (s : St) : St :=
  { s with loop := { s.loop with errors := errors }, closing := closing }

theorem report_noting (what : String) (closing : Nat) (s : St) :
    ∃ errors, { s with loop := report cb what s.loop, closing := closing } = noting errors closing s := by
  unfold report
  split <;> exact ⟨_, rfl⟩

theorem due_noting (errors : List String) (closing : Nat) : due text cb (noting errors closing s) = due text cb s := by
  unfold due noting
  cases s.pos with
  | filled bytes => rcases hp : s.loop.pending with - | (- | n) <;> simp [fill, hp, decodeBuffer]
  | _ => rfl

/-- All that a step can do. -/
theorem next_cases {e : Ev} (h : next text cb mode s e = some s') :
    (∃ loop, Silent s.loop loop ∧ s' = resume loop s) ∨
    (s.pos = .created ∧
      s' = { s with pos := if s.loop.mIsClosed then .shaken (some badDescriptor) else .handshaking }) ∨
    (∃ pos, ¬ Settled s.pos ∧ Settled pos ∧ (∀ m, pos ≠ .calling m) ∧ s' = { s with pos := pos }) ∨
    (∃ bytes n m, s.pos = .filled bytes ∧ s.loop.pending = some (.body n) ∧ cb.mMessageCallback.isSome ∧
      (fill bytes s.loop).decodeBuffer text = .ok m ∧
        s' = { s with loop := { fill bytes s.loop with pending := none }, pos := .calling m }) ∨
    (∃ m f, s.pos = .calling m ∧ cb.mMessageCallback = some f ∧ s' = { s with
      loop := (callback f m s.loop).1
      pos := .called (callback f m s.loop).2
      late := if s.loop.mIsClosed then s.late ++ [m] else s.late }) ∨
    ∃ errors closing, s' = noting errors closing s ∨ Closes mode e ∧ s' = close (noting errors closing s) := by
  cases e with
  | start =>
    simp only [next] at h
    split at h
    · cases h
      exact .inl ⟨readHeader s.loop, ⟨rfl, id⟩, rfl⟩
    · cases h
      exact .inr (.inl ⟨‹_›, rfl⟩)
    · cases h
  | handshake ec =>
    simp only [next] at h
    split at h
    · rename_i hp
      cases h
      exact .inr (.inr (.inl ⟨.shaken ec, by simp [hp, Settled], trivial, nofun, rfl⟩))
    · cases h
  | read bytes =>
    simp only [next] at h
    split at h
    · rename_i hp
      simp only [Option.ite_none_right_eq_some, Option.some.injEq] at h
      obtain ⟨-, rfl⟩ := h
      exact .inr (.inr (.inl ⟨.filled bytes, by simp [hp, Settled], trivial, nofun, rfl⟩))
    · cases h
  | readError x =>
    simp only [next] at h
    split at h
    · rename_i hp
      cases h
      exact .inr (.inr (.inl ⟨.failed x, by simp [hp, Settled], trivial, nofun, rfl⟩))
    · cases h
  | run =>
    rcases runHandler_cases h with hl | hb
    · exact .inl hl
    · exact .inr (.inr (.inr (.inl hb)))
  | call =>
    simp only [next] at h
    split at h
    · rename_i m f hp hf
      cases h
      exact .inr (.inr (.inr (.inr (.inl ⟨m, f, hp, hf, rfl⟩))))
    · cases h
  | finish =>
    simp only [next] at h
    split at h
    · rename_i r hp
      cases h
      exact .inl ⟨_, silent_afterCall r s.loop, rfl⟩
    · cases h
  | writeFails x =>
    simp only [next, Option.ite_none_right_eq_some, Option.some.injEq] at h
    obtain ⟨-, rfl⟩ := h
    cases mode with
    | plain =>
      obtain ⟨errors, he⟩ := @report_noting cb x (s.closing + 1) s
      exact .inr (.inr (.inr (.inr (.inr ⟨errors, _, .inl he⟩))))
    | secure =>
      obtain ⟨errors, he⟩ := @report_noting cb x s.closing s
      exact .inr (.inr (.inr (.inr (.inr ⟨errors, _, .inr ⟨rfl, congrArg close he⟩⟩))))
  | runClose =>
    simp only [next, Option.ite_none_right_eq_some, Option.some.injEq] at h
    obtain ⟨-, rfl⟩ := h
    exact .inr (.inr (.inr (.inr (.inr ⟨s.loop.errors, s.closing - 1, .inr ⟨trivial, rfl⟩⟩))))
  | close =>
    cases h
    exact .inr (.inr (.inr (.inr (.inr ⟨s.loop.errors, s.closing, .inr ⟨trivial, rfl⟩⟩))))

theorem inv_next {e : Ev} (hi : Inv cb s) (h : next text cb mode s e = some s') : Inv cb s' := by
  have hnoting (errors : List String) (closing : Nat) : Inv cb (noting errors closing s) := ⟨hi.settled, hi.calling⟩
  rcases next_cases h with ⟨loop, -, rfl⟩ | ⟨-, rfl⟩ | ⟨pos, -, hs, hm, rfl⟩ | ⟨bytes, n, m, -, -, hf, -, rfl⟩ |
    ⟨m, f, -, hf, rfl⟩ | ⟨errors, closing, rfl | ⟨-, rfl⟩⟩
  · exact inv_resume loop s
  · refine ⟨?_, ?_⟩
    · intro hc
      simp [show s.loop.mIsClosed = true from hc, Settled]
    · intro m hm
      dsimp only at hm
      split at hm <;> cases hm
  · exact ⟨fun _ => hs, fun m h => absurd h (hm m)⟩
  · exact ⟨fun _ => trivial, fun _ _ => hf⟩
  · exact ⟨fun _ => trivial, nofun⟩
  · exact hnoting errors closing
  · exact inv_close (hnoting errors closing)

/-- The step lemma: a closed session with nothing due stays so, and passes nothing on. -/
theorem dead_next {e : Ev} (hd : Dead text cb s) (h : next text cb mode s e = some s') :
    Dead text cb s' ∧ s'.loop.invoked = s.loop.invoked ∧ s'.late = s.late := by
  have hnoting (errors : List String) (closing : Nat) : Dead text cb (noting errors closing s) :=
    ⟨hd.closed, hd.settled, (due_noting errors closing).trans hd.due⟩
  rcases next_cases h with ⟨loop, hl, rfl⟩ | ⟨hp, rfl⟩ | ⟨pos, hn, -⟩ | ⟨bytes, n, m, hp, hb, hf, hm, -⟩ |
    ⟨m, f, hp, -⟩ | ⟨errors, closing, rfl | ⟨-, rfl⟩⟩
  · exact ⟨dead_resume (hl.closed hd.closed), hl.invoked, rfl⟩
  · rw [if_pos hd.closed]
    exact ⟨⟨hd.closed, trivial, rfl⟩, rfl, rfl⟩
  · exact absurd hd.settled hn
  · have := hd.due
    simp [due, hp, hb, hf, hm, Except.toOption] at this
  · have := hd.due
    simp [due, hp] at this
  · exact ⟨hnoting errors closing, rfl, rfl⟩
  · rw [close, if_pos (show (noting errors closing s).loop.mIsClosed = true from hd.closed)]
    exact ⟨hnoting errors closing, rfl, rfl⟩

/-- Nothing was passed on by a closed session, and nothing will be. -/
structure Kept (text : JsonText) (cb : Callbacks) (s : St) : Prop where
  inv : Inv cb s
  late : s.late = []
  dead : s.loop.mIsClosed = true → Dead text cb s

theorem kept_next {e : Ev} (hk : Kept text cb s) (hcalm : Calm text cb mode s e) (h : next text cb mode s e = some s') :
    Kept text cb s' := by
  have hi := inv_next hk.inv h
  cases hc : s.loop.mIsClosed with
  | true =>
    obtain ⟨hd, -, hlate⟩ := dead_next (hk.dead hc) h
    exact ⟨hi, hlate.trans hk.late, fun _ => hd⟩
  | false =>
    rcases next_cases h with ⟨loop, -, rfl⟩ | ⟨-, rfl⟩ | ⟨pos, -, -, -, rfl⟩ | ⟨bytes, n, m, -, hb, -, -, rfl⟩ |
      ⟨m, f, -, -, rfl⟩ | ⟨errors, closing, rfl | ⟨hcl, rfl⟩⟩
    · exact ⟨hi, hk.late, dead_resume⟩
    · exact ⟨hi, hk.late, fun h => absurd (hc.symm.trans h) nofun⟩
    · exact ⟨hi, hk.late, fun h => absurd (hc.symm.trans h) nofun⟩
    · refine ⟨hi, hk.late, ?_⟩
      intro h
      simp only [fill, hb, hc] at h
      cases h
    · refine ⟨hi, by simp [hc, hk.late], ?_⟩
      intro h
      have hsame : (callback f m s.loop).1.mIsClosed = s.loop.mIsClosed := (callback_same (Prod.eta _)).2.1
      cases hc.symm.trans (hsame.symm.trans h)
    · exact ⟨hi, hk.late, fun h => absurd (hc.symm.trans h) nofun⟩
    · refine ⟨hi, ?_, fun _ => dead_close hk.inv.settled ?_⟩
      · rw [close, if_neg (show ¬ (noting errors closing s).loop.mIsClosed = true by simp [noting, hc])]
        exact hk.late
      · rw [due_noting]
        exact hcalm hcl hc

/-! ## Runs -/

theorem inv_init : Inv cb init := ⟨nofun, nofun⟩

theorem run_inv {ok : St → Ev → Prop} (h : Machine.Run (next text cb mode) ok init s) : Inv cb s :=
  Machine.run_invariant (Inv cb) inv_init (fun _ _ _ hi _ he => inv_next hi he) h

theorem run_kept (h : Machine.Run (next text cb mode) (Calm text cb mode) init s) : Kept text cb s :=
  Machine.run_invariant (Kept text cb) ⟨inv_init, rfl, nofun⟩ (fun _ _ _ hk hcalm he => kept_next hk hcalm he) h

theorem run_dead (hd : Dead text cb s) (h : Machine.Run (next text cb mode) Machine.any s s') :
    s'.loop.invoked = s.loop.invoked := by
  have hrun := Machine.run_invariant (fun t => Dead text cb t ∧ t.loop.invoked = s.loop.invoked) ⟨hd, rfl⟩
    (fun _ _ _ ha _ he => by
      obtain ⟨hd', hi, -⟩ := dead_next ha.1 he
      exact ⟨hd', hi.trans ha.2⟩) h
  exact hrun.2

theorem invoked_callback (f : MessageCallback) (m : Message) (loop : ReadLoop) :
    (callback f m loop).1.invoked = loop.invoked ++ [m] := by
  unfold callback
  split <;> rfl

/-- From the call on, the callback has the message. -/
theorem passes_on_calling (hi : Inv cb s) {m : Message} (hp : s.pos = .calling m) :
    ∃ s', Machine.Run (next text cb mode) Machine.any s s' ∧ s'.loop.invoked = s.loop.invoked ++ [m] := by
  obtain ⟨f, hf⟩ := Option.isSome_iff_exists.mp (hi.calling m hp)
  have hcall : next text cb mode s .call = some { s with
      loop := (callback f m s.loop).1
      pos := .called (callback f m s.loop).2
      late := if s.loop.mIsClosed then s.late ++ [m] else s.late } := by simp only [next, hp, hf]
  exact ⟨_, Machine.Run.refl.snoc trivial hcall, invoked_callback f m s.loop⟩

/-- What is due can be passed on, whether the session is closed or not. -/
theorem passes_on_due (hi : Inv cb s) {m : Message} (hd : due text cb s = some m) :
    ∃ s', Machine.Run (next text cb mode) Machine.any s s' ∧ s'.loop.invoked = s.loop.invoked ++ [m] := by
  unfold due at hd
  split at hd
  · rename_i hp
    cases hd
    exact passes_on_calling hi hp
  · rename_i bytes n hp hb
    simp only [Option.ite_none_right_eq_some] at hd
    obtain ⟨hf, hd⟩ := hd
    have hm : (fill bytes s.loop).decodeBuffer text = .ok m := by
      cases hr : (fill bytes s.loop).decodeBuffer text <;> simp_all [Except.toOption]
    obtain ⟨f, hf⟩ := Option.isSome_iff_exists.mp hf
    have hbody : decodeBody text cb { fill bytes s.loop with pending := none } =
        ({ fill bytes s.loop with pending := none }, some m) := by
      have hm' : ({ fill bytes s.loop with pending := none } : ReadLoop).decodeBuffer text = .ok m := hm
      simp only [decodeBody, hf, hm']
    have hrun : next text cb mode s .run =
        some { s with loop := { fill bytes s.loop with pending := none }, pos := .calling m } := by
      simp only [next, runHandler, hp, hb, hbody]
    have hfill := (silent_fill bytes s.loop).invoked
    obtain ⟨s', hr, hs'⟩ := @passes_on_calling text cb mode _ (inv_next hi hrun) _ rfl
    exact ⟨s', (Machine.Run.refl.snoc trivial hrun).trans hr, hs'.trans (by rw [hfill])⟩
  · cases hd

/-- In every run that closes the session only while no message is due, no message is passed on after
    the session was closed. A closed session passes on another message, in some run, exactly
    if one is due. -/
theorem silent_once_closed {s : St} :
    (Machine.Run (next text cb mode) (Calm text cb mode) init s → s.late = []) ∧
    (Machine.Run (next text cb mode) Machine.any init s → s.loop.mIsClosed = true →
      ((∀ t, Machine.Run (next text cb mode) Machine.any s t → t.loop.invoked = s.loop.invoked) ↔
        due text cb s = none)) := by
  refine ⟨fun h => (run_kept h).late, fun h hc => ⟨?_, fun hd t => run_dead ?_⟩⟩
  · intro hall
    have hi := run_inv h
    cases hd : due text cb s with
    | none => rfl
    | some m =>
      obtain ⟨t, ht, hm⟩ := @passes_on_due text cb mode _ hi _ hd
      have hne := (hall t ht).symm.trans hm
      simp at hne
  · exact ⟨hc, (run_inv h).settled hc, hd⟩

/-! ## A session closed by another thread -/

/-- The frame `{}` of a request: its header and its body. -/
def sampleHeader : Bytes := [0x00#8, 0x00#8, 0x00#8, 0x00#8, 0x02#8]

def sampleBody : Bytes := [0x7b#8, 0x7d#8]

/-- The session has its header, and the completion of the body read is queued. -/
def greeting (mode : ServerMode) : List Ev :=
  (match mode with | .plain => [.start] | .secure => [.start, .handshake none, .run]) ++
    [.read sampleHeader, .run, .read sampleBody]

/-- Closed while the body is outstanding. -/
theorem silent_once_closed_reading :
    ∃ s, Machine.Run (next sampleText sampleCallbacks .plain) (Calm sampleText sampleCallbacks .plain) init s ∧
      s.loop.mIsClosed = true ∧ s.late = [] ∧
        ∀ t, Machine.Run (next sampleText sampleCallbacks .plain) Machine.any s t → t.loop.invoked = [] := by
  have h0 : Machine.Run (next sampleText sampleCallbacks .plain) (Calm sampleText sampleCallbacks .plain) init init :=
    .refl
  have h1 := (h0.snoc (e := .start) nofun rfl).snoc (e := .read sampleHeader) nofun rfl
  have h2 := (h1.snoc (e := .run) nofun rfl).snoc (e := .close) (fun _ _ => rfl) rfl
  have hany := (h2.mono fun _ _ _ => trivial : Machine.Run _ Machine.any _ _)
  exact ⟨_, h2, rfl, silent_once_closed.1 h2, (silent_once_closed.2 hany rfl).mpr rfl⟩

/-- A session that passes on a message after it was closed. -/
def PassesOn (mode : ServerMode) : Prop :=
  ∃ s t, Machine.Run (next sampleText sampleCallbacks mode) Machine.any init s ∧ s.loop.mIsClosed = true ∧
    Machine.Run (next sampleText sampleCallbacks mode) Machine.any s t ∧ t.loop.invoked ≠ s.loop.invoked

theorem passesOn_of {mode : ServerMode} {m : Message}
    (h : ((Machine.exec (next sampleText sampleCallbacks mode) init (greeting mode ++ [.close])).map fun s =>
      (s.loop.mIsClosed, due sampleText sampleCallbacks s)) = some (true, some m)) : PassesOn mode := by
  obtain ⟨s, hs, hv⟩ := Option.map_eq_some_iff.mp h
  obtain ⟨hc, hd⟩ := Prod.mk.inj hv
  have hrun := Machine.run_of_exec _ hs
  obtain ⟨t, ht, hm⟩ := @passes_on_due _ _ mode _ (run_inv hrun) _ hd
  exact ⟨s, t, hrun, hc, ht, by simp [hm]⟩

/-- The completion of the body read is queued when another thread closes the session. -/
theorem closed_passes_on : PassesOn .plain ∧ PassesOn .secure :=
  ⟨passesOn_of (m := ⟨.request, .obj []⟩) rfl, passesOn_of (m := ⟨.request, .obj []⟩) rfl⟩

end CryptoChat.Net.SessionClose
