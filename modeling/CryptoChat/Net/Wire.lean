/-
  CryptoChat.Net.Wire — the server and its clients with the bytes between them: each
  connection has a pipe for the requests and one for what the server sends, with the read
  loop of the session (plain or secure) and that of the client at their ends.

  `abs` forgets the bytes: a request is taken when the session's loop hands it over, a
  message received when the client's does. Proved, for writes that are started in time and
  messages that pass the loops: a run over bytes is a run of `Chat` over whole messages,
  however the bytes are cut (`run_piped`).
-/

import CryptoChat.Net.ChatDrain
import CryptoChat.Net.Pipe

namespace CryptoChat.Net.Wire

open CryptoChat.Lib Message ServerAppContext Chat ReadLoop

/-! ## The read loops at the ends -/

variable (text : JsonText) (secure : Bool)

/-- The session's message callback throws where `onMessage` does. -/
def sessionCallbacks : Callbacks := ⟨some fun _ request => (ServerAppContext.read request).map fun _ => (), true⟩

def sessionReader : ExactRead.Reader ReadLoop Byte String :=
  if secure then (SecureSession.handlers text sessionCallbacks).reader
  else (PlainSession.handlers text sessionCallbacks).reader

/-- A client that throws out of `handleMessage` stops running (`ChatClient.handle`). -/
def clientCallbacks : Callbacks := ⟨some fun _ _ => .ok (), true⟩

def clientReader : ExactRead.Reader ReadLoop Byte String := (Client.handlers text clientCallbacks fun _ _ => .ok ()).reader

/-! ## The system -/

/-- A session and the client at the other end. -/
structure Link where
  uid : BitVec 32
  isOpen : Bool
  client : ChatClient
  connected : Bool
  requests : Pipe
  answers : Pipe
  said : List Line

structure World where
  store : Store Nat
  made : Nat
  links : Nat → Option Link
  posted : List Posted

def init : World := ⟨⟨.new, []⟩, 0, fun _ => none, []⟩

inductive Ev where
  | accept (onError : Bool) (username : String)
  | connected (k now : Nat)
  | say (k now : Nat) (line : Line)
  /-- A step of the pipe for the requests of `k`. -/
  | request (k now : Nat) (e : Pipe.Ev)
  /-- A step of the pipe for what is sent to `k`. -/
  | answer (k now : Nat) (e : Pipe.Ev)
  | close (k now : Nat)

def put (k : Nat) (l : Link) (w : World) : World := { w with links := Function.update w.links k (some l) }

/-- What a client does to itself and asks. -/
def acts (k : Nat) (l : Link) (r : ChatClient × List Message) (w : World) : World :=
  put k { l with client := r.1, requests := l.requests.write text r.2 } w

/-- The server runs, and writes what it sends to the sessions. -/
def run (p : ServerProg Nat Unit) (w : World) : World :=
  let store := (p.run exec ⟨w.store.mSessions, []⟩).1
  { w with
    store := ⟨store.mSessions, w.store.sent ++ store.sent⟩
    links := fun k => (w.links k).map fun l => { l with answers := l.answers.write text (inbox store.sent k) } }

/-- The message a pipe handed over by a step. -/
def handedOver (p p' : Pipe) : Option Message := p'.handed[p.handed.length]?

/-- The server handles a request. -/
def serve (k now : Nat) (uid : BitVec 32) (request : Message) (w : World) : World :=
  run text (onMessage now uid request k) { w with posted := w.posted ++ posts k request w.store.mSessions }

/-- The session is closed. -/
def shut (k now : Nat) (l : Link) (w : World) : World := run text (onClose now l.uid) (put k { l with isOpen := false } w)

/-- The steps of a read loop, which the client starts when it is connected. -/
def reads : Pipe.Ev → Bool
  | .transfer _ | .complete => true
  | _ => false

def next (w : World) : Ev → Option World
  | .accept onError username =>
    let added := w.store.mSessions.add w.made
    some (put w.made ⟨added.2, true, .start onError username, false, .init PlainSession.started, .init Client.started, []⟩
      { w with store := { w.store with mSessions := added.1 }, made := w.made + 1 })
  | .connected k now =>
    (w.links k).bind fun l =>
      if l.isOpen && !l.connected then some (acts text k { l with connected := true } (l.client.onConnect now) w) else none
  | .say k now line =>
    (w.links k).bind fun l =>
      if l.isOpen && l.connected && line.text != "" then
        some (acts text k { l with said := l.said ++ [line] } (l.client.say now line) w)
      else none
  | .request k now e =>
    (w.links k).bind fun l =>
      if l.isOpen then
        (l.requests.step text (sessionReader text secure) e).map fun requests =>
          let l' := { l with requests := requests }
          if requests.conn.state.mIsClosed then shut text k now l' w
          else
            match handedOver l.requests requests with
            | some request => serve text k now l.uid request (put k l' w)
            | none => put k l' w
      else none
  | .answer k now e =>
    (w.links k).bind fun l =>
      if l.isOpen && (!reads e || l.connected && l.client.mIsRunning) then
        (l.answers.step text (clientReader text) e).map fun answers =>
          let l' := { l with answers := answers }
          if answers.conn.state.mIsClosed then put k { l' with client := l.client.close } w
          else
            match handedOver l.answers answers with
            | some msg => acts text k l' (l.client.handle now msg) w
            | none => put k l' w
      else none
  | .close k now => (w.links k).bind fun l => if l.isOpen then some (shut text k now l w) else none

/-- The writes are started in time. -/
def Timely (w : World) : Ev → Prop
  | .request k _ e => ∀ l, w.links k = some l → l.requests.Timely e
  | .answer k _ e => ∀ l, w.links k = some l → l.answers.Timely e
  | _ => True

/-! ## What the bytes stand for -/

def connection (l : Link) : Connection :=
  ⟨l.uid, l.isOpen, l.client, l.connected, l.requests.out.written, l.requests.handed.length, l.answers.handed.length, l.said⟩

def abs (w : World) : St := ⟨w.store, w.made, fun k => (w.links k).map connection, w.posted⟩

/-- The bound on the length of a payload. -/
def bound : Option Nat := if secure then none else some PlainSession.maxPayload

/-- What was written on a connection passes its read loops, and the request ids do not come round. -/
structure LinkFits (l : Link) : Prop where
  requests : ∀ m ∈ l.requests.out.written, Framed (bound secure) text m
  answers : ∀ m ∈ l.answers.out.written, Framed none text m
  few : l.requests.out.written.length < 2 ^ 32

structure Fits (w : World) : Prop where
  made : w.made < 2 ^ 32
  links : ∀ k l, w.links k = some l → LinkFits text secure l

structure LinkInv (sent : List (Nat × Message)) (k : Nat) (l : Link) : Prop where
  requests : Pipe.Inv text (sessionReader text secure) PlainSession.started l.requests
  answers : Pipe.Inv text (clientReader text) Client.started l.answers
  sent : l.answers.out.written = inbox sent k

variable {text secure} {w w' : World} {k : Nat} {l : Link}

theorem abs_links (hl : w.links k = some l) : (abs w).connections k = some (connection l) := by
  simp [abs, hl]

theorem abs_put (k : Nat) (l : Link) (w : World) : abs (put k l w) = Chat.put k (connection l) (abs w) := by
  unfold abs put Chat.put
  congr 1
  funext j
  by_cases hj : j = k
  · subst hj
    simp
  · simp [Function.update_of_ne hj]

/-- What the server does, it does whatever it sent before. -/
def Appends (p : ServerProg Nat Unit) : Prop := ∀ s : Store Nat, (p.run exec s).1 =
  ⟨(p.run exec ⟨s.mSessions, []⟩).1.mSessions, s.sent ++ (p.run exec ⟨s.mSessions, []⟩).1.sent⟩

theorem appends_onMessage (now : Nat) (uid : BitVec 32) (request : Message) (k : Nat) :
    Appends (onMessage now uid request k) := by
  intro s
  rw [onMessage_read, onMessage_read]
  cases ServerAppContext.read request with
  | error e => simp
  | ok r =>
    obtain ⟨id, answer | call⟩ := r
    · simp
    · simp

theorem appends_onClose (now : Nat) (uid : BitVec 32) : Appends (onClose now uid) := by
  intro s
  rw [run_onClose, run_onClose]
  simp

theorem abs_run {p : ServerProg Nat Unit} (hp : Appends p) (w : World) :
    abs (run text p w) = { abs w with store := (p.run exec w.store).1 } := by
  rw [hp w.store]
  unfold abs run
  congr 1
  funext j
  rw [Option.map_map]
  rfl

theorem abs_acts (k : Nat) (l : Link) (r : ChatClient × List Message) (w : World) :
    abs (acts text k l r w) = Chat.acts k (connection l) r (abs w) :=
  abs_put k _ w

theorem abs_serve (k now : Nat) (uid : BitVec 32) (request : Message) (w : World) :
    abs (serve text k now uid request w) = { abs w with
      store := ((onMessage now uid request k).run exec w.store).1
      posted := w.posted ++ posts k request w.store.mSessions } :=
  abs_run (appends_onMessage now uid request k) _

theorem abs_shut (k now : Nat) (l : Link) (w : World) :
    abs (shut text k now l w) = Chat.put k { connection l with isOpen := false } { abs w with
      store := ((onClose now l.uid).run exec w.store).1 } := by
  rw [shut, abs_run (appends_onClose now l.uid), abs_put]
  rfl

/-! ## The pipes -/

theorem sessionReader_eq : sessionReader text secure = (handlers (bound secure) id text sessionCallbacks).reader := by
  unfold sessionReader bound
  cases secure
  · rfl
  · rfl

theorem sound_started : Sound PlainSession.started := sound_reading _ .header []

theorem frames_requests : Framing.Frames (sessionReader text secure) PlainSession.started (Message.encode text)
    ReadLoop.invoked (Passes (bound secure) text fun _ request => (ServerAppContext.read request).map fun _ => ()) := by
  rw [sessionReader_eq]
  exact frames_session rfl (resize kHeaderSize [])

theorem frames_answers : Framing.Frames (clientReader text) Client.started (Message.encode text) ReadLoop.invoked
    (Passes none text fun _ _ => .ok ()) :=
  frames_client rfl (resize kHeaderSize [])

theorem sound_sessionReader (s : ReadLoop) (bs : Bytes) (h : Sound s) : Sound ((sessionReader text secure).feed s bs) := by
  rw [sessionReader_eq]
  exact sound_feed _ _ text sessionCallbacks h bs

theorem sound_clientReader (s : ReadLoop) (bs : Bytes) (h : Sound s) : Sound ((clientReader text).feed s bs) :=
  sound_client_feed rfl h bs

theorem handsOne_sessionReader (s : ReadLoop) (bs : Bytes) : HandsOne s ((sessionReader text secure).feed s bs) := by
  rw [sessionReader_eq]
  exact handsOne_session s bs

/-- A loop that is reading is not closed. -/
theorem open_of_want {R : ExactRead.Reader ReadLoop Byte String} {s₀ : ReadLoop} {p : Pipe} (h : Pipe.Inv text R s₀ p)
    (hR : R.want = want) (hwant : R.want p.conn.state ≠ none) : p.conn.state.mIsClosed = false := by
  refine (h.sound.open ?_).1
  intro hnone
  rw [hR] at hwant
  exact hwant (by simp [want, hnone])

/-- What a step of a pipe hands over is the next of the messages written. -/
theorem handedOver_cases {R : ExactRead.Reader ReadLoop Byte String} {p p' : Pipe} {e : Pipe.Ev}
    (hone : ∀ s bs, HandsOne s (R.feed s bs)) (hstep : p.step text R e = some p') :
    handedOver p p' = none ∧ p'.handed = p.handed ∨
      ∃ m, e = .complete ∧ handedOver p p' = some m ∧ p'.handed = p.handed ++ [m] := by
  unfold handedOver
  rcases Pipe.step_hands hone hstep with h | ⟨he, m, h⟩
  · refine .inl ⟨?_, h⟩
    rw [h]
    exact List.getElem?_eq_none (Nat.le_refl _)
  · refine .inr ⟨m, he, ?_, h⟩
    rw [h]
    simp

/-! ## A step over bytes is a step over messages, or none -/

theorem put_self {s : St} {c : Connection} (hc : s.connections k = some c) : Chat.put k c s = s := by
  unfold Chat.put
  rw [← hc, Function.update_eq_self]

/-- The request a client makes can be read, so the session's callback returns. -/
theorem passes_requests (hchat : Chat.Inv (abs w)) (hl : w.links k = some l) (hfits : LinkFits text secure l) :
    ∀ m ∈ l.requests.out.written,
      Passes (bound secure) text (fun _ request => (ServerAppContext.read request).map fun _ => ()) m := by
  intro m hm
  obtain ⟨id, call, hread⟩ := (hchat.conn k _ (abs_links hl)).calls m hm
  refine ⟨hfits.requests m hm, fun past => ?_⟩
  simp only [hread]
  rfl

/-- One more message is handed over, and it is the next. -/
theorem next_of_handed {ms handed : List Message} {m : Message} (h : handed ++ [m] <+: ms) : ms[handed.length]? = some m := by
  obtain ⟨rest, rfl⟩ := h
  simp

theorem sim_request (hchat : Chat.Inv (abs w)) (hl : w.links k = some l) (hinv : LinkInv text secure w.store.sent k l)
    (hfits : LinkFits text secure l) {now : Nat} {e : Pipe.Ev} (htimely : l.requests.Timely e)
    (hnext : next text secure w (.request k now e) = some w') :
    abs w' = abs w ∨ Chat.next (abs w) (.serve k now) = some (abs w') := by
  simp only [next, hl, Option.bind_some, Option.ite_none_right_eq_some] at hnext
  obtain ⟨hopen, hnext⟩ := hnext
  obtain ⟨requests, hstep, rfl⟩ := Option.map_eq_some_iff.mp hnext
  have hpipe := Pipe.inv_step hinv.requests sound_sessionReader htimely hstep
  have hwritten := Pipe.written_step hstep
  have hpasses := passes_requests hchat hl hfits
  obtain ⟨hpre, hwant⟩ := Pipe.handed_written hpipe frames_requests (hwritten.symm ▸ hpasses)
  have hlive := open_of_want hpipe (by rw [sessionReader_eq]; rfl) hwant
  rw [hlive, if_neg Bool.false_ne_true]
  rcases handedOver_cases handsOne_sessionReader hstep with ⟨hnone, hsame⟩ | ⟨request, -, hsome, hone⟩
  · rw [hnone]
    left
    have hconn : connection { l with requests := requests } = connection l := by
      simp only [connection, hwritten, hsame]
    rw [abs_put, hconn]
    exact put_self (abs_links hl)
  · rw [hsome]
    right
    have hconn : connection { l with requests := requests } =
        { connection l with taken := (connection l).taken + 1 } := by
      simp [connection, hwritten, hone]
    rw [hone, hwritten] at hpre
    have hasked : (connection l).asked[(connection l).taken]? = some request := next_of_handed hpre
    have hopen' : (connection l).isOpen = true := hopen
    rw [Chat.next, abs_links hl, Option.bind_some, hasked, Option.bind_some, if_pos hopen', abs_serve, abs_put, hconn]
    rfl

theorem sim_answer (hl : w.links k = some l) (hinv : LinkInv text secure w.store.sent k l)
    (hfits : LinkFits text secure l) {now : Nat} {e : Pipe.Ev} (htimely : l.answers.Timely e)
    (hnext : next text secure w (.answer k now e) = some w') :
    abs w' = abs w ∨ Chat.next (abs w) (.deliver k now) = some (abs w') := by
  simp only [next, hl, Option.bind_some, Option.ite_none_right_eq_some] at hnext
  obtain ⟨hopen, hnext⟩ := hnext
  obtain ⟨answers, hstep, rfl⟩ := Option.map_eq_some_iff.mp hnext
  have hpipe := Pipe.inv_step hinv.answers sound_clientReader htimely hstep
  have hwritten := Pipe.written_step hstep
  have hpasses : ∀ m ∈ answers.out.written, Passes none text (fun _ _ => .ok ()) m := by
    intro m hm
    exact ⟨hfits.answers m (hwritten ▸ hm), fun _ => rfl⟩
  obtain ⟨hpre, hwant⟩ := Pipe.handed_written hpipe frames_answers hpasses
  have hlive := open_of_want hpipe rfl hwant
  rw [hlive, if_neg Bool.false_ne_true]
  rcases handedOver_cases handsOne_client hstep with ⟨hnone, hsame⟩ | ⟨msg, rfl, hsome, hone⟩
  · rw [hnone]
    left
    have hconn : connection { l with answers := answers } = connection l := by
      simp only [connection, hsame]
    rw [abs_put, hconn]
    exact put_self (abs_links hl)
  · rw [hsome]
    right
    have hconn : connection { l with answers := answers } =
        { connection l with received := (connection l).received + 1 } := by
      simp [connection, hone]
    rw [hone, hwritten, hinv.sent] at hpre
    have hpending : (Chat.pending (abs w) k (connection l)).head? = some msg := by
      rw [Chat.pending, List.head?_drop]
      exact next_of_handed hpre
    have hready : (l.isOpen && l.connected && l.client.mIsRunning) = true := by simpa [reads, and_assoc] using hopen
    have hready' : ((connection l).isOpen && (connection l).connected && (connection l).client.mIsRunning) = true := hready
    rw [Chat.next, abs_links hl, Option.bind_some, hpending, Option.bind_some, if_pos hready', abs_acts, hconn]
    rfl

theorem sim_accept {onError : Bool} {username : String}
    (hnext : next text secure w (.accept onError username) = some w') :
    Chat.next (abs w) (.accept onError username) = some (abs w') := by
  cases hnext
  rw [abs_put]
  rfl

theorem sim_connected {now : Nat} (hnext : next text secure w (.connected k now) = some w') :
    Chat.next (abs w) (.connected k now) = some (abs w') := by
  obtain ⟨l, hl, hnext⟩ := Option.bind_eq_some_iff.mp hnext
  simp only [Option.ite_none_right_eq_some, Option.some.injEq] at hnext
  obtain ⟨hready, rfl⟩ := hnext
  have hready' : ((connection l).isOpen && !(connection l).connected) = true := hready
  rw [Chat.next, abs_links hl, Option.bind_some, if_pos hready', abs_acts]
  rfl

theorem sim_say {now : Nat} {line : Line} (hnext : next text secure w (.say k now line) = some w') :
    Chat.next (abs w) (.say k now line) = some (abs w') := by
  obtain ⟨l, hl, hnext⟩ := Option.bind_eq_some_iff.mp hnext
  simp only [Option.ite_none_right_eq_some, Option.some.injEq] at hnext
  obtain ⟨hready, rfl⟩ := hnext
  have hready' : ((connection l).isOpen && (connection l).connected && line.text != "") = true := hready
  rw [Chat.next, abs_links hl, Option.bind_some, if_pos hready', abs_acts]
  rfl

theorem sim_close {now : Nat} (hnext : next text secure w (.close k now) = some w') :
    Chat.next (abs w) (.close k now) = some (abs w') := by
  obtain ⟨l, hl, hnext⟩ := Option.bind_eq_some_iff.mp hnext
  simp only [Option.ite_none_right_eq_some, Option.some.injEq] at hnext
  obtain ⟨hready, rfl⟩ := hnext
  have hready' : (connection l).isOpen = true := hready
  rw [Chat.next, abs_links hl, Option.bind_some, if_pos hready', abs_shut]
  rfl

/-! ## What is written stays written -/

/-- Links are made under the next number. -/
def Numbered (w : World) : Prop := ∀ k l, w.links k = some l → k < w.made

structure Grows (w w' : World) : Prop where
  made : w.made ≤ w'.made
  links : ∀ k l, w.links k = some l → ∃ l', w'.links k = some l' ∧
    l.requests.out.written <+: l'.requests.out.written ∧ l.answers.out.written <+: l'.answers.out.written

theorem Grows.trans {w'' : World} (h : Grows w w') (h' : Grows w' w'') : Grows w w'' := by
  refine ⟨h.made.trans h'.made, ?_⟩
  intro k l hl
  obtain ⟨l', hl', hrequests, hanswers⟩ := h.links k l hl
  obtain ⟨l'', hl'', hrequests', hanswers'⟩ := h'.links k l' hl'
  exact ⟨l'', hl'', hrequests.trans hrequests', hanswers.trans hanswers'⟩

theorem Grows.fits (h : Grows w w') (hfits : Fits text secure w') : Fits text secure w := by
  refine ⟨Nat.lt_of_le_of_lt h.made hfits.made, ?_⟩
  intro k l hl
  obtain ⟨l', hl', hrequests, hanswers⟩ := h.links k l hl
  have hlink := hfits.links k l' hl'
  exact ⟨fun m hm => hlink.requests m (hrequests.subset hm), fun m hm => hlink.answers m (hanswers.subset hm),
    Nat.lt_of_le_of_lt hrequests.length_le hlink.few⟩

theorem put_cases {l' : Link} {j : Nat} {d : Link} (h : (put k l' w).links j = some d) :
    j = k ∧ d = l' ∨ j ≠ k ∧ w.links j = some d := by
  by_cases hj : j = k
  · subst hj
    simp only [put, Function.update_self, Option.some.injEq] at h
    exact .inl ⟨rfl, h.symm⟩
  · simp only [put, Function.update_of_ne hj] at h
    exact .inr ⟨hj, h⟩

theorem grows_put {l' : Link} (hl : w.links k = some l) (hrequests : l.requests.out.written <+: l'.requests.out.written)
    (hanswers : l.answers.out.written <+: l'.answers.out.written) : Grows w (put k l' w) := by
  refine ⟨Nat.le_refl _, ?_⟩
  intro j d hd
  by_cases hj : j = k
  · subst hj
    obtain rfl := Option.some.inj (hl.symm.trans hd)
    exact ⟨l', by simp [put], hrequests, hanswers⟩
  · exact ⟨d, by simpa [put, Function.update_of_ne hj] using hd, List.prefix_rfl, List.prefix_rfl⟩

theorem grows_run (p : ServerProg Nat Unit) (w : World) : Grows w (run text p w) := by
  refine ⟨Nat.le_refl _, ?_⟩
  intro k l hl
  refine ⟨{ l with answers := l.answers.write text (inbox (p.run exec ⟨w.store.mSessions, []⟩).1.sent k) }, ?_,
    List.prefix_rfl, List.prefix_append _ _⟩
  simp only [run, hl, Option.map_some]

theorem numbered_put {l' : Link} (h : Numbered w) (hk : k < w.made) : Numbered (put k l' w) := by
  intro j d hd
  rcases put_cases hd with ⟨rfl, -⟩ | ⟨-, hd⟩
  · exact hk
  · exact h j d hd

theorem numbered_run (p : ServerProg Nat Unit) (h : Numbered w) : Numbered (run text p w) := by
  intro j d hd
  obtain ⟨l, hl, -⟩ := Option.map_eq_some_iff.mp hd
  exact h j l hl

/-- What a step does to a link before the server runs. -/
structure Moves (text : JsonText) (secure : Bool) (l l' : Link) : Prop where
  asked : l.requests.out.written <+: l'.requests.out.written
  sent : l'.answers.out.written = l.answers.out.written
  requests : Pipe.Inv text (sessionReader text secure) PlainSession.started l.requests →
    Pipe.Inv text (sessionReader text secure) PlainSession.started l'.requests
  answers : Pipe.Inv text (clientReader text) Client.started l.answers →
    Pipe.Inv text (clientReader text) Client.started l'.answers

/-- A step makes a link, or moves one, upon which the server may run. -/
inductive Does (text : JsonText) (secure : Bool) (w w' : World) : Prop where
  | accept (l : Link) (store : Store Nat) (requests : l.requests = .init PlainSession.started)
    (answers : l.answers = .init Client.started) (sent : store.sent = w.store.sent)
    (eq : w' = put w.made l { w with store := store, made := w.made + 1 })
  | move (k : Nat) (l l' : Link) (posted : List Posted) (hl : w.links k = some l) (moves : Moves text secure l l')
    (eq : w' = put k l' { w with posted := posted })
  | run (k : Nat) (l l' : Link) (posted : List Posted) (hl : w.links k = some l) (moves : Moves text secure l l')
    (p : ServerProg Nat Unit) (eq : w' = run text p (put k l' { w with posted := posted }))

theorem moves_acts (l l' : Link) (ms : List Message) (hrequests : l'.requests = l.requests.write text ms)
    (hanswers : l'.answers = l.answers) : Moves text secure l l' := by
  refine ⟨hrequests ▸ List.prefix_append _ _, hanswers ▸ rfl, ?_, fun h => hanswers ▸ h⟩
  intro h
  rw [hrequests]
  exact Pipe.inv_write h ms

theorem does_request {now : Nat} {e : Pipe.Ev} (htimely : Timely w (.request k now e))
    (hnext : next text secure w (.request k now e) = some w') : Does text secure w w' := by
  obtain ⟨l, hl, hnext⟩ := Option.bind_eq_some_iff.mp hnext
  simp only [Option.ite_none_right_eq_some] at hnext
  obtain ⟨-, hnext⟩ := hnext
  obtain ⟨requests, hstep, rfl⟩ := Option.map_eq_some_iff.mp hnext
  have hwritten := Pipe.written_step hstep
  have hmoves : Moves text secure l { l with requests := requests } :=
    ⟨hwritten ▸ List.prefix_rfl, rfl, fun h => Pipe.inv_step h sound_sessionReader (htimely l hl) hstep, id⟩
  split
  · exact .run k l { l with requests := requests, isOpen := false } w.posted hl
      ⟨hmoves.asked, hmoves.sent, hmoves.requests, hmoves.answers⟩ (onClose now l.uid) rfl
  · split
    · rename_i request _
      exact .run k l _ (w.posted ++ posts k request w.store.mSessions) hl hmoves (onMessage now l.uid request k) rfl
    · exact .move k l _ w.posted hl hmoves rfl

theorem does_answer {now : Nat} {e : Pipe.Ev} (htimely : Timely w (.answer k now e))
    (hnext : next text secure w (.answer k now e) = some w') : Does text secure w w' := by
  obtain ⟨l, hl, hnext⟩ := Option.bind_eq_some_iff.mp hnext
  simp only [Option.ite_none_right_eq_some] at hnext
  obtain ⟨-, hnext⟩ := hnext
  obtain ⟨answers, hstep, rfl⟩ := Option.map_eq_some_iff.mp hnext
  have hwritten := Pipe.written_step hstep
  have hanswers (h : Pipe.Inv text (clientReader text) Client.started l.answers) :
      Pipe.Inv text (clientReader text) Client.started answers :=
    Pipe.inv_step h sound_clientReader (htimely l hl) hstep
  split
  · refine .move k l _ w.posted hl ?_ rfl
    exact ⟨List.prefix_rfl, hwritten, id, hanswers⟩
  · split
    · refine .move k l _ w.posted hl ?_ rfl
      exact ⟨List.prefix_append _ _, hwritten, fun h => Pipe.inv_write h _, hanswers⟩
    · refine .move k l _ w.posted hl ?_ rfl
      exact ⟨List.prefix_rfl, hwritten, id, hanswers⟩

theorem next_does {e : Ev} (htimely : Timely w e) (hnext : next text secure w e = some w') : Does text secure w w' := by
  cases e with
  | accept onError username =>
    cases hnext
    exact .accept _ { w.store with mSessions := (w.store.mSessions.add w.made).1 } rfl rfl rfl rfl
  | connected k now =>
    obtain ⟨l, hl, hnext⟩ := Option.bind_eq_some_iff.mp hnext
    simp only [Option.ite_none_right_eq_some, Option.some.injEq] at hnext
    obtain ⟨-, rfl⟩ := hnext
    refine .move k l _ w.posted hl ?_ rfl
    exact moves_acts _ _ _ rfl rfl
  | say k now line =>
    obtain ⟨l, hl, hnext⟩ := Option.bind_eq_some_iff.mp hnext
    simp only [Option.ite_none_right_eq_some, Option.some.injEq] at hnext
    obtain ⟨-, rfl⟩ := hnext
    refine .move k l _ w.posted hl ?_ rfl
    exact moves_acts _ _ _ rfl rfl
  | request k now e => exact does_request htimely hnext
  | answer k now e => exact does_answer htimely hnext
  | close k now =>
    obtain ⟨l, hl, hnext⟩ := Option.bind_eq_some_iff.mp hnext
    simp only [Option.ite_none_right_eq_some, Option.some.injEq] at hnext
    obtain ⟨-, rfl⟩ := hnext
    exact .run k l { l with isOpen := false } w.posted hl ⟨List.prefix_rfl, rfl, id, id⟩ (onClose now l.uid) rfl

theorem Does.grows (h : Does text secure w w') (hn : Numbered w) : Grows w w' := by
  cases h with
  | accept l store _ _ _ eq =>
    subst eq
    refine ⟨Nat.le_succ _, ?_⟩
    intro j d hd
    have hj : j ≠ w.made := Nat.ne_of_lt (hn j d hd)
    exact ⟨d, by simpa [put, Function.update_of_ne hj] using hd, List.prefix_rfl, List.prefix_rfl⟩
  | move k l l' posted hl moves eq =>
    subst eq
    have hgrows := grows_put (w := { w with posted := posted }) hl moves.asked (moves.sent ▸ List.prefix_rfl)
    exact ⟨hgrows.made, hgrows.links⟩
  | run k l l' posted hl moves p eq =>
    subst eq
    have hgrows := grows_put (w := { w with posted := posted }) hl moves.asked (moves.sent ▸ List.prefix_rfl)
    have hrun := hgrows.trans (@grows_run text p _)
    exact ⟨hrun.made, hrun.links⟩

theorem Does.numbered (h : Does text secure w w') (hn : Numbered w) : Numbered w' := by
  cases h with
  | accept l store _ _ _ eq =>
    subst eq
    exact numbered_put (fun j d hd => Nat.lt_succ_of_lt (hn j d hd)) (Nat.lt_succ_self _)
  | move k l l' posted hl moves eq =>
    subst eq
    exact numbered_put hn (hn k l hl)
  | run k l l' posted hl moves p eq =>
    subst eq
    exact numbered_run p (numbered_put hn (hn k l hl))

/-! ## The pipes of a world -/

variable (text secure) in
def Piped (w : World) : Prop := ∀ k l, w.links k = some l → LinkInv text secure w.store.sent k l

theorem LinkInv.moves {sent : List (Nat × Message)} {l' : Link} (h : LinkInv text secure sent k l)
    (hmoves : Moves text secure l l') : LinkInv text secure sent k l' :=
  ⟨hmoves.requests h.requests, hmoves.answers h.answers, hmoves.sent.trans h.sent⟩

theorem piped_put {l' : Link} (h : Piped text secure w) (hl' : LinkInv text secure w.store.sent k l') :
    Piped text secure (put k l' w) := by
  intro j d hd
  rcases put_cases hd with ⟨rfl, rfl⟩ | ⟨-, hd⟩
  · exact hl'
  · exact h j d hd

theorem piped_run (p : ServerProg Nat Unit) (h : Piped text secure w) : Piped text secure (run text p w) := by
  intro j d hd
  obtain ⟨l, hl, rfl⟩ := Option.map_eq_some_iff.mp hd
  have hlink := h j l hl
  refine ⟨hlink.requests, Pipe.inv_write hlink.answers _, ?_⟩
  rw [show (run text p w).store.sent = w.store.sent ++ (p.run exec ⟨w.store.mSessions, []⟩).1.sent from rfl,
    inbox_append, ← hlink.sent]
  rfl

theorem Does.piped (h : Does text secure w w') (hsent : ∀ e ∈ w.store.sent, e.1 < w.made) (hpiped : Piped text secure w) :
    Piped text secure w' := by
  cases h with
  | accept l store hrequests hanswers hstore eq =>
    subst eq
    refine piped_put (w := { w with store := store, made := w.made + 1 }) (fun j d hd => ?_) ?_
    · exact hstore ▸ hpiped j d hd
    · refine ⟨hrequests ▸ Pipe.inv_pipe_init sound_started, hanswers ▸ Pipe.inv_pipe_init sound_started, ?_⟩
      rw [hanswers, hstore, inbox_eq_nil fun e he => Nat.ne_of_lt (hsent e he)]
      rfl
  | move k l l' posted hl moves eq =>
    subst eq
    exact piped_put (w := { w with posted := posted }) hpiped ((hpiped k l hl).moves moves)
  | run k l l' posted hl moves p eq =>
    subst eq
    exact piped_run p (piped_put (w := { w with posted := posted }) hpiped ((hpiped k l hl).moves moves))

/-! ## Runs -/

/-- The request ids do not come round: they are as many as the requests written. -/
theorem idsKept_say (hchat : Chat.Inv (abs w)) (hfits : Fits text secure w') {now : Nat} {line : Line}
    (hnext : next text secure w (.say k now line) = some w') : IdsKept (abs w) (.say k now line) := by
  obtain ⟨l, hl, hnext⟩ := Option.bind_eq_some_iff.mp hnext
  simp only [Option.ite_none_right_eq_some, Option.some.injEq, Bool.and_eq_true, bne_iff_ne] at hnext
  obtain ⟨⟨-, ht⟩, rfl⟩ := hnext
  have hconn := hchat.conn k _ (abs_links hl)
  obtain ⟨request, -, hsay⟩ := ChatClient.say_eq now ht hconn.mClient hconn.mIsRunning
  have hfew := (hfits.links k _ (Function.update_self ..)).few
  intro c hc
  obtain rfl := Option.some.inj ((abs_links hl).symm.trans hc)
  have hasked : ((connection l).asked ++ ((connection l).client.say now line).2).length < 2 ^ 32 := hfew
  rw [hsay, List.length_append] at hasked
  exact hasked

theorem sim_next {e : Ev} (hchat : Chat.Inv (abs w)) (hpiped : Piped text secure w) (hfits : Fits text secure w)
    (hfits' : Fits text secure w') (htimely : Timely w e) (hnext : next text secure w e = some w') :
    abs w' = abs w ∨ ∃ e', IdsKept (abs w) e' ∧ Chat.next (abs w) e' = some (abs w') := by
  cases e with
  | accept onError username => exact .inr ⟨.accept onError username, trivial, sim_accept hnext⟩
  | connected k now => exact .inr ⟨.connected k now, trivial, sim_connected hnext⟩
  | say k now line => exact .inr ⟨_, idsKept_say hchat hfits' hnext, sim_say hnext⟩
  | request k now e =>
    obtain ⟨l, hl, -⟩ := Option.bind_eq_some_iff.mp hnext
    exact (sim_request hchat hl (hpiped k l hl) (hfits.links k l hl) (htimely l hl) hnext).imp_right fun h =>
      ⟨.serve k now, trivial, h⟩
  | answer k now e =>
    obtain ⟨l, hl, -⟩ := Option.bind_eq_some_iff.mp hnext
    exact (sim_answer hl (hpiped k l hl) (hfits.links k l hl) (htimely l hl) hnext).imp_right fun h =>
      ⟨.deliver k now, trivial, h⟩
  | close k now => exact .inr ⟨.close k now, trivial, sim_close hnext⟩

theorem run_piped (hrun : Machine.Run (next text secure) Timely init w) (hfits : Fits text secure w) :
    Piped text secure w ∧ Machine.Run Chat.next IdsKept Chat.init (abs w) := by
  have h : Numbered w ∧ (Fits text secure w → Piped text secure w ∧ Machine.Run Chat.next IdsKept Chat.init (abs w)) := by
    refine Machine.run_invariant (fun w => Numbered w ∧ (Fits text secure w →
      Piped text secure w ∧ Machine.Run Chat.next IdsKept Chat.init (abs w))) ⟨?_, fun _ => ⟨?_, .refl⟩⟩ ?_ hrun
    · intro k l hl
      cases hl
    · intro k l hl
      cases hl
    intro w e w' ih htimely hnext
    obtain ⟨hn, h⟩ := ih
    have hdoes := next_does htimely hnext
    refine ⟨hdoes.numbered hn, ?_⟩
    intro hfits'
    have hfits := (hdoes.grows hn).fits hfits'
    obtain ⟨hpiped, hchat⟩ := h hfits
    have hinv := (run_rosters hchat hfits.made).1
    refine ⟨hdoes.piped hinv.sent hpiped, ?_⟩
    rcases sim_next hinv hpiped hfits hfits' htimely hnext with heq | ⟨e', hids, hstep⟩
    · rw [heq]
      exact hchat
    · exact hchat.snoc hids hstep
  exact h.2 hfits

end CryptoChat.Net.Wire
