/-
  CryptoChat.Net.WireRuns — the runs over bytes and those over messages. The one direction
  is `Wire.run_piped`; for the other a message is carried through its pipe by one write and
  two reads when `Chat` takes it.

  Proved, for writes that are started in time and messages that pass the loops:
  - `reaches_iff`: the states of `Chat` reached are those the worlds reached stand for.
  - `shown_at_rest`: once no byte moves any more, every line is shown exactly once where it
    belongs, and the rosters agree, however the bytes were cut.
-/

import CryptoChat.Net.Wire

namespace CryptoChat.Net

open CryptoChat.Lib ReadLoop

/-! ## A frame through a read loop -/

/-- A loop that takes a frame by two reads. -/
structure TakesFrames (text : JsonText) (R : ExactRead.Reader ReadLoop Byte String) (good : Message → Prop) : Prop where
  want : R.want = want
  frame : ∀ b past m, good m → ∃ hdr b₁ b₂, m.encode text = hdr ++ text.dump m.j ∧ hdr.length = kHeaderSize ∧
    R.feed (reading b .header past) hdr = reading b₁ (.body (text.dump m.j).length) past ∧
    R.feed (reading b₁ (.body (text.dump m.j).length) past) (text.dump m.j) = reading b₂ .header (past ++ [m])

variable {limit : Option Nat} {wrap : String → String} {text : JsonText} {cb : Callbacks} {f : MessageCallback}

/-- The header of a frame, and what the loops read in it. -/
theorem encode_eq {m : Message} (h : (text.dump m.j).length < 2 ^ 32) : ∃ hdr, m.encode text = hdr ++ text.dump m.j ∧
    hdr.length = kHeaderSize ∧ header? hdr = some (m.type, (text.dump m.j).length) := by
  let size := toBytes 4 (BitVec.ofNat 32 (text.dump m.j).length)
  have hlen : size.length = 4 := length_toBytes _ _
  have hval : (ofBytes 32 size).toNat = (text.dump m.j).length := by
    rw [ofBytes_toBytes (by omega), BitVec.toNat_ofNat, Nat.mod_eq_of_lt h]
  have hfive : (m.type.byte :: size).length = kHeaderSize := by simp [hlen, kHeaderSize, kTypeFieldSize, kLengthFieldSize]
  refine ⟨m.type.byte :: size, by simp [Message.encode, hostBytes_lenBE, size], hfive, ?_⟩
  rw [header?, if_pos (by omega)]
  simp only [kTypeFieldSize, kLengthFieldSize, List.headD_cons, List.drop_succ_cons, List.drop_zero,
    List.take_of_length_le (Nat.le_of_eq hlen), hval]

theorem takesFrames_session (hcb : cb.mMessageCallback = some f) :
    TakesFrames text (handlers limit wrap text cb).reader (Passes limit text f) where
  want := rfl
  frame b past m hm := by
    obtain ⟨hframed, hreturns⟩ := hm
    obtain ⟨hdr, hencode, hlen, hheader⟩ := encode_eq hframed.short
    have hbounded : limit.any (· < (text.dump m.j).length) = false := by
      cases limit with
      | none => rfl
      | some l =>
        have hle := hframed.bounded l rfl
        simpa using hle
    let b₁ := resize (kHeaderSize + (text.dump m.j).length) hdr
    have hbuffer : kHeaderSize ≤ b₁.length := by
      rw [length_resize]
      omega
    have hfirst : b₁.headD 0#8 = hdr.headD 0#8 :=
      headD_of_take (n := 4)
        (take_resize hdr (by rw [hlen]; decide) (by simp [kHeaderSize, kTypeFieldSize, kLengthFieldSize]))
    have htype : (⟨hdr.headD 0#8⟩ : MessageType) = m.type := by
      rw [header?, if_pos (by omega)] at hheader
      exact congrArg Prod.fst (Option.some.inj hheader)
    have hdecode : Message.decode text m.type (text.dump m.j) = .ok m :=
      decode_ok_iff.mpr ⟨hframed.nonempty, hframed.parses, rfl⟩
    refine ⟨hdr, b₁, resize kHeaderSize (b₁.take kHeaderSize ++ text.dump m.j), hencode, hlen, ?_, ?_⟩
    · rw [feed_header limit wrap text cb hlen past hheader, hbounded, if_neg Bool.false_ne_true]
    · rw [feed_body limit wrap text f cb hcb hbuffer, hfirst, htype, hdecode]
      simp only [hreturns]

theorem takesFrames_client (hcb : cb.mMessageCallback = some f) :
    TakesFrames text (Client.handlers text cb f).reader (Passes none text f) where
  want := rfl
  frame b past m hm := by
    obtain ⟨hdr, b₁, b₂, hencode, hlen, hhdr, hbody⟩ :=
      (show TakesFrames text (handlers none ("Decode error: " ++ ·) text cb).reader (Passes none text f) from
        takesFrames_session hcb).frame b past m hm
    refine ⟨hdr, b₁, b₂, hencode, hlen, ?_, ?_⟩
    · rw [client_feed text f cb hcb (sound_reading _ _ _) (by simp [reading]), hhdr]
    · rw [client_feed text f cb hcb (sound_reading _ _ _) (by simp [reading]), hbody]

/-! ## A message through a pipe -/

namespace Pipe

/-- Nothing of a frame is under way: what was not handed over waits in the posted handlers. -/
structure Clean (text : JsonText) (p : Pipe) : Prop where
  out : p.out.writing = [] ∧ p.out.broken = false ∧ p.out.mIsClosed = false
  posted : p.out.posted = (p.out.written.drop p.handed.length).map (Message.encode text)
  handed : p.handed.length ≤ p.out.written.length
  conn : p.conn.got = [] ∧ p.conn.avail = [] ∧ p.conn.taken = p.out.wire
  state : ∃ b, p.conn.state = reading b .header p.handed

variable {R : ExactRead.Reader ReadLoop Byte String} {good : Message → Prop} {p p' : Pipe} {m : Message}

theorem clean_init (b : Bytes) : Clean text (init (reading b .header [])) :=
  ⟨⟨rfl, rfl, rfl⟩, rfl, Nat.le_refl _, ⟨rfl, rfl, rfl⟩, b, rfl⟩

theorem clean_write (h : Clean text p) (ms : List Message) : Clean text (p.write text ms) := by
  refine ⟨h.out, ?_, ?_, h.conn, h.state⟩
  · have hposted := h.posted
    have hdrop : (p.out.written ++ ms).drop p.handed.length = p.out.written.drop p.handed.length ++ ms :=
      List.drop_append_of_le_length h.handed
    show p.out.posted ++ ms.map (Message.encode text) = ((p.out.written ++ ms).drop p.handed.length).map _
    rw [hdrop, List.map_append, ← hposted]
  · exact h.handed.trans (by simp [write])

/-- A step that hands nothing over. -/
def quietly (text : JsonText) (R : ExactRead.Reader ReadLoop Byte String) (p : Pipe) (e : Ev) : Option Pipe :=
  (step text R p e).filter fun p' => !p'.conn.state.mIsClosed && p'.handed.length == p.handed.length

theorem quietly_of_step {e : Ev} (h : step text R p e = some p') (hopen : p'.conn.state.mIsClosed = false)
    (hhanded : p'.handed = p.handed) : quietly text R p e = some p' := by
  simp [quietly, h, hopen, hhanded]

/-- A frame is sent by one write. -/
theorem send_frame {bytes wire : Bytes} (hne : bytes ≠ []) {rest : List Bytes} {closing : Nat} {errors : List String}
    {written : List Message} {conn : ExactRead.Conn ReadLoop Byte String} (hopen : conn.state.mIsClosed = false) :
    Machine.Run (quietly text R) Timely ⟨⟨bytes :: rest, [], wire, false, false, closing, errors, written⟩, conn⟩
      ⟨⟨rest, [], wire ++ bytes, false, false, closing, errors, written⟩, conn⟩ := by
  have hpos := List.length_pos_of_ne_nil hne
  have hstart : Machine.Run (quietly text R) Timely
      ⟨⟨bytes :: rest, [], wire, false, false, closing, errors, written⟩, conn⟩
      ⟨⟨rest, [⟨bytes, 0⟩], wire, false, false, closing, errors, written⟩, conn⟩ :=
    Machine.Run.refl.snoc (e := .start 0) ⟨rfl, by simp⟩ (quietly_of_step rfl hopen rfl)
  have hsend : Machine.Run (quietly text R) Timely
      ⟨⟨rest, [⟨bytes, 0⟩], wire, false, false, closing, errors, written⟩, conn⟩
      ⟨⟨rest, [⟨bytes, bytes.length⟩], wire ++ bytes, false, false, closing, errors, written⟩, conn⟩ := by
    refine Machine.Run.refl.snoc (e := .send 0 bytes.length) trivial (quietly_of_step ?_ hopen rfl)
    simp [step, SessionWrite.next, hpos]
  refine (hstart.trans hsend).snoc (e := .finish 0) trivial (quietly_of_step ?_ hopen rfl)
  simp [step, SessionWrite.next, SessionWrite.left]

/-- It arrives at once and is read by two reads, of which the second is to complete. -/
theorem read_frame (hwant : R.want = want) {out : SessionWrite.St} {hdr body taken b b₁ : Bytes} {past : List Message}
    {failed : Option String} (hlen : hdr.length = kHeaderSize) (hne : body ≠ []) (hwire : out.wire = taken ++ (hdr ++ body))
    (hhdr : R.feed (reading b .header past) hdr = reading b₁ (.body body.length) past) :
    Machine.Run (quietly text R) Timely ⟨out, ⟨reading b .header past, [], [], taken, failed⟩⟩
      ⟨out, ⟨reading b₁ (.body body.length) past, body, [], out.wire, failed⟩⟩ := by
  have hpos := List.length_pos_of_ne_nil hne
  have hpos' : 0 < hdr.length := by
    rw [hlen]
    decide
  have hhead : R.want (reading b .header past) = some hdr.length := by
    rw [hwant, hlen]
    rfl
  have hbody : R.want (reading b₁ (.body body.length) past) = some body.length := by
    rw [hwant]
    rfl
  have harrive : Machine.Run (quietly text R) Timely ⟨out, ⟨reading b .header past, [], [], taken, failed⟩⟩
      ⟨out, ⟨reading b .header past, [], hdr ++ body, taken, failed⟩⟩ := by
    refine Machine.Run.refl.snoc (e := .arrive (hdr ++ body).length) trivial (quietly_of_step ?_ rfl rfl)
    simp [step, onWire, hwire, ExactRead.Conn.arrived, ExactRead.next]
    omega
  have htransfer : Machine.Run (quietly text R) Timely ⟨out, ⟨reading b .header past, [], hdr ++ body, taken, failed⟩⟩
      ⟨out, ⟨reading b .header past, hdr, body, taken ++ hdr, failed⟩⟩ := by
    refine Machine.Run.refl.snoc (e := .transfer hdr.length) trivial (quietly_of_step ?_ rfl rfl)
    simp [step, ExactRead.next, hhead, hpos']
  have hcomplete : Machine.Run (quietly text R) Timely ⟨out, ⟨reading b .header past, hdr, body, taken ++ hdr, failed⟩⟩
      ⟨out, ⟨reading b₁ (.body body.length) past, [], body, taken ++ hdr, failed⟩⟩ := by
    refine Machine.Run.refl.snoc (e := .complete) trivial (quietly_of_step ?_ rfl rfl)
    simp [step, ExactRead.next, hhead, hhdr]
  refine ((harrive.trans htransfer).trans hcomplete).snoc (e := .transfer body.length) trivial (quietly_of_step ?_ rfl rfl)
  simp [step, ExactRead.next, hbody, hpos, hwire]

/-- The next message of a clean pipe is sent and read, up to the completion that hands it over. -/
theorem carry (hR : TakesFrames text R good) (h : Clean text p) (hm : p.out.written[p.handed.length]? = some m)
    (hgood : good m) (hne : text.dump m.j ≠ []) : ∃ p₁ p', Machine.Run (quietly text R) Timely p p₁ ∧
      step text R p₁ .complete = some p' ∧ p₁.handed = p.handed ∧ p'.conn.state.mIsClosed = false ∧
      Clean text p' ∧ p'.handed = p.handed ++ [m] ∧ p'.out.written = p.out.written := by
  obtain ⟨⟨hwriting, hbroken, hclosed⟩, hposted, hhanded, ⟨hgot, havail, htaken⟩, b, hstate⟩ := h
  obtain ⟨hlt, hget⟩ := List.getElem?_eq_some_iff.mp hm
  rw [List.drop_eq_getElem_cons hlt, List.map_cons, hget] at hposted
  obtain ⟨⟨posted, writing, wire, broken, mIsClosed, closing, errors, written⟩, ⟨state, got, avail, taken, failed⟩⟩ := p
  simp only at hwriting hbroken hclosed hposted hgot havail htaken hstate hlt
  generalize hpast : Pipe.handed _ = past at *
  subst hwriting hbroken hclosed hposted hgot havail htaken hstate
  obtain ⟨hdr, b₁, b₂, hencode, hlen, hhdr, hbody⟩ := hR.frame b past m hgood
  have hwant : R.want (reading b₁ (.body (text.dump m.j).length) past) = some (text.dump m.j).length := by
    rw [hR.want]
    rfl
  let rest := (written.drop (past.length + 1)).map (Message.encode text)
  let conn : ExactRead.Conn ReadLoop Byte String := ⟨reading b .header past, [], [], taken, failed⟩
  let out : SessionWrite.St := ⟨rest, [], taken ++ m.encode text, false, false, closing, errors, written⟩
  have hsend : Machine.Run (quietly text R) Timely
      ⟨⟨m.encode text :: rest, [], taken, false, false, closing, errors, written⟩, conn⟩ ⟨out, conn⟩ :=
    send_frame (by simp [Message.encode]) rfl
  have hread : Machine.Run (quietly text R) Timely ⟨out, conn⟩
      ⟨out, ⟨reading b₁ (.body (text.dump m.j).length) past, text.dump m.j, [], out.wire, failed⟩⟩ :=
    read_frame hR.want hlen hne (by simp only [out, hencode]) hhdr
  refine ⟨_, ⟨out, ⟨reading b₂ .header (past ++ [m]), [], [], taken ++ m.encode text, failed⟩⟩, hsend.trans hread, ?_, rfl,
    rfl, ⟨⟨rfl, rfl, rfl⟩, ?_, ?_, ⟨rfl, rfl, rfl⟩, b₂, rfl⟩, rfl, rfl⟩
  · simp [step, ExactRead.next, hwant, hbody, out]
  · show out.posted = (written.drop (past ++ [m]).length).map (Message.encode text)
    rw [List.length_append, List.length_singleton]
  · show (past ++ [m]).length ≤ written.length
    simpa using hlt

/-- A clean pipe that handed over all has no step left. -/
theorem stuck_of_clean (hR : TakesFrames text R good) (h : Clean text p)
    (hall : p.handed.length = p.out.written.length) (e : Ev) : step text R p e = none := by
  obtain ⟨hwriting, -, -⟩ := h.out
  obtain ⟨hgot, havail, htaken⟩ := h.conn
  obtain ⟨b, hstate⟩ := h.state
  have hposted : p.out.posted = [] := by
    rw [h.posted, hall, List.drop_length]
    rfl
  have hw : R.want p.conn.state = some kHeaderSize := by
    rw [hR.want, hstate]
    rfl
  cases e with
  | start i => simp [step, SessionWrite.next, hposted]
  | send i n => simp [step, SessionWrite.next, hwriting]
  | finish i => simp [step, SessionWrite.next, hwriting]
  | arrive n =>
    have hwire : p.onWire = [] := by
      rw [onWire, ExactRead.Conn.arrived, havail, htaken, List.append_nil, List.drop_length]
    simp [step, hwire]
    omega
  | transfer n =>
    simp [step, ExactRead.next, hw, havail]
    omega
  | complete => simp [step, ExactRead.next, hw, hgot, kHeaderSize, kTypeFieldSize, kLengthFieldSize]

end Pipe

/-! ## Worlds that rest between messages -/

namespace Wire

open Message ServerAppContext Chat

/-- What was asked and sent fits, as `Fits` says it of worlds. -/
structure ChatFits (text : JsonText) (secure : Bool) (s : St) : Prop where
  made : s.made < 2 ^ 32
  asked : ∀ k c, s.connections k = some c → ∀ m ∈ c.asked, Framed (bound secure) text m
  sent : ∀ k c, s.connections k = some c → ∀ m ∈ inbox s.store.sent k, Framed none text m
  few : ∀ k c, s.connections k = some c → c.asked.length < 2 ^ 32

structure LinkClean (text : JsonText) (sent : List (Nat × Message)) (k : Nat) (l : Link) : Prop where
  requests : Pipe.Clean text l.requests
  answers : Pipe.Clean text l.answers
  sent : l.answers.out.written = inbox sent k

def Clean (text : JsonText) (w : World) : Prop := ∀ k l, w.links k = some l → LinkClean text w.store.sent k l

variable {secure : Bool} {w : World} {s s' : St} {k : Nat} {l : Link}

theorem fits_iff (hsent : ∀ k l, w.links k = some l → l.answers.out.written = inbox w.store.sent k) :
    Fits text secure w ↔ ChatFits text secure (abs w) := by
  constructor
  · intro h
    have hlink {k : Nat} {c : Connection} (hc : (abs w).connections k = some c) :
        ∃ l, w.links k = some l ∧ connection l = c := Option.map_eq_some_iff.mp hc
    refine ⟨h.made, ?_, ?_, ?_⟩
    · intro k c hc
      obtain ⟨l, hl, rfl⟩ := hlink hc
      exact (h.links k l hl).requests
    · intro k c hc
      obtain ⟨l, hl, rfl⟩ := hlink hc
      exact hsent k l hl ▸ (h.links k l hl).answers
    · intro k c hc
      obtain ⟨l, hl, rfl⟩ := hlink hc
      exact (h.links k l hl).few
  · intro h
    refine ⟨h.made, ?_⟩
    intro k l hl
    exact ⟨h.asked k _ (abs_links hl), hsent k l hl ▸ h.sent k _ (abs_links hl), h.few k _ (abs_links hl)⟩

theorem clean_put {l' : Link} (h : Clean text w) (hl' : LinkClean text w.store.sent k l') : Clean text (put k l' w) := by
  intro j d hd
  rcases put_cases hd with ⟨rfl, rfl⟩ | ⟨-, hd⟩
  · exact hl'
  · exact h j d hd

theorem clean_run (p : ServerProg Nat Unit) (h : Clean text w) : Clean text (run text p w) := by
  intro j d hd
  obtain ⟨l, hl, rfl⟩ := Option.map_eq_some_iff.mp hd
  have hlink := h j l hl
  refine ⟨hlink.requests, Pipe.clean_write hlink.answers _, ?_⟩
  rw [show (run text p w).store.sent = w.store.sent ++ (p.run exec ⟨w.store.mSessions, []⟩).1.sent from rfl,
    inbox_append, ← hlink.sent]
  rfl

theorem put_link (hl : w.links k = some l) : put k l w = w := by
  unfold put
  rw [← hl, Function.update_eq_self]

@[simp] theorem put_put (k : Nat) (l l' : Link) (w : World) : put k l' (put k l w) = put k l' w := by
  simp [put]

@[simp] theorem links_put (k : Nat) (l : Link) (w : World) : (put k l w).links k = some l := by simp [put]

theorem quietly_step {R : ExactRead.Reader ReadLoop Byte String} {p p' : Pipe} {e : Pipe.Ev}
    (h : Pipe.quietly text R p e = some p') :
    p.step text R e = some p' ∧ p'.conn.state.mIsClosed = false ∧ handedOver p p' = none := by
  obtain ⟨hstep, hkeeps⟩ := Option.filter_eq_some_iff.mp h
  obtain ⟨hopen, hhanded⟩ : p'.conn.state.mIsClosed = false ∧ p'.handed.length = p.handed.length := by
    simpa using hkeeps
  exact ⟨hstep, hopen, List.getElem?_eq_none (Nat.le_of_eq hhanded)⟩

/-- Steps of a pipe that hand nothing over are steps of the world. -/
theorem run_requests (hl : w.links k = some l) (ho : l.isOpen = true) {p : Pipe}
    (h : Machine.Run (Pipe.quietly text (sessionReader text secure)) Pipe.Timely l.requests p) :
    Machine.Run (next text secure) Timely w (put k { l with requests := p } w) := by
  induction h with
  | refl =>
    rw [put_link hl]
    exact .refl
  | tail _ hs ih =>
    obtain ⟨e, htimely, hquiet⟩ := hs
    obtain ⟨hstep, hopen, hnone⟩ := quietly_step hquiet
    refine ih.snoc (e := .request k 0 e) ?_ ?_
    · intro d hd
      obtain rfl := Option.some.inj ((links_put _ _ _).symm.trans hd)
      exact htimely
    · simp [next, ho, hstep, hopen, hnone]

theorem run_answers (hl : w.links k = some l) (ho : l.isOpen = true) (hcon : l.connected = true)
    (hr : l.client.mIsRunning = true) {p : Pipe}
    (h : Machine.Run (Pipe.quietly text (clientReader text)) Pipe.Timely l.answers p) :
    Machine.Run (next text secure) Timely w (put k { l with answers := p } w) := by
  induction h with
  | refl =>
    rw [put_link hl]
    exact .refl
  | tail _ hs ih =>
    obtain ⟨e, htimely, hquiet⟩ := hs
    obtain ⟨hstep, hopen, hnone⟩ := quietly_step hquiet
    refine ih.snoc (e := .answer k 0 e) ?_ ?_
    · intro d hd
      obtain rfl := Option.some.inj ((links_put _ _ _).symm.trans hd)
      exact htimely
    · simp [next, ho, hcon, hr, hstep, hopen, hnone]

theorem takes_requests : TakesFrames text (sessionReader text secure)
    (Passes (bound secure) text fun _ request => (ServerAppContext.read request).map fun _ => ()) := by
  rw [sessionReader_eq]
  exact takesFrames_session rfl

theorem takes_answers : TakesFrames text (clientReader text) (Passes none text fun _ _ => .ok ()) := takesFrames_client rfl

/-- A step over messages is a run over bytes. -/
def Realised (text : JsonText) (secure : Bool) (w : World) (s' : St) : Prop :=
  ∃ w', Machine.Run (next text secure) Timely w w' ∧ abs w' = s' ∧ Clean text w'

theorem handedOver_next {p p' : Pipe} {m : Message} {handed : List Message} (hp : p.handed = handed)
    (hp' : p'.handed = handed ++ [m]) : handedOver p p' = some m := by
  rw [handedOver, hp, hp']
  simp

theorem realised_serve (hclean : Clean text w) (hl : w.links k = some l) (ho : l.isOpen = true) {now : Nat}
    {request : Message} (hq : l.requests.out.written[l.requests.handed.length]? = some request)
    (hpasses : Passes (bound secure) text (fun _ request => (ServerAppContext.read request).map fun _ => ()) request) :
    Realised text secure w (Chat.put k { connection l with taken := (connection l).taken + 1 } { abs w with
      store := ((onMessage now l.uid request k).run exec w.store).1
      posted := w.posted ++ posts k request w.store.mSessions }) := by
  have hlink := hclean k l hl
  obtain ⟨p₁, p', hquiet, hstep, hsame, hopen, hclean', hone, hwritten⟩ :=
    Pipe.carry takes_requests hlink.requests hq hpasses hpasses.1.nonempty
  refine ⟨serve text k now l.uid request (put k { l with requests := p' } w), ?_, ?_, ?_⟩
  · refine (run_requests hl ho hquiet).snoc (e := .request k now .complete) (fun _ _ => trivial) ?_
    simp [next, ho, hstep, hopen, handedOver_next hsame hone]
  · rw [abs_serve, abs_put]
    simp only [connection, hone, hwritten, List.length_append, List.length_singleton]
    rfl
  · exact clean_run _ (clean_put hclean ⟨hclean', hlink.answers, hlink.sent⟩)

theorem realised_deliver (hclean : Clean text w) (hl : w.links k = some l) (ho : l.isOpen = true)
    (hcon : l.connected = true) (hr : l.client.mIsRunning = true) {now : Nat} {msg : Message}
    (hm : l.answers.out.written[l.answers.handed.length]? = some msg) (hframed : Framed none text msg) :
    Realised text secure w (Chat.acts k { connection l with received := (connection l).received + 1 }
      (l.client.handle now msg) (abs w)) := by
  have hlink := hclean k l hl
  obtain ⟨p₁, p', hquiet, hstep, hsame, hopen, hclean', hone, hwritten⟩ :=
    Pipe.carry takes_answers hlink.answers hm ⟨hframed, fun _ => rfl⟩ hframed.nonempty
  refine ⟨acts text k { l with answers := p' } (l.client.handle now msg) w, ?_, ?_, ?_⟩
  · refine (run_answers hl ho hcon hr hquiet).snoc (e := .answer k now .complete) (fun _ _ => trivial) ?_
    simp [next, ho, hcon, hr, hstep, hopen, handedOver_next hsame hone, acts]
  · rw [abs_acts]
    simp only [connection, hone, List.length_append, List.length_singleton]
  · exact clean_put hclean ⟨Pipe.clean_write hlink.requests _, hclean', hwritten.trans hlink.sent⟩

theorem realised_next {e : Chat.Ev} (hchat : Chat.Inv (abs w)) (hfits : ChatFits text secure (abs w))
    (hclean : Clean text w) (he : Chat.next (abs w) e = some s') : Realised text secure w s' := by
  have hlink {k : Nat} {c : Connection} (hc : (abs w).connections k = some c) :
      ∃ l, w.links k = some l ∧ connection l = c := Option.map_eq_some_iff.mp hc
  cases e with
  | accept onError username =>
    have hstep : ∃ w', next text secure w (.accept onError username) = some w' := ⟨_, rfl⟩
    obtain ⟨w', hnext⟩ := hstep
    refine ⟨w', Machine.Run.refl.snoc (e := .accept onError username) trivial hnext,
      Option.some.inj ((sim_accept hnext).symm.trans he), ?_⟩
    cases hnext
    refine clean_put (w := { w with store := { w.store with mSessions := _ }, made := w.made + 1 }) hclean ?_
    refine ⟨Pipe.clean_init _, Pipe.clean_init _, ?_⟩
    exact (inbox_eq_nil fun e he => Nat.ne_of_lt (hchat.sent e he)).symm
  | connected k now =>
    obtain ⟨c, hc, he⟩ := Option.bind_eq_some_iff.mp he
    obtain ⟨l, hl, rfl⟩ := hlink hc
    obtain ⟨hready, he⟩ := Option.ite_none_right_eq_some.mp he
    cases he
    have hready' : (l.isOpen && !l.connected) = true := hready
    refine ⟨acts text k { l with connected := true } (l.client.onConnect now) w, ?_, abs_acts ..,
      clean_put hclean ⟨Pipe.clean_write (hclean k l hl).requests _, (hclean k l hl).answers, (hclean k l hl).sent⟩⟩
    exact Machine.Run.refl.snoc (e := .connected k now) trivial (by simp only [next, hl, Option.bind_some, if_pos hready'])
  | say k now line =>
    obtain ⟨c, hc, he⟩ := Option.bind_eq_some_iff.mp he
    obtain ⟨l, hl, rfl⟩ := hlink hc
    obtain ⟨hready, he⟩ := Option.ite_none_right_eq_some.mp he
    cases he
    have hready' : (l.isOpen && l.connected && line.text != "") = true := hready
    refine ⟨acts text k { l with said := l.said ++ [line] } (l.client.say now line) w, ?_, abs_acts ..,
      clean_put hclean ⟨Pipe.clean_write (hclean k l hl).requests _, (hclean k l hl).answers, (hclean k l hl).sent⟩⟩
    exact Machine.Run.refl.snoc (e := .say k now line) trivial (by simp only [next, hl, Option.bind_some, if_pos hready'])
  | serve k now =>
    obtain ⟨c, hc, he⟩ := Option.bind_eq_some_iff.mp he
    obtain ⟨request, hq, he⟩ := Option.bind_eq_some_iff.mp he
    obtain ⟨l, hl, rfl⟩ := hlink hc
    obtain ⟨ho, he⟩ := Option.ite_none_right_eq_some.mp he
    cases he
    refine realised_serve hclean hl ho hq ?_
    have hin := List.mem_of_getElem? hq
    obtain ⟨id, call, hread⟩ := (hchat.conn k _ hc).calls request hin
    refine ⟨hfits.asked k _ hc request hin, fun _ => ?_⟩
    simp only [hread]
    rfl
  | deliver k now =>
    obtain ⟨c, hc, he⟩ := Option.bind_eq_some_iff.mp he
    obtain ⟨msg, hm, he⟩ := Option.bind_eq_some_iff.mp he
    obtain ⟨l, hl, rfl⟩ := hlink hc
    obtain ⟨hready, he⟩ := Option.ite_none_right_eq_some.mp he
    cases he
    have hready' : (l.isOpen && l.connected && l.client.mIsRunning) = true := hready
    simp only [Bool.and_eq_true] at hready'
    have hget : (inbox w.store.sent k)[l.answers.handed.length]? = some msg := by
      rw [← List.head?_drop]
      exact hm
    exact realised_deliver hclean hl hready'.1.1 hready'.1.2 hready'.2 ((hclean k l hl).sent ▸ hget)
      (hfits.sent k _ hc msg (List.mem_of_getElem? hget))
  | close k now =>
    obtain ⟨c, hc, he⟩ := Option.bind_eq_some_iff.mp he
    obtain ⟨l, hl, rfl⟩ := hlink hc
    obtain ⟨ho, he⟩ := Option.ite_none_right_eq_some.mp he
    cases he
    have ho' : l.isOpen = true := ho
    have hshut : LinkClean text w.store.sent k { l with isOpen := false } :=
      ⟨(hclean k l hl).requests, (hclean k l hl).answers, (hclean k l hl).sent⟩
    refine ⟨shut text k now l w, ?_, abs_shut .., clean_run _ (clean_put hclean hshut)⟩
    exact Machine.Run.refl.snoc (e := .close k now) trivial (by simp only [next, hl, Option.bind_some, if_pos ho'])

/-! ## The same states -/

/-- What was asked and sent stays so. -/
theorem chat_grows {e : Chat.Ev} (hn : Chat.Numbered s) (he : Chat.next s e = some s') :
    s.store.sent <+: s'.store.sent ∧
      ∀ k c, s.connections k = some c → ∃ c', s'.connections k = some c' ∧ c.asked <+: c'.asked := by
  have hput {k : Nat} {c c' : Connection} {u : St} (hc : s.connections k = some c) (hu : u.connections = s.connections)
      (hasked : c.asked <+: c'.asked) (j : Nat) (d : Connection) (hd : s.connections j = some d) :
      ∃ d', (Chat.put k c' u).connections j = some d' ∧ d.asked <+: d'.asked := by
    by_cases hj : j = k
    · subst hj
      obtain rfl := Option.some.inj (hc.symm.trans hd)
      exact ⟨c', by simp [Chat.put], hasked⟩
    · exact ⟨d, by simp [Chat.put, Function.update_of_ne hj, hu, hd], List.prefix_rfl⟩
  cases e with
  | accept onError username =>
    cases he
    refine ⟨List.prefix_rfl, ?_⟩
    intro j d hd
    have hj : j ≠ s.made := Nat.ne_of_lt (hn j d hd)
    exact ⟨d, by simp [Chat.put, Function.update_of_ne hj, hd], List.prefix_rfl⟩
  | connected k now =>
    obtain ⟨c, hc, he⟩ := Option.bind_eq_some_iff.mp he
    obtain ⟨-, he⟩ := Option.ite_none_right_eq_some.mp he
    cases he
    exact ⟨List.prefix_rfl, hput hc rfl (List.prefix_append _ _)⟩
  | say k now line =>
    obtain ⟨c, hc, he⟩ := Option.bind_eq_some_iff.mp he
    obtain ⟨-, he⟩ := Option.ite_none_right_eq_some.mp he
    cases he
    exact ⟨List.prefix_rfl, hput hc rfl (List.prefix_append _ _)⟩
  | serve k now =>
    obtain ⟨c, hc, he⟩ := Option.bind_eq_some_iff.mp he
    obtain ⟨request, -, he⟩ := Option.bind_eq_some_iff.mp he
    obtain ⟨-, he⟩ := Option.ite_none_right_eq_some.mp he
    cases he
    refine ⟨?_, hput hc rfl List.prefix_rfl⟩
    show s.store.sent <+: ((onMessage now c.uid request k).run exec s.store).1.sent
    rw [appends_onMessage now c.uid request k s.store]
    exact List.prefix_append _ _
  | deliver k now =>
    obtain ⟨c, hc, he⟩ := Option.bind_eq_some_iff.mp he
    obtain ⟨msg, -, he⟩ := Option.bind_eq_some_iff.mp he
    obtain ⟨-, he⟩ := Option.ite_none_right_eq_some.mp he
    cases he
    exact ⟨List.prefix_rfl, hput hc rfl (List.prefix_append _ _)⟩
  | close k now =>
    obtain ⟨c, hc, he⟩ := Option.bind_eq_some_iff.mp he
    obtain ⟨-, he⟩ := Option.ite_none_right_eq_some.mp he
    cases he
    refine ⟨?_, hput hc rfl List.prefix_rfl⟩
    show s.store.sent <+: ((onClose now c.uid).run exec s.store).1.sent
    rw [appends_onClose now c.uid s.store]
    exact List.prefix_append _ _

theorem ChatFits.of_next {e : Chat.Ev} (hn : Chat.Numbered s) (he : Chat.next s e = some s')
    (hfits : ChatFits text secure s') : ChatFits text secure s := by
  obtain ⟨⟨new, hsent⟩, hasked⟩ := chat_grows hn he
  refine ⟨Nat.lt_of_le_of_lt (made_le hn he) hfits.made, ?_, ?_, ?_⟩
  · intro k c hc m hm
    obtain ⟨c', hc', hpre⟩ := hasked k c hc
    exact hfits.asked k c' hc' m (hpre.subset hm)
  · intro k c hc m hm
    obtain ⟨c', hc', -⟩ := hasked k c hc
    refine hfits.sent k c' hc' m ?_
    rw [← hsent, inbox_append]
    exact List.mem_append_left _ hm
  · intro k c hc
    obtain ⟨c', hc', hpre⟩ := hasked k c hc
    exact Nat.lt_of_le_of_lt hpre.length_le (hfits.few k c' hc')

/-- A run over messages that fit is one over bytes, which ends between messages. -/
theorem realised_run (hrun : Machine.Run Chat.next IdsKept Chat.init s) (hfits : ChatFits text secure s) :
    Realised text secure init s := by
  have h : Machine.Run Chat.next IdsKept Chat.init s ∧ (ChatFits text secure s → Realised text secure init s) := by
    refine Machine.run_invariant (fun s => Machine.Run Chat.next IdsKept Chat.init s ∧
      (ChatFits text secure s → Realised text secure init s)) ⟨.refl, fun _ => ⟨init, .refl, rfl, ?_⟩⟩ ?_ hrun
    · intro k l hl
      cases hl
    intro s e s' ih hids he
    obtain ⟨hrun, h⟩ := ih
    refine ⟨hrun.snoc hids he, ?_⟩
    intro hfits'
    have hfits := hfits'.of_next (run_numbered (hrun.mono fun _ _ _ => trivial)) he
    obtain ⟨w, hw, rfl, hclean⟩ := h hfits
    obtain ⟨w', hw', hs', hclean'⟩ := realised_next (run_rosters hrun hfits.made).1 hfits hclean he
    exact ⟨w', hw.trans hw', hs', hclean'⟩
  exact h.2 hfits

/-- The steps but new sessions, lines and closes. -/
def Moving : Ev → Prop
  | .connected _ _ | .request _ _ _ | .answer _ _ _ => True
  | _ => False

def AtRest (text : JsonText) (secure : Bool) (w : World) : Prop := ∀ e, Moving e → Timely w e → next text secure w e = none

theorem settled_at_rest (hchat : Chat.Inv (abs w)) (hpiped : Piped text secure w) (hfits : Fits text secure w)
    (hrest : AtRest text secure w) : Settled (abs w) := by
  intro k c hc ho
  obtain ⟨l, hl, rfl⟩ := Option.map_eq_some_iff.mp hc
  have hopen : l.isOpen = true := ho
  have hconn := hchat.conn k _ (abs_links hl)
  have hrunning : l.client.mIsRunning = true := hconn.mIsRunning
  have hconnected : l.connected = true := by
    by_contra hcon
    have hnone := hrest (.connected k 0) trivial trivial
    simp [next, hl, hopen, hcon] at hnone
  have hlink := hpiped k l hl
  have hfit := hfits.links k l hl
  have hrequests : Pipe.Stuck text (sessionReader text secure) l.requests := by
    intro e htimely
    have hnone := hrest (.request k 0 e) trivial fun d hd => Option.some.inj (hl.symm.trans hd) ▸ htimely
    simpa [next, hl, hopen] using hnone
  have hanswers : Pipe.Stuck text (clientReader text) l.answers := by
    intro e htimely
    have hnone := hrest (.answer k 0 e) trivial fun d hd => Option.some.inj (hl.symm.trans hd) ▸ htimely
    simpa [next, hl, hopen, hconnected, hrunning] using hnone
  have htaken := Pipe.handed_stuck hlink.requests frames_requests (passes_requests hchat hl hfit) hrequests
  have hreceived := Pipe.handed_stuck hlink.answers frames_answers
    (fun m hm => ⟨hfit.answers m hm, fun _ => rfl⟩) hanswers
  constructor
  · exact congrArg List.length htaken
  · show (inbox w.store.sent k).drop l.answers.handed.length = []
    rw [hreceived, hlink.sent, List.drop_length]

/-- However the bytes were cut: once they rest, every line is shown and the rosters agree. -/
theorem shown_at_rest (hrun : Machine.Run (next text secure) Timely init w) (hfits : Fits text secure w)
    (hrest : AtRest text secure w) : Settled (abs w) ∧ ExactlyOnce (abs w) ∧ RostersAgree (abs w) := by
  obtain ⟨hpiped, hchat⟩ := run_piped hrun hfits
  obtain ⟨hi, hr⟩ := run_rosters hchat hfits.made
  have hset := settled_at_rest hi hpiped hfits hrest
  exact ⟨hset, exactly_once_of_inv hi hfits.made hset, agree_of_rosters hr hi hfits.made hset⟩

/-! ## A login -/

/-- What the library makes of the values on the wire when "a" logs in. -/
def loginTexts : List (Json × String) := [
  (.obj [("id", .uint32 1), ("method", .str "login"), ("params", .obj [("name", .str "a")]), ("timestamp", .uint64 0)],
    "\x7b\n    \"id\": 1,\n    \"method\": \"login\",\n    \"params\": \x7b\n        \"name\": \"a\"\n    \x7d,\n" ++
      "    \"timestamp\": 0\n\x7d"),
  (.obj [("id", .uint32 0), ("push", .obj [("event", .str "user_joined"), ("name", .str "a"), ("uid", .uint32 1)]),
      ("timestamp", .uint64 0)],
    "\x7b\n    \"id\": 0,\n    \"push\": \x7b\n        \"event\": \"user_joined\",\n        \"name\": \"a\",\n" ++
      "        \"uid\": 1\n    \x7d,\n    \"timestamp\": 0\n\x7d"),
  (.obj [("id", .uint32 1), ("result", .obj [("name", .str "a"), ("status", .str "success"), ("uid", .uint32 1)]),
      ("timestamp", .uint64 0)],
    "\x7b\n    \"id\": 1,\n    \"result\": \x7b\n        \"name\": \"a\",\n        \"status\": \"success\",\n" ++
      "        \"uid\": 1\n    \x7d,\n    \"timestamp\": 0\n\x7d"),
  (.obj [("id", .uint32 2), ("method", .str "client_list"), ("params", .null), ("timestamp", .uint64 0)],
    "\x7b\n    \"id\": 2,\n    \"method\": \"client_list\",\n    \"params\": null,\n    \"timestamp\": 0\n\x7d"),
  (.obj [("id", .uint32 2), ("result", .obj [("clients", .arr [.obj [("name", .str "a"), ("uid", .uint32 1)]])]),
      ("timestamp", .uint64 0)],
    "\x7b\n    \"id\": 2,\n    \"result\": \x7b\n        \"clients\": [\n            \x7b\n                \"name\": \"a\",\n" ++
      "                \"uid\": 1\n            \x7d\n        ]\n    \x7d,\n    \"timestamp\": 0\n\x7d")]

def loginBytes : List (Json × Bytes) := loginTexts.map fun e => (e.1, e.2.toUTF8.data.toList.map UInt8.toBitVec)

/-- Enough of the library for it. -/
def loginText : JsonText where
  dump j := (loginBytes.lookup j).getD []
  parse bytes := ((loginBytes.find? fun e => e.2 = bytes).map Prod.fst).elim
    (.error (.json "[json.exception.parse_error.101] parse error")) .ok

/-- As `Framed`, for evaluation. -/
def framed (limit : Option Nat) (text : JsonText) (m : Message) : Bool :=
  !(text.dump m.j).isEmpty && (text.dump m.j).length < 2 ^ 32 && limit.all ((text.dump m.j).length ≤ ·) &&
    (text.parse (text.dump m.j)).toOption == some m.j

theorem framed_ok {m : Message} (h : framed limit text m = true) : Framed limit text m := by
  simp only [framed, Bool.and_eq_true, Bool.not_eq_true', List.isEmpty_eq_false_iff, decide_eq_true_eq, beq_iff_eq] at h
  obtain ⟨⟨⟨hne, hshort⟩, hbounded⟩, hparses⟩ := h
  refine ⟨hne, hshort, ?_, ?_⟩
  · rintro l rfl
    simpa using hbounded
  · cases hp : text.parse (text.dump m.j) with
    | error e => simp [hp, Except.toOption] at hparses
    | ok j => simpa [hp, Except.toOption] using hparses

theorem chatFits_of (hn : Chat.Numbered s) (hmade : s.made < 2 ^ 32)
    (h : ∀ k < s.made, ∀ c ∈ s.connections k, (∀ m ∈ c.asked, framed (bound secure) text m = true) ∧
      (∀ m ∈ inbox s.store.sent k, framed none text m = true) ∧ c.asked.length < 2 ^ 32) : ChatFits text secure s := by
  refine ⟨hmade, ?_, ?_, ?_⟩
  · intro k c hc m hm
    exact framed_ok ((h k (hn k c hc) c hc).1 m hm)
  · intro k c hc m hm
    exact framed_ok ((h k (hn k c hc) c hc).2.1 m hm)
  · intro k c hc
    exact (h k (hn k c hc) c hc).2.2

theorem atRest_of_clean (hclean : Clean text w) (hset : Settled (abs w))
    (hcon : ∀ k l, w.links k = some l → l.isOpen = true → l.connected = true) : AtRest text secure w := by
  intro e hmoving _
  cases e with
  | connected k now =>
    cases hl : w.links k with
    | none => simp [next, hl]
    | some l =>
      have hconnected := hcon k l hl
      simp [next, hl]
      exact hconnected
  | request k now e =>
    cases hl : w.links k with
    | none => simp [next, hl]
    | some l =>
      by_cases ho : l.isOpen = true
      · have hstuck := Pipe.stuck_of_clean (R := sessionReader text secure) takes_requests (hclean k l hl).requests
          (hset k _ (abs_links hl) ho).1 e
        simp [next, hl, hstuck]
      · simp [next, hl, ho]
  | answer k now e =>
    cases hl : w.links k with
    | none => simp [next, hl]
    | some l =>
      by_cases ho : l.isOpen = true
      · have hall : l.answers.handed.length = l.answers.out.written.length := by
          have hle := List.drop_eq_nil_iff.mp (hset k _ (abs_links hl) ho).2
          rw [← show l.answers.out.written = inbox (abs w).store.sent k from (hclean k l hl).sent] at hle
          exact Nat.le_antisymm (hclean k l hl).answers.handed hle
        have hstuck := Pipe.stuck_of_clean (R := clientReader text) takes_answers (hclean k l hl).answers hall e
        simp [next, hl, hstuck]
      · simp [next, hl, ho]
  | accept => exact hmoving.elim
  | say => exact hmoving.elim
  | close => exact hmoving.elim

theorem shown_at_rest_login : ∃ w, (Settled (abs w) ∧ ExactlyOnce (abs w) ∧ RostersAgree (abs w)) ∧
    ∃ l ∈ w.links 0, l.client.ctx.mUsers.entries.map (fun e => (e.1, e.2.name)) = [(1#32, "a")] := by
  have h : ∃ s ∈ Machine.execIf Chat.next idsKept Chat.init
      [.accept true "a", .connected 0 0, .serve 0 0, .deliver 0 0, .deliver 0 0, .serve 0 0, .deliver 0 0],
      quiet s = true ∧ (∀ k < s.made, ∀ c ∈ s.connections k, (∀ m ∈ c.asked, framed (bound false) loginText m = true) ∧
        (∀ m ∈ inbox s.store.sent k, framed none loginText m = true) ∧ c.asked.length < 2 ^ 32) ∧
      (∀ k < s.made, ∀ c ∈ s.connections k, c.connected = true) ∧
      ∃ c ∈ s.connections 0, c.client.ctx.mUsers.entries.map (fun e => (e.1, e.2.name)) = [(1#32, "a")] := by decide +kernel
  obtain ⟨s, hs, hquiet, hframed, hcon, c, hc, hshown⟩ := h
  have hrun : Machine.Run Chat.next IdsKept Chat.init s := Machine.run_of_execIf idsKept_ok _ hs
  have hn : Chat.Numbered s := run_numbered (hrun.mono fun _ _ _ => trivial)
  have hmade : s.made < 2 ^ 32 := of_decide_eq_true (Bool.and_eq_true_iff.mp hquiet).1
  have hfits : ChatFits loginText false s := chatFits_of hn hmade hframed
  obtain ⟨w, hw, rfl, hclean⟩ := realised_run hrun hfits
  have hrest : AtRest loginText false w := by
    refine atRest_of_clean hclean (settled_of_quiet hn hquiet) ?_
    intro k l hl _
    exact hcon k (hn k _ (abs_links hl)) _ (abs_links hl)
  obtain ⟨l, hl, rfl⟩ := Option.map_eq_some_iff.mp hc
  exact ⟨w, shown_at_rest hw ((fits_iff fun k l hl => (hclean k l hl).sent).mpr hfits) hrest, l, hl, hshown⟩

end Wire

end CryptoChat.Net
