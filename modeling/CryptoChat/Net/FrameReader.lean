/-
  CryptoChat.Net.FrameReader — what the read loops do with a stream.

  `scan` reads a stream given whole, frame by frame, with the checks of the code and no
  buffer. Proved: a read loop in front of a stream goes where `scan` says
  (`drain_scan`, and `drain_client` for the client), for any bound on the length and any
  message callback.
-/

import CryptoChat.Net.ReadLoop

namespace CryptoChat.Net

open CryptoChat.Lib

/-! ## The loops as exact readers -/

namespace ReadLoop

theorem pending_report (cb : Callbacks) (what : String) (s : ReadLoop) : (report cb what s).pending = s.pending := by
  unfold report
  split <;> rfl

theorem pending_close (s : ReadLoop) : (close s).pending = s.pending := by
  unfold close
  split <;> rfl

/-- A callback touches neither the outstanding read, nor the socket, nor the buffer. -/
theorem callback_same {f : MessageCallback} {m : Message} {s s' : ReadLoop} {r : Except Exn Unit}
    (h : callback f m s = (s', r)) :
    s'.pending = s.pending ∧ s'.mIsClosed = s.mIsClosed ∧ s'.closes = s.closes ∧ s'.mBuffer = s.mBuffer := by
  unfold callback at h
  split at h <;> cases h <;> exact ⟨rfl, rfl, rfl, rfl⟩

theorem pending_onBodyRead (text : JsonText) (cb : Callbacks) (wrap : String → String) (s : ReadLoop)
    (h : s.pending = none) :
    (onBodyRead text cb wrap none s).pending = none ∨ (onBodyRead text cb wrap none s).pending = some .header := by
  simp only [onBodyRead]
  split
  · exact .inr rfl
  · split
    · simp [pending_close, pending_report, h]
    · split
      · rename_i heq
        simp [pending_close, pending_report, (callback_same heq).1, h]
      · exact .inr rfl

end ReadLoop

/-- The completion handlers of a read loop: nothing is read after an error, and no body is
    read right after a body. -/
structure Handlers where
  onHeaderRead : Option String → ReadLoop → ReadLoop
  onBodyRead : Option String → ReadLoop → ReadLoop
  header_error : ∀ e s, s.pending = none → (onHeaderRead (some e) s).pending = none
  body_error : ∀ e s, s.pending = none → (onBodyRead (some e) s).pending = none
  body_success : ∀ s, s.pending = none →
    (onBodyRead none s).pending = none ∨ (onBodyRead none s).pending = some .header

open ReadLoop in
def Handlers.reader (h : Handlers) : ExactRead.Reader ReadLoop Byte String where
  want := want
  feed s bytes := complete h.onHeaderRead h.onBodyRead none (fill bytes s)
  fail s e := complete h.onHeaderRead h.onBodyRead (some e) s
  want_fail s e := by
    unfold complete want
    split
    · simp [*]
    · simp [h.header_error]
    · simp [h.body_error]
  want_feed s hs := by
    cases hp : s.pending with
    | none => simp [want, hp] at hs
    | some p =>
      cases p with
      | header => simp [want, hp, kHeaderSize, kTypeFieldSize] at hs
      | body n =>
        simp only [complete, fill, hp, want]
        rcases h.body_success { s with mBuffer := s.mBuffer.take kHeaderSize ++ [], pending := none } rfl with h | h
        · rw [h]
          simp
        · rw [h]
          simp [kHeaderSize, kTypeFieldSize]

namespace ReadLoop

/-- The loop the sessions run, for a bound on the declared length and a text for exceptions. -/
def handlers (limit : Option Nat) (wrap : String → String) (text : JsonText) (cb : Callbacks) : Handlers where
  onHeaderRead := onHeaderRead cb limit
  onBodyRead := onBodyRead text cb wrap
  header_error e s h := by simp [onHeaderRead, pending_close, pending_report, h]
  body_error e s h := by simp [onBodyRead, pending_close, pending_report, h]
  body_success := pending_onBodyRead text cb wrap

end ReadLoop

def PlainSession.handlers (text : JsonText) (cb : Callbacks) : Handlers where
  onHeaderRead := PlainSession.onHeaderRead cb
  onBodyRead := PlainSession.onBodyRead text cb
  header_error := (ReadLoop.handlers (some maxPayload) id text cb).header_error
  body_error := (ReadLoop.handlers (some maxPayload) id text cb).body_error
  body_success := (ReadLoop.handlers (some maxPayload) id text cb).body_success

def SecureSession.handlers (text : JsonText) (cb : Callbacks) : Handlers where
  onHeaderRead := SecureSession.onHeaderRead cb
  onBodyRead := SecureSession.onBodyRead text cb
  header_error := (ReadLoop.handlers none id text cb).header_error
  body_error := (ReadLoop.handlers none id text cb).body_error
  body_success := (ReadLoop.handlers none id text cb).body_success

open ReadLoop in
def Client.handlers (text : JsonText) (cb : Callbacks) (f : MessageCallback) : Handlers where
  onHeaderRead := Client.onHeaderRead cb
  onBodyRead := Client.onBodyRead text cb f
  header_error e s h := by
    simp only [Client.onHeaderRead, Client.handleIoError]
    split <;> simp [pending_close, pending_report, h]
  body_error e s h := by
    simp only [Client.onBodyRead, Client.handleIoError]
    split <;> simp [pending_close, pending_report, h]
  body_success s h := by
    simp only [Client.onBodyRead, Client.handleIoError]
    split
    · simp [pending_close, pending_report, h]
    · split
      · rename_i heq
        simp [pending_close, pending_report, (callback_same heq).1, h]
      · rename_i heq
        split
        · exact .inl ((callback_same heq).1.trans h)
        · exact .inr rfl

/-! ## Streams given whole -/

/-- The type and the declared length of the first frame, once its header is complete. -/
def header? (bs : Bytes) : Option (MessageType × Nat) :=
  if kHeaderSize ≤ bs.length then
    some (⟨bs.headD 0#8⟩, (ofBytes 32 ((bs.drop kTypeFieldSize).take kLengthFieldSize)).toNat)
  else none

/-- Why a loop gave up. -/
inductive Reason where
  | tooLarge
  | thrown (what : String)
  deriving DecidableEq

inductive Verdict where
  | waiting
  | rejected (reason : Reason)
  deriving DecidableEq

structure Scan where
  invoked : List Message
  returned : List Message
  verdict : Verdict
  /-- From the first frame that is not complete, or is rejected. -/
  rest : Bytes

variable (limit : Option Nat) (wrap : String → String) (text : JsonText) (f : MessageCallback)

theorem length_of_header? {bs : Bytes} {h : MessageType × Nat} (hh : header? bs = some h) :
    kHeaderSize ≤ bs.length := by
  unfold header? at hh
  split at hh
  · assumption
  · cases hh

/-- The stream read frame by frame, after the messages in `past`. -/
def scan (past : List Message) (bs : Bytes) : Scan :=
  match _hh : header? bs with
  | none => ⟨[], [], .waiting, bs⟩
  | some (type, len) =>
    if limit.any (· < len) then ⟨[], [], .rejected .tooLarge, bs⟩
    else if bs.length < kHeaderSize + len then ⟨[], [], .waiting, bs⟩
    else
      match Message.decode text type ((bs.drop kHeaderSize).take len) with
      | .error e => ⟨[], [], .rejected (.thrown e.what), bs⟩
      | .ok m =>
        match f past m with
        | .error e => ⟨[m], [], .rejected (.thrown e.what), bs⟩
        | .ok () =>
          let r := scan (past ++ [m]) (bs.drop (kHeaderSize + len))
          ⟨m :: r.invoked, m :: r.returned, r.verdict, r.rest⟩
termination_by bs.length
decreasing_by
  have := length_of_header? _hh
  simp only [kHeaderSize, kTypeFieldSize, kLengthFieldSize, List.length_drop] at this ⊢
  omega

section Equations

variable {limit text f} {past : List Message} {bs : Bytes} {type : MessageType} {len : Nat}

theorem scan_none (hh : header? bs = none) : scan limit text f past bs = ⟨[], [], .waiting, bs⟩ := by
  rw [scan]
  split
  · rfl
  · simp_all

theorem scan_some (hh : header? bs = some (type, len)) :
    scan limit text f past bs =
      if limit.any (· < len) then ⟨[], [], .rejected .tooLarge, bs⟩
      else if bs.length < kHeaderSize + len then ⟨[], [], .waiting, bs⟩
      else
        match Message.decode text type ((bs.drop kHeaderSize).take len) with
        | .error e => ⟨[], [], .rejected (.thrown e.what), bs⟩
        | .ok m =>
          match f past m with
          | .error e => ⟨[m], [], .rejected (.thrown e.what), bs⟩
          | .ok () =>
            let r := scan limit text f (past ++ [m]) (bs.drop (kHeaderSize + len))
            ⟨m :: r.invoked, m :: r.returned, r.verdict, r.rest⟩ := by
  conv_lhs => rw [scan]
  split
  · simp_all
  · rename_i t l hh'
    rw [hh] at hh'
    cases hh'
    rfl

end Equations

namespace ReadLoop

/-- A loop that nothing has closed, after the messages in `past`. -/
def reading (buffer : Bytes) (p : Pending) (past : List Message) : ReadLoop :=
  ⟨buffer, some p, false, 0, [], past, past⟩

/-- The error reports of a loop that closed. -/
def reports (cb : Callbacks) (reason : Reason) : List String :=
  if cb.mErrorCallback then
    match reason with
    | .tooLarge => ["Payload too large"]
    | .thrown what => [wrap what]
  else []

/-- The loop `s`, with `rest` not read yet, is where a scan after `past` says. -/
structure AtScan (cb : Callbacks) (past : List Message) (r : Scan) (s : ReadLoop) (rest : Bytes) : Prop where
  invoked : s.invoked = past ++ r.invoked
  returned : s.returned = past ++ r.returned
  waiting : r.verdict = .waiting → s.mIsClosed = false ∧ s.closes = 0 ∧ s.errors = [] ∧
    (header? r.rest = none ∧ s.pending = some .header ∧ rest = r.rest ∨
      ∃ type len, header? r.rest = some (type, len) ∧ s.pending = some (.body len) ∧ rest = r.rest.drop kHeaderSize)
  rejected : ∀ reason, r.verdict = .rejected reason →
    s.pending = none ∧ s.mIsClosed = true ∧ s.closes = 1 ∧ s.errors = reports wrap cb reason

theorem length_resize (n : Nat) (b : Bytes) : (resize n b).length = n := by
  simp [resize]
  omega

theorem take_resize {n k : Nat} (b : Bytes) (hk : k ≤ b.length) (hn : k ≤ n) : (resize n b).take k = b.take k := by
  rw [resize, List.take_append_of_le_length (by simp; omega), List.take_take, Nat.min_eq_left hn]

theorem headD_of_take {a b : Bytes} {n : Nat} (h : a.take (n + 1) = b.take (n + 1)) : a.headD 0#8 = b.headD 0#8 := by
  cases a <;> cases b <;> simp_all

theorem header?_take {bs : Bytes} : header? (bs.take kHeaderSize) = header? bs := by
  by_cases h : kHeaderSize ≤ bs.length
  · have ht : kHeaderSize ≤ (bs.take kHeaderSize).length := by simp [h]
    have hd : ((bs.take kHeaderSize).drop kTypeFieldSize).take kLengthFieldSize =
        (bs.drop kTypeFieldSize).take kLengthFieldSize := by
      rw [List.drop_take, List.take_take]
      rfl
    rw [header?, header?, if_pos ht, if_pos h, hd]
    cases bs <;> rfl
  · have ht : ¬ kHeaderSize ≤ (bs.take kHeaderSize).length := by
      simp
      omega
    rw [header?, header?, if_neg ht, if_neg h]

theorem feed_header (cb : Callbacks) {b hdr : Bytes} (hl : hdr.length = kHeaderSize) (past : List Message)
    {type : MessageType}
    {len : Nat} (hh : header? hdr = some (type, len)) :
    (handlers limit wrap text cb).reader.feed (reading b .header past) hdr =
      if limit.any (· < len) then ⟨hdr, none, true, 1, reports wrap cb .tooLarge, past, past⟩
      else reading (resize (kHeaderSize + len) hdr) (.body len) past := by
  have hn : ntohl (hostWord ((hdr.drop kTypeFieldSize).take kLengthFieldSize)) =
      ofBytes 32 ((hdr.drop kTypeFieldSize).take kLengthFieldSize) :=
    ntohl_hostWord (by simp [hl, kHeaderSize, kTypeFieldSize, kLengthFieldSize])
  rw [header?, if_pos (by omega)] at hh
  cases hh
  simp only [Handlers.reader, handlers, complete, fill, reading, onHeaderRead, payloadSize, hn]
  split
  · simp only [close, report, reports]
    split <;> simp
  · rfl

theorem feed_body (cb : Callbacks) (hcb : cb.mMessageCallback = some f) {b : Bytes} (hl : kHeaderSize ≤ b.length)
    (payload : Bytes) (past : List Message) {len : Nat} :
    (handlers limit wrap text cb).reader.feed (reading b (.body len) past) payload =
      match Message.decode text ⟨b.headD 0#8⟩ payload with
      | .error e => ⟨b.take kHeaderSize ++ payload, none, true, 1, reports wrap cb (.thrown e.what), past, past⟩
      | .ok m =>
        match f past m with
        | .error e =>
          ⟨b.take kHeaderSize ++ payload, none, true, 1, reports wrap cb (.thrown e.what), past ++ [m], past⟩
        | .ok () => reading (resize kHeaderSize (b.take kHeaderSize ++ payload)) .header (past ++ [m]) := by
  have hd : (b.take kHeaderSize ++ payload).drop kHeaderSize = payload :=
    List.drop_left' (by simp [hl])
  have ht : (b.take kHeaderSize ++ payload).headD 0#8 = b.headD 0#8 := by
    cases b with
    | nil => simp [kHeaderSize, kTypeFieldSize] at hl
    | cons x b => rfl
  simp only [Handlers.reader, handlers, complete, fill, reading, onBodyRead, hcb, decodeBuffer, hd, ht]
  cases Message.decode text ⟨b.headD 0#8⟩ payload with
  | error e =>
    simp only [close, report, reports]
    split <;> simp
  | ok m =>
    simp only [callback]
    cases f past m with
    | error e =>
      simp only [close, report, reports]
      split <;> simp
    | ok _ => rfl

theorem drain_header (cb : Callbacks) (b : Bytes) (past : List Message) {bs : Bytes} {type : MessageType} {len : Nat}
    (hh : header? bs = some (type, len)) :
    ExactRead.drain (handlers limit wrap text cb).reader (reading b .header past) bs =
      if limit.any (· < len) then
        (⟨bs.take kHeaderSize, none, true, 1, reports wrap cb .tooLarge, past, past⟩, bs.drop kHeaderSize)
      else ExactRead.drain (handlers limit wrap text cb).reader
        (reading (resize (kHeaderSize + len) (bs.take kHeaderSize)) (.body len) past) (bs.drop kHeaderSize) := by
  have hw : (handlers limit wrap text cb).reader.want (reading b .header past) = some kHeaderSize := rfl
  have hl := length_of_header? hh
  have hl' : (bs.take kHeaderSize).length = kHeaderSize := by simp [hl]
  rw [ExactRead.drain_read _ hw hl, feed_header limit wrap text cb hl' past (header?_take.trans hh)]
  split
  · exact ExactRead.drain_stopped _ rfl _
  · rfl

/-- A whole frame within the bound is decoded and handed over. -/
theorem drain_frame (cb : Callbacks) (hcb : cb.mMessageCallback = some f) (b : Bytes) (past : List Message) {bs : Bytes}
    {type : MessageType} {len : Nat} (hh : header? bs = some (type, len)) (hl : ¬ limit.any (· < len) = true)
    (hs : ¬ bs.length < kHeaderSize + len) :
    ExactRead.drain (handlers limit wrap text cb).reader (reading b .header past) bs =
      ExactRead.drain (handlers limit wrap text cb).reader
        (match Message.decode text type ((bs.drop kHeaderSize).take len) with
        | .error e => ⟨bs.take (kHeaderSize + len), none, true, 1, reports wrap cb (.thrown e.what), past, past⟩
        | .ok m =>
          match f past m with
          | .error e =>
            ⟨bs.take (kHeaderSize + len), none, true, 1, reports wrap cb (.thrown e.what), past ++ [m], past⟩
          | .ok () => reading (resize kHeaderSize (bs.take (kHeaderSize + len))) .header (past ++ [m]))
        (bs.drop (kHeaderSize + len)) := by
  have hbs := length_of_header? hh
  have hr : (resize (kHeaderSize + len) (bs.take kHeaderSize)).take kHeaderSize = bs.take kHeaderSize := by
    rw [take_resize _ (by simp [hbs]) (by omega), List.take_take, Nat.min_self]
  have ht : type = ⟨(resize (kHeaderSize + len) (bs.take kHeaderSize)).headD 0#8⟩ := by
    rw [header?, if_pos hbs] at hh
    cases hh
    rw [headD_of_take hr]
  have hw : (handlers limit wrap text cb).reader.want
      (reading (resize (kHeaderSize + len) (bs.take kHeaderSize)) (.body len) past) = some len := rfl
  rw [drain_header limit wrap text cb b past hh, if_neg hl, ExactRead.drain_read _ hw (by simp; omega),
    feed_body limit wrap text f cb hcb (by simp [length_resize]), hr, List.drop_drop, ← List.take_add, ← ht]

/-- A loop in front of a stream goes where the scan of the stream says. -/
theorem drain_scan (cb : Callbacks) (hcb : cb.mMessageCallback = some f) (b : Bytes) (past : List Message)
    (bs : Bytes) :
    AtScan wrap cb past (scan limit text f past bs)
      (ExactRead.drain (handlers limit wrap text cb).reader (reading b .header past) bs).1
      (ExactRead.drain (handlers limit wrap text cb).reader (reading b .header past) bs).2 := by
  induction past, bs using scan.induct limit text f generalizing b with
  | case1 past bs hh =>
    have hw : (handlers limit wrap text cb).reader.want (reading b .header past) = some kHeaderSize := rfl
    have hl : bs.length < kHeaderSize := by
      by_contra h
      simp [header?, show kHeaderSize ≤ bs.length by omega] at hh
    rw [scan_none hh, ExactRead.drain_short _ hw hl]
    exact ⟨by simp [reading], by simp [reading], fun _ => ⟨rfl, rfl, rfl, .inl ⟨hh, rfl, rfl⟩⟩, nofun⟩
  | case2 past bs type len hh hl =>
    rw [scan_some hh, if_pos hl, drain_header limit wrap text cb b past hh, if_pos hl]
    refine ⟨by simp, by simp, nofun, ?_⟩
    intro reason hr
    cases hr
    exact ⟨rfl, rfl, rfl, rfl⟩
  | case3 past bs type len hh hl hs =>
    have hw : (handlers limit wrap text cb).reader.want
        (reading (resize (kHeaderSize + len) (bs.take kHeaderSize)) (.body len) past) = some len := rfl
    have hbs := length_of_header? hh
    rw [scan_some hh, if_neg hl, if_pos hs, drain_header limit wrap text cb b past hh, if_neg hl,
      ExactRead.drain_short _ hw (by simp; omega)]
    exact ⟨by simp [reading], by simp [reading], fun _ => ⟨rfl, rfl, rfl, .inr ⟨type, len, hh, rfl, rfl⟩⟩, nofun⟩
  | case4 past bs type len hh hl hs e hd =>
    rw [scan_some hh, if_neg hl, if_neg hs, drain_frame limit wrap text f cb hcb b past hh hl hs, hd]
    simp only []
    rw [ExactRead.drain_stopped _ rfl]
    refine ⟨by simp, by simp, nofun, ?_⟩
    intro reason hr
    cases hr
    exact ⟨rfl, rfl, rfl, rfl⟩
  | case5 past bs type len hh hl hs m hd e hf =>
    rw [scan_some hh, if_neg hl, if_neg hs, drain_frame limit wrap text f cb hcb b past hh hl hs, hd]
    simp only [hf]
    rw [ExactRead.drain_stopped _ rfl]
    refine ⟨by simp, by simp, nofun, ?_⟩
    intro reason hr
    cases hr
    exact ⟨rfl, rfl, rfl, rfl⟩
  | case6 past bs type len hh hl hs m hd hf ih =>
    rw [scan_some hh, if_neg hl, if_neg hs, drain_frame limit wrap text f cb hcb b past hh hl hs, hd]
    simp only [hf]
    have ih := ih (resize kHeaderSize (bs.take (kHeaderSize + len)))
    exact ⟨by simpa using ih.invoked, by simpa using ih.returned, ih.waiting, ih.rejected⟩

/-- A loop that nothing else closes: it is reading, or it closed once. -/
def Sound (s : ReadLoop) : Prop :=
  s.pending ≠ none ∧ s.mIsClosed = false ∧ s.closes = 0 ∨ s.pending = none ∧ s.mIsClosed = true ∧ s.closes = 1

theorem Sound.open {s : ReadLoop} (h : Sound s) (hp : s.pending ≠ none) : s.mIsClosed = false ∧ s.closes = 0 := by
  rcases h with h | h
  · exact h.2
  · exact absurd h.1 hp

theorem sound_reading (b : Bytes) (p : Pending) (past : List Message) : Sound (reading b p past) :=
  .inl ⟨by simp [reading], rfl, rfl⟩

theorem sound_close (cb : Callbacks) {s : ReadLoop} (hp : s.pending = none) (hc : s.mIsClosed = false ∧ s.closes = 0)
    (what : String) : Sound (close (report cb what s)) := by
  have hr : (report cb what s).mIsClosed = false ∧ (report cb what s).closes = 0 := by
    unfold report
    split <;> exact hc
  refine .inr ⟨by simp [pending_close, pending_report, hp], ?_⟩
  simp [close, hr]

theorem sound_onHeaderRead (cb : Callbacks) {s : ReadLoop} (hp : s.pending = none)
    (hc : s.mIsClosed = false ∧ s.closes = 0) (ec : Option String) : Sound (onHeaderRead cb limit ec s) := by
  cases ec with
  | some e => exact sound_close cb hp hc e
  | none =>
    simp only [onHeaderRead]
    split
    · exact sound_close cb hp hc _
    · exact .inl ⟨by simp [readBody], hc⟩

theorem sound_onBodyRead (cb : Callbacks) {s : ReadLoop} (hp : s.pending = none)
    (hc : s.mIsClosed = false ∧ s.closes = 0) (ec : Option String) : Sound (onBodyRead text cb wrap ec s) := by
  cases ec with
  | some e => exact sound_close cb hp hc e
  | none =>
    simp only [onBodyRead]
    split
    · exact .inl ⟨by simp [readHeader], hc⟩
    · split
      · exact sound_close cb hp hc _
      · split
        · rename_i heq
          obtain ⟨h1, h2, h3, -⟩ := callback_same heq
          exact sound_close cb (h1.trans hp) ⟨h2.trans hc.1, h3.trans hc.2⟩ _
        · rename_i heq
          obtain ⟨-, h2, h3, -⟩ := callback_same heq
          exact .inl ⟨by simp [readHeader], h2.trans hc.1, h3.trans hc.2⟩

theorem sound_complete (cb : Callbacks) {s : ReadLoop} (h : Sound s) (ec : Option String) :
    Sound (complete (onHeaderRead cb limit) (onBodyRead text cb wrap) ec s) := by
  cases hp : s.pending with
  | none => simpa [complete, hp] using h
  | some p =>
    have hc := h.open (by simp [hp])
    have hn : ({ s with pending := none } : ReadLoop).pending = none := rfl
    cases p with
    | header => simpa only [complete, hp] using sound_onHeaderRead limit cb hn hc ec
    | body n => simpa only [complete, hp] using sound_onBodyRead wrap text cb hn hc ec

theorem sound_fill {s : ReadLoop} (h : Sound s) (bytes : Bytes) : Sound (fill bytes s) := by
  unfold fill
  split <;> exact h

theorem sound_feed (cb : Callbacks) {s : ReadLoop} (h : Sound s) (bytes : Bytes) :
    Sound ((handlers limit wrap text cb).reader.feed s bytes) :=
  sound_complete limit wrap text cb (sound_fill h bytes) none

end ReadLoop

open ReadLoop

/-! ## The client's loop -/

/-- While the client is running its handlers do what the loop without a bound does. -/
theorem client_feed (cb : Callbacks) (hcb : cb.mMessageCallback = some f) {s : ReadLoop} (h : Sound s)
    (hw : s.pending ≠ none) (bytes : Bytes) :
    (Client.handlers text cb f).reader.feed s bytes =
      (handlers none ("Decode error: " ++ ·) text cb).reader.feed s bytes := by
  have hs := (h.open hw).1
  cases hp : s.pending with
  | none => exact absurd hp hw
  | some p =>
    cases p with
    | header =>
      simp [Handlers.reader, handlers, Client.handlers, complete, fill, hp, ReadLoop.onHeaderRead, Client.onHeaderRead,
        Client.handleIoError]
    | body n =>
      simp only [Handlers.reader, handlers, Client.handlers, complete, fill, hp, ReadLoop.onBodyRead, Client.onBodyRead,
        Client.handleIoError, hcb]
      split
      · rfl
      · split
        · rfl
        · rename_i heq
          rw [if_neg (by simp [(callback_same heq).2.1, hs])]
          rfl

theorem drain_client (cb : Callbacks) (hcb : cb.mMessageCallback = some f) (b : Bytes) (past : List Message)
    (bs : Bytes) :
    ExactRead.drain (Client.handlers text cb f).reader (reading b .header past) bs =
      ExactRead.drain (handlers none ("Decode error: " ++ ·) text cb).reader (reading b .header past) bs := by
  have hw {s : ReadLoop} (h : want s ≠ none) : s.pending ≠ none := fun hn => h (by simp [want, hn])
  have hf (s : ReadLoop) (bs : Bytes) (h : Sound s) (hn : want s ≠ none) :=
    (client_feed text f cb hcb h (hw hn) bs).symm
  have hl (s : ReadLoop) (bs : Bytes) (h : Sound s) (_ : want s ≠ none) :=
    sound_feed none ("Decode error: " ++ ·) text cb h bs
  have hwant (s : ReadLoop) : (handlers none ("Decode error: " ++ ·) text cb).reader.want s =
      (Client.handlers text cb f).reader.want s := rfl
  exact (ExactRead.drain_congr hwant hf hl (sound_reading b .header past) bs).symm

end CryptoChat.Net
