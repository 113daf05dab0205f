/-
  CryptoChat.Net.SessionStream — the read loop of `PlainSession` on a connection, whatever
  the pieces in which bytes arrive and are read.

  Proved:
  (1) On any bytes, the plain session delivers exactly the longest prefix of good frames,
      closes once at the first frame that is not good and delivers nothing after it, and
      its buffer stays within a header and 1 MiB (`plain_session_stream`).
  (2) On the encodings of messages it delivers these messages, in order, and waits for a
      header with nothing left over (`plain_session_round_trip`).
-/

import CryptoChat.Net.FrameStream

namespace CryptoChat.Net

open CryptoChat.Lib ReadLoop

/-! ## The loops grow what they have delivered -/

section Loop

variable (limit : Option Nat) (wrap : String → String) (text : JsonText) (cb : Callbacks)

/-- `s'` has delivered what `s` has, and maybe more. -/
def Grows (s s' : ReadLoop) : Prop := s.invoked <+: s'.invoked ∧ s.returned <+: s'.returned

theorem Grows.refl (s : ReadLoop) : Grows s s := ⟨List.prefix_rfl, List.prefix_rfl⟩

theorem Grows.trans {s s' s'' : ReadLoop} (h : Grows s s') (h' : Grows s' s'') : Grows s s'' :=
  ⟨h.1.trans h'.1, h.2.trans h'.2⟩

/-- Closing delivers nothing. -/
theorem close_delivered (what : String) (s : ReadLoop) :
    (close (report cb what s)).invoked = s.invoked ∧ (close (report cb what s)).returned = s.returned := by
  unfold close report
  split <;> split <;> simp

theorem grows_close {s s' : ReadLoop} (h : Grows s s') (what : String) : Grows s (close (report cb what s')) := by
  obtain ⟨h1, h2⟩ := close_delivered cb what s'
  exact ⟨h1 ▸ h.1, h2 ▸ h.2⟩

theorem grows_callback {f : MessageCallback} {m : Message} {s s' : ReadLoop} {r : Except Exn Unit}
    (h : callback f m s = (s', r)) : Grows s s' := by
  unfold callback at h
  split at h <;> cases h <;> simp [Grows]

theorem grows_onHeaderRead (s : ReadLoop) (ec : Option String) : Grows s (onHeaderRead cb limit ec s) := by
  cases ec with
  | some e => exact grows_close cb (.refl s) e
  | none =>
    simp only [onHeaderRead]
    split
    · exact grows_close cb (.refl s) _
    · exact .refl s

theorem grows_onBodyRead (s : ReadLoop) (ec : Option String) : Grows s (onBodyRead text cb wrap ec s) := by
  cases ec with
  | some e => exact grows_close cb (.refl s) e
  | none =>
    simp only [onBodyRead]
    split
    · exact .refl s
    · split
      · exact grows_close cb (.refl s) _
      · split
        · rename_i heq
          exact grows_close cb (grows_callback heq) _
        · rename_i heq
          have hg := grows_callback heq
          exact ⟨hg.1, hg.2⟩

theorem grows_feed (s : ReadLoop) (bytes : Bytes) : Grows s ((handlers limit wrap text cb).reader.feed s bytes) := by
  have hfill : Grows s (fill bytes s) := by
    unfold fill
    split <;> exact .refl s
  have hclear : Grows (fill bytes s) { fill bytes s with pending := none } := .refl (fill bytes s)
  refine hfill.trans ?_
  simp only [Handlers.reader, complete]
  split
  · exact .refl _
  · exact hclear.trans (grows_onHeaderRead limit cb _ none)
  · exact hclear.trans (grows_onBodyRead wrap text cb _ none)

theorem delivered_fail (s : ReadLoop) (e : String) :
    ((handlers limit wrap text cb).reader.fail s e).invoked = s.invoked ∧
      ((handlers limit wrap text cb).reader.fail s e).returned = s.returned := by
  simp only [Handlers.reader, handlers, complete]
  split
  · exact ⟨rfl, rfl⟩
  · exact close_delivered cb e _
  · exact close_delivered cb e _

end Loop

/-! ## Samples -/

def sampleMessages : List Message := [samplePush, ⟨.request, .null⟩]

/-- The header of a request of 1048577 bytes. -/
def oversizedHeader : Bytes := [0x00#8, 0x00#8, 0x10#8, 0x00#8, 0x01#8]

/-! ## The plain session -/

section Plain

variable (text : JsonText) (cb : Callbacks)

/-- The session when its first header read starts. -/
def PlainSession.started : ReadLoop := PlainSession.readHeader .start

abbrev PlainSession.reader : ExactRead.Reader ReadLoop Byte String := (PlainSession.handlers text cb).reader

/-- The bound on the buffer, and on a body being read. -/
structure Bounded (s : ReadLoop) : Prop where
  buffer : s.mBuffer.length ≤ kHeaderSize + PlainSession.maxPayload
  body : ∀ n, s.pending = some (.body n) → n ≤ PlainSession.maxPayload

theorem bounded_close {s : ReadLoop} (what : String) (h : Bounded s) (hp : s.pending = none) :
    Bounded (close (report cb what s)) := by
  constructor
  · unfold close report
    split <;> split <;> exact h.buffer
  · simp [pending_close, pending_report, hp]

theorem bounded_readHeader (s : ReadLoop) : Bounded (ReadLoop.readHeader s) :=
  ⟨by simp [ReadLoop.readHeader, length_resize], by simp [ReadLoop.readHeader]⟩

theorem bounded_onHeaderRead {s : ReadLoop} (h : Bounded s) (hp : s.pending = none) (ec : Option String) :
    Bounded (PlainSession.onHeaderRead cb ec s) := by
  cases ec with
  | some e => exact bounded_close cb e h hp
  | none =>
    simp only [PlainSession.onHeaderRead, ReadLoop.onHeaderRead]
    split
    · exact bounded_close cb _ h hp
    · rename_i hl
      have hl : s.payloadSize ≤ PlainSession.maxPayload := by simpa using hl
      refine ⟨?_, ?_⟩
      · simp only [readBody, length_resize]
        omega
      · intro n hn
        cases hn
        exact hl

theorem bounded_onBodyRead {s : ReadLoop} (h : Bounded s) (hp : s.pending = none) (ec : Option String) :
    Bounded (PlainSession.onBodyRead text cb ec s) := by
  cases ec with
  | some e => exact bounded_close cb e h hp
  | none =>
    simp only [PlainSession.onBodyRead, ReadLoop.onBodyRead]
    split
    · exact bounded_readHeader s
    · split
      · exact bounded_close cb _ h hp
      · split
        · rename_i heq
          have hp' := (callback_same heq).1.trans hp
          exact bounded_close cb _ ⟨(callback_same heq).2.2.2 ▸ h.buffer, by simp [hp']⟩ hp'
        · exact bounded_readHeader _

theorem bounded_next {c c' : ExactRead.Conn ReadLoop Byte String} {e : ExactRead.Ev Byte String} (hi : Bounded c.state)
    (h : ExactRead.next (PlainSession.reader text cb) c e = some c') : Bounded c'.state := by
  have hnone : Bounded { c.state with pending := none } := ⟨hi.buffer, fun _ h => by cases h⟩
  rcases ExactRead.next_cases _ h with
    ⟨bs, -, rfl⟩ | ⟨k, n, -, hw, h0, hk, hn, rfl⟩ | ⟨-, hw, rfl⟩ | ⟨x, n, -, hw, hn, rfl⟩
  · exact hi
  · exact hi
  · cases hp : c.state.pending with
    | none => simp [Handlers.reader, want, hp] at hw
    | some p =>
      cases p with
      | header =>
        have hlen : c.got.length = kHeaderSize := by simpa [Handlers.reader, want, hp] using hw.symm
        simp only [Handlers.reader, PlainSession.handlers, complete, fill, hp]
        have hb : Bounded { c.state with mBuffer := c.got, pending := none } :=
          ⟨by simp only [hlen]; omega, fun _ h => by cases h⟩
        exact bounded_onHeaderRead cb hb rfl none
      | body n =>
        have hlen : c.got.length = n := by simpa [Handlers.reader, want, hp] using hw.symm
        have hn := hi.body n hp
        simp only [Handlers.reader, PlainSession.handlers, complete, fill, hp]
        have hb : Bounded { c.state with mBuffer := c.state.mBuffer.take kHeaderSize ++ c.got, pending := none } :=
          ⟨by simp only [List.length_append, List.length_take, hlen]; omega, fun _ h => by cases h⟩
        exact bounded_onBodyRead text cb hb rfl none
  · cases hp : c.state.pending with
    | none => simp [Handlers.reader, want, hp] at hw
    | some p =>
      cases p with
      | header =>
        simp only [Handlers.reader, PlainSession.handlers, complete, hp]
        exact bounded_onHeaderRead cb hnone rfl (some x)
      | body n =>
        simp only [Handlers.reader, PlainSession.handlers, complete, hp]
        exact bounded_onBodyRead text cb hnone rfl (some x)

variable {text cb}

theorem plain_bounded {c : ExactRead.Conn ReadLoop Byte String}
    (h : Machine.Run (ExactRead.next (PlainSession.reader text cb)) Machine.any (.init PlainSession.started) c) :
    Bounded c.state :=
  Machine.run_invariant (fun c => Bounded c.state) (bounded_readHeader _)
    (fun _ _ _ hi _ hn => bounded_next text cb hi hn) h

theorem plain_sound {c : ExactRead.Conn ReadLoop Byte String}
    (h : Machine.Run (ExactRead.next (PlainSession.reader text cb)) Machine.any (.init PlainSession.started) c) :
    Sound c.state := by
  refine Machine.run_invariant (fun c => Sound c.state) (sound_reading _ .header []) ?_ h
  intro a e b ha _ hn
  rcases ExactRead.next_cases _ hn with ⟨bs, -, rfl⟩ | ⟨k, n, -, -, -, -, -, rfl⟩ | ⟨-, -, rfl⟩ | ⟨x, n, -, -, -, rfl⟩
  · exact ha
  · exact ha
  · exact sound_feed (some PlainSession.maxPayload) id text cb ha _
  · exact sound_complete (some PlainSession.maxPayload) id text cb ha (some x)

variable {f : MessageCallback} (hcb : cb.mMessageCallback = some f)

include hcb

variable (text) in
theorem plain_drain (bs : Bytes) :
    AtScan id cb [] (scan (some PlainSession.maxPayload) text f [] bs)
      (ExactRead.drain (PlainSession.reader text cb) PlainSession.started bs).1
      (ExactRead.drain (PlainSession.reader text cb) PlainSession.started bs).2 :=
  drain_scan (some PlainSession.maxPayload) id text f cb hcb _ [] bs

/-- Nothing is delivered, at any moment of any run, but what the scan delivers. -/
theorem plain_delivered {c : ExactRead.Conn ReadLoop Byte String}
    (h : Machine.Run (ExactRead.next (PlainSession.reader text cb)) Machine.any (.init PlainSession.started) c) :
    c.state.invoked <+: (scan (some PlainSession.maxPayload) text f [] c.arrived).invoked ∧
      c.state.returned <+: (scan (some PlainSession.maxPayload) text f [] c.arrived).returned := by
  have hext (s : ReadLoop) (bs : Bytes) : Grows s (ExactRead.drain (PlainSession.reader text cb) s bs).1 :=
    ExactRead.drain_extends (PlainSession.reader text cb) Grows Grows.refl (fun _ _ _ => Grows.trans)
      (grows_feed (some PlainSession.maxPayload) id text cb) s bs
  have hi := ExactRead.conn_inv _ h
  have hscan := plain_drain text hcb c.arrived
  have hinv : _ = (scan (some PlainSession.maxPayload) text f [] c.arrived).invoked := hscan.invoked
  have hret : _ = (scan (some PlainSession.maxPayload) text f [] c.arrived).returned := hscan.returned
  rw [← hinv, ← hret, ExactRead.Conn.arrived, ExactRead.drain_append]
  cases hf : c.failed with
  | none =>
    rw [hi.live hf, ← ExactRead.drain_append]
    exact hext _ _
  | some e =>
    obtain ⟨h1, h2⟩ := delivered_fail (some PlainSession.maxPayload) id text cb
      (ExactRead.drain (PlainSession.reader text cb) PlainSession.started c.taken).1 e
    rw [hi.dead e hf]
    exact ⟨h1 ▸ (hext _ _).1, h2 ▸ (hext _ _).2⟩

theorem plain_at_scan {stream : Bytes} {c : ExactRead.Conn ReadLoop Byte String}
    (h : ExactRead.Settled (PlainSession.reader text cb) PlainSession.started stream c) :
    AtScan id cb [] (scan (some PlainSession.maxPayload) text f [] stream) c.state (c.got ++ c.avail) := by
  have hd := plain_drain text hcb stream
  rwa [h.drain_eq] at hd

/-- What is left when nothing more can be read: the longest prefix of good frames has been
    delivered, and the session is closed exactly if a frame that is not good comes next. -/
theorem plain_settled {stream : Bytes} {c : ExactRead.Conn ReadLoop Byte String}
    (h : ExactRead.Settled (PlainSession.reader text cb) PlainSession.started stream c) :
    ∃ rest, Longest (some PlainSession.maxPayload) text f stream c.state.returned rest ∧
      (c.state.closes = 1 ↔ Rejected (some PlainSession.maxPayload) text f c.state.returned rest) ∧
      (c.state.invoked = c.state.returned ∨
        ∃ m e, c.state.invoked = c.state.returned ++ [m] ∧ f c.state.returned m = .error e) := by
  have hd := plain_at_scan hcb h
  have hr : c.state.returned = (scan (some PlainSession.maxPayload) text f [] stream).returned := hd.returned
  have hi : c.state.invoked = (scan (some PlainSession.maxPayload) text f [] stream).invoked := hd.invoked
  refine ⟨(scan (some PlainSession.maxPayload) text f [] stream).rest, ?_, ?_, ?_⟩
  · rw [hr]
    exact scan_longest _ text f stream
  · have hv := scan_verdict (some PlainSession.maxPayload) text f [] stream
    rw [List.nil_append] at hv
    rw [hr, ← hv]
    cases hs : (scan (some PlainSession.maxPayload) text f [] stream).verdict with
    | waiting => simp [(hd.waiting hs).2.1]
    | rejected reason => simp [(hd.rejected reason hs).2.2.1]
  · rw [hr, hi]
    have := scan_invoked (some PlainSession.maxPayload) text f [] stream
    rwa [List.nil_append] at this

/-- Every state a plain session can reach on any bytes, in any pieces, with a read error at any
    time: the buffer is bounded; the session closes at most once and is then not called again;
    what it has delivered is part of the longest prefix of good frames. Its own steps come to
    an end, and without a read error it has then delivered all of that prefix, and has closed
    exactly if the next frame fails a check; on a read error it closes. -/
theorem plain_session_stream {c : ExactRead.Conn ReadLoop Byte String}
    (h : Machine.Run (ExactRead.next (PlainSession.reader text cb)) Machine.any (.init PlainSession.started) c) :
    c.state.mBuffer.length ≤ 5 + 1048576 ∧ c.state.closes ≤ 1 ∧
      (c.state.closes = 1 → ∀ c', Machine.Run (ExactRead.next (PlainSession.reader text cb)) Machine.any c c' →
        c'.state = c.state) ∧
      (∃ ms rest, Longest (some 1048576) text f c.arrived ms rest ∧ c.state.returned <+: ms) ∧
      (∃ bound, ∀ es c', (∀ e ∈ es, ExactRead.Own e) →
        Machine.exec (ExactRead.next (PlainSession.reader text cb)) c es = some c' → es.length ≤ bound) ∧
      (∃ c', Machine.Run (ExactRead.next (PlainSession.reader text cb)) (fun _ => ExactRead.Own) c c' ∧
        ExactRead.Quiescent (PlainSession.reader text cb) c') ∧
      (c.failed = none → ExactRead.Quiescent (PlainSession.reader text cb) c →
        ∃ rest, Longest (some 1048576) text f c.arrived c.state.returned rest ∧
          (c.state.closes = 1 ↔ Rejected (some 1048576) text f c.state.returned rest) ∧
          (c.state.invoked = c.state.returned ∨
            ∃ m e, c.state.invoked = c.state.returned ++ [m] ∧ f c.state.returned m = .error e)) ∧
      (c.failed ≠ none → c.state.closes = 1) := by
  have hs := plain_sound h
  refine ⟨(plain_bounded h).buffer, ?_, ?_, ?_, ⟨_, fun _ _ hes he => ExactRead.own_steps_le _ hes he⟩,
    ExactRead.exists_quiescent _ c, ?_, ?_⟩
  · rcases hs with hs | hs <;> omega
  · intro hc c' hr
    refine ExactRead.run_stopped _ ?_ hr
    rcases hs with hs | hs
    · omega
    · simp [Handlers.reader, want, hs.1]
  · exact ⟨_, _, scan_longest (some PlainSession.maxPayload) text f c.arrived, (plain_delivered hcb h).2⟩
  · intro hf hq
    exact plain_settled hcb ⟨h, rfl, hf, hq⟩
  · intro hf
    obtain ⟨e, he⟩ := Option.ne_none_iff_exists'.mp hf
    have hw := (PlainSession.reader text cb).want_fail
      (ExactRead.drain (PlainSession.reader text cb) PlainSession.started c.taken).1 e
    rw [← (ExactRead.conn_inv _ h).dead e he] at hw
    rcases hs with hs | hs
    · exact absurd hw (by simpa [Handlers.reader, want] using hs.1)
    · exact hs.2.2

omit hcb in
theorem plain_session_stream_oversized :
    ∃ c, ExactRead.Settled (PlainSession.reader sampleText sampleCallbacks) PlainSession.started oversizedHeader c ∧
      c.state.mBuffer.length ≤ 5 + 1048576 ∧ c.state.closes ≤ 1 := by
  obtain ⟨c, hc⟩ := ExactRead.exists_settled (PlainSession.reader sampleText sampleCallbacks) PlainSession.started oversizedHeader
  have h := plain_session_stream rfl hc.run
  exact ⟨c, hc, h.1, h.2.1⟩

/-! ## Encoded messages -/

omit hcb in
/-- The reader finds the frame the encoder made. -/
theorem frame?_encode {m : Message} (hl : (text.dump m.j).length < 2 ^ 32) (rest : Bytes) :
    frame? (m.encode text ++ rest) = some (m.type, text.dump m.j, rest) := by
  have hlen : (toBytes 4 (BitVec.ofNat 32 (text.dump m.j).length)).length = 4 := length_toBytes _ _
  have hval : (ofBytes 32 (toBytes 4 (BitVec.ofNat 32 (text.dump m.j).length))).toNat = (text.dump m.j).length := by
    rw [ofBytes_toBytes (by omega), BitVec.toNat_ofNat, Nat.mod_eq_of_lt hl]
  have he : m.encode text ++ rest =
      m.type.byte :: (toBytes 4 (BitVec.ofNat 32 (text.dump m.j).length) ++ (text.dump m.j ++ rest)) := by
    simp [Message.encode, hostBytes_lenBE]
  have hh : header? (m.encode text ++ rest) = some (m.type, (text.dump m.j).length) := by
    rw [he, header?, if_pos (by simp [hlen, kHeaderSize, kTypeFieldSize, kLengthFieldSize])]
    simp only [kTypeFieldSize, kLengthFieldSize, List.headD_cons, List.drop_succ_cons, List.drop_zero,
      List.take_left' hlen, hval]
  have hd : (m.encode text ++ rest).drop kHeaderSize = text.dump m.j ++ rest := by
    rw [he, show kHeaderSize = 4 + 1 from rfl, List.drop_succ_cons, List.drop_left' hlen]
  simp only [frame?, hh]
  rw [if_pos (by rw [he]; simp [hlen, kHeaderSize, kTypeFieldSize, kLengthFieldSize]; omega), hd, List.take_left,
    ← List.drop_drop, hd, List.drop_left]

/-- Messages the session can carry: each body's text is not empty, within the bound, and
    parses back. -/
structure Carried (text : JsonText) (m : Message) : Prop where
  nonempty : 1 ≤ (text.dump m.j).length
  bounded : (text.dump m.j).length ≤ 1048576
  parses : text.parse (text.dump m.j) = .ok m.j

omit hcb in
theorem good_encode {past ms : List Message} (hm : ∀ m ∈ ms, Carried text m)
    (hf : ∀ pre m post, ms = pre ++ m :: post → f (past ++ pre) m = .ok ()) :
    Good (some PlainSession.maxPayload) text f past (ms.flatMap (Message.encode text)) ms [] := by
  induction ms generalizing past with
  | nil => exact .nil past []
  | cons m ms ih =>
    have hc := hm m (by simp)
    have ha : Accepted (some PlainSession.maxPayload) text f past
        (m.encode text ++ ms.flatMap (Message.encode text)) m (ms.flatMap (Message.encode text)) := by
      refine ⟨⟨text.dump m.j, ?_, ?_, ?_, hc.parses⟩, by simpa using hf [] m ms rfl⟩
      · exact frame?_encode (by have := hc.bounded; omega) _
      · simpa [PlainSession.maxPayload] using hc.bounded
      · exact List.ne_nil_of_length_pos hc.nonempty
    rw [List.flatMap_cons]
    refine .cons ha (ih (fun m' h => hm m' (by simp [h])) ?_)
    intro pre m' post h
    simpa using hf (m :: pre) m' post (by simp [h])

/-- The encodings of messages, however they are cut, come out of the loop as these messages,
    once each and in order, and the loop waits for a header with nothing left over. -/
theorem plain_session_round_trip {ms : List Message} (hm : ∀ m ∈ ms, Carried text m)
    (hret : ∀ pre m post, ms = pre ++ m :: post → f pre m = .ok ()) {c : ExactRead.Conn ReadLoop Byte String}
    (h : Machine.Run (ExactRead.next (PlainSession.reader text cb)) Machine.any (.init PlainSession.started) c)
    (ha : c.arrived = ms.flatMap (Message.encode text)) (hnf : c.failed = none) :
    c.state.invoked <+: ms ∧
      (∃ c', Machine.Run (ExactRead.next (PlainSession.reader text cb)) (fun _ => ExactRead.Own) c c' ∧
        ExactRead.Quiescent (PlainSession.reader text cb) c') ∧
      (ExactRead.Quiescent (PlainSession.reader text cb) c →
        c.state.invoked = ms ∧ c.state.returned = ms ∧ c.state.pending = some .header ∧ c.got = [] ∧ c.avail = [] ∧
          c.state.closes = 0 ∧ c.state.errors = []) := by
  have hg : Good (some PlainSession.maxPayload) text f [] c.arrived ms [] := ha ▸ good_encode hm hret
  have hnil : scan (some PlainSession.maxPayload) text f ms [] = ⟨[], [], .waiting, []⟩ := scan_none rfl
  have hs : scan (some PlainSession.maxPayload) text f [] c.arrived = ⟨ms, ms, .waiting, []⟩ := by
    rw [scan_of_good hg, List.nil_append, hnil]
    simp
  refine ⟨by simpa [hs] using (plain_delivered hcb h).1, ExactRead.exists_quiescent _ c, ?_⟩
  intro hq
  have hat := plain_at_scan hcb ⟨h, rfl, hnf, hq⟩
  rw [hs] at hat
  obtain ⟨-, hc, he, hp⟩ := hat.waiting rfl
  have hh : header? [] = none := rfl
  rcases hp with ⟨-, hp, hr⟩ | ⟨type, len, hp, -⟩
  · obtain ⟨hgot, havail⟩ := List.append_eq_nil_iff.mp hr
    exact ⟨hat.invoked, hat.returned, hp, hgot, havail, hc, he⟩
  · rw [hh] at hp
    cases hp

omit hcb in
theorem plain_session_round_trip_sample :
    ∃ c, ExactRead.Settled (PlainSession.reader sampleText sampleCallbacks) PlainSession.started
        (sampleMessages.flatMap (Message.encode sampleText)) c ∧ c.state.invoked = sampleMessages := by
  obtain ⟨c, hc⟩ := ExactRead.exists_settled (PlainSession.reader sampleText sampleCallbacks) PlainSession.started
    (sampleMessages.flatMap (Message.encode sampleText))
  have hm : ∀ m ∈ sampleMessages, Carried sampleText m := by
    intro m h
    simp only [sampleMessages, List.mem_cons, List.not_mem_nil, or_false] at h
    rcases h with rfl | rfl
    · exact ⟨by decide, by decide, rfl⟩
    · exact ⟨by decide, by decide, rfl⟩
  have h := plain_session_round_trip rfl hm (fun _ _ _ _ => rfl) hc.run hc.arrived hc.failed
  exact ⟨c, hc, (h.2.2 hc.quiescent).1⟩

end Plain

end CryptoChat.Net
