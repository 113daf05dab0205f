/-
  CryptoChat.Net.ThreeReaders — the copies of the frame reader in `PlainSession`,
  `SecureSession` and `Client`, given the same bytes and the same message callback.

  Only the plain session checks the declared length. Proved: the three hand over the same
  messages and close at the same frame exactly on the streams where every frame above
  1 MiB they come to is there in full and does not decode (`readers_agree_iff`); on the
  header of such a frame one closes and two wait (`readers_differ`).
-/

import CryptoChat.Net.SessionStream

namespace CryptoChat.Net

open CryptoChat.Lib ReadLoop

section Three

variable (text : JsonText) (cb : Callbacks) (f : MessageCallback)

def SecureSession.started : ReadLoop := SecureSession.readHeader .start

def Client.started : ReadLoop := Client.readHeader .start

abbrev SecureSession.reader : ExactRead.Reader ReadLoop Byte String := (SecureSession.handlers text cb).reader

abbrev Client.reader : ExactRead.Reader ReadLoop Byte String := (Client.handlers text cb f).reader

variable {text cb f} (hcb : cb.mMessageCallback = some f)

include hcb

theorem secure_at_scan {stream : Bytes} {c : ExactRead.Conn ReadLoop Byte String}
    (h : ExactRead.Settled (SecureSession.reader text cb) SecureSession.started stream c) :
    AtScan id cb [] (scan none text f [] stream) c.state (c.got ++ c.avail) := by
  have hd := drain_scan none id text f cb hcb (resize kHeaderSize []) [] stream
  have he := h.drain_eq
  rwa [show ExactRead.drain (handlers none id text cb).reader (reading (resize kHeaderSize []) .header []) stream = _
    from he] at hd

theorem client_at_scan {stream : Bytes} {c : ExactRead.Conn ReadLoop Byte String}
    (h : ExactRead.Settled (Client.reader text cb f) Client.started stream c) :
    AtScan ("Decode error: " ++ ·) cb [] (scan none text f [] stream) c.state (c.got ++ c.avail) := by
  have hd := drain_scan none ("Decode error: " ++ ·) text f cb hcb (resize kHeaderSize []) [] stream
  rw [← drain_client text f cb hcb] at hd
  have he := h.drain_eq
  rwa [show ExactRead.drain (Client.handlers text cb f).reader (reading (resize kHeaderSize []) .header []) stream = _
    from he] at hd

omit hcb in
theorem closed_of_atScan {wrap : String → String} {past : List Message} {r : Scan} {s : ReadLoop} {rest : Bytes}
    (h : AtScan wrap cb past r s rest) : s.mIsClosed = decide (r.verdict ≠ .waiting) := by
  cases hv : r.verdict with
  | waiting => simpa using (h.waiting hv).1
  | rejected reason => simpa using (h.rejected reason hv).2.1

/-- The three readers hand over the same messages and close at the same frame exactly when
    every frame above 1 MiB that comes after good frames is there in full and does not
    decode. -/
theorem readers_agree_iff {stream : Bytes} {cp cs cc : ExactRead.Conn ReadLoop Byte String}
    (hp : ExactRead.Settled (PlainSession.reader text cb) PlainSession.started stream cp)
    (hs : ExactRead.Settled (SecureSession.reader text cb) SecureSession.started stream cs)
    (hc : ExactRead.Settled (Client.reader text cb f) Client.started stream cc) :
    ((cp.state.invoked = cs.state.invoked ∧ cs.state.invoked = cc.state.invoked) ∧
        cp.state.mIsClosed = cs.state.mIsClosed ∧ cs.state.mIsClosed = cc.state.mIsClosed) ↔
      ∀ ms rest type len, Good (some 1048576) text f [] stream ms rest → header? rest = some (type, len) →
        1048576 < len → ¬ rest.length < kHeaderSize + len ∧
          ∀ m, Message.decode text type ((rest.drop kHeaderSize).take len) ≠ .ok m := by
  have hp := plain_at_scan hcb hp
  have hs := secure_at_scan hcb hs
  have hc := client_at_scan hcb hc
  rw [closed_of_atScan hp, closed_of_atScan hs, closed_of_atScan hc, hp.invoked, hs.invoked, hc.invoked]
  refine Iff.trans ?_ (scan_agree_iff (l := PlainSession.maxPayload))
  simp only [List.nil_append, and_true, decide_eq_decide, not_iff_not, ne_eq]

end Three

theorem readers_agree_iff_short :
    ∃ cp cs cc, ExactRead.Settled (PlainSession.reader sampleText sampleCallbacks) PlainSession.started [0x00#8] cp ∧
      ExactRead.Settled (SecureSession.reader sampleText sampleCallbacks) SecureSession.started [0x00#8] cs ∧
      ExactRead.Settled (Client.reader sampleText sampleCallbacks fun _ _ => .ok ()) Client.started [0x00#8] cc ∧
      cp.state.mIsClosed = cs.state.mIsClosed := by
  obtain ⟨cp, hp⟩ := ExactRead.exists_settled (PlainSession.reader sampleText sampleCallbacks) PlainSession.started [0x00#8]
  obtain ⟨cs, hs⟩ := ExactRead.exists_settled (SecureSession.reader sampleText sampleCallbacks) SecureSession.started [0x00#8]
  obtain ⟨cc, hc⟩ := ExactRead.exists_settled (Client.reader sampleText sampleCallbacks fun _ _ => .ok ()) Client.started
    [0x00#8]
  refine ⟨cp, cs, cc, hp, hs, hc, ((readers_agree_iff rfl hp hs hc).mpr ?_).2.1⟩
  intro ms rest type len hg hh hlt
  cases hg with
  | nil => exact absurd hh (by simp [header?, kHeaderSize, kTypeFieldSize, kLengthFieldSize])
  | cons ha _ => exact absurd ha (not_accepted_of_none rfl _ _)

/-- On a header of 1048577 bytes the plain session closes, the other two wait for the body. -/
theorem readers_differ :
    ∃ cp cs cc, ExactRead.Settled (PlainSession.reader sampleText sampleCallbacks) PlainSession.started oversizedHeader cp ∧
      ExactRead.Settled (SecureSession.reader sampleText sampleCallbacks) SecureSession.started oversizedHeader cs ∧
      ExactRead.Settled (Client.reader sampleText sampleCallbacks fun _ _ => .ok ()) Client.started oversizedHeader cc ∧
      cp.state.mIsClosed = true ∧ cs.state.mIsClosed = false ∧ cc.state.mIsClosed = false := by
  obtain ⟨cp, hp⟩ := ExactRead.exists_settled (PlainSession.reader sampleText sampleCallbacks) PlainSession.started oversizedHeader
  obtain ⟨cs, hs⟩ := ExactRead.exists_settled (SecureSession.reader sampleText sampleCallbacks) SecureSession.started
    oversizedHeader
  obtain ⟨cc, hc⟩ := ExactRead.exists_settled (Client.reader sampleText sampleCallbacks fun _ _ => .ok ()) Client.started
    oversizedHeader
  have hh : header? oversizedHeader = some (⟨0#8⟩, 1048577) := by decide
  refine ⟨cp, cs, cc, hp, hs, hc, ?_, ?_, ?_⟩
  · rw [closed_of_atScan (plain_at_scan rfl hp), scan_some hh, if_pos (by decide)]
    rfl
  · rw [closed_of_atScan (secure_at_scan rfl hs), scan_some hh, if_neg (by decide), if_pos (by decide)]
    rfl
  · rw [closed_of_atScan (client_at_scan rfl hc), scan_some hh, if_neg (by decide), if_pos (by decide)]
    rfl

end CryptoChat.Net
