/-
  CryptoChat.Net.FrameLink — the read loops as readers of framed messages.

  `Framed` is what a message needs to pass a loop whose bound is `limit`. Proved: a loop
  whose callback returns hands over the messages of a stream made of framed messages
  (`frames_session`, and `frames_client` for the client), one for each completion at most
  (`handsOne_session`, `handsOne_client`).
-/

import CryptoChat.Lib.Framing
import CryptoChat.Net.SessionStream
import CryptoChat.Net.ThreeReaders

namespace CryptoChat.Net

open CryptoChat.Lib ReadLoop

/-- What a loop with this bound on the declared length takes for a message. -/
structure Framed (limit : Option Nat) (text : JsonText) (m : Message) : Prop where
  nonempty : text.dump m.j ≠ []
  short : (text.dump m.j).length < 2 ^ 32
  bounded : ∀ l ∈ limit, (text.dump m.j).length ≤ l
  parses : text.parse (text.dump m.j) = .ok m.j

variable {limit : Option Nat} {wrap : String → String} {text : JsonText} {cb : Callbacks} {f : MessageCallback}

/-! ## One message for each completion -/

def HandsOne (s s' : ReadLoop) : Prop := s'.invoked = s.invoked ∨ ∃ m, s'.invoked = s.invoked ++ [m]

theorem HandsOne.grows {s s' : ReadLoop} (h : HandsOne s s') : s.invoked <+: s'.invoked := by
  rcases h with h | ⟨m, h⟩
  · rw [h]
  · rw [h]
    exact List.prefix_append _ _

theorem invoked_report (what : String) (s : ReadLoop) : (close (report cb what s)).invoked = s.invoked :=
  (close_delivered cb what s).1

theorem handsOne_callback {m : Message} {s s' : ReadLoop} {r : Except Exn Unit} (h : callback f m s = (s', r)) :
    s'.invoked = s.invoked ++ [m] := by
  unfold callback at h
  split at h
  · cases h
    rfl
  · cases h
    rfl

theorem handsOne_feed {h : Handlers} (hheader : ∀ s, (h.onHeaderRead none s).invoked = s.invoked)
    (hbody : ∀ s, HandsOne s (h.onBodyRead none s)) (s : ReadLoop) (bytes : Bytes) : HandsOne s (h.reader.feed s bytes) := by
  have hfill : (fill bytes s).invoked = s.invoked := by
    unfold fill
    split
    · rfl
    · rfl
    · rfl
  rw [HandsOne, ← hfill]
  simp only [Handlers.reader, complete]
  split
  · exact .inl rfl
  · exact .inl (hheader _)
  · exact hbody { fill bytes s with pending := none }

theorem handsOne_session (s : ReadLoop) (bytes : Bytes) : HandsOne s ((handlers limit wrap text cb).reader.feed s bytes) := by
  refine handsOne_feed ?_ ?_ s bytes
  · intro s
    simp only [handlers, onHeaderRead]
    split
    · exact invoked_report _ s
    · rfl
  · intro s
    simp only [handlers, onBodyRead]
    split
    · exact .inl rfl
    · split
      · exact .inl (invoked_report _ s)
      · split
        · rename_i heq
          exact .inr ⟨_, (invoked_report _ _).trans (handsOne_callback heq)⟩
        · rename_i heq
          have hinvoked := handsOne_callback heq
          exact .inr ⟨_, hinvoked⟩

theorem handsOne_client (s : ReadLoop) (bytes : Bytes) : HandsOne s ((Client.handlers text cb f).reader.feed s bytes) := by
  refine handsOne_feed (fun _ => rfl) ?_ s bytes
  intro s
  simp only [Client.handlers, Client.onBodyRead, Client.handleIoError]
  split
  · exact .inl (invoked_report _ s)
  · split
    · rename_i heq
      exact .inr ⟨_, (invoked_report _ _).trans (handsOne_callback heq)⟩
    · rename_i heq
      split
      · exact .inr ⟨_, handsOne_callback heq⟩
      · have hinvoked := handsOne_callback heq
        exact .inr ⟨_, hinvoked⟩

/-! ## Streams of framed messages -/

/-- A message that passes the loop, whose callback returns. -/
def Passes (limit : Option Nat) (text : JsonText) (f : MessageCallback) (m : Message) : Prop :=
  Framed limit text m ∧ ∀ past, f past m = .ok ()

theorem good_passes {past ms : List Message} (h : ∀ m ∈ ms, Passes limit text f m) :
    Good limit text f past (ms.flatMap (Message.encode text)) ms [] := by
  induction ms generalizing past with
  | nil => exact .nil past []
  | cons m ms ih =>
    obtain ⟨hframed, hreturns⟩ := h m List.mem_cons_self
    rw [List.flatMap_cons]
    refine .cons ⟨⟨text.dump m.j, ?_, hframed.bounded, hframed.nonempty, hframed.parses⟩, hreturns past⟩
      (ih fun m' hm' => h m' (List.mem_cons_of_mem m hm'))
    exact frame?_encode hframed.short _

theorem drain_passes (hcb : cb.mMessageCallback = some f) (b : Bytes) {ms : List Message}
    (h : ∀ m ∈ ms, Passes limit text f m) :
    ∃ s, ExactRead.drain (handlers limit wrap text cb).reader (reading b .header []) (ms.flatMap (Message.encode text)) =
      (s, []) ∧ s.invoked = ms ∧ want s ≠ none := by
  have hnil : scan limit text f ms [] = ⟨[], [], .waiting, []⟩ := scan_none rfl
  have hscan : scan limit text f [] (ms.flatMap (Message.encode text)) = ⟨ms, ms, .waiting, []⟩ := by
    rw [scan_of_good (good_passes h), List.nil_append, hnil, List.append_nil]
  have hat := drain_scan limit wrap text f cb hcb b [] (ms.flatMap (Message.encode text))
  rw [hscan] at hat
  obtain ⟨-, -, -, hwaiting⟩ := hat.waiting rfl
  rcases hwaiting with ⟨-, hpending, hrest⟩ | ⟨type, len, hheader, -⟩
  · refine ⟨_, Prod.ext rfl hrest, hat.invoked, ?_⟩
    simp [want, hpending]
  · cases hheader

theorem frames_session (hcb : cb.mMessageCallback = some f) (b : Bytes) :
    Framing.Frames (handlers limit wrap text cb).reader (reading b .header []) (Message.encode text) ReadLoop.invoked
      (Passes limit text f) where
  grows s bytes := (handsOne_session s bytes).grows
  whole _ h := drain_passes hcb b h

theorem frames_client (hcb : cb.mMessageCallback = some f) (b : Bytes) :
    Framing.Frames (Client.handlers text cb f).reader (reading b .header []) (Message.encode text) ReadLoop.invoked
      (Passes none text f) where
  grows s bytes := (handsOne_client s bytes).grows
  whole _ h := by
    rw [drain_client text f cb hcb]
    exact drain_passes hcb b h

theorem sound_client_feed (hcb : cb.mMessageCallback = some f) {s : ReadLoop} (h : Sound s) (bytes : Bytes) :
    Sound ((Client.handlers text cb f).reader.feed s bytes) := by
  by_cases hpending : s.pending = none
  · have hfeed : (Client.handlers text cb f).reader.feed s bytes = s := by
      simp [Handlers.reader, complete, fill, hpending]
    rwa [hfeed]
  · rw [client_feed text f cb hcb h hpending]
    exact sound_feed none _ text cb h bytes

end CryptoChat.Net
