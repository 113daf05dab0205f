/-
  CryptoChat.Net.ServerController — the servers by port, and the sessions they accept
  (`ServerController::start` and `stop`, and the connection factory).

  One thread starts and stops servers; each server has a thread of its own on its
  io_context, which accepts connections from its launch, before the server is put into
  `mServers`, until `stop` has joined it. Sessions of all servers are registered in the one
  `SessionManager`; a session leaves it when it closes, whoever closes it, once its close
  callback is set.

  Proved: a step keeps every registered session hosted, by a server in `mServers`,
  exactly if it is not an accept of a server still being started and not the erase of a
  server with a registered session (`hosted_next`, `registered_hosted`). The code does not
  keep to that: `stop` leaves the sessions of its server registered (`stop_leaves_sessions`).
-/

import CryptoChat.Net.SessionManager
import CryptoChat.Lib.ListAt
import CryptoChat.Lib.Machine

namespace CryptoChat.Net

open CryptoChat.Lib CryptoChat.Lib.ListAt

/-! ## Starting a server -/

inductive ServerMode where
  | plain
  | secure
  deriving DecidableEq

structure ServerConfig where
  port : BitVec 16
  mode : ServerMode
  certFile : String
  keyFile : String
  deriving DecidableEq

def ServerConfig.isValid (cfg : ServerConfig) : Bool :=
  if cfg.port = 0 then false
  else
    match cfg.mode with
    | .secure => cfg.certFile ≠ "" && cfg.keyFile ≠ ""
    | .plain => true

/-- What `start` meets outside, for a TLS context of the type `κ`: what OpenSSL makes of it when
    it is given a file, with whether it returns and does not throw, and whether the port can be
    bound. -/
structure World (κ : Type) where
  useCertificateChainFile : κ → String → κ × Bool
  usePrivateKeyFile : κ → String → κ × Bool
  binds : Bool

/-- `Instance`; `io` tells the io_contexts apart. -/
structure Instance where
  cfg : ServerConfig
  io : Nat
  deriving DecidableEq

/-- How far `start` gets: it returns false, throws, or launches the instance's thread. -/
inductive Start where
  | returned
  | threw
  | launched (inst : Instance)

namespace ServerController

variable {κ : Type}

abbrev Servers := AList fun _ : BitVec 16 => Instance

/-- The context afterwards, and whether nothing was thrown. -/
def loadTls (world : World κ) (cert key : String) (ssl : κ) : κ × Bool :=
  let loaded := world.useCertificateChainFile ssl cert
  if loaded.2 then world.usePrivateKeyFile loaded.1 key else loaded

/-- `start` up to the launch, with `io` for the new io_context. -/
def start (mServers : Servers) (mSslContext : κ) (cfg : ServerConfig) (world : World κ) (io : Nat) : κ × Start :=
  if cfg.isValid = false then (mSslContext, .returned)
  else if (mServers.lookup cfg.port).isSome then (mSslContext, .returned)
  else
    let tls := if cfg.mode = .secure then loadTls world cfg.certFile cfg.keyFile mSslContext else (mSslContext, true)
    if tls.2 = false then (tls.1, .threw)
    else if world.binds = false then (tls.1, .returned)
    else (tls.1, .launched ⟨cfg, io⟩)

theorem start_launched {mServers : Servers} {mSslContext : κ} {cfg : ServerConfig} {world : World κ} {io : Nat}
    {inst : Instance} (h : (start mServers mSslContext cfg world io).2 = .launched inst) :
    inst = ⟨cfg, io⟩ ∧ mServers.lookup cfg.port = none := by
  unfold start at h
  split at h
  · cases h
  · split at h
    · cases h
    · rename_i hfree
      dsimp only at h
      generalize
        (if cfg.mode = .secure then loadTls world cfg.certFile cfg.keyFile mSslContext else (mSslContext, true)) =
        tls at h
      split at h
      · cases h
      · split at h
        · cases h
        · cases h
          exact ⟨rfl, by simpa using hfree⟩

/-! ## The machine -/

/-- A session the connection factory made, with the uid its close callback holds. -/
structure Accepted where
  io : Nat
  mode : ServerMode
  uid : BitVec 32
  /-- Whether the close callback is set. -/
  mCloseSessionCallback : Bool
  mIsClosed : Bool

structure St (κ : Type) where
  mServers : Servers
  mSslContext : κ
  /-- Registered is the index of the session in `accepted`. -/
  mSessions : SessionManager Nat
  accepted : List Accepted
  /-- The instance launched and not yet in `mServers`, and the port being stopped. -/
  starting : Option Instance
  stopping : Option (BitVec 16)
  /-- How many io_contexts were launched. -/
  ios : Nat

def init (mSslContext : κ) : St κ := ⟨∅, mSslContext, .new, [], none, none, 0⟩

inductive Ev (κ : Type) where
  /-- `start`, to the launch and from there. -/
  | start (cfg : ServerConfig) (world : World κ)
  | emplace
  /-- `stop`, to the join and from there. -/
  | stop (port : BitVec 16)
  | erase
  /-- A running server accepts a connection: the session is registered, and then given its
      close callback. -/
  | accept (io : Nat)
  | onClose (k : Nat)
  /-- The session `k` is closed. -/
  | close (k : Nat)
  | setName (uid : BitVec 32) (name : String)

/-- The instance whose thread runs the io_context `io`. -/
def instance? (s : St κ) (io : Nat) : Option Instance :=
  (s.starting.toList ++ s.mServers.entries.map fun e => e.2).find? fun inst => inst.io = io

def next (s : St κ) : Ev κ → Option (St κ)
  | .start cfg world =>
    if s.starting = none ∧ s.stopping = none then
      let r := start s.mServers s.mSslContext cfg world s.ios
      match r.2 with
      | .launched inst => some { s with mSslContext := r.1, starting := some inst, ios := s.ios + 1 }
      | _ => some { s with mSslContext := r.1 }
    else none
  | .emplace =>
    s.starting.map fun inst => { s with mServers := s.mServers.insert inst.cfg.port inst, starting := none }
  | .stop port =>
    if s.starting = none ∧ s.stopping = none then
      some (if (s.mServers.lookup port).isSome then { s with stopping := some port } else s)
    else none
  | .erase =>
    -- the sessions the instance accepted are neither closed nor removed
    s.stopping.map fun port => { s with mServers := s.mServers.erase port, stopping := none }
  | .accept io =>
    (instance? s io).map fun inst =>
      let added := s.mSessions.add s.accepted.length
      { s with mSessions := added.1, accepted := s.accepted ++ [⟨io, inst.cfg.mode, added.2, false, false⟩] }
  | .onClose k =>
    s.accepted[k]?.map fun session =>
      { s with accepted := s.accepted.set k { session with mCloseSessionCallback := true } }
  | .close k =>
    -- the push to the sessions that are left changes neither store
    s.accepted[k]?.map fun session =>
      if session.mIsClosed then s
      else { s with
        mSessions := if session.mCloseSessionCallback then s.mSessions.remove session.uid else s.mSessions
        accepted := s.accepted.set k { session with mIsClosed := true } }
  | .setName uid name => some { s with mSessions := s.mSessions.setName uid name }

/-! ## Hosted sessions -/

def InServers (s : St κ) (io : Nat) : Prop := ∃ port inst, s.mServers.lookup port = some inst ∧ inst.io = io

/-- The session `k` was accepted by an instance that is in `mServers`. -/
def Hosted (s : St κ) (k : Nat) : Prop := ∃ session, s.accepted[k]? = some session ∧ InServers s session.io

def AllHosted (s : St κ) : Prop := ∀ uid k, s.mSessions.get uid = some k → Hosted s k

/-- An accept is one of a server in `mServers`, and no session of a server that is erased is
    registered. -/
def Safe (s : St κ) : Ev κ → Prop
  | .accept io => InServers s io
  | .erase => ∀ port inst, s.stopping = some port → s.mServers.lookup port = some inst →
    ∀ uid k session, s.mSessions.get uid = some k → s.accepted[k]? = some session → session.io ≠ inst.io
  | _ => True

/-- Each io_context belongs to one server. -/
structure Inv (s : St κ) : Prop where
  io_lt : ∀ port inst, s.mServers.lookup port = some inst → inst.io < s.ios
  io_inj : ∀ port port' inst inst', s.mServers.lookup port = some inst → s.mServers.lookup port' = some inst' →
    inst.io = inst'.io → port = port'
  /-- The instance being started has its port for itself. -/
  starting : ∀ inst, s.starting = some inst →
    inst.io < s.ios ∧ s.mServers.lookup inst.cfg.port = none ∧ ¬ InServers s inst.io

variable {s s' : St κ} {ctx : κ}

theorem inv_init : Inv (init ctx) where
  io_lt := by simp [init]
  io_inj := by simp [init]
  starting := by simp [init]

/-! ## One step -/

theorem InServers.erase {port : BitVec 16} {io : Nat} (h : InServers s io)
    (hne : ∀ inst, s.mServers.lookup port = some inst → inst.io ≠ io) {stopping : Option (BitVec 16)} :
    InServers { s with mServers := s.mServers.erase port, stopping := stopping } io := by
  obtain ⟨port', inst, hl, rfl⟩ := h
  refine ⟨port', inst, ?_, rfl⟩
  rw [AList.lookup_erase_ne, hl]
  rintro rfl
  exact hne inst hl rfl

theorem lookup_of_erase {port port' : BitVec 16} {inst : Instance} {mServers : Servers}
    (h : (mServers.erase port).lookup port' = some inst) : port' ≠ port ∧ mServers.lookup port' = some inst := by
  by_cases he : port' = port
  · subst he
    simp at h
  · exact ⟨he, by rwa [AList.lookup_erase_ne he] at h⟩

/-- At a port that was free, the new instance is added to those there are. -/
theorem lookup_emplace {mServers : Servers} {inst : Instance} (hfree : mServers.lookup inst.cfg.port = none)
    {port : BitVec 16} {inst' : Instance} : (mServers.insert inst.cfg.port inst).lookup port = some inst' ↔
      mServers.lookup port = some inst' ∨ port = inst.cfg.port ∧ inst' = inst := by
  by_cases h : port = inst.cfg.port
  · subst h
    simp [hfree, eq_comm]
  · simp [AList.lookup_insert_ne h, h]

theorem inv_emplace (h : Inv s) {inst : Instance} (hs : s.starting = some inst) :
    Inv { s with mServers := s.mServers.insert inst.cfg.port inst, starting := none } := by
  obtain ⟨hlt, hfree, hnot⟩ := h.starting inst hs
  refine ⟨?_, ?_, nofun⟩
  · intro port i hi
    rcases (lookup_emplace hfree).mp hi with hold | ⟨-, rfl⟩
    · exact h.io_lt port i hold
    · exact hlt
  · intro port port' i i' hi hi' he
    rcases (lookup_emplace hfree).mp hi with hold | ⟨hp, rfl⟩ <;>
      rcases (lookup_emplace hfree).mp hi' with hold' | ⟨hp', rfl⟩
    · exact h.io_inj port port' i i' hold hold' he
    · exact absurd ⟨port, i, hold, he⟩ hnot
    · exact absurd ⟨port', i', hold', he.symm⟩ hnot
    · rw [hp, hp']

theorem inv_erase (h : Inv s) (port : BitVec 16) :
    Inv { s with mServers := s.mServers.erase port, stopping := none } where
  io_lt port' inst hi := h.io_lt port' inst (lookup_of_erase hi).2
  io_inj port' port'' inst inst' hi hi' :=
    h.io_inj port' port'' inst inst' (lookup_of_erase hi).2 (lookup_of_erase hi').2
  starting inst hs := by
    obtain ⟨hlt, hfree, hnot⟩ := h.starting inst hs
    refine ⟨hlt, ?_, fun ⟨port', i, hi, he⟩ => hnot ⟨port', i, (lookup_of_erase hi).2, he⟩⟩
    cases hl : (s.mServers.erase port).lookup inst.cfg.port with
    | none => rfl
    | some i => simp [(lookup_of_erase hl).2] at hfree

theorem inv_next {e : Ev κ} (h : Inv s) (he : next s e = some s') : Inv s' := by
  cases e with
  | start cfg world =>
    simp only [next, Option.ite_none_right_eq_some] at he
    obtain ⟨-, he⟩ := he
    split at he
    · rename_i inst hr
      obtain ⟨rfl, hfree⟩ := start_launched hr
      cases he
      refine ⟨fun port i hi => Nat.lt_succ_of_lt (h.io_lt port i hi), h.io_inj, ?_⟩
      rintro _ ⟨⟩
      refine ⟨Nat.lt_succ_self _, hfree, fun ⟨port, i, hi, he⟩ => ?_⟩
      have := h.io_lt port i hi
      simp only at he
      omega
    · cases he
      exact { h with }
  | emplace =>
    obtain ⟨inst, hs, rfl⟩ := Option.map_eq_some_iff.mp he
    exact inv_emplace h hs
  | stop port =>
    simp only [next, Option.ite_none_right_eq_some, Option.some.injEq] at he
    obtain ⟨-, rfl⟩ := he
    split
    · exact { h with }
    · exact h
  | erase =>
    obtain ⟨port, -, rfl⟩ := Option.map_eq_some_iff.mp he
    exact inv_erase h port
  | accept io =>
    obtain ⟨inst, -, rfl⟩ := Option.map_eq_some_iff.mp he
    exact { h with }
  | onClose k =>
    obtain ⟨session, -, rfl⟩ := Option.map_eq_some_iff.mp he
    exact { h with }
  | close k =>
    obtain ⟨session, -, rfl⟩ := Option.map_eq_some_iff.mp he
    split
    · exact h
    · exact { h with }
  | setName uid name =>
    cases he
    exact { h with }

/-- Hosted sessions stay hosted where the instances and the sessions only grow. -/
theorem AllHosted.mono (h : AllHosted s) (hm : ∀ uid k, s'.mSessions.get uid = some k → s.mSessions.get uid = some k)
    (hk : ∀ (k : Nat) (session : Accepted), s.accepted[k]? = some session →
      ∃ session' : Accepted, s'.accepted[k]? = some session' ∧ session'.io = session.io)
    (hi : ∀ io, InServers s io → InServers s' io) : AllHosted s' := by
  intro uid k hg
  obtain ⟨session, hs, hin⟩ := h uid k (hm uid k hg)
  obtain ⟨session', hs', hio⟩ := hk k session hs
  exact ⟨session', hs', hio ▸ hi _ hin⟩

theorem hosted_erase (h : Inv s) (ha : AllHosted s) {port : BitVec 16} (hs : s.stopping = some port) :
    AllHosted { s with mServers := s.mServers.erase port, stopping := none } ↔ Safe s .erase := by
  constructor
  · intro hall _ inst hs' hl uid k session hg hk hio
    obtain rfl := Option.some.inj (hs.symm.trans hs')
    obtain ⟨session', hk', port', inst', hl', he⟩ := hall uid k hg
    obtain rfl := Option.some.inj (hk.symm.trans hk')
    obtain ⟨hne, hl'⟩ := lookup_of_erase hl'
    exact hne (h.io_inj port' port inst' inst hl' hl (he.trans hio))
  · intro hsafe uid k hg
    obtain ⟨session, hk, hin⟩ := ha uid k hg
    exact ⟨session, hk, hin.erase fun inst hl => (hsafe port inst hs hl uid k session hg hk).symm⟩

theorem hosted_accept (ha : AllHosted s) (io : Nat) (mode : ServerMode) :
    AllHosted { s with
      mSessions := (s.mSessions.add s.accepted.length).1
      accepted := s.accepted ++ [⟨io, mode, (s.mSessions.add s.accepted.length).2, false, false⟩] } ↔ InServers s io := by
  constructor
  · intro hall
    obtain ⟨session, hk, hin⟩ := hall s.mSessions.mNextUid s.accepted.length (by simp [SessionManager.get_add])
    simp only [List.getElem?_concat_length, Option.some.injEq] at hk
    rwa [← hk] at hin
  · intro hin uid k hg
    simp only [SessionManager.get_add] at hg
    split at hg
    · cases hg
      exact ⟨_, List.getElem?_concat_length, hin⟩
    · obtain ⟨session, hk, hin'⟩ := ha uid k hg
      exact ⟨session, getElem?_append_some hk _, hin'⟩

theorem AllHosted.set (h : AllHosted s) {mSessions : SessionManager Nat} {k : Nat} {old session : Accepted}
    (hm : ∀ uid j, mSessions.get uid = some j → s.mSessions.get uid = some j) (hk : s.accepted[k]? = some old)
    (hio : session.io = old.io) :
    AllHosted { s with mSessions := mSessions, accepted := s.accepted.set k session } := by
  refine h.mono hm ?_ fun _ => id
  intro j x hj
  exact getElem?_set_rel (R := fun a b : Accepted => b.io = a.io) (fun _ => rfl) hk hio hj

/-- The step lemma: what a step does to hosted sessions, in both directions. -/
theorem hosted_next {e : Ev κ} (h : Inv s) (ha : AllHosted s) (he : next s e = some s') : AllHosted s' ↔ Safe s e := by
  cases e with
  | start cfg world =>
    simp only [next, Option.ite_none_right_eq_some] at he
    obtain ⟨-, he⟩ := he
    refine iff_of_true ?_ trivial
    split at he <;> cases he <;> exact ha
  | emplace =>
    obtain ⟨inst, hs, rfl⟩ := Option.map_eq_some_iff.mp he
    refine iff_of_true (ha.mono (fun _ _ => id) (fun _ session hk => ⟨session, hk, rfl⟩) ?_) trivial
    intro io hin
    obtain ⟨port, i, hi, hio⟩ := hin
    exact ⟨port, i, (lookup_emplace (h.starting inst hs).2.1).mpr (.inl hi), hio⟩
  | stop port =>
    simp only [next, Option.ite_none_right_eq_some, Option.some.injEq] at he
    obtain ⟨-, rfl⟩ := he
    refine iff_of_true ?_ trivial
    split <;> exact ha
  | erase =>
    obtain ⟨port, hs, rfl⟩ := Option.map_eq_some_iff.mp he
    exact hosted_erase h ha hs
  | accept io =>
    obtain ⟨inst, -, rfl⟩ := Option.map_eq_some_iff.mp he
    exact hosted_accept ha io inst.cfg.mode
  | onClose k =>
    obtain ⟨session, hk, rfl⟩ := Option.map_eq_some_iff.mp he
    exact iff_of_true (ha.set (fun _ _ => id) hk rfl) trivial
  | close k =>
    obtain ⟨session, hk, rfl⟩ := Option.map_eq_some_iff.mp he
    refine iff_of_true ?_ trivial
    split
    · exact ha
    · refine ha.set ?_ hk rfl
      intro uid j hg
      split at hg
      · simp only [SessionManager.get_remove, Option.ite_none_left_eq_some] at hg
        exact hg.2
      · exact hg
  | setName uid name =>
    cases he
    refine iff_of_true (ha.mono ?_ (fun _ session hk => ⟨session, hk, rfl⟩) fun _ => id) trivial
    intro u k hg
    simpa using hg

/-! ## Runs -/

theorem run_inv {ok : St κ → Ev κ → Prop} (h : Machine.Run next ok (init ctx) s) : Inv s :=
  Machine.run_invariant Inv inv_init (fun _ _ _ hi _ he => inv_next hi he) h

theorem all_hosted (h : Machine.Run next Safe (init ctx) s) : AllHosted s :=
  And.right <| Machine.run_invariant (fun s => Inv s ∧ AllHosted s) ⟨inv_init, by simp [AllHosted, init]⟩
    (fun _ _ _ ⟨hi, ha⟩ hsafe he => ⟨inv_next hi he, (hosted_next hi ha he).mpr hsafe⟩) h

/-- Every session is hosted after the step. -/
def Keeps (s : St κ) (e : Ev κ) : Prop := ∀ s', next s e = some s' → AllHosted s'

/-- The runs whose steps are all safe are those in which every session is hosted throughout. -/
theorem safe_iff_keeps : Machine.Run next Safe (init ctx) s ↔ Machine.Run next Keeps (init ctx) s := by
  refine Machine.run_iff_run (fun s => Inv s ∧ AllHosted s) ⟨inv_init, by simp [AllHosted, init]⟩ ?_ ?_
  · intro a e b ha he
    constructor
    · intro hsafe b' he'
      exact (hosted_next ha.1 ha.2 he').mpr hsafe
    · intro hkeeps
      exact (hosted_next ha.1 ha.2 he).mp (hkeeps b he)
  · intro a e b ha hsafe he
    exact ⟨inv_next ha.1 he, (hosted_next ha.1 ha.2 he).mpr hsafe⟩

/-- In every run whose steps are safe, and in no other, every registered session is hosted in
    every state reached; then so is every session that a broadcast, a `sendTo` or a list of
    the ids reaches. -/
theorem registered_hosted :
    (Machine.Run next Safe (init ctx) s ↔ Machine.Run next Keeps (init ctx) s) ∧
    (Machine.Run next Safe (init ctx) s →
      (∀ uid k, s.mSessions.get uid = some k → Hosted s k) ∧
      (∀ k ∈ s.mSessions.broadcast, Hosted s k) ∧
      (∀ uids, ∀ k ∈ s.mSessions.sendTo uids, Hosted s k) ∧
      ∀ uid ∈ s.mSessions.listIds, ∃ k, s.mSessions.get uid = some k ∧ Hosted s k) := by
  refine ⟨safe_iff_keeps, ?_⟩
  intro h
  have hall := all_hosted h
  refine ⟨hall, ?_, ?_, ?_⟩
  · intro k hk
    obtain ⟨uid, hg⟩ := SessionManager.mem_broadcast.mp hk
    exact hall uid k hg
  · intro uids k hk
    obtain ⟨uid, -, hg⟩ := SessionManager.mem_sendTo.mp hk
    exact hall uid k hg
  · intro uid hu
    obtain ⟨k, hg⟩ := SessionManager.mem_listIds.mp hu
    exact ⟨k, hg, hall uid k hg⟩

/-! ## Stopping a server -/

def samplePort : ServerConfig := ⟨8080, .plain, "", ""⟩

/-- A plain server has no use for the context. -/
def fine : World Unit := ⟨fun ctx _ => (ctx, true), fun ctx _ => (ctx, true), true⟩

/-- A session is accepted and its server is stopped. -/
def stopped : List (Ev Unit) := [.start samplePort fine, .emplace, .accept 0, .onClose 0, .stop 8080, .erase]

/-- A session that closes before its server is stopped. -/
theorem registered_hosted_closed :
    ∃ s, Machine.Run next Safe (init ()) s ∧ s.accepted.length = 2 ∧ ∀ k ∈ s.mSessions.broadcast, Hosted s k := by
  have h0 : Machine.Run next Safe (init ()) (init ()) := .refl
  have h1 := (h0.snoc (e := .start samplePort fine) trivial rfl).snoc (e := .emplace) trivial rfl
  have h2 := (h1.snoc (e := .accept 0) ⟨8080, ⟨samplePort, 0⟩, rfl, rfl⟩ rfl).snoc (e := .onClose 0) trivial rfl
  have h3 := (h2.snoc (e := .accept 0) ⟨8080, ⟨samplePort, 0⟩, rfl, rfl⟩ rfl).snoc (e := .close 0) trivial rfl
  exact ⟨_, h3, rfl, (registered_hosted.2 h3).2.1⟩

/-- The session of a stopped server is still registered, and no server is left. -/
theorem stop_leaves_sessions :
    ∃ s, Machine.Run next Machine.any (init ()) s ∧ s.mSessions.get 1#32 = some 0 ∧ ¬ Hosted s 0 := by
  have hex : ((Machine.exec next (init ()) stopped).map fun s => (s.mSessions.get 1#32, s.mServers.keys)) =
      some (some 0, []) := by decide
  obtain ⟨s, hs, hv⟩ := Option.map_eq_some_iff.mp hex
  obtain ⟨hg, hkeys⟩ := Prod.mk.inj hv
  refine ⟨s, Machine.run_of_exec stopped hs, hg, ?_⟩
  intro h
  obtain ⟨session, -, port, inst, hl, -⟩ := h
  have hmem : port ∈ s.mServers.keys := AList.mem_keys.mp (AList.lookup_isSome.mp (Option.isSome_of_eq_some hl))
  rw [hkeys] at hmem
  exact absurd hmem List.not_mem_nil

end ServerController

end CryptoChat.Net
