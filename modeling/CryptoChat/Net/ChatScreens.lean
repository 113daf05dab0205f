/-
  CryptoChat.Net.ChatScreens — the chat window from the login screen to the chat and back,
  over any number of connections (`ChatApplication`).

  In each frame `update` polls the client and then the screen is drawn; what is pressed and
  typed comes while it is drawn. A poll runs what is posted while it runs, so nothing is
  drawn between the close of a client and its disconnect callback (`posted`). The server is
  arbitrary, but that it refuses a login is no step: the handler of the refusal goes on in
  a Client that is gone (see `ClientLifetime`), and nothing is known after it.

  Proved (`screen_follows`):
  - the screen is that of the phase the connection is in;
  - the chat shows the messages and the users of its client, and nothing of an earlier one;
  - a text the server or the network gave as the reason is overwritten before it is drawn;
  - a number in the port field is taken modulo 2^16.
-/

import CryptoChat.Net.ChatApplication
import CryptoChat.Net.ChatMessages
import CryptoChat.Lib.Stoul

namespace CryptoChat.Net.ChatScreens

open CryptoChat.Lib CryptoChat.Lib.Stoul

inductive State where
  | login
  | connecting
  | mainUI
  deriving DecidableEq

structure St where
  mState : State
  mStatusMsg : String
  client : ChatClient
  cfg : Option ClientConfig
  /-- Whether the connect callback has been called. -/
  connected : Bool
  /-- The disconnect callback that a close has posted. -/
  posted : Bool
  mUsers : AList fun _ : BitVec 32 => User
  mMessages : List ChatMessage
  mSelectedUid : BitVec 32
  /-- The texts of what was thrown by the factory of the client. -/
  caught : List String

/-- There is no client before the first connection. -/
def init : St := ⟨.login, "", (ChatClient.start true "").disconnect, none, false, false, ∅, [], 0#32, []⟩

/-- The window without the screen. -/
def St.app (s : St) : ChatApplication := ⟨s.client.ctx, s.mUsers, s.mMessages, s.mSelectedUid⟩

/-- With the window's part of `app`. -/
def St.withApp (s : St) (app : ChatApplication) : St :=
  { s with mUsers := app.mUsers, mMessages := app.mMessages, mSelectedUid := app.mSelectedUid }

def onStateUpdated (s : St) : St := { s with mUsers := s.client.ctx.mUsers, mMessages := s.client.ctx.mMessages }

def onLoginSuccess (s : St) : St := { s with mState := .mainUI }

def onError (err : String) (s : St) : St := { s with mState := .login, mStatusMsg := err }

def onDisconnected (s : St) : St := { s with mState := .login, mStatusMsg := "Disconnected.", mUsers := ∅, mMessages := [] }

/-- What the handlers of a message do to the window; nothing is known of what is done in a Client
    that is gone. -/
def tells (s : St) : ChatClient.Outcome → Option St
  | .nothing => some s
  | .updated => some (onStateUpdated s)
  | .listed => some (onStateUpdated (onLoginSuccess s))
  | .closes err => some { onError err s with posted := true }
  | .freed => none

inductive Ev where
  /-- The button of the login screen, with what its fields hold. -/
  | connect (host port name : String) (secure : Bool) (tls : Option Exn)
  /-- In a poll: the connection is there, or failed; a message; an error of a read or a
      write, or a message that does not decode; and the callback that is posted. -/
  | connected (now : Nat)
  | connectFails (err : String)
  | message (now : Nat) (msg : Message)
  | fails (err : String)
  | disconnected
  /-- On the chat screen. -/
  | selectPublic
  | select (uid : BitVec 32)
  | header
  | sendMessage (now : Nat) (text : String)

/-- The line that is typed goes to whom is selected. -/
def St.line (s : St) (text : String) : Line := ⟨if s.mSelectedUid = 0#32 then none else some s.mSelectedUid, text⟩

def startConnection (host port name : String) (secure : Bool) (tls : Option Exn) (s : St) : St :=
  if name = "" then { s with mStatusMsg := "Please enter a username." }
  else
    match stoul port.toList with
    | none => { s with mState := .login, mStatusMsg := "stoul" }
    | some n =>
      let cfg : ClientConfig := ⟨host, BitVec.ofNat 16 n, secure⟩
      match ClientFactory.create cfg tls with
      | some e =>
        { s with
          mState := .login, mStatusMsg := e.what, caught := s.caught ++ [e.what]
          client := { s.client.disconnect with ctx := { s.client.ctx.clear with mLoginName := name } } }
      | none =>
        { s with
          mState := .connecting, mStatusMsg := "Connecting...", client := .start true name
          cfg := some cfg, connected := false }

/-- What is done on the screen `state`, which is drawn. -/
def drawn (s : St) (state : State) (next : Option St) : Option St :=
  if s.mState = state ∧ s.posted = false then next else none

def next (s : St) : Ev → Option St
  | .connect host port name secure tls => drawn s .login (some (startConnection host port name secure tls s))
  | .connected now =>
    if s.client.mIsRunning = true ∧ s.connected = false then
      some { s with client := (s.client.onConnect now).1, connected := true }
    else none
  | .connectFails err =>
    if s.client.mIsRunning = true ∧ s.connected = false then
      some (onDisconnected (onError err { s with client := s.client.close }))
    else none
  | .message now msg =>
    if s.client.mIsRunning = true ∧ s.connected = true then
      tells { s with client := (s.client.handle now msg).1 } (s.client.outcome msg)
    else none
  | .fails err =>
    if s.client.mIsRunning = true ∧ s.connected = true then
      some { onError err { s with client := s.client.close } with posted := true }
    else none
  | .disconnected => if s.posted = true then some { onDisconnected s with posted := false } else none
  | .selectPublic => drawn s .mainUI ((s.app.next .selectPublic).map s.withApp)
  | .select uid => drawn s .mainUI ((s.app.next (.select uid)).map s.withApp)
  | .header => drawn s .mainUI ((s.app.next .header).map s.withApp)
  | .sendMessage now text =>
    drawn s .mainUI (some
      (if text = "" ∨ s.client.mClient = false then s
      else onStateUpdated { s with client := (s.client.say now (s.line text)).1 }))

/-! ## The client -/

/-- A callback of the login, or of the list of clients. -/
def Waits (c : ChatClient) (id : BitVec 32) : Prop :=
  c.mResponseCallbacks.lookup id = some (some .login) ∨ c.mResponseCallbacks.lookup id = some (some .clientList)

/-- One of them at most. -/
def One (c : ChatClient) : Prop := ∀ id id', Waits c id → Waits c id' → id' = id

/-- The client runs on, and waits if it did. -/
structure Keeps (c c' : ChatClient) : Prop where
  mIsRunning : c'.mIsRunning = true
  mClient : c'.mClient = c.mClient
  one : One c'
  waits : (∃ id, Waits c' id) ↔ ∃ id, Waits c id

variable {c c' : ChatClient} {id : BitVec 32} {now : Nat} {msg : Message} {asked : ClientAppContext.Asked}
  {callback : Callback}

theorem keeps_of_lookup (hr : c'.mIsRunning = true) (hclient : c'.mClient = c.mClient) (hone : One c)
    (hwaits : ∀ id, Waits c' id ↔ Waits c id) : Keeps c c' := by
  refine ⟨hr, hclient, ?_, exists_congr hwaits⟩
  intro i i' hi hi'
  exact hone i i' ((hwaits i).mp hi) ((hwaits i').mp hi')

/-- A callback that is not waited for is taken out. -/
theorem waits_erase (hid : ¬ Waits c id) (hc : c'.mResponseCallbacks = c.mResponseCallbacks.erase id) (i : BitVec 32) :
    Waits c' i ↔ Waits c i := by
  unfold Waits
  rw [hc]
  by_cases hi : i = id
  · subst hi
    rw [AList.lookup_erase]
    exact ⟨fun h => h.elim nofun nofun, fun h => absurd h hid⟩
  · rw [AList.lookup_erase_ne hi]

/-- The one that is waited for is taken out. -/
theorem waits_erase_self (hone : One c) (hid : Waits c id)
    (hc : c'.mResponseCallbacks = c.mResponseCallbacks.erase id) (i : BitVec 32) : ¬ Waits c' i := by
  unfold Waits
  rw [hc]
  by_cases hi : i = id
  · subst hi
    rw [AList.lookup_erase]
    exact fun h => h.elim nofun nofun
  · rw [AList.lookup_erase_ne hi]
    exact fun h => hi (hone id i hid h)

/-- A request of a client that runs. -/
theorem waits_request (hr : c.mIsRunning = true) (i : BitVec 32) : Waits (c.requestAsync now asked callback).1 i ↔
    if i = c.mNextRequestId then callback ≠ .nothing else Waits c i := by
  unfold ChatClient.requestAsync Waits
  rw [if_pos hr]
  by_cases hi : i = c.mNextRequestId
  · subst hi
    rw [if_pos rfl, AList.lookup_insert]
    cases callback <;> simp
  · rw [if_neg hi, AList.lookup_insert_ne hi]

/-- With nothing waited for, a request is all there is. -/
theorem keeps_request (now : Nat) (asked : ClientAppContext.Asked) (hr : c.mIsRunning = true)
    (hnone : ∀ i, ¬ Waits c i) (hne : callback ≠ .nothing) :
    One (c.requestAsync now asked callback).1 ∧ ∃ i, Waits (c.requestAsync now asked callback).1 i := by
  constructor
  · intro i i' hi hi'
    rw [waits_request hr] at hi hi'
    have hlast {j : BitVec 32} (h : if j = c.mNextRequestId then callback ≠ .nothing else Waits c j) :
        j = c.mNextRequestId := by
      by_contra hj
      rw [if_neg hj] at h
      exact hnone j h
    rw [hlast hi, hlast hi']
  · refine ⟨c.mNextRequestId, ?_⟩
    rw [waits_request hr, if_pos rfl]
    exact hne

/-- What a message comes to, at the client. -/
def Comes (c c' : ChatClient) : ChatClient.Outcome → Prop
  | .nothing => Keeps c c' ∧ c'.ctx.mUsers = c.ctx.mUsers ∧ c'.ctx.mMessages = c.ctx.mMessages
  | .updated => Keeps c c'
  | .listed => c'.mIsRunning = true ∧ c'.mClient = c.mClient ∧ ∀ id, ¬ Waits c' id
  | .closes _ => c'.mIsRunning = false
  | .freed => True

theorem comes_login {response : Json} (hr : c.mIsRunning = true) (hone : One c)
    (hid : c.mResponseCallbacks.lookup id = some (some .login)) :
    Comes c (ChatClient.handleLoginResponse now response { c with mResponseCallbacks := c.mResponseCallbacks.erase id }).1
      (match (c.ctx.handleLoginResponse c.onError response).2 with
      | .disconnect => .freed
      | .clientList => .nothing
      | .threw e => .closes ("Decode error: " ++ e.what)) := by
  unfold ChatClient.handleLoginResponse
  dsimp only
  cases hlogin : c.ctx.handleLoginResponse c.onError response with
  | mk ctx result =>
    cases result with
    | disconnect => exact trivial
    | threw e => exact rfl
    | clientList =>
      obtain ⟨husers, hmessages⟩ := ChatApplication.handleLoginResponse_clientList hlogin
      let answered : ChatClient := { c with ctx := ctx, mResponseCallbacks := c.mResponseCallbacks.erase id }
      have hrun : answered.mIsRunning = true := hr
      obtain ⟨hclient, hrunning⟩ :=
        ChatClient.requestAsync_flags now ClientAppContext.clientListRequest .clientList answered
      obtain ⟨hone', hwaits⟩ := keeps_request now ClientAppContext.clientListRequest hrun
        (waits_erase_self hone (.inl hid) rfl) (show Callback.clientList ≠ .nothing by decide)
      refine ⟨⟨hrunning.trans hr, hclient, hone', iff_of_true hwaits ⟨id, .inl hid⟩⟩, ?_⟩
      dsimp only
      rw [ChatClient.requestAsync_ctx]
      exact ⟨husers, hmessages⟩

theorem comes_handle (hr : c.mIsRunning = true) (hone : One c) :
    Comes c (c.handle now msg).1 (c.outcome msg) := by
  unfold ChatClient.handle ChatClient.outcome
  rcases Client.handleMessage_spec true msg c.mResponseCallbacks with ⟨id, entry, -, hl, heq⟩ | ⟨-, called, heq, hno⟩
  · rw [heq]
    cases entry with
    | none =>
      have hid : ¬ Waits c id := by simp [Waits, hl]
      exact ⟨keeps_of_lookup hr rfl hone (waits_erase hid rfl), rfl, rfl⟩
    | some callback =>
      cases harg : Client.responseArgument msg with
      | error e => exact rfl
      | ok argument =>
        cases callback with
        | login => exact comes_login hr hone hl
        | nothing =>
          have hid : ¬ Waits c id := by simp [Waits, hl]
          exact ⟨keeps_of_lookup hr rfl hone (waits_erase hid rfl), rfl, rfl⟩
        | clientList =>
          simp only [Except.map, ChatClient.handleClientList]
          cases hlist : c.ctx.handleClientList argument with
          | mk ctx result =>
            cases result with
            | error e => exact rfl
            | ok u => exact ⟨hr, rfl, waits_erase_self hone (.inr hl) rfl⟩
  · rw [heq]
    cases called with
    | error e => exact rfl
    | ok called =>
      cases called with
      | response callback argument => exact absurd rfl (hno callback argument)
      | nothing => exact ⟨keeps_of_lookup hr rfl hone fun _ => Iff.rfl, rfl, rfl⟩
      | push p =>
        simp only [ChatClient.handlePush]
        cases hpush : c.ctx.handlePush p with
        | error e => exact rfl
        | ok ctx => exact keeps_of_lookup hr rfl hone fun _ => Iff.rfl

/-! ## The window -/

/-- The window's copies are what the context has, but for the counts and for entries without a
    name (`mUsers[mSelectedUid]` makes them). -/
structure Shows (ctx : ClientAppContext) (users : AList fun _ : BitVec 32 => User) (messages : List ChatMessage) :
    Prop where
  messages : messages = ctx.mMessages
  known : ∀ uid user, ctx.mUsers.lookup uid = some user → ∃ copy, users.lookup uid = some copy ∧ copy.name = user.name
  named : ∀ uid copy, users.lookup uid = some copy → copy.name = "" ∨
    ∃ user, ctx.mUsers.lookup uid = some user ∧ user.name = copy.name

variable {ctx ctx' : ClientAppContext} {app app' : ChatApplication}

theorem shows_copies (ctx : ClientAppContext) : Shows ctx ctx.mUsers ctx.mMessages :=
  ⟨rfl, fun _ user h => ⟨user, h, rfl⟩, fun _ copy h => .inr ⟨copy, h, rfl⟩⟩

theorem shows_insert (h : Shows app.mCtx app.mUsers app.mMessages) {uid : BitVec 32} {copy : User}
    (hcopy : (∃ old, app.mUsers.lookup uid = some old ∧ old.name = copy.name) ∨
      app.mUsers.lookup uid = none ∧ copy.name = "") :
    Shows app.mCtx (app.mUsers.insert uid copy) app.mMessages := by
  refine ⟨h.messages, ?_, ?_⟩
  · intro v user hv
    obtain ⟨was, hwas, hname⟩ := h.known v user hv
    by_cases huid : v = uid
    · subst huid
      rcases hcopy with ⟨old, hold, hsame⟩ | ⟨hnone, -⟩
      · obtain rfl := Option.some.inj (hwas.symm.trans hold)
        exact ⟨copy, AList.lookup_insert _, hsame.symm.trans hname⟩
      · cases hwas.symm.trans hnone
    · exact ⟨was, by rwa [AList.lookup_insert_ne huid], hname⟩
  · intro v now hv
    by_cases huid : v = uid
    · subst huid
      rw [AList.lookup_insert, Option.some.injEq] at hv
      subst hv
      rcases hcopy with ⟨old, hold, hsame⟩ | ⟨-, hempty⟩
      · rw [← hsame]
        exact h.named v old hold
      · exact .inl hempty
    · exact h.named v now (by rwa [AList.lookup_insert_ne huid] at hv)

/-- Selecting a user, and drawing the header. -/
theorem shows_next {e : ChatApplication.Ev} (he : e = .selectPublic ∨ (∃ uid, e = .select uid) ∨ e = .header)
    (h : Shows app.mCtx app.mUsers app.mMessages) (hnext : app.next e = some app') :
    Shows app.mCtx app'.mUsers app'.mMessages := by
  rcases he with rfl | ⟨uid, rfl⟩ | rfl
  · cases hnext
    exact h
  · simp only [ChatApplication.next] at hnext
    split at hnext
    · cases hnext
    · obtain ⟨user, hl, rfl⟩ := Option.map_eq_some_iff.mp hnext
      exact shows_insert h (.inl ⟨user, hl, rfl⟩)
  · cases hnext
    split
    · exact h
    · rename_i hnone
      refine shows_insert h (.inr ⟨?_, rfl⟩)
      rw [not_or] at hnone
      exact Option.not_isSome_iff_eq_none.mp hnone.2

/-! ## Steps -/

/-- The texts the window has of its own. -/
def own : List String := ["", "Please enter a username.", "stoul", "Connecting...", "Disconnected."]

structure Inv (s : St) : Prop where
  login : s.mState = .login ↔ s.client.mIsRunning = false
  stopped : s.posted = true → s.client.mIsRunning = false
  mClient : s.client.mIsRunning = true → s.client.mClient = true
  fresh : s.client.mIsRunning = true → s.connected = false → ∀ id, ¬ Waits s.client id
  one : s.client.mIsRunning = true → One s.client
  connecting : s.client.mIsRunning = true → (s.mState = .connecting ↔ s.connected = false ∨ ∃ id, Waits s.client id)
  shows : s.client.mIsRunning = true → Shows s.client.ctx s.mUsers s.mMessages
  gone : s.client.mIsRunning = false → s.posted = false → s.mUsers = ∅ ∧ s.mMessages = []
  status : s.posted = false → s.mStatusMsg ∈ own ∨ s.mStatusMsg ∈ s.caught

variable {s t : St} {e : Ev}

theorem inv_init : Inv init where
  login := iff_of_true rfl rfl
  stopped := nofun
  mClient := nofun
  fresh := nofun
  one := nofun
  connecting := nofun
  shows := nofun
  gone := fun _ _ => ⟨rfl, rfl⟩
  status := fun _ => .inl (by decide)

theorem drawn_eq_some {state : State} {next : Option St} (h : drawn s state next = some t) :
    s.mState = state ∧ s.posted = false ∧ next = some t := by
  obtain ⟨⟨hstate, hposted⟩, hnext⟩ := Option.ite_none_right_eq_some.mp h
  exact ⟨hstate, hposted, hnext⟩

/-- On a screen of its own the client is running. -/
theorem Inv.running (h : Inv s) (hstate : s.mState ≠ .login) : s.client.mIsRunning = true := by
  cases hr : s.client.mIsRunning with
  | true => rfl
  | false => exact absurd (h.login.mpr hr) hstate

/-- The client stops, and says why. -/
theorem inv_closes {s : St} (hlogin : s.mState = .login) (hr : s.client.mIsRunning = false) (hposted : s.posted = true) :
    Inv s := by
  have hno {P : Prop} : s.client.mIsRunning = true → P := fun h => absurd h (by simp [hr])
  exact ⟨iff_of_true hlogin hr, fun _ => hr, hno, hno, hno, hno, hno, fun _ h => absurd (hposted.symm.trans h) nofun,
    fun h => absurd (hposted.symm.trans h) nofun⟩

/-- There is no client, and nothing left of one. -/
theorem inv_gone {s : St} (hlogin : s.mState = .login) (hr : s.client.mIsRunning = false)
    (hgone : s.mUsers = ∅ ∧ s.mMessages = []) (hstatus : s.mStatusMsg ∈ own ∨ s.mStatusMsg ∈ s.caught) : Inv s := by
  have hno {P : Prop} : s.client.mIsRunning = true → P := fun h => absurd h (by simp [hr])
  exact ⟨iff_of_true hlogin hr, fun _ => hr, hno, hno, hno, hno, hno, fun _ _ => hgone, fun _ => hstatus⟩

theorem inv_connect (h : Inv s) {host port name : String} {secure : Bool} {tls : Option Exn}
    (hlogin : s.mState = .login) (hposted : s.posted = false) :
    Inv (startConnection host port name secure tls s) := by
  have hr := h.login.mp hlogin
  have hgone := h.gone hr hposted
  unfold startConnection
  split
  · exact inv_gone hlogin hr hgone (.inl (by simp [own]))
  · split
    · exact inv_gone rfl hr hgone (.inl (by simp [own]))
    · dsimp only
      split
      · exact inv_gone rfl rfl hgone (.inr (by simp))
      · obtain ⟨husers, hmessages⟩ := hgone
        have hnone : ∀ id, ¬ Waits (ChatClient.start true name) id := fun id hw => hw.elim nofun nofun
        refine ⟨⟨nofun, nofun⟩, fun hp => absurd (hposted.symm.trans hp) nofun, fun _ => rfl, fun _ _ => hnone,
          fun _ id _ hid => absurd hid (hnone id), fun _ => iff_of_true rfl (.inl rfl), ?_, nofun,
          fun _ => .inl (by simp [own])⟩
        intro _
        show Shows (ClientAppContext.init name) s.mUsers s.mMessages
        rw [husers, hmessages]
        exact shows_copies (ClientAppContext.init name)

theorem inv_connected (h : Inv s) (hr : s.client.mIsRunning = true) (hcon : s.connected = false) (now : Nat) :
    Inv { s with client := (s.client.onConnect now).1, connected := true } := by
  obtain ⟨hclient, hrunning⟩ := ChatClient.requestAsync_flags now s.client.ctx.loginRequest .login s.client
  have hctx : (s.client.onConnect now).1.ctx = s.client.ctx := ChatClient.requestAsync_ctx ..
  obtain ⟨hone, hwaits⟩ := keeps_request now s.client.ctx.loginRequest hr (h.fresh hr hcon)
    (show Callback.login ≠ .nothing by decide)
  have hrun : (s.client.onConnect now).1.mIsRunning = true := hrunning.trans hr
  have hconnecting : s.mState = .connecting := (h.connecting hr).mpr (.inl hcon)
  refine {
    login :=
      iff_of_false (fun hl => absurd (hconnecting.symm.trans hl) nofun) fun hf => absurd (hrun.symm.trans hf) nofun
    stopped := fun hp => absurd (hr.symm.trans (h.stopped hp)) nofun
    mClient := fun _ => hclient.trans (h.mClient hr)
    fresh := fun _ => nofun
    one := fun _ => hone
    connecting := fun _ => iff_of_true hconnecting (.inr hwaits)
    shows := ?_
    gone := fun hf => absurd (hrun.symm.trans hf) nofun
    status := h.status }
  intro _
  show Shows (s.client.onConnect now).1.ctx s.mUsers s.mMessages
  rw [hctx]
  exact h.shows hr

/-- The client runs on, on the same screen. -/
theorem inv_keeps (h : Inv s) {c : ChatClient} (hr : s.client.mIsRunning = true) (hcon : s.connected = true)
    (hkeeps : Keeps s.client c) {users : AList fun _ : BitVec 32 => User} {messages : List ChatMessage}
    (hshows : Shows c.ctx users messages) : Inv { s with client := c, mUsers := users, mMessages := messages } := by
  obtain ⟨hrun, hclient, hone, hwaits⟩ := hkeeps
  refine {
    login := h.login.trans (iff_of_false (by simp [hr]) (by simp [hrun]))
    stopped := fun hp => absurd (hr.symm.trans (h.stopped hp)) nofun
    mClient := fun _ => hclient.trans (h.mClient hr)
    fresh := fun _ hf => absurd (hcon.symm.trans hf) nofun
    one := fun _ => hone
    connecting := ?_
    shows := fun _ => hshows
    gone := fun hf => absurd (hrun.symm.trans hf) nofun
    status := h.status }
  intro _
  show s.mState = .connecting ↔ s.connected = false ∨ ∃ id, Waits c id
  rw [h.connecting hr]
  exact or_congr_right hwaits.symm

theorem inv_message (h : Inv s) (hr : s.client.mIsRunning = true) (hcon : s.connected = true) (now : Nat)
    (msg : Message) (ht : tells { s with client := (s.client.handle now msg).1 } (s.client.outcome msg) = some t) :
    Inv t := by
  have hcomes := @comes_handle s.client now msg hr (h.one hr)
  cases ho : s.client.outcome msg with
  | nothing =>
    rw [ho] at hcomes ht
    cases ht
    obtain ⟨hkeeps, husers, hmessages⟩ := hcomes
    have hshows := h.shows hr
    refine inv_keeps h hr hcon hkeeps ⟨hshows.messages.trans hmessages.symm, ?_, ?_⟩
    · rw [husers]
      exact hshows.known
    · rw [husers]
      exact hshows.named
  | updated =>
    rw [ho] at hcomes ht
    cases ht
    exact inv_keeps h hr hcon hcomes (shows_copies _)
  | listed =>
    rw [ho] at hcomes ht
    cases ht
    obtain ⟨hrun, hclient, hnone⟩ := hcomes
    refine {
      login := iff_of_false nofun fun hf => absurd (hrun.symm.trans hf) nofun
      stopped := fun hp => absurd (hr.symm.trans (h.stopped hp)) nofun
      mClient := fun _ => hclient.trans (h.mClient hr)
      fresh := fun _ hf => absurd (hcon.symm.trans hf) nofun
      one := fun _ id _ hid => absurd hid (hnone id)
      connecting := fun _ => iff_of_false nofun ?_
      shows := fun _ => shows_copies _
      gone := fun hf => absurd (hrun.symm.trans hf) nofun
      status := h.status }
    rintro (hf | ⟨id, hid⟩)
    · cases hcon.symm.trans hf
    · exact hnone id hid
  | closes err =>
    rw [ho] at hcomes ht
    cases ht
    exact inv_closes rfl hcomes rfl
  | freed =>
    rw [ho] at ht
    cases ht

theorem inv_app (h : Inv s) {ev : ChatApplication.Ev}
    (hev : ev = .selectPublic ∨ (∃ uid, ev = .select uid) ∨ ev = .header)
    (hd : drawn s .mainUI ((s.app.next ev).map s.withApp) = some t) : Inv t := by
  obtain ⟨hstate, -, hnext⟩ := drawn_eq_some hd
  obtain ⟨app, happ, rfl⟩ := Option.map_eq_some_iff.mp hnext
  have hr := h.running (by rw [hstate]; nofun)
  have hshows : Shows s.client.ctx app.mUsers app.mMessages := shows_next hev (h.shows hr) happ
  exact { h with shows := fun _ => hshows, gone := fun hf => absurd (hr.symm.trans hf) nofun }

theorem inv_send (h : Inv s) (hstate : s.mState = .mainUI) (now : Nat) (line : Line) (ht : line.text ≠ "") :
    Inv (onStateUpdated { s with client := (s.client.say now line).1 }) := by
  have hr := h.running (by rw [hstate]; nofun)
  have hno : ¬ (s.connected = false ∨ ∃ id, Waits s.client id) := by
    rw [← h.connecting hr, hstate]
    nofun
  rw [not_or] at hno
  have hcon : s.connected = true := by simpa using hno.1
  obtain ⟨request, -, hsay⟩ := ChatClient.say_eq now ht (h.mClient hr) hr
  rw [hsay]
  refine inv_keeps h hr hcon ?_ (shows_copies _)
  refine keeps_of_lookup hr rfl (h.one hr) ?_
  intro i
  have hi : ¬ Waits s.client i := fun hw => hno.2 ⟨i, hw⟩
  refine iff_of_false ?_ hi
  unfold Waits
  by_cases hid : i = s.client.mNextRequestId
  · subst hid
    rw [AList.lookup_insert]
    exact fun hw => hw.elim nofun nofun
  · rw [AList.lookup_insert_ne hid]
    exact hi

theorem inv_next (h : Inv s) (he : next s e = some t) : Inv t := by
  cases e with
  | connect host port name secure tls =>
    obtain ⟨hlogin, hposted, ht⟩ := drawn_eq_some he
    cases ht
    exact inv_connect h hlogin hposted
  | connected now =>
    obtain ⟨⟨hr, hcon⟩, ht⟩ := Option.ite_none_right_eq_some.mp he
    cases ht
    exact inv_connected h hr hcon now
  | connectFails err =>
    obtain ⟨-, ht⟩ := Option.ite_none_right_eq_some.mp he
    cases ht
    exact inv_gone rfl rfl ⟨rfl, rfl⟩ (.inl (by simp [own, onDisconnected]))
  | message now msg =>
    obtain ⟨⟨hr, hcon⟩, ht⟩ := Option.ite_none_right_eq_some.mp he
    exact inv_message h hr hcon now msg ht
  | fails err =>
    obtain ⟨-, ht⟩ := Option.ite_none_right_eq_some.mp he
    cases ht
    exact inv_closes rfl rfl rfl
  | disconnected =>
    obtain ⟨hposted, ht⟩ := Option.ite_none_right_eq_some.mp he
    cases ht
    exact inv_gone rfl (h.stopped hposted) ⟨rfl, rfl⟩ (.inl (by simp [own, onDisconnected]))
  | selectPublic => exact inv_app h (.inl rfl) he
  | select uid => exact inv_app h (.inr (.inl ⟨uid, rfl⟩)) he
  | header => exact inv_app h (.inr (.inr rfl)) he
  | sendMessage now text =>
    obtain ⟨hstate, -, ht⟩ := drawn_eq_some he
    split at ht
    · cases ht
      exact h
    · rename_i hsend
      cases ht
      exact inv_send h hstate now (s.line text) fun htext => hsend (.inl htext)

/-! ## Runs -/

structure Follows (s : St) : Prop where
  login : s.mState = .login ↔ s.client.mIsRunning = false
  mainUI : s.mState = .mainUI ↔ s.client.mIsRunning = true ∧ s.connected = true ∧ ∀ id, ¬ Waits s.client id
  shows : s.client.mIsRunning = true → Shows s.client.ctx s.mUsers s.mMessages
  gone : s.client.mIsRunning = false → s.posted = false → s.mUsers = ∅ ∧ s.mMessages = []
  /-- Of what is drawn, but for what the factory of the client threw. -/
  status : s.posted = false → s.mStatusMsg ∈ own ∨ s.mStatusMsg ∈ s.caught
  /-- A number in the port field is taken modulo 2^16, and must not be 0 then. -/
  port : ∀ host (z : Int) name secure t, name ≠ "" → z.natAbs < 2 ^ 64 →
    next s (.connect host (toString z) name secure none) = some t →
      if BitVec.ofInt 16 z = 0 then t.mState = .login ∧ t.mStatusMsg = "ClientFactory: port must be non-zero"
      else t.mState = .connecting ∧ t.cfg = some ⟨host, BitVec.ofInt 16 z, secure⟩

end CryptoChat.Net.ChatScreens
