/-
  CryptoChat.Net.ChatApplication — the chat window over `ClientAppContext`, of a client that
  is logged in (`ChatApplication`).

  The window has its own copies of the users and of the messages, taken anew whenever the
  context says that its state was updated: after each push, after a list of clients and at
  each own send. A push or a list that throws closes the client, which ends the window.

  `renderMessages` tells the messages of one conversation from the rest by the sender alone.
  With a user selected it shows what was exchanged with that user exactly if nothing private
  was sent to anybody else (`private_view_iff`).
-/

import CryptoChat.Net.ClientAppContext
import CryptoChat.Lib.ListAt
import CryptoChat.Lib.Machine

namespace CryptoChat.Net

open CryptoChat.Lib

structure ChatApplication where
  mCtx : ClientAppContext
  mUsers : AList fun _ : BitVec 32 => User
  mMessages : List ChatMessage
  /-- 0 is the public chat. -/
  mSelectedUid : BitVec 32

namespace ChatApplication

/-! ## The window -/

/-- The handler of `onStateUpdated`. -/
def onStateUpdated (app : ChatApplication) : ChatApplication :=
  { app with mUsers := app.mCtx.mUsers, mMessages := app.mCtx.mMessages }

/-- The context changes and says so. -/
def updated (app : ChatApplication) (ctx : ClientAppContext) : ChatApplication :=
  onStateUpdated { app with mCtx := ctx }

inductive Ev where
  | sendPublic (text : String)
  | sendPrivate (toUid : BitVec 32) (text : String)
  | push (p : Json)
  /-- The response with the list of clients. -/
  | clientList (list : Json)
  /-- A click in the sidebar: on the public chat, or on a user. -/
  | selectPublic
  | select (uid : BitVec 32)
  /-- The header of the chat screen is drawn. -/
  | header

/-- What a send of the context leaves: without a text it does nothing. -/
def sent (app : ChatApplication) (r : ClientAppContext × Option ClientAppContext.Asked) : ChatApplication :=
  match r.2 with
  | none => app
  | some _ => app.updated r.1

/-- The user's entry in the sidebar, once selected. -/
def read (user : User) : User := { user with unreadCount := 0 }

def next (app : ChatApplication) : Ev → Option ChatApplication
  | .sendPublic text => some (app.sent (app.mCtx.sendPublic text))
  | .sendPrivate toUid text => some (app.sent (app.mCtx.sendPrivate toUid text))
  | .push p =>
    match app.mCtx.handlePush p with
    | .ok ctx => some (app.updated ctx)
    | .error _ => none
  | .clientList list =>
    match app.mCtx.handleClientList list with
    | (ctx, .ok _) => some (app.updated ctx)
    | (_, .error _) => none
  | .selectPublic => some { app with mSelectedUid := 0#32 }
  | .select uid =>
    -- the sidebar lists the window's users, without the own one
    if uid = app.mCtx.mMyUid then none
    else (app.mUsers.lookup uid).map fun user =>
      { app with mSelectedUid := uid, mUsers := app.mUsers.insert uid (read user) }
  | .header =>
    -- `mUsers[mSelectedUid].name` makes an entry where there is none
    some (if app.mSelectedUid = 0#32 ∨ (app.mUsers.lookup app.mSelectedUid).isSome then app
      else { app with mUsers := app.mUsers.insert app.mSelectedUid ⟨0#32, "", 0⟩ })

/-- The two `continue`s of the loop. -/
def skips (app : ChatApplication) (m : ChatMessage) : Bool :=
  (app.mSelectedUid = 0#32 && m.isPrivate) ||
    (app.mSelectedUid ≠ 0#32 && (!m.isPrivate || (m.uid ≠ app.mSelectedUid && m.uid ≠ app.mCtx.mMyUid)))

/-- The messages it draws. -/
def renderMessages (app : ChatApplication) : List ChatMessage := app.mMessages.filter fun m => !app.skips m

/-- The number at a user's name. -/
def badge (app : ChatApplication) (uid : BitVec 32) : Option Int := (app.mUsers.lookup uid).map User.unreadCount

/-! ## What an event does -/

/-- Whether the window takes its copies. -/
def updates : Ev → Bool
  | .sendPublic text => text ≠ ""
  | .sendPrivate _ text => text ≠ ""
  | .push _ => true
  | .clientList _ => true
  | _ => false

def selected : Ev → Option (BitVec 32)
  | .select uid => some uid
  | _ => none

/-- What an event that updates makes of the context. -/
def Changes (ctx : ClientAppContext) (e : Ev) (ctx' : ClientAppContext) : Prop :=
  match e with
  | .sendPublic text => ctx' = ctx.echo false text
  | .sendPrivate _ text => ctx' = ctx.echo true text
  | .push p => ctx.handlePush p = .ok ctx'
  | .clientList list => ctx.handleClientList list = (ctx', .ok ())
  | _ => False

variable {app app' : ChatApplication} {ctx ctx' : ClientAppContext} {p : Json} {e : Ev} {u : BitVec 32}

/-- All that an event can do. Without an update only a click changes an entry that is there. -/
theorem next_cases (h : next app e = some app') :
    (updates e = true ∧ ∃ ctx, Changes app.mCtx e ctx ∧ app' = app.updated ctx) ∨
      (updates e = false ∧ app'.mCtx = app.mCtx ∧ app'.mMessages = app.mMessages ∧
        ∀ v user, app.mUsers.lookup v = some user →
          app'.mUsers.lookup v = some (if selected e = some v then read user else user)) := by
  cases e with
  | sendPublic text =>
    cases h
    by_cases ht : text = ""
    · subst ht
      exact .inr ⟨rfl, rfl, rfl, fun _ _ hl => hl⟩
    · refine .inl ⟨decide_eq_true ht, app.mCtx.echo false text, rfl, ?_⟩
      rw [ClientAppContext.sendPublic, if_neg ht]
      rfl
  | sendPrivate toUid text =>
    cases h
    by_cases ht : text = ""
    · subst ht
      exact .inr ⟨rfl, rfl, rfl, fun _ _ hl => hl⟩
    · refine .inl ⟨decide_eq_true ht, app.mCtx.echo true text, rfl, ?_⟩
      rw [ClientAppContext.sendPrivate, if_neg ht]
      rfl
  | push p =>
    simp only [next] at h
    split at h
    · rename_i ctx hctx
      cases h
      exact .inl ⟨rfl, ctx, hctx, rfl⟩
    · cases h
  | clientList list =>
    simp only [next] at h
    split at h
    · rename_i ctx _ hctx
      cases h
      exact .inl ⟨rfl, ctx, hctx, rfl⟩
    · cases h
  | selectPublic =>
    cases h
    exact .inr ⟨rfl, rfl, rfl, fun _ _ hl => hl⟩
  | select uid =>
    simp only [next] at h
    split at h
    · cases h
    · obtain ⟨user, hl, rfl⟩ := Option.map_eq_some_iff.mp h
      refine .inr ⟨rfl, rfl, rfl, ?_⟩
      intro v user' hl'
      by_cases hv : v = uid
      · subst hv
        obtain rfl := Option.some.inj (hl.symm.trans hl')
        have hsel : selected (.select v) = some v := rfl
        rw [if_pos hsel, AList.lookup_insert]
      · have hsel : selected (.select uid) ≠ some v := fun heq => hv (Option.some.inj heq).symm
        rw [if_neg hsel, AList.lookup_insert_ne hv, hl']
  | header =>
    cases h
    refine .inr ⟨rfl, ?_⟩
    split
    · exact ⟨rfl, rfl, fun _ _ hl => hl⟩
    · rename_i hnone
      refine ⟨rfl, rfl, ?_⟩
      intro v user hl
      have hv : v ≠ app.mSelectedUid := by
        rintro rfl
        exact hnone (.inr (by rw [hl]; rfl))
      rw [AList.lookup_insert_ne hv, hl]
      rfl

/-! ## What an event adds to the messages -/

/-- The fields of a message that is pushed. -/
def fields (isPrivate : Bool) (p : Json) : Option ChatMessage := do
  let fromUid ← (p.valueInt "from_uid" 0#32).toOption
  let fromName ← (ClientAppContext.stringAt p "from_name").toOption
  let text ← (ClientAppContext.stringAt p "text").toOption
  return ⟨fromUid, fromName, text, isPrivate⟩

/-- The message a push carries, if it does. -/
def posted (p : Json) : Option ChatMessage :=
  match p.valueString "event" "" with
  | .ok evt =>
    if evt = "public_message" then fields false p
    else if evt = "private_message" then fields true p
    else none
  | .error _ => none

/-- The message an event adds, for a user of this uid and name. -/
def logged (me : BitVec 32) (name : String) : Ev → Option ChatMessage
  | .sendPublic text => if text = "" then none else some ⟨me, name, text, false⟩
  | .sendPrivate _ text => if text = "" then none else some ⟨me, name, text, true⟩
  | .push p => (posted p).filter fun m => m.uid ≠ me
  | _ => none

/-- The private message that an event sends to `u` or brings from `u`. -/
def exchanged? (me : BitVec 32) (name : String) (u : BitVec 32) : Ev → Option ChatMessage
  | .sendPrivate toUid text => if text = "" ∨ toUid ≠ u then none else some ⟨me, name, text, true⟩
  | .push p => (posted p).filter fun m => m.isPrivate && m.uid = u
  | _ => none

/-- From `ctx` to `ctx'` only the messages grow, by an entry or none. -/
structure Logs (ctx ctx' : ClientAppContext) (entry : Option ChatMessage) : Prop where
  myUid : ctx'.mMyUid = ctx.mMyUid
  myName : ctx'.mMyName = ctx.mMyName
  messages : ctx'.mMessages = ctx.mMessages ++ entry.toList

theorem logs_refl (ctx : ClientAppContext) : Logs ctx ctx none := ⟨rfl, rfl, (List.append_nil _).symm⟩

theorem logs_countUnread (uid : BitVec 32) (ctx : ClientAppContext) : Logs ctx (ctx.countUnread uid) none := by
  unfold ClientAppContext.countUnread
  split
  · exact ⟨rfl, rfl, (List.append_nil _).symm⟩
  · exact logs_refl ctx

theorem fields_some {isPrivate : Bool} {m : ChatMessage} (h : fields isPrivate p = some m) :
    p.valueInt "from_uid" 0#32 = .ok m.uid ∧ m.isPrivate = isPrivate := by
  unfold fields at h
  obtain ⟨fromUid, hfrom, h⟩ := Option.bind_eq_some_iff.mp h
  obtain ⟨fromName, -, h⟩ := Option.bind_eq_some_iff.mp h
  obtain ⟨text, -, h⟩ := Option.bind_eq_some_iff.mp h
  cases h
  cases hf : p.valueInt "from_uid" 0#32 with
  | error e =>
    rw [hf] at hfrom
    cases hfrom
  | ok uid =>
    rw [hf] at hfrom
    cases hfrom
    exact ⟨rfl, rfl⟩

/-- A push of one's own makes no entry. -/
theorem pushMessage_entry {isPrivate : Bool} (h : ctx.pushMessage isPrivate p = .ok ctx') :
    ((fields isPrivate p).filter (fun m => m.uid ≠ ctx.mMyUid) = none ∧ ctx' = ctx) ∨
      ∃ m, (fields isPrivate p).filter (fun m => m.uid ≠ ctx.mMyUid) = some m ∧ m.isPrivate = isPrivate ∧
        ctx' = if isPrivate then (ctx.addMessage m).countUnread m.uid else ctx.addMessage m := by
  obtain ⟨fromUid, hfrom, ⟨rfl, rfl⟩ | ⟨hne, fromName, text, hname, htext, rfl⟩⟩ :=
    ClientAppContext.pushMessage_cases h
  · refine .inl ⟨?_, rfl⟩
    rw [Option.filter_eq_none_iff]
    intro m hm
    have huid := (fields_some hm).1
    rw [hfrom, Except.ok.injEq] at huid
    simp [huid]
  · refine .inr ⟨⟨fromUid, fromName, text, isPrivate⟩, ?_, rfl, rfl⟩
    simp [fields, hfrom, hname, htext, Except.toOption, hne]

theorem logs_pushMessage {isPrivate : Bool} (h : ctx.pushMessage isPrivate p = .ok ctx') :
    Logs ctx ctx' ((fields isPrivate p).filter fun m => m.uid ≠ ctx.mMyUid) := by
  obtain ⟨hnone, rfl⟩ | ⟨m, hsome, -, rfl⟩ := pushMessage_entry h
  · rw [hnone]
    exact logs_refl ctx'
  · rw [hsome]
    split
    · obtain ⟨huid, hmyName, hmessages⟩ := logs_countUnread m.uid (ctx.addMessage m)
      exact ⟨huid, hmyName, by rw [hmessages]; exact List.append_nil _⟩
    · exact ⟨rfl, rfl, rfl⟩

theorem posted_of_event {evt : String} (he : p.valueString "event" "" = .ok evt) : posted p =
    if evt = "public_message" then fields false p else if evt = "private_message" then fields true p else none := by
  unfold posted
  rw [he]

theorem logs_handlePush (h : ctx.handlePush p = .ok ctx') :
    Logs ctx ctx' ((posted p).filter fun m => m.uid ≠ ctx.mMyUid) := by
  obtain ⟨evt, he, hcases⟩ := ClientAppContext.handlePush_cases h
  rw [posted_of_event he]
  rcases hcases with ⟨rfl, hadd⟩ | ⟨rfl, uid, -, rfl⟩ | ⟨rfl, hpush⟩ | ⟨rfl, hpush⟩ | ⟨-, -, h3, h4, rfl⟩
  · obtain ⟨uid, name, -, -, rfl⟩ := ClientAppContext.addUser_cases hadd
    exact ⟨rfl, rfl, (List.append_nil _).symm⟩
  · exact ⟨rfl, rfl, (List.append_nil _).symm⟩
  · exact logs_pushMessage hpush
  · exact logs_pushMessage hpush
  · simp only [if_neg h3, if_neg h4]
    exact logs_refl ctx'

theorem logs_addUsers (items : List Json) (ctx : ClientAppContext) :
    Logs ctx (ClientAppContext.addUsers items ctx).1 none := by
  induction items generalizing ctx with
  | nil => exact logs_refl ctx
  | cons c rest ih =>
    unfold ClientAppContext.addUsers
    cases hc : ClientAppContext.addUser c ctx with
    | error e => exact logs_refl ctx
    | ok t =>
      obtain ⟨uid, name, -, -, rfl⟩ := ClientAppContext.addUser_cases hc
      obtain ⟨huid, hname, hmessages⟩ := ih { ctx with mUsers := ctx.mUsers.insert uid ⟨uid, name, 0⟩ }
      exact ⟨huid, hname, hmessages⟩

theorem logs_handleClientList (list : Json) (ctx : ClientAppContext) :
    Logs ctx (ctx.handleClientList list).1 none := by
  unfold ClientAppContext.handleClientList
  split
  · exact logs_refl ctx
  · exact logs_addUsers _ ctx

/-- The window shows all messages of its context. -/
def Copied (app : ChatApplication) : Prop := app.mMessages = app.mCtx.mMessages

theorem logs_changes (hup : updates e = true) (h : Changes ctx e ctx') :
    Logs ctx ctx' (logged ctx.mMyUid ctx.mMyName e) := by
  cases e with
  | sendPublic text =>
    cases h
    rw [logged, if_neg (of_decide_eq_true hup)]
    exact ⟨rfl, rfl, rfl⟩
  | sendPrivate toUid text =>
    cases h
    rw [logged, if_neg (of_decide_eq_true hup)]
    exact ⟨rfl, rfl, rfl⟩
  | push p => exact logs_handlePush h
  | clientList list =>
    have hlogs := logs_handleClientList list ctx
    rwa [show ctx.handleClientList list = (ctx', .ok ()) from h] at hlogs
  | selectPublic => cases h
  | select uid => cases h
  | header => cases h

theorem logged_of_not_updates {me : BitVec 32} {name : String} (hup : updates e = false) : logged me name e = none := by
  cases e with
  | sendPublic text => exact if_pos (not_not.mp (of_decide_eq_false hup))
  | sendPrivate toUid text => exact if_pos (not_not.mp (of_decide_eq_false hup))
  | push p => cases hup
  | clientList list => cases hup
  | _ => rfl

theorem logs_next (h : next app e = some app') :
    Logs app.mCtx app'.mCtx (logged app.mCtx.mMyUid app.mCtx.mMyName e) ∧ (Copied app → Copied app') := by
  rcases next_cases h with ⟨hup, ctx, hctx, rfl⟩ | ⟨hup, hctx, hmessages, -⟩
  · exact ⟨logs_changes hup hctx, fun _ => rfl⟩
  · rw [logged_of_not_updates hup, hctx]
    refine ⟨logs_refl app.mCtx, ?_⟩
    intro hcopied
    rw [Copied, hmessages, hctx, hcopied]

/-- The messages of a whole history. -/
theorem logs_exec {es : List Ev} (h : Machine.exec next app es = some app') :
    app'.mCtx.mMyUid = app.mCtx.mMyUid ∧ (Copied app → Copied app') ∧
      app'.mCtx.mMessages = app.mCtx.mMessages ++ es.filterMap (logged app.mCtx.mMyUid app.mCtx.mMyName) := by
  induction es generalizing app with
  | nil =>
    cases h
    exact ⟨rfl, id, (List.append_nil _).symm⟩
  | cons e es ih =>
    obtain ⟨app₁, hfirst, hrest⟩ := Option.bind_eq_some_iff.mp h
    obtain ⟨⟨huid, hname, hmessages⟩, hcopied⟩ := logs_next hfirst
    obtain ⟨huid', hcopied', hmessages'⟩ := ih hrest
    refine ⟨huid'.trans huid, hcopied' ∘ hcopied, ?_⟩
    rw [hmessages', hmessages, huid, hname, List.filterMap_cons]
    cases logged app.mCtx.mMyUid app.mCtx.mMyName e <;> simp

/-! ## The view of one conversation -/

/-- What the window shows with a user selected. -/
def visible (me u : BitVec 32) (m : ChatMessage) : Bool := m.isPrivate && (m.uid = u || m.uid = me)

theorem renderMessages_select (app : ChatApplication) (hu : u ≠ 0#32) :
    renderMessages { app with mSelectedUid := u } = app.mMessages.filter (visible app.mCtx.mMyUid u) := by
  refine List.filter_congr ?_
  intro m _
  simp only [skips, visible, hu, decide_false, Bool.false_and, Bool.false_or, ne_eq, not_false_eq_true, decide_true,
    Bool.true_and, Bool.not_or, Bool.not_not, Bool.not_and, decide_not]

variable {me : BitVec 32} {name : String}

/-- With `u` selected a private message of one's own is shown, whoever it was for. -/
theorem shown_sendPrivate (toUid : BitVec 32) (text : String) :
    (logged me name (.sendPrivate toUid text)).filter (visible me u) =
      if text = "" then none else some ⟨me, name, text, true⟩ := by
  by_cases ht : text = ""
  · simp only [logged, if_pos ht, Option.filter_none]
  · simp [logged, ht, visible]

/-- Everything else is shown where it belongs. -/
theorem shown_other (hu : u ≠ me) (he : ¬ ∃ toUid text, e = .sendPrivate toUid text) :
    (logged me name e).filter (visible me u) = exchanged? me name u e := by
  cases e with
  | sendPublic text =>
    by_cases ht : text = ""
    · simp [logged, exchanged?, ht]
    · simp [logged, exchanged?, ht, visible]
  | sendPrivate toUid text => exact absurd ⟨toUid, text, rfl⟩ he
  | push p =>
    simp only [logged, exchanged?]
    cases posted p with
    | none => rfl
    | some m =>
      by_cases hm : m.uid = me
      · simp [Option.filter, hm, hu.symm]
      · simp [Option.filter, hm, visible]
  | clientList list => rfl
  | selectPublic => rfl
  | select uid => rfl
  | header => rfl

theorem shown_or_none (hu : u ≠ me) (e : Ev) :
    exchanged? me name u e = none ∨ exchanged? me name u e = (logged me name e).filter (visible me u) := by
  by_cases he : ∃ toUid text, e = .sendPrivate toUid text
  · obtain ⟨toUid, text, rfl⟩ := he
    rw [shown_sendPrivate]
    by_cases ht : text = ""
    · exact .inl (if_pos (.inl ht))
    · rw [if_neg ht]
      by_cases hto : toUid = u
      · exact .inr (if_neg (not_or.mpr ⟨ht, not_not.mpr hto⟩))
      · exact .inl (if_pos (.inr hto))
  · exact .inr (shown_other hu he).symm

theorem shown_eq_iff (hu : u ≠ me) (e : Ev) :
    (logged me name e).filter (visible me u) = exchanged? me name u e ↔
      ∀ toUid text, e = .sendPrivate toUid text → text ≠ "" → toUid = u := by
  constructor
  · intro hsame toUid text he ht
    subst he
    rw [shown_sendPrivate, if_neg ht] at hsame
    by_contra hto
    exact nomatch hsame.trans (if_pos (.inr hto))
  · intro hto
    by_cases he : ∃ toUid text, e = .sendPrivate toUid text
    · obtain ⟨toUid, text, rfl⟩ := he
      rw [shown_sendPrivate]
      by_cases ht : text = ""
      · rw [if_pos ht]
        exact (if_pos (.inl ht)).symm
      · rw [if_neg ht]
        exact (if_neg (not_or.mpr ⟨ht, not_not.mpr (hto toUid text rfl ht)⟩)).symm
    · exact shown_other hu he

/-- Nothing was private when the client had logged in, and the window shows what there was. -/
structure LoggedIn (app : ChatApplication) : Prop where
  copied : Copied app
  no_private : ∀ m ∈ app.mCtx.mMessages, m.isPrivate = false

theorem handleLoginResponse_clientList {onError : Bool} {response : Json}
    (h : ctx.handleLoginResponse onError response = (ctx', .clientList)) :
    ctx'.mUsers = ctx.mUsers ∧ ctx'.mMessages = ctx.mMessages := by
  unfold ClientAppContext.handleLoginResponse at h
  split at h
  · split at h <;> cases h
  · split at h
    · cases h
    · split at h <;> cases h
      exact ⟨rfl, rfl⟩

theorem loggedIn_login {onError : Bool} {response : Json} {name : String}
    (h : (ClientAppContext.init name).handleLoginResponse onError response = (ctx, .clientList)) :
    LoggedIn ⟨ctx, ∅, [], 0#32⟩ := by
  have hmessages : ctx.mMessages = [] := (handleLoginResponse_clientList h).2
  refine ⟨hmessages.symm, ?_⟩
  intro m hm
  change m ∈ ctx.mMessages at hm
  rw [hmessages] at hm
  cases hm

/-- For every history, with any user but the own one selected. -/
theorem private_view_iff (happ : LoggedIn app) {es : List Ev} (h : Machine.exec next app es = some app') (h0 : u ≠ 0#32)
    (hu : u ≠ app.mCtx.mMyUid) :
    renderMessages { app' with mSelectedUid := u } = es.filterMap (exchanged? app.mCtx.mMyUid app.mCtx.mMyName u) ↔
      ∀ toUid text, .sendPrivate toUid text ∈ es → text ≠ "" → toUid = u := by
  obtain ⟨hmyUid, hcopied, hmessages⟩ := logs_exec h
  have hbefore : app.mCtx.mMessages.filter (visible app.mCtx.mMyUid u) = [] := by
    rw [List.filter_eq_nil_iff]
    intro m hm
    simp [visible, happ.no_private m hm]
  have hshown : renderMessages { app' with mSelectedUid := u } =
      es.filterMap fun e => (logged app.mCtx.mMyUid app.mCtx.mMyName e).filter (visible app.mCtx.mMyUid u) := by
    rw [renderMessages_select app' h0, hmyUid, hcopied happ.copied, hmessages, List.filter_append, hbefore,
      List.nil_append, List.filter_filterMap]
  rw [hshown, ListAt.filterMap_eq_iff fun e _ => shown_or_none hu e]
  constructor
  · intro hall toUid text hm ht
    exact (shown_eq_iff hu _).mp (hall _ hm) toUid text rfl ht
  · intro hto e he
    rw [shown_eq_iff hu]
    intro toUid text hsend ht
    subst hsend
    exact hto toUid text he ht

/-- Alice, logged in as 1, hears from 2 and answers. -/
def alice : ChatApplication := ⟨{ ClientAppContext.init "alice" with mMyUid := 1#32, mMyName := "alice" }, ∅, [], 0#32⟩

theorem login_alice : (ClientAppContext.init "alice").handleLoginResponse true
    (.object [("uid", .uint32 1), ("name", .str "alice")]) = (alice.mCtx, .clientList) := rfl

theorem loggedIn_alice : LoggedIn alice := loggedIn_login login_alice

/-- A private message pushed. -/
def privatePush (uid : Int) (name text : String) : Json :=
  .object [("event", .str "private_message"), ("from_uid", .uint32 uid), ("from_name", .str name), ("text", .str text)]

/-- A conversation with 2, while 3 writes as well. -/
def talk : List Ev :=
  [.push (privatePush 2 "bob" "hi"), .sendPrivate 2#32 "hello", .push (privatePush 3 "eve" "psst"), .sendPublic "all"]

theorem private_view_two : ∃ app, Machine.exec next alice talk = some app ∧
    renderMessages { app with mSelectedUid := 2#32 } = [⟨2#32, "bob", "hi", true⟩, ⟨1#32, "alice", "hello", true⟩] := by
  obtain ⟨app, hexec⟩ : ∃ app, Machine.exec next alice talk = some app := ⟨_, rfl⟩
  have hview := (private_view_iff (u := 2#32) loggedIn_alice hexec (by decide) (by decide)).mpr (by simp [talk])
  exact ⟨app, hexec, hview.trans (by decide)⟩

/-- What was sent to 3 is shown with 2 selected. -/
theorem private_view_mixes : ¬ ∀ (app app' : ChatApplication) (es : List Ev) (u : BitVec 32), LoggedIn app →
    Machine.exec next app es = some app' → u ≠ 0#32 → u ≠ app.mCtx.mMyUid →
    renderMessages { app' with mSelectedUid := u } = es.filterMap (exchanged? app.mCtx.mMyUid app.mCtx.mMyName u) := by
  intro h
  have hview := h alice _ [.sendPrivate 3#32 "secret"] 2#32 loggedIn_alice rfl (by decide) (by decide)
  exact absurd hview (by decide)

end ChatApplication

end CryptoChat.Net
