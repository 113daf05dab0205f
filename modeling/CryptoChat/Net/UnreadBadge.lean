/-
  CryptoChat.Net.UnreadBadge — the number at a user's name in the chat window, over any
  sequence of pushes, lists of clients, own sends and clicks.

  The count is an entry of the context, and the window has a copy of it. A click on the user
  clears the copy only, and the next update brings the context's count back; a list of
  clients or a `user_joined` writes the entry anew, with the count 0.

  Proved, with `since` the private messages received from a user since it was last selected
  or was listed: the context's count is `since` and `seen` together (`Inv`), what was cleared
  in the window alone; the numbers are right as long as every update comes when nothing was
  cleared so and writes no entry of a user with unread messages, and only so long
  (`badge_while_timely`).
-/

import CryptoChat.Net.ChatApplication
import CryptoChat.Net.ChatClient

namespace CryptoChat.Net

open CryptoChat.Lib

namespace ClientAppContext

variable {p j : Json} {s t : ClientAppContext} {u : BitVec 32}

/-- The count of a user that is listed. -/
def count (s : ClientAppContext) (uid : BitVec 32) : Option Int := (s.mUsers.lookup uid).map User.unreadCount

theorem count_insert (uid : BitVec 32) (user : User) (u : BitVec 32) :
    count { s with mUsers := s.mUsers.insert uid user } u = if u = uid then some user.unreadCount else count s u := by
  unfold count
  split
  · rename_i heq
    rw [heq, AList.lookup_insert, Option.map_some]
  · rename_i hne
    rw [AList.lookup_insert_ne hne]

theorem count_erase (uid u : BitVec 32) :
    count { s with mUsers := s.mUsers.erase uid } u = if u = uid then none else count s u := by
  unfold count
  split
  · rename_i heq
    rw [heq, AList.lookup_erase, Option.map_none]
  · rename_i hne
    rw [AList.lookup_erase_ne hne]

theorem count_countUnread (uid u : BitVec 32) :
    count (s.countUnread uid) u = if u = uid then (count s u).map (· + 1) else count s u := by
  unfold countUnread
  split
  · rename_i user hl
    rw [count_insert]
    split
    · rename_i heq
      subst heq
      simp [count, hl]
    · rfl
  · rename_i hl
    split
    · rename_i heq
      subst heq
      simp [count, hl]
    · rfl

theorem count_addUser (h : addUser j s = .ok t) :
    ∃ uid, uidAt j "uid" = .ok uid ∧ ∀ u, count t u = if u = uid then some 0 else count s u := by
  obtain ⟨uid, name, huid, -, rfl⟩ := addUser_cases h
  exact ⟨uid, huid, count_insert uid ⟨uid, name, 0⟩⟩

theorem count_addUsers {items : List Json} (h : addUsers items s = (t, .ok ())) (u : BitVec 32) :
    count t u = if u ∈ items.filterMap (fun c => (uidAt c "uid").toOption) then some 0 else count s u := by
  induction items generalizing s with
  | nil =>
    cases h
    rfl
  | cons c rest ih =>
    unfold addUsers at h
    split at h
    · cases h
    · rename_i s' hc
      obtain ⟨uid, huid, hcount⟩ := count_addUser hc
      rw [ih h, hcount, List.filterMap_cons_some (b := uid) (by rw [huid]; rfl)]
      by_cases hu : u = uid
      · simp [hu]
      · simp [hu]

end ClientAppContext

namespace UnreadBadge

open ClientAppContext ChatApplication

/-! ## What an event does to the counts -/

/-- The users whose entries an event writes, and those it removes. -/
def named : Ev → List (BitVec 32)
  | .push p => ChatClient.joined p
  | .clientList list => ChatClient.listed list
  | _ => []

def gone : Ev → List (BitVec 32)
  | .push p => ChatClient.left p
  | _ => []

/-- Whom an event brings a private message from. -/
def heard (me : BitVec 32) : Ev → Option (BitVec 32)
  | .push p => (((posted p).filter fun m => m.uid ≠ me).filter ChatMessage.isPrivate).map ChatMessage.uid
  | _ => none

variable {app app' : ChatApplication} {ctx ctx' : ClientAppContext} {p : Json} {e : Ev}

/-- The count of `u` after an event, `n` before it. -/
def after (me : BitVec 32) (e : Ev) (u : BitVec 32) (n : Option Int) : Option Int :=
  if u ∈ named e then some 0
  else if u ∈ gone e then none
  else if heard me e = some u then n.map (· + 1)
  else n

/-- What a message from `u` adds. -/
def heardFrom (me : BitVec 32) (e : Ev) (u : BitVec 32) : Nat := if heard me e = some u then 1 else 0

theorem after_named {me u : BitVec 32} (hnamed : u ∈ named e) (n : Option Int) : after me e u n = some 0 :=
  if_pos hnamed

theorem after_gone {me u : BitVec 32} (hnamed : u ∉ named e) (hgone : u ∈ gone e) (n : Option Int) :
    after me e u n = none := by
  rw [after, if_neg hnamed, if_pos hgone]

theorem after_stays {me u : BitVec 32} (hnamed : u ∉ named e) (hgone : u ∉ gone e) (n : Option Int) :
    after me e u n = n.map (· + (heardFrom me e u : Int)) := by
  unfold after heardFrom
  rw [if_neg hnamed, if_neg hgone]
  split
  · rfl
  · cases n with
    | none => rfl
    | some n => simp

theorem after_push_other (hjoined : p.valueString "event" "" ≠ .ok "user_joined")
    (hleft : p.valueString "event" "" ≠ .ok "user_left") (me u : BitVec 32) (n : Option Int) :
    after me (.push p) u n = if heard me (.push p) = some u then n.map (· + 1) else n := by
  simp only [after, named, gone, ChatClient.joined, ChatClient.left, if_neg hjoined, if_neg hleft, List.not_mem_nil,
    if_false]

theorem count_pushMessage {isPrivate : Bool} (h : ctx.pushMessage isPrivate p = .ok ctx') (u : BitVec 32) :
    count ctx' u =
      if (((fields isPrivate p).filter fun m => m.uid ≠ ctx.mMyUid).filter ChatMessage.isPrivate).map ChatMessage.uid =
        some u then (count ctx u).map (· + 1) else count ctx u := by
  obtain ⟨hnone, rfl⟩ | ⟨m, hsome, hprivate, rfl⟩ := pushMessage_entry h
  · rw [hnone]
    rfl
  · rw [hsome]
    cases isPrivate with
    | false =>
      simp [Option.filter, hprivate]
      rfl
    | true =>
      simp only [Option.filter, hprivate, if_true, Option.map_some, Option.some.injEq]
      rw [count_countUnread]
      simp only [eq_comm]
      rfl

theorem count_handlePush (h : ctx.handlePush p = .ok ctx') (u : BitVec 32) :
    count ctx' u = after ctx.mMyUid (.push p) u (count ctx u) := by
  obtain ⟨evt, he, hcases⟩ := ClientAppContext.handlePush_cases h
  rcases hcases with ⟨rfl, hadd⟩ | ⟨rfl, uid, huid, rfl⟩ | ⟨rfl, hpush⟩ | ⟨rfl, hpush⟩ | ⟨h1, h2, h3, h4, rfl⟩
  · obtain ⟨uid, huid, hcount⟩ := count_addUser hadd
    have hnamed : named (.push p) = [uid] := by simp [named, ChatClient.joined, he, huid, Except.toOption]
    have hgone : gone (.push p) = [] := if_neg (by rw [he]; decide)
    have hheard : heard ctx.mMyUid (.push p) = none := by simp [heard, posted_of_event he]
    simp [hcount, after, hnamed, hgone, hheard]
  · have hnamed : named (.push p) = [] := if_neg (by rw [he]; decide)
    have hgone : gone (.push p) = [uid] := by simp [gone, ChatClient.left, he, huid, Except.toOption]
    have hheard : heard ctx.mMyUid (.push p) = none := by simp [heard, posted_of_event he]
    simp [count_erase, after, hnamed, hgone, hheard]
  · rw [after_push_other (by rw [he]; decide) (by rw [he]; decide), count_pushMessage hpush, heard, posted_of_event he]
    rfl
  · rw [after_push_other (by rw [he]; decide) (by rw [he]; decide), count_pushMessage hpush, heard, posted_of_event he]
    rfl
  · rw [after_push_other (by simpa [he] using h1) (by simpa [he] using h2), heard, posted_of_event he, if_neg h3,
      if_neg h4]
    rfl

theorem count_handleClientList {list : Json} (h : ctx.handleClientList list = (ctx', .ok ())) (u : BitVec 32) :
    count ctx' u = after ctx.mMyUid (.clientList list) u (count ctx u) := by
  have hafter : after ctx.mMyUid (.clientList list) u (count ctx u) =
      if u ∈ named (.clientList list) then some 0 else count ctx u := rfl
  rw [hafter]
  unfold handleClientList at h
  split at h
  · rename_i hfind
    cases h
    simp [named, ChatClient.listed, hfind]
  · rename_i clients hfind
    rw [count_addUsers h]
    simp [named, ChatClient.listed, hfind]

theorem count_changes (h : Changes ctx e ctx') (u : BitVec 32) : count ctx' u = after ctx.mMyUid e u (count ctx u) := by
  cases e with
  | sendPublic text =>
    cases h
    rfl
  | sendPrivate toUid text =>
    cases h
    rfl
  | push p => exact count_handlePush h u
  | clientList list => exact count_handleClientList h u
  | selectPublic => cases h
  | select uid => cases h
  | header => cases h

theorem quiet_of_not_updates (hup : updates e = false) (me : BitVec 32) :
    named e = [] ∧ gone e = [] ∧ heard me e = none := by
  cases e with
  | push p => cases hup
  | clientList list => cases hup
  | _ => exact ⟨rfl, rfl, rfl⟩

theorem count_next (h : ChatApplication.next app e = some app') (u : BitVec 32) :
    count app'.mCtx u = after app.mCtx.mMyUid e u (count app.mCtx u) := by
  rcases next_cases h with ⟨-, ctx, hctx, rfl⟩ | ⟨hup, hctx, -, -⟩
  · exact count_changes hctx u
  · obtain ⟨hnamed, hgone, hheard⟩ := quiet_of_not_updates hup app.mCtx.mMyUid
    rw [hctx]
    simp only [after, hnamed, hgone, hheard, List.not_mem_nil, if_false, reduceCtorEq]

theorem badge_of_updates (h : ChatApplication.next app e = some app') (hup : updates e = true) (u : BitVec 32) :
    app'.badge u = count app'.mCtx u := by
  rcases next_cases h with ⟨-, ctx, -, rfl⟩ | ⟨hnot, -, -, -⟩
  · rfl
  · cases hup.symm.trans hnot

theorem badge_of_not_updates (h : ChatApplication.next app e = some app') (hup : updates e = false) {u : BitVec 32}
    {n : Int} (hn : app.badge u = some n) : app'.badge u = some (if selected e = some u then 0 else n) := by
  rcases next_cases h with ⟨hyes, ctx, -, rfl⟩ | ⟨-, -, -, husers⟩
  · cases hyes.symm.trans hup
  · obtain ⟨user, hl, rfl⟩ := Option.map_eq_some_iff.mp hn
    rw [badge, husers u user hl, Option.map_some]
    split <;> rfl

/-! ## The machine -/

structure St where
  app : ChatApplication
  /-- The private messages received from a user since it was last selected, or since it was listed. -/
  since : BitVec 32 → Nat
  /-- Of the messages that the user's entry in the context counts, those that were there at a click. -/
  seen : BitVec 32 → Nat

def listed? (s : St) (u : BitVec 32) : Bool := (s.app.mCtx.mUsers.lookup u).isSome

def sinceAfter (s : St) (e : Ev) (u : BitVec 32) : Nat :=
  if u ∈ named e then (if listed? s u then s.since u else 0)
  else if selected e = some u then 0
  else if heard s.app.mCtx.mMyUid e = some u then s.since u + 1
  else s.since u

def seenAfter (s : St) (e : Ev) (u : BitVec 32) : Nat :=
  if u ∈ named e then 0
  else if selected e = some u then s.seen u + s.since u
  else s.seen u

def next (s : St) (e : Ev) : Option St :=
  (ChatApplication.next s.app e).map fun app => ⟨app, sinceAfter s e, seenAfter s e⟩

/-- The numbers of the users in the sidebar. -/
def Shown (s : St) : Prop :=
  ∀ u, u ≠ s.app.mCtx.mMyUid → listed? s u = true → s.app.badge u = some (s.since u : Int)

/-- An update finds no user with messages that were cleared in the window alone, unless it
    writes or removes the entry, and writes no entry of a user with unread messages. -/
def Timely (s : St) (e : Ev) : Prop :=
  updates e = true → ∀ u, u ≠ s.app.mCtx.mMyUid → listed? s u = true →
    (u ∈ named e → s.since u = 0) ∧ (u ∉ named e → u ∉ gone e → s.seen u = 0)

/-- After the step the numbers are right. -/
def KeepsShown (s : St) (e : Ev) : Prop := ∀ s', next s e = some s' → Shown s'

/-- What the context counts. -/
def Inv (s : St) : Prop :=
  ∀ u n, u ≠ s.app.mCtx.mMyUid → count s.app.mCtx u = some n → n = s.since u + s.seen u

variable {s s' : St} {u : BitVec 32}

theorem next_app (h : next s e = some s') :
    ChatApplication.next s.app e = some s'.app ∧ s'.since = sinceAfter s e ∧ s'.seen = seenAfter s e := by
  obtain ⟨app, happ, rfl⟩ := Option.map_eq_some_iff.mp h
  exact ⟨happ, rfl, rfl⟩

theorem myUid_next (h : next s e = some s') : s'.app.mCtx.mMyUid = s.app.mCtx.mMyUid :=
  (logs_next (next_app h).1).1.myUid

theorem listed_iff : listed? s u = true ↔ ∃ n, count s.app.mCtx u = some n := by
  rw [← Option.isSome_iff_exists, count, Option.isSome_map]
  exact Iff.rfl

theorem selected_of_updates (hup : updates e = true) : selected e = none := by
  cases e with
  | select uid => cases hup
  | _ => rfl

/-- Without an update only a click moves messages, from `since` to `seen`. -/
theorem next_of_not_updates (h : next s e = some s') (hup : updates e = false) (u : BitVec 32) :
    count s'.app.mCtx u = count s.app.mCtx u ∧ s'.since u = (if selected e = some u then 0 else s.since u) ∧
      s'.seen u = if selected e = some u then s.seen u + s.since u else s.seen u := by
  obtain ⟨happ, hsince, hseen⟩ := next_app h
  obtain ⟨hnamed, hgone, hheard⟩ := quiet_of_not_updates hup s.app.mCtx.mMyUid
  rw [count_next happ u, hsince, hseen]
  simp only [after, sinceAfter, seenAfter, hnamed, hgone, hheard, List.not_mem_nil, if_false, reduceCtorEq, and_self]

theorem sinceAfter_named (s : St) (hnamed : u ∈ named e) :
    sinceAfter s e u = (if listed? s u then s.since u else 0) ∧ seenAfter s e u = 0 := by
  simp only [sinceAfter, seenAfter, if_pos hnamed, and_self]

theorem sinceAfter_stays (s : St) (hup : updates e = true) (hnamed : u ∉ named e) :
    sinceAfter s e u = s.since u + heardFrom s.app.mCtx.mMyUid e u ∧ seenAfter s e u = s.seen u := by
  unfold sinceAfter seenAfter heardFrom
  simp only [selected_of_updates hup, hnamed, if_false, reduceCtorEq, and_true]
  split <;> rfl

/-- At an update, for one user. -/
theorem shown_update_iff (hi : Inv s) (h : next s e = some s') (hup : updates e = true) (hu : u ≠ s.app.mCtx.mMyUid) :
    (listed? s' u = true → s'.app.badge u = some (s'.since u : Int)) ↔
      (listed? s u = true → (u ∈ named e → s.since u = 0) ∧ (u ∉ named e → u ∉ gone e → s.seen u = 0)) := by
  obtain ⟨happ, hsince, -⟩ := next_app h
  rw [badge_of_updates happ hup, listed_iff, count_next happ u, hsince]
  by_cases hnamed : u ∈ named e
  · -- the entry is new, with the count 0
    rw [after_named hnamed, (sinceAfter_named s hnamed).1]
    constructor
    · intro hshown hl
      have hzero := hshown ⟨0, rfl⟩
      rw [if_pos hl, Option.some.injEq] at hzero
      exact ⟨fun _ => Int.natCast_eq_zero.mp hzero.symm, fun hn => absurd hnamed hn⟩
    · intro htimely _
      by_cases hl : listed? s u = true
      · rw [if_pos hl, (htimely hl).1 hnamed, Int.natCast_zero]
      · rw [if_neg hl, Int.natCast_zero]
  by_cases hgone : u ∈ gone e
  · rw [after_gone hnamed hgone]
    constructor
    · intro _ _
      exact ⟨fun hn => absurd hn hnamed, fun _ hne => absurd hgone hne⟩
    · intro _ hl
      obtain ⟨n, hn⟩ := hl
      cases hn
  · -- what is heard is counted, so the difference stays what was seen
    rw [after_stays hnamed hgone, (sinceAfter_stays s hup hnamed).1, listed_iff]
    constructor
    · intro hshown hl
      obtain ⟨n, hc⟩ := hl
      have hn := hi u n hu hc
      rw [hc, Option.map_some] at hshown
      have hsame := Option.some.inj (hshown ⟨_, rfl⟩)
      refine ⟨fun hn => absurd hn hnamed, fun _ _ => ?_⟩
      omega
    · intro htimely hl
      obtain ⟨n', hn'⟩ := hl
      obtain ⟨n, hc, -⟩ := Option.map_eq_some_iff.mp hn'
      have hn := hi u n hu hc
      have hseen := (htimely ⟨n, hc⟩).2 hnamed hgone
      rw [hc, Option.map_some, Option.some.injEq]
      omega

theorem shown_of_not_updates (hs : Shown s) (h : next s e = some s') (hup : updates e = false) : Shown s' := by
  intro u hu hl
  obtain ⟨hcount, hsince, -⟩ := next_of_not_updates h hup u
  rw [myUid_next h] at hu
  rw [listed_iff, hcount, ← listed_iff] at hl
  rw [badge_of_not_updates (next_app h).1 hup (hs u hu hl), hsince]
  split <;> rfl

theorem inv_next (hi : Inv s) (hok : Timely s e) (h : next s e = some s') : Inv s' := by
  intro u n hu hn
  rw [myUid_next h] at hu
  cases hup : updates e with
  | false =>
    obtain ⟨hcount, hsince, hseen⟩ := next_of_not_updates h hup u
    rw [hcount] at hn
    have hcounts := hi u n hu hn
    rw [hsince, hseen]
    split <;> omega
  | true =>
    obtain ⟨happ, hsince, hseen⟩ := next_app h
    rw [count_next happ u] at hn
    rw [hsince, hseen]
    by_cases hnamed : u ∈ named e
    · rw [after_named hnamed, Option.some.injEq] at hn
      rw [(sinceAfter_named s hnamed).1, (sinceAfter_named s hnamed).2, ← hn]
      by_cases hl : listed? s u = true
      · rw [if_pos hl, (hok hup u hu hl).1 hnamed]
        rfl
      · rw [if_neg hl]
        rfl
    by_cases hgone : u ∈ gone e
    · rw [after_gone hnamed hgone] at hn
      cases hn
    · rw [after_stays hnamed hgone] at hn
      obtain ⟨m, hm, rfl⟩ := Option.map_eq_some_iff.mp hn
      have hcounts := hi u m hu hm
      rw [(sinceAfter_stays s hup hnamed).1, (sinceAfter_stays s hup hnamed).2]
      omega

theorem timely_iff_keeps (hi : Inv s) (hs : Shown s) (h : next s e = some s') : Timely s e ↔ KeepsShown s e := by
  have hkeeps : KeepsShown s e ↔ Shown s' := by
    constructor
    · intro hk
      exact hk s' h
    · intro hs' s'' h''
      rw [h] at h''
      cases h''
      exact hs'
  rw [hkeeps]
  cases hup : updates e with
  | false => exact ⟨fun _ => shown_of_not_updates hs h hup, fun _ hup' => nomatch hup.symm.trans hup'⟩
  | true =>
    unfold Timely Shown
    rw [myUid_next h]
    constructor
    · intro htimely u hu
      exact (shown_update_iff hi h hup hu).mpr (htimely hup u hu)
    · intro hshown _ u hu
      exact (shown_update_iff hi h hup hu).mp (hshown u hu)

/-! ## Runs -/

/-- Nothing private is counted when the client has logged in. -/
structure Fresh (app : ChatApplication) : Prop where
  copied : app.mUsers = app.mCtx.mUsers
  unread : ∀ u n, count app.mCtx u = some n → n = 0

theorem fresh_login {onError : Bool} {response : Json} {name : String}
    (h : (ClientAppContext.init name).handleLoginResponse onError response = (ctx, .clientList)) :
    Fresh ⟨ctx, ∅, [], 0#32⟩ := by
  have husers : ctx.mUsers = ∅ := (handleLoginResponse_clientList h).1
  refine ⟨husers.symm, ?_⟩
  intro u n hn
  obtain ⟨user, hl, -⟩ := Option.map_eq_some_iff.mp hn
  change ctx.mUsers.lookup u = some user at hl
  rw [husers, AList.lookup_empty] at hl
  cases hl

def start (app : ChatApplication) : St := ⟨app, fun _ => 0, fun _ => 0⟩

theorem inv_start (h : Fresh app) : Inv (start app) := by
  intro u n _ hn
  rw [h.unread u n hn]
  rfl

theorem shown_start (h : Fresh app) : Shown (start app) := by
  intro u _ hl
  obtain ⟨n, hn⟩ : ∃ n, count app.mCtx u = some n := listed_iff.mp hl
  have hbadge : app.badge u = count app.mCtx u := by
    unfold badge count
    rw [h.copied]
  rw [show (start app).app.badge u = count app.mCtx u from hbadge, hn, h.unread u n hn]
  rfl

theorem run_shown (happ : Fresh app) (h : Machine.Run next Timely (start app) s) : Inv s ∧ Shown s := by
  refine Machine.run_invariant (fun s => Inv s ∧ Shown s) ⟨inv_start happ, shown_start happ⟩ ?_ h
  intro a e b ha hok he
  exact ⟨inv_next ha.1 hok he, (timely_iff_keeps ha.1 ha.2 he).mp hok b he⟩

/-- The number at a listed user is that of the private messages received since it was selected
    or listed, in every run of timely updates; and these are all the runs that keep it so. -/
theorem badge_while_timely (happ : Fresh app) :
    (Machine.Run next Timely (start app) s ↔ Machine.Run next KeepsShown (start app) s) ∧
      (Machine.Run next Timely (start app) s → Shown s) := by
  refine ⟨?_, fun h => (run_shown happ h).2⟩
  refine Machine.run_iff_run (fun s => Inv s ∧ Shown s) ⟨inv_start happ, shown_start happ⟩ ?_ ?_
  · intro a e b ha he
    exact timely_iff_keeps ha.1 ha.2 he
  · intro a e b ha hok he
    exact ⟨inv_next ha.1 hok he, (timely_iff_keeps ha.1 ha.2 he).mp hok b he⟩

/-- `Timely`, over the users that are listed. -/
def timely (s : St) (e : Ev) : Bool :=
  !updates e || s.app.mCtx.mUsers.keys.all fun u => u = s.app.mCtx.mMyUid ||
    ((u ∉ named e || s.since u = 0) && (u ∈ named e || u ∈ gone e || s.seen u = 0))

theorem timely_of_test (s : St) (e : Ev) (h : timely s e = true) : Timely s e := by
  intro hup u hu hl
  have hmem : u ∈ s.app.mCtx.mUsers.keys := AList.mem_keys.mp (AList.lookup_isSome.mp hl)
  simp only [timely, hup, Bool.not_true, Bool.false_or, List.all_eq_true] at h
  have hcase := h u hmem
  simp only [hu, decide_false, Bool.false_or, Bool.and_eq_true, Bool.or_eq_true, decide_eq_true_eq] at hcase
  refine ⟨fun hn => hcase.1.resolve_left (not_not.mpr hn), fun hn hgone => ?_⟩
  exact hcase.2.resolve_left (not_or.mpr ⟨hn, hgone⟩)

theorem fresh_alice : Fresh alice := fresh_login login_alice

/-- 2 is listed and writes. -/
def heardFromTwo : List Ev :=
  [.clientList (.object [("clients", .arr [.object [("uid", .uint32 1), ("name", .str "alice")],
    .object [("uid", .uint32 2), ("name", .str "bob")]])]), .push (privatePush 2 "bob" "hi")]

/-- A click on 3, who wrote nothing yet, and a message from each; then a click on 2. -/
def bothHeard : List Ev :=
  [.push (.object [("event", .str "user_joined"), ("uid", .uint32 3), ("name", .str "eve")]), .select 3#32,
    .push (privatePush 3 "eve" "psst"), .push (privatePush 2 "bob" "there?"), .select 2#32]

theorem badge_while_timely_heard : ∃ s, Machine.Run next Timely (start alice) s ∧ s.app.badge 2#32 = some 0 ∧
    s.app.badge 3#32 = some 1 := by
  have hex : ((Machine.execIf next timely (start alice) (heardFromTwo ++ bothHeard)).map fun s =>
      (s.app.mCtx.mMyUid, listed? s 2#32, s.since 2#32, listed? s 3#32, s.since 3#32)) =
        some (1#32, true, 0, true, 1) := by decide
  obtain ⟨s, hs, hv⟩ := Option.map_eq_some_iff.mp hex
  have hrun := Machine.run_of_execIf timely_of_test _ hs
  have hshown := (badge_while_timely fresh_alice).2 hrun
  simp only [Prod.mk.injEq] at hv
  obtain ⟨hme, hl2, hs2, hl3, hs3⟩ := hv
  have h2 := hshown 2#32 (by rw [hme]; decide) hl2
  have h3 := hshown 3#32 (by rw [hme]; decide) hl3
  rw [hs2] at h2
  rw [hs3] at h3
  exact ⟨s, hrun, h2, h3⟩

/-- After a click on 2 any update shows the message it had written as unread again. -/
theorem badge_returns : ¬ ∀ app s, Fresh app → Machine.Run next Machine.any (start app) s → Shown s := by
  intro h
  have hex : ((Machine.exec next (start alice) (heardFromTwo ++ [.select 2#32, .sendPublic "hello"])).map fun s =>
      (s.app.mCtx.mMyUid, listed? s 2#32, s.app.badge 2#32, s.since 2#32)) = some (1#32, true, some 1, 0) := by decide
  obtain ⟨s, hs, hv⟩ := Option.map_eq_some_iff.mp hex
  simp only [Prod.mk.injEq] at hv
  obtain ⟨hme, hl, hbadge, hsince⟩ := hv
  have hshown := h alice s fresh_alice (Machine.run_of_exec _ hs) 2#32 (by rw [hme]; decide) hl
  rw [hbadge, hsince] at hshown
  exact absurd hshown (by decide)

end UnreadBadge

end CryptoChat.Net
