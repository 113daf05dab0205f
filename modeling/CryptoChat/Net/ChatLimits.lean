/-
  CryptoChat.Net.ChatLimits — the two counters behind `exactly_once` are of 32 bits, and
  each of its bounds is needed.

  The uids go round: session 2^32 - 1 has the uid 0, which is what a client compares with
  before its login is answered, so that client leaves out a line that is not its own
  (`missed`). The request ids go round: 2^32 requests after the login one has its id and
  takes the place of its callback, the client never has a uid, and every line of its own
  comes back to it (`twice`).
-/

import CryptoChat.Net.Chat

namespace CryptoChat.Net.Chat

open CryptoChat.Lib Message ServerAppContext ServerRun

/-! ## The uids -/

/-- A client that never connected, with its session closed. -/
def closed (k : Nat) : Connection := ⟨sessionUid k, false, .start true "", false, [], 0, 0, []⟩

/-- `n` sessions were accepted and closed. -/
def idle (n : Nat) : St := ⟨⟨⟨sessionUid n, ∅⟩, []⟩, n, fun k => if k < n then some (closed k) else none, []⟩

/-- The session after those. -/
def opened (n : Nat) : St :=
  put n { closed n with isOpen := true } { idle n with
    store := { (idle n).store with mSessions := ((idle n).store.mSessions.add n).1 }, made := n + 1 }

theorem next_opened (n : Nat) : next (opened n) (.close n 0) = some (idle (n + 1)) := by
  have hremove : ((idle n).store.mSessions.add n).1.remove (sessionUid n) = ⟨sessionUid (n + 1), ∅⟩ := by
    have hnone : (AList.insert (sessionUid n) ⟨n, "guest"⟩
        (∅ : AList fun _ : BitVec 32 => SessionInfo Nat)).erase (sessionUid n) = ∅ :=
      AList.ext (List.kerase_cons_eq rfl)
    simp only [idle, SessionManager.add, SessionManager.remove, hnone]
    simp [sessionUid, BitVec.ofNat_add]
  have hstore : ((onClose 0 (sessionUid n)).run exec (opened n).store).1 = (idle (n + 1)).store := by
    have hopened : (opened n).store.mSessions = ((idle n).store.mSessions.add n).1 := rfl
    rw [run_onClose, hopened, hremove]
    rfl
  have hself : (opened n).connections n = some { closed n with isOpen := true } := Function.update_self ..
  have hall : Function.update (opened n).connections n (some (closed n)) = (idle (n + 1)).connections := by
    funext k
    rcases Nat.lt_trichotomy k n with hk | rfl | hk
    · simp [opened, put, idle, Nat.ne_of_lt hk, hk, Nat.le_of_lt hk]
    · simp [idle]
    · simp [opened, put, idle, Nat.ne_of_gt hk, Nat.lt_asymm hk, hk]
  have hnext : next (opened n) (.close n 0) = some ⟨((onClose 0 (sessionUid n)).run exec (opened n).store).1, n + 1,
      Function.update (opened n).connections n (some (closed n)), []⟩ := by
    simp only [next, hself, Option.bind_some]
    rfl
  rw [hnext, hstore, hall]
  rfl

theorem run_idle (n : Nat) : Machine.Run next IdsLeft init (idle n) := by
  induction n with
  | zero =>
    have hinit : idle 0 = init := by simp [idle, init, sessionUid, SessionManager.new]
    exact hinit ▸ Machine.Run.refl
  | succ n ih =>
    have haccept : next (idle n) (.accept true "") = some (opened n) := rfl
    exact (ih.snoc (e := .accept true "") trivial haccept).snoc (e := .close n 0) trivial (next_opened n)

/-- A session that is closed stays so. -/
theorem run_closed {n : Nat} {s : St} (hrun : Machine.Run next IdsLeft (idle n) s) :
    Numbered s ∧ ∀ k < n, ∃ c, s.connections k = some c ∧ c.isOpen = false := by
  refine Machine.run_invariant (fun s => Numbered s ∧ ∀ k < n, ∃ c, s.connections k = some c ∧ c.isOpen = false)
    ⟨?_, fun k hk => ⟨closed k, by simp [idle, hk], rfl⟩⟩ ?_ hrun
  · intro k c hc
    have hk : k < n ∧ closed k = c := by simpa [idle] using hc
    exact hk.1
  · intro s e s' ih _ he
    obtain ⟨hn, hclosed⟩ := ih
    refine ⟨numbered_next hn he, ?_⟩
    intro k hk
    obtain ⟨j, c', t, rfl, ht, -, -, hopen⟩ := next_put hn he
    obtain ⟨c, hc, hshut⟩ := hclosed k hk
    have hkj : k ≠ j := by
      rintro rfl
      cases hshut.symm.trans (hopen c hc)
    exact ⟨c, by simpa only [put, Function.update_of_ne hkj, ht] using hc, hshut⟩

/-- `b` is registered but did not log in when a line of `a` is handled; `a` has the uid 0. -/
def late (a b : Nat) : List Ev := List.flatten [
  [.accept true "bob", .accept true "ann", .connected a 0, .say a 0 ⟨none, "x"⟩, .connected b 0],
  List.replicate 2 (.serve a 0), [.serve b 0], List.replicate 5 (.deliver a 0), List.replicate 4 (.deliver b 0),
  [.serve a 0, .serve b 0, .deliver a 0, .deliver b 0]]

/-- A line to all was handled when another client was registered, and that client has no entry. -/
def Missed (s : St) : Prop :=
  ∃ x ∈ s.posted, x.line.toUid = none ∧ ∃ b ∈ x.registered, b ≠ x.author ∧
    ∃ cb ∈ s.connections b, cb.isOpen = true ∧ cb.client.ctx.mMessages = []

theorem missed : ∃ s, Machine.Run next IdsLeft init s ∧ s.made = 2 ^ 32 ∧ Settled s ∧ Missed s := by
  have h : ∃ s ∈ Machine.execIf next idsLeft (idle (2 ^ 32 - 2)) (late (2 ^ 32 - 1) (2 ^ 32 - 2)), s.made = 2 ^ 32 ∧
      (∀ k ∈ [2 ^ 32 - 2, 2 ^ 32 - 1], ∀ c ∈ s.connections k,
        c.isOpen = true → c.taken = c.asked.length ∧ pending s k c = []) ∧
      ∃ x ∈ s.posted, x.line.toUid = none ∧ ∃ b ∈ x.registered, b ≠ x.author ∧
        ∃ cb ∈ s.connections b, cb.isOpen = true ∧ cb.client.ctx.mMessages = [] := by decide
  obtain ⟨s, hs, hmade, hquiet, hmissed⟩ := h
  have hrun : Machine.Run next IdsLeft (idle (2 ^ 32 - 2)) s := Machine.run_of_execIf idsLeft_ok _ hs
  obtain ⟨hn, hclosed⟩ := run_closed hrun
  refine ⟨s, (run_idle _).trans hrun, hmade, ?_, hmissed⟩
  intro k c hc ho
  have hlt := hn k c hc
  rcases Nat.lt_or_ge k (2 ^ 32 - 2) with hk | hk
  · obtain ⟨d, hd, hshut⟩ := hclosed k hk
    cases (Option.some.inj (hc.symm.trans hd) ▸ ho).symm.trans hshut
  · exact hquiet k (by simp only [List.mem_cons, List.not_mem_nil, or_false]; omega) c hc ho

/-! ## The request ids -/

/-- The line said again and again. -/
def again : Line := ⟨none, "x"⟩

/-- One client, alone with the server. -/
def alone (store : Store Nat) (posted : List Posted) (c : Connection) : St := put 0 c ⟨store, 1, fun _ => none, posted⟩

variable {store : Store Nat} {posted : List Posted} {c c' : Connection}

theorem put_alone : put 0 c' (alone store posted c) = alone store posted c' := by
  simp only [alone, put, Function.update_idem]

theorem alone_self : (alone store posted c).connections 0 = some c := by simp [alone, put]

theorem next_connected_alone (ho : c.isOpen = true) (hcon : c.connected = false) :
    next (alone store posted c) (.connected 0 0) = some (alone store posted { c with
      connected := true
      client := (c.client.onConnect 0).1
      asked := c.asked ++ (c.client.onConnect 0).2 }) := by
  simp only [next, alone_self, Option.bind_some, ho, hcon, Bool.not_false, Bool.and_self, if_true, acts, put_alone]

theorem next_say_alone (ho : c.isOpen = true) (hcon : c.connected = true) :
    next (alone store posted c) (.say 0 0 again) = some (alone store posted { c with
      client := (c.client.say 0 again).1
      asked := c.asked ++ (c.client.say 0 again).2
      said := c.said ++ [again] }) := by
  have htext : (again.text != "") = true := by decide
  simp only [next, alone_self, Option.bind_some, ho, hcon, htext, Bool.and_self, if_true, acts, put_alone]

theorem next_serve_alone (ho : c.isOpen = true) {request : Message} (hq : c.asked[c.taken]? = some request) :
    next (alone store posted c) (.serve 0 0) = some (alone ((onMessage 0 c.uid request 0).run exec store).1
      (posted ++ posts 0 request store.mSessions) { c with taken := c.taken + 1 }) := by
  simp only [next, alone_self, Option.bind_some, ho, hq, if_true]
  simp only [alone, put, Function.update_idem]

theorem next_deliver_alone (ho : c.isOpen = true) (hcon : c.connected = true) (hr : c.client.mIsRunning = true)
    {msg : Message} (hmsg : ((inbox store.sent 0).drop c.received).head? = some msg) :
    next (alone store posted c) (.deliver 0 0) = some (alone store posted { c with
      received := c.received + 1
      client := (c.client.handle 0 msg).1
      asked := c.asked ++ (c.client.handle 0 msg).2 }) := by
  have hpending : (pending (alone store posted c) 0 c).head? = some msg := hmsg
  simp only [next, alone_self, Option.bind_some, hpending, ho, hcon, hr, Bool.and_self, if_true, acts, put_alone]

/-- Said `n` times while the login is not handled. -/
structure Talked (n : Nat) (c : Connection) : Prop where
  isOpen : c.isOpen = true
  connected : c.connected = true
  taken : c.taken = 0
  received : c.received = 0
  asked : c.asked.length = n + 1
  said : c.said = List.replicate n again

/-- The server when only the one client was accepted. -/
def accepted : Store Nat := ⟨(SessionManager.new.add 0).1, []⟩

theorem run_talked {n : Nat} (hn : n < 2 ^ 32) :
    ∃ c, Machine.Run next IdsLeft init (alone accepted [] c) ∧ Talked n c := by
  induction n with
  | zero =>
    have haccept : next init (.accept true "ann") =
      some (alone accepted [] ⟨1#32, true, .start true "ann", false, [], 0, 0, []⟩) := rfl
    have hrun : Machine.Run next IdsLeft init _ := Machine.Run.refl.snoc (e := .accept true "ann") trivial haccept
    exact ⟨_, hrun.snoc (e := .connected 0 0) trivial (next_connected_alone rfl rfl), rfl, rfl, rfl, rfl, rfl, rfl⟩
  | succ n ih =>
    obtain ⟨c, hrun, h⟩ := ih (Nat.lt_of_succ_lt hn)
    have hconn := (run_inv hrun (by decide : 1 < 2 ^ 32)).conn 0 c alone_self
    obtain ⟨request, -, hsay⟩ := ChatClient.say_eq 0 (by decide : again.text ≠ "") hconn.mClient hconn.mIsRunning
    have hids : IdsLeft (alone accepted [] c) (.say 0 0 again) := fun d hd _ => by
      rw [← Option.some.inj (alone_self.symm.trans hd), h.asked]
      exact hn
    refine ⟨_, hrun.snoc hids (next_say_alone h.isOpen h.connected), ?_⟩
    exact { h with asked := by simp [hsay, h.asked], said := by simp [h.said, List.replicate_succ'] }

/-- No callback waits for the answer of the login, so the client has no uid, and shows all that is
    posted. -/
structure Nameless (store : Store Nat) (c : Connection) : Prop where
  isOpen : c.isOpen = true
  connected : c.connected = true
  mIsRunning : c.client.mIsRunning = true
  mMyUid : c.client.ctx.mMyUid = 0#32
  callbacks : ∀ id, c.client.mResponseCallbacks.lookup id ≠ some (some .login)
  uid : c.uid = sessionUid 0
  ownUid : OwnUid store.mSessions
  registered : store.mSessions.get (sessionUid 0) = some 0
  calls : ∀ request ∈ c.asked, ∃ id call, ServerAppContext.read request = .ok (id, .inr call) ∧
    ∀ line ∈ call.line?, line = again
  said : c.asked.filterMap line? = c.said
  received : c.received ≤ (inbox store.sent 0).length
  messages : ∀ msg ∈ inbox store.sent 0, FromServer msg
  entries : ((inbox store.sent 0).filterMap entryOf?).map told =
    ((c.asked.take c.taken).filterMap line?).map fun line => (sessionUid 0, false, line.text)
  displayed : c.client.ctx.mMessages.map ChatMessage.text =
    c.said.map Line.text ++ (((inbox store.sent 0).take c.received).filterMap entryOf?).map ChatMessage.text

theorem Nameless.serve (h : Nameless store c) {request : Message} (hq : c.asked[c.taken]? = some request) :
    Nameless ((onMessage 0 c.uid request 0).run exec store).1 { c with taken := c.taken + 1 } := by
  obtain ⟨id, call, hread, hline⟩ := h.calls request (List.mem_of_getElem? hq)
  have hget (u : BitVec 32) : (call.sessions c.uid store.mSessions).get u = store.mSessions.get u := by
    cases call <;> simp [Call.sessions]
  obtain ⟨hpushes, hentries⟩ := @inbox_pushes store.mSessions 0 0 h.ownUid 0 call
  rw [← h.uid] at hpushes hentries
  have hinbox : inbox (store.sent ++ (call.pushes 0 c.uid store.mSessions ++
      [(0, makeResponse 0 id (call.result c.uid store.mSessions))])) 0 = inbox store.sent 0 ++
        (inbox (call.pushes 0 c.uid store.mSessions) 0 ++ [makeResponse 0 id (call.result c.uid store.mSessions)]) := by
    rw [inbox_append, inbox_append, inbox_self]
  have hposts : ((call.line?.toList.map fun line => (⟨0, line, store.mSessions.broadcast⟩ : Posted)).filter
      (goesTo 0)).map Posted.told = call.line?.toList.map fun line => (sessionUid 0, false, line.text) := by
    cases hl : call.line? with
    | none => rfl
    | some line =>
      obtain rfl := hline line hl
      have hgoes : goesTo 0 ⟨0, again, store.mSessions.broadcast⟩ = true := by
        simp [goesTo, h.ownUid.mem_broadcast.mpr h.registered, again]
      rw [Option.toList_some, List.map_singleton, List.filter_cons_of_pos hgoes]
      rfl
  rw [onMessage_call hread]
  refine { h with
    ownUid := fun u j hg => h.ownUid u j (hget u ▸ hg), registered := (hget _).trans h.registered
    received := ?_, messages := ?_, entries := ?_, displayed := ?_ }
  · rw [hinbox, List.length_append]
    exact Nat.le_trans h.received (Nat.le_add_right _ _)
  · intro msg hm
    rw [hinbox] at hm
    rcases List.mem_append.mp hm with hm | hm
    · exact h.messages msg hm
    · rcases List.mem_append.mp hm with hm | hm
      · exact (hpushes msg hm).1
      · rw [List.mem_singleton.mp hm]
        exact .answer 0 id call c.uid store.mSessions
  · rw [hinbox, List.filterMap_append, List.filterMap_append, List.map_append, List.map_append, h.entries, hentries,
      hposts, List.take_add_one, hq, Option.toList_some, List.filterMap_append, List.map_append]
    cases hl : call.line? <;> simp [line?_of_read hread, hl, entryOf?_makeResponse]
  · rw [hinbox, List.take_append_of_le_length h.received]
    exact h.displayed

theorem Nameless.deliver (h : Nameless store c) {msg : Message} {rest : List Message}
    (hrest : (inbox store.sent 0).drop c.received = msg :: rest) :
    ∃ client, c.client.handle 0 msg = (client, []) ∧
      Nameless store { c with received := c.received + 1, client := client } := by
  obtain ⟨hget, -⟩ := ListAt.drop_eq_cons hrest
  have hmem := List.mem_of_getElem? hget
  have hlt := (List.getElem?_eq_some_iff.mp hget).1
  -- What is posted is not from the uid 0.
  have hshown : shown 0#32 msg = (entryOf? msg).toList := by
    refine List.filter_eq_self.mpr ?_
    intro e he
    have hin : told e ∈ ((inbox store.sent 0).filterMap entryOf?).map told :=
      List.mem_map_of_mem (List.mem_filterMap.mpr ⟨msg, hmem, Option.mem_toList.mp he⟩)
    rw [h.entries] at hin
    obtain ⟨line, -, htold⟩ := List.mem_map.mp hin
    have huid : e.uid = sessionUid 0 := (congrArg Prod.fst htold).symm
    rw [huid]
    rfl
  have htake : ((inbox store.sent 0).take (c.received + 1)).filterMap entryOf? =
      ((inbox store.sent 0).take c.received).filterMap entryOf? ++ (entryOf? msg).toList := by
    rw [List.take_add_one, hget, Option.toList_some, List.filterMap_append]
    cases he : entryOf? msg <;> simp [he]
  by_cases hpush : msg.type = .push
  · obtain ⟨ctx, hhandle, hsame, hm⟩ := handle_fromServer_push 0 (h.messages msg hmem) hpush c.client
    refine ⟨_, hhandle, { h with mMyUid := hsame.uid.trans h.mMyUid, received := hlt, displayed := ?_ }⟩
    rw [hm, h.mMyUid, hshown, List.map_append, h.displayed, htake, List.map_append, List.append_assoc]
  · have hfrom := h.messages msg hmem
    cases hfrom with
    | answer time id call uid m =>
      obtain ⟨ctx, callbacks, hhandle, hsame, hm, hcb⟩ := handle_fromServer_answer 0 time id call uid m (h.callbacks id)
      refine ⟨_, hhandle, { h with
        mMyUid := hsame.uid.trans h.mMyUid, callbacks := ?_, received := hlt, displayed := ?_ }⟩
      · intro i hl
        exact h.callbacks i (lookup_of_handled hcb hl)
      · rw [hm, h.displayed, htake, entryOf?_makeResponse, Option.toList_none, List.append_nil]
    | _ => exact absurd rfl hpush

/-- The server handles the requests that are left. -/
theorem run_serve (h : Nameless store c) {left : Nat} (hleft : c.taken + left = c.asked.length) :
    ∃ store' posted' c', Machine.Run next Machine.any (alone store posted c) (alone store' posted' c') ∧
      Nameless store' c' ∧ c'.taken = c'.asked.length ∧ c'.said = c.said := by
  induction left generalizing store posted c with
  | zero => exact ⟨store, posted, c, .refl, h, hleft, rfl⟩
  | succ left ih =>
    have hlt : c.taken < c.asked.length := by omega
    have hq : c.asked[c.taken]? = some c.asked[c.taken] := List.getElem?_eq_getElem hlt
    obtain ⟨store', posted', c', hrun, h', htaken, hsaid⟩ := ih (h.serve hq) (by simp only; omega)
    have hstep : Machine.Run next Machine.any (alone store posted c) _ :=
      Machine.Run.refl.snoc trivial (next_serve_alone h.isOpen hq)
    exact ⟨store', posted', c', hstep.trans hrun, h', htaken, hsaid⟩

/-- The client handles the messages that are left. -/
theorem run_deliver (h : Nameless store c) {left : Nat} (hleft : c.received + left = (inbox store.sent 0).length) :
    ∃ c', Machine.Run next Machine.any (alone store posted c) (alone store posted c') ∧
      Nameless store c' ∧ c'.received = (inbox store.sent 0).length ∧ c'.taken = c.taken ∧ c'.asked = c.asked ∧
        c'.said = c.said := by
  induction left generalizing c with
  | zero => exact ⟨c, .refl, h, hleft, rfl, rfl, rfl⟩
  | succ left ih =>
    have hlt : c.received < (inbox store.sent 0).length := by omega
    have hrest := List.drop_eq_getElem_cons hlt
    obtain ⟨client, hhandle, hdelivered⟩ := h.deliver hrest
    obtain ⟨c', hrun, h', hreceived, htaken, hasked, hsaid⟩ := ih hdelivered (by simp only; omega)
    have hnext := @next_deliver_alone store posted c h.isOpen h.connected h.mIsRunning _ (by rw [hrest]; rfl)
    rw [hhandle, List.append_nil] at hnext
    have hstep : Machine.Run next Machine.any (alone store posted c) _ := Machine.Run.refl.snoc trivial hnext
    exact ⟨c', hstep.trans hrun, h', hreceived, htaken, hasked, hsaid⟩

theorem own_of_heard (h : heard c = []) : own c = c.client.ctx.mMessages := by
  refine List.filter_eq_self.mpr ?_
  intro m hm
  have hnot := List.filter_eq_nil_iff.mp h m hm
  simp only [ne_eq, decide_eq_true_eq, not_and_or, not_not] at hnot
  exact decide_eq_true hnot

/-- The request that has the id of the login takes its callback. -/
theorem nameless_say {n : Nat} (hn : n + 1 = 2 ^ 32) (hrun : Machine.Run next IdsLeft init (alone accepted [] c))
    (h : Talked n c) :
    Nameless accepted { c with
      client := (c.client.say 0 again).1
      asked := c.asked ++ (c.client.say 0 again).2
      said := c.said ++ [again] } := by
  have hinv := run_inv hrun (by decide : 1 < 2 ^ 32)
  have hconn := hinv.conn 0 c alone_self
  obtain ⟨request, hread, hsay⟩ := ChatClient.say_eq 0 (by decide : again.text ≠ "") hconn.mClient hconn.mIsRunning
  have hid : c.client.mNextRequestId = 1#32 := by
    rw [hconn.next_id, h.asked, hn]
    rfl
  have hline (r : Message) (hr : r ∈ c.asked) (line : Line) (hl : line? r = some line) : line = again := by
    have hin := List.mem_filterMap.mpr ⟨r, hr, hl⟩
    rw [hconn.said, h.said] at hin
    exact List.eq_of_mem_replicate hin
  have hmessages : c.client.ctx.mMessages.map ChatMessage.text = c.said.map Line.text := by
    have hnone : heard c = [] := hconn.heard.trans (by simp [alone, put, accepted, inbox])
    have hown := congrArg (List.map Prod.snd) hconn.own
    rw [own_of_heard hnone, List.map_map, List.map_map] at hown
    exact hown
  rw [hsay, hid]
  constructor
  case isOpen => exact h.isOpen
  case connected => exact h.connected
  case mIsRunning => exact hconn.mIsRunning
  case mMyUid =>
    cases hconn.login with
    | asked hu => exact hu
    | answered hu => exact hu
    | received hu ht => exact absurd h.taken (Nat.ne_of_gt ht)
  case callbacks =>
    intro id hl
    by_cases hi : id = 1#32
    · subst hi
      simp at hl
    · simp only [AList.lookup_insert_ne hi] at hl
      exact hi (hconn.callbacks id hl).1
  case uid => exact hconn.uid
  case ownUid => exact hinv.ownUid
  case registered => rfl
  case calls =>
    intro r hr
    rcases List.mem_append.mp hr with hr | hr
    · obtain ⟨id, call, hcall⟩ := hconn.calls r hr
      exact ⟨id, call, hcall, fun line hl => hline r hr line ((line?_of_read hcall).trans hl)⟩
    · rw [List.mem_singleton.mp hr]
      exact ⟨_, _, hread, fun line hl => Option.some.inj (hl.symm.trans (Line.line?_call again))⟩
  case said => simp [hconn.said, line?_of_read hread, Line.line?_call]
  case received => simp [h.received]
  case messages => simp [accepted, inbox]
  case entries => simp [h.taken, accepted, inbox]
  case displayed => simp [ClientAppContext.echo, ClientAppContext.addMessage, hmessages, h.received]

/-- With nothing on the way to it, such a client has each of its lines and each push of them. -/
theorem Nameless.displayed_all (h : Nameless store c) (htaken : c.taken = c.asked.length)
    (hreceived : c.received = (inbox store.sent 0).length) :
    c.client.ctx.mMessages.map ChatMessage.text = c.said.map Line.text ++ c.said.map Line.text := by
  have hentries := congrArg (List.map fun t => t.2.2) h.entries
  rw [htaken, List.take_length, h.said, List.map_map, List.map_map] at hentries
  rw [h.displayed, hreceived, List.take_length]
  exact congrArg (c.said.map Line.text ++ ·) hentries

theorem settled_alone (htaken : c.taken = c.asked.length) (hreceived : c.received = (inbox store.sent 0).length) :
    Settled (alone store posted c) := by
  intro k d hd _
  obtain ⟨rfl, rfl⟩ : k = 0 ∧ d = c := by
    by_cases hk : k = 0
    · subst hk
      exact ⟨rfl, (Option.some.inj (alone_self.symm.trans hd)).symm⟩
    · simp [alone, put, hk] at hd
  exact ⟨htaken, List.drop_eq_nil_iff.mpr (Nat.le_of_eq hreceived.symm)⟩

/-- The one client said a line `n` times, and has it twice as often. -/
def Twice (n : Nat) (s : St) : Prop :=
  ∃ c ∈ s.connections 0, c.isOpen = true ∧ c.said = List.replicate n again ∧
    c.client.ctx.mMessages.map ChatMessage.text = List.replicate (n + n) again.text

theorem twice : ∃ s, Machine.Run next Machine.any init s ∧ s.made = 1 ∧ Settled s ∧ Twice (2 ^ 32) s := by
  obtain ⟨c, hrun, h⟩ := run_talked (by decide : 2 ^ 32 - 1 < 2 ^ 32)
  have hsaid : c.said ++ [again] = List.replicate (2 ^ 32) again := by
    rw [h.said, ← List.replicate_succ', (by decide : 2 ^ 32 - 1 + 1 = 2 ^ 32)]
  have hany : Machine.Run next Machine.any init (alone accepted [] c) := hrun.mono fun _ _ _ => trivial
  have hsay := hany.snoc trivial (next_say_alone h.isOpen h.connected)
  obtain ⟨store, posted, c₁, hserve, h₁, htaken₁, hsaid₁⟩ :=
    run_serve (nameless_say (by decide) hrun h) (Nat.add_sub_of_le (by simp [h.taken]))
  obtain ⟨c₂, hdeliver, h₂, hreceived, htaken₂, hasked, hsaid₂⟩ := @run_deliver store posted c₁ h₁ _
    (Nat.add_sub_of_le h₁.received)
  have htaken : c₂.taken = c₂.asked.length := by rw [htaken₂, htaken₁, hasked]
  have hall : c₂.said = List.replicate (2 ^ 32) again := (hsaid₂.trans hsaid₁).trans hsaid
  refine ⟨alone store posted c₂, (hsay.trans hserve).trans hdeliver, rfl, settled_alone htaken hreceived,
    c₂, alone_self, h₂.isOpen, hall, ?_⟩
  rw [h₂.displayed_all htaken hreceived, hall, List.map_replicate, List.replicate_append_replicate]

/-- With ids left but one session more than there are uids, a line is missed; with one session but an
    id used again, lines are there twice. -/
theorem counters_go_round :
    (∃ s, Machine.Run next IdsLeft init s ∧ s.made = 2 ^ 32 ∧ Settled s ∧ Missed s) ∧
      ∃ s, Machine.Run next Machine.any init s ∧ s.made = 1 ∧ Settled s ∧ Twice (2 ^ 32) s :=
  ⟨missed, twice⟩

end CryptoChat.Net.Chat
