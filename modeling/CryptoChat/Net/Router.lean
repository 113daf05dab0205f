/-
  CryptoChat.Net.Router — the server's dispatch of requests (`Router::handle`).

  Proved: to a request a client makes, a router without a fallback of its own always
  answers, with what its handler gave or with the error of the path taken, under the id
  of the request (`handle_makeRequest`); whatever it is given to handle, a message it
  returns is a response with the id it was given (`handle_id`). It does not answer every
  message: `value` throws on a body that is not an object and on an id or a method of
  another type, and nothing in `handle` catches that. Which messages it answers, under the
  id they are owed, is `handle_answers_iff`.
-/

import CryptoChat.Net.Message
import Mathlib

namespace CryptoChat.Net

open Message

/-- A handler: what it returns for the parameters and the session's uid, or throws. -/
abbrev Handler := Json → BitVec 32 → Except Exn Json

/-- The clock is read where the answer is made. -/
abbrev ErrorHandler := Nat → Message → BitVec 32 → String → Except Exn Message

structure Router where
  mHandlers : AList fun _ : String => Handler
  mFallbackHandler : ErrorHandler

namespace Router

def defaultFallback : ErrorHandler := fun now request code message =>
  (request.j.valueInt "id" 0#32).map fun id => makeError now id code message

def new : Router := ⟨∅, defaultFallback⟩

def add (router : Router) (method : String) (handler : Handler) : Router :=
  { router with mHandlers := router.mHandlers.insert method handler }

def handle (router : Router) (now : Nat) (request : Message) (uid : BitVec 32) : Except Exn Message := do
  let id ← request.j.valueInt "id" 0#32
  if request.type ≠ .request then
    router.mFallbackHandler now request (-32600) "Invalid Request: Not a request"
  else
    let method ← request.j.valueString "method" ""
    if method = "" then
      router.mFallbackHandler now request (-32600) "Invalid Request: No method"
    else
      let params ← request.j.value "params" (.obj [])
      match router.mHandlers.lookup method with
      | none => router.mFallbackHandler now request (-32601) ("Method not found: " ++ method)
      | some handler =>
        match handler params uid with
        | .ok result => .ok (makeResponse now id result)
        | .error (.json what) => router.mFallbackHandler now request (-32001) ("Handler JSON error: " ++ what)
        | .error (.other what) => router.mFallbackHandler now request (-32000) ("Server error: " ++ what)

end Router

/-! ## Answers -/

/-- What a request is answered with. -/
inductive Answer where
  | result (j : Json)
  | error (code : BitVec 32) (message : String)

namespace Answer

def toMessage (now : Nat) (id : BitVec 32) : Answer → Message
  | .result j => makeResponse now id j
  | .error code message => makeError now id code message

/-- What the caller is given: the result or the error object. -/
def argument : Answer → Json
  | .result j => j
  | .error code message => errorObject code message

/-- What a handler's result, or what it threw, is answered with. -/
def ofResult : Except Exn Json → Answer
  | .ok j => .result j
  | .error (.json what) => .error (-32001) ("Handler JSON error: " ++ what)
  | .error (.other what) => .error (-32000) ("Server error: " ++ what)

@[simp] theorem toMessage_type (now : Nat) (id : BitVec 32) (a : Answer) : (a.toMessage now id).type = .response := by
  cases a <;> rfl

end Answer

/-- The answer to a request for `method` with `params`. -/
def Router.answer (router : Router) (method : String) (params : Json) (uid : BitVec 32) : Answer :=
  if method = "" then .error (-32600) "Invalid Request: No method"
  else
    match router.mHandlers.lookup method with
    | none => .error (-32601) ("Method not found: " ++ method)
    | some handler =>
      match handler params uid with
      | .ok result => .result result
      | .error (.json what) => .error (-32001) ("Handler JSON error: " ++ what)
      | .error (.other what) => .error (-32000) ("Server error: " ++ what)

/-! ## Reading the messages that are built -/

/-- An id goes into JSON as a number, is read back as an `int` and converted: nothing is lost. -/
theorem id_makeRequest (now : Nat) (id : BitVec 32) (method : String) (params : Json) :
    (makeRequest now id method params).j.valueInt "id" 0#32 = .ok id := by
  simp [makeRequest, withId, Json.valueInt, Json.valueWith, Json.lookup_assign]

theorem method_makeRequest (now : Nat) (id : BitVec 32) (method : String) (params : Json) :
    (makeRequest now id method params).j.valueString "method" "" = .ok method := by
  simp [makeRequest, withId, Json.valueString, Json.valueWith, Json.lookup_assign, Json.getString]

theorem params_makeRequest (now : Nat) (id : BitVec 32) (method : String) (params : Json) :
    (makeRequest now id method params).j.value "params" (.obj []) = .ok params := by
  simp [makeRequest, withId, Json.value, Json.valueWith, Json.lookup_assign]

theorem id_toMessage (now : Nat) (id : BitVec 32) (a : Answer) :
    (a.toMessage now id).j.valueInt "id" 0#32 = .ok id := by
  cases a <;>
    simp [Answer.toMessage, makeResponse, makeError, withId, Json.valueInt, Json.valueWith, Json.lookup_assign]

/-! ## What the router answers -/

namespace Router

variable {router : Router}

/-- Every request a client makes is answered. -/
theorem handle_makeRequest (h : router.mFallbackHandler = defaultFallback) (now time : Nat) (id : BitVec 32)
    (method : String) (params : Json) (uid : BitVec 32) :
    router.handle now (makeRequest time id method params) uid =
      .ok ((router.answer method params uid).toMessage now id) := by
  have hf (code : BitVec 32) (message : String) :
      defaultFallback now (makeRequest time id method params) code message = .ok (makeError now id code message) := by
    simp [defaultFallback, id_makeRequest, Except.map]
  have ht : (makeRequest time id method params).type = .request := rfl
  simp only [handle, answer, id_makeRequest, method_makeRequest, params_makeRequest, h, hf, ht]
  simp only [bind, Except.bind, ne_eq, not_true_eq_false, if_false]
  split
  · rfl
  · split
    · rfl
    · split <;> rfl

/-- What is answered is an answer to the id that was read. -/
theorem handle_toMessage (h : router.mFallbackHandler = defaultFallback) {now : Nat} {request answer : Message}
    {uid id : BitVec 32} (hid : request.j.valueInt "id" 0#32 = .ok id)
    (ha : router.handle now request uid = .ok answer) : ∃ a : Answer, answer = a.toMessage now id := by
  have hf (code : BitVec 32) (message : String) :
      defaultFallback now request code message = .ok ((Answer.error code message).toMessage now id) := by
    simp [defaultFallback, hid, Except.map, Answer.toMessage]
  simp only [handle, hid, h, hf, bind, Except.bind] at ha
  split at ha
  · exact ⟨_, (Except.ok.inj ha).symm⟩
  · split at ha
    · cases ha
    · split at ha
      · exact ⟨_, (Except.ok.inj ha).symm⟩
      · split at ha
        · cases ha
        · split at ha
          · exact ⟨_, (Except.ok.inj ha).symm⟩
          · split at ha
            · exact ⟨.result _, (Except.ok.inj ha).symm⟩
            · exact ⟨_, (Except.ok.inj ha).symm⟩
            · exact ⟨_, (Except.ok.inj ha).symm⟩

/-- What is answered had an id that could be read. -/
theorem handle_reads {now : Nat} {request answer : Message} {uid : BitVec 32}
    (ha : router.handle now request uid = .ok answer) : ∃ id, request.j.valueInt "id" 0#32 = .ok id := by
  cases hid : request.j.valueInt "id" 0#32 with
  | error e => simp [handle, hid, bind, Except.bind] at ha
  | ok id => exact ⟨id, rfl⟩

/-- An answer is a response, with the id of what was handled. -/
theorem handle_id (h : router.mFallbackHandler = defaultFallback) {now : Nat} {request answer : Message}
    {uid : BitVec 32} (ha : router.handle now request uid = .ok answer) :
    answer.type = .response ∧ answer.j.valueInt "id" 0#32 = request.j.valueInt "id" 0#32 := by
  obtain ⟨id, hid⟩ := handle_reads ha
  obtain ⟨a, rfl⟩ := handle_toMessage h hid ha
  exact ⟨a.toMessage_type now id, (id_toMessage now id a).trans hid.symm⟩

/-- A router and its handlers, as the server adds them. -/
def of (handlers : List (String × Handler)) : Router := handlers.foldl (fun router h => router.add h.1 h.2) new

/-- The last handler added under a name is the one that is found. -/
theorem lookup_of {η : Type} (f : η → Handler) (handlers : List (String × η)) (method : String) :
    (of (handlers.map fun h => (h.1, f h.2))).mHandlers.lookup method =
      ((handlers.foldl (fun m h => m.insert h.1 h.2) (∅ : AList fun _ : String => η)).lookup method).map f := by
  have add_all (router : Router) (m : AList fun _ : String => η)
      (h : ∀ method, router.mHandlers.lookup method = (m.lookup method).map f) :
      ((handlers.map fun h => (h.1, f h.2)).foldl (fun router h => router.add h.1 h.2) router).mHandlers.lookup method =
        ((handlers.foldl (fun m h => m.insert h.1 h.2) m).lookup method).map f := by
    induction handlers generalizing router m with
    | nil => exact h method
    | cons handler handlers ih =>
      refine ih _ _ ?_
      intro method'
      by_cases he : method' = handler.1
      · subst he
        simp [add]
      · simp [add, AList.lookup_insert_ne he, h]
  exact add_all new ∅ fun method' => by simp [new]

theorem fallback_of (handlers : List (String × Handler)) : (of handlers).mFallbackHandler = defaultFallback := by
  have add_all (router : Router) (h : router.mFallbackHandler = defaultFallback) :
      (handlers.foldl (fun router h => router.add h.1 h.2) router).mFallbackHandler = defaultFallback := by
    induction handlers generalizing router with
    | nil => exact h
    | cons handler handlers ih => exact ih _ h
  exact add_all new rfl

/-! ## The call of a handler -/

/-- `handle` up to the call of a handler, of any kind: it throws, answers, or is about to call
    one with the parameters, for the id. -/
def dispatch {η : Type} (mHandlers : AList fun _ : String => η) (mFallbackHandler : ErrorHandler) (now : Nat)
    (request : Message) : Except Exn (Message ⊕ BitVec 32 × η × Json) := do
  let id ← request.j.valueInt "id" 0#32
  if request.type ≠ .request then
    (mFallbackHandler now request (-32600) "Invalid Request: Not a request").map .inl
  else
    let method ← request.j.valueString "method" ""
    if method = "" then
      (mFallbackHandler now request (-32600) "Invalid Request: No method").map .inl
    else
      let params ← request.j.value "params" (.obj [])
      match mHandlers.lookup method with
      | none => (mFallbackHandler now request (-32601) ("Method not found: " ++ method)).map .inl
      | some handler => .ok (.inr (id, handler, params))

/-- Handlers of another kind under the same names are called in the same cases. -/
theorem dispatch_map {η η' : Type} {mHandlers : AList fun _ : String => η} {mHandlers' : AList fun _ : String => η'}
    (f : η → η') (h : ∀ method, mHandlers'.lookup method = (mHandlers.lookup method).map f)
    (mFallbackHandler : ErrorHandler) (now : Nat) (request : Message) :
    dispatch mHandlers' mFallbackHandler now request =
      match dispatch mHandlers mFallbackHandler now request with
      | .error e => .error e
      | .ok (.inl answer) => .ok (.inl answer)
      | .ok (.inr (id, handler, params)) => .ok (.inr (id, f handler, params)) := by
  have hinl (r : Except Exn Message) :
      (r.map .inl : Except Exn (Message ⊕ BitVec 32 × η' × Json)) =
        match (r.map .inl : Except Exn (Message ⊕ BitVec 32 × η × Json)) with
        | .error e => .error e
        | .ok (.inl answer) => .ok (.inl answer)
        | .ok (.inr (id, handler, params)) => .ok (.inr (id, f handler, params)) := by
    cases r <;> rfl
  unfold dispatch
  cases request.j.valueInt "id" 0#32 with
  | error e => rfl
  | ok id =>
    simp only [bind, Except.bind]
    split
    · exact hinl _
    · cases request.j.valueString "method" "" with
      | error e => rfl
      | ok method =>
        dsimp only
        split
        · exact hinl _
        · cases request.j.value "params" (.obj []) with
          | error e => rfl
          | ok params =>
            simp only [h method]
            cases mHandlers.lookup method with
            | none => exact hinl _
            | some handler => rfl

/-- `handle` from there: the result, or what was thrown, becomes the answer. -/
def conclude (mFallbackHandler : ErrorHandler) (now : Nat) (request : Message) (id : BitVec 32) :
    Except Exn Json → Except Exn Message
  | .ok result => .ok (makeResponse now id result)
  | .error (.json what) => mFallbackHandler now request (-32001) ("Handler JSON error: " ++ what)
  | .error (.other what) => mFallbackHandler now request (-32000) ("Server error: " ++ what)

theorem defaultFallback_eq {request : Message} {id : BitVec 32} (hid : request.j.valueInt "id" 0#32 = .ok id)
    (now : Nat) (code : BitVec 32) (message : String) :
    defaultFallback now request code message = .ok ((Answer.error code message).toMessage now id) := by
  simp [defaultFallback, hid, Except.map, Answer.toMessage]

theorem conclude_eq {request : Message} {id : BitVec 32} (hid : request.j.valueInt "id" 0#32 = .ok id) (now : Nat)
    (result : Except Exn Json) :
    conclude defaultFallback now request id result = .ok ((Answer.ofResult result).toMessage now id) := by
  match result with
  | .ok result => rfl
  | .error (.json what) => exact defaultFallback_eq hid now _ _
  | .error (.other what) => exact defaultFallback_eq hid now _ _

theorem handle_eq (router : Router) (now : Nat) (request : Message) (uid : BitVec 32) :
    router.handle now request uid =
      match dispatch router.mHandlers router.mFallbackHandler now request with
      | .error e => .error e
      | .ok (.inl answer) => .ok answer
      | .ok (.inr (id, handler, params)) => conclude router.mFallbackHandler now request id (handler params uid) := by
  have hmap (r : Except Exn Message) : r = match (r.map .inl : Except Exn (Message ⊕ BitVec 32 × Handler × Json)) with
      | .error e => .error e
      | .ok (.inl answer) => .ok answer
      | .ok (.inr (id, handler, params)) =>
        conclude router.mFallbackHandler now request id (handler params uid) := by
    cases r <;> rfl
  unfold handle dispatch
  cases request.j.valueInt "id" 0#32 with
  | error e => rfl
  | ok id =>
    simp only [bind, Except.bind]
    split
    · exact hmap _
    · cases request.j.valueString "method" "" with
      | error e => rfl
      | ok method =>
        dsimp only
        split
        · exact hmap _
        · cases request.j.value "params" (.obj []) with
          | error e => rfl
          | ok params =>
            cases router.mHandlers.lookup method with
            | none => exact hmap _
            | some handler =>
              cases handler params uid with
              | ok result => rfl
              | error e => cases e <;> rfl

/-! ## Any message -/

/-- The id an answer is owed: that of the request, if it is an integer and a `uint32_t`. -/
def owedId (j : Json) : BitVec 32 :=
  match j.find? "id" with
  | some (.int n) => if 0 ≤ n.val ∧ n.val < 2 ^ 32 then BitVec.ofInt 32 n.val else 0
  | _ => 0

/-- One response, with a result or an error, to the id that is owed. -/
def Answers (answer request : Message) : Prop :=
  answer.type = .response ∧ answer.j.contains "result" = (!answer.j.contains "error") ∧
    answer.j.find? "id" = some (.uint32 (owedId request.j))

/-- An `id` member that is answered under the id it is owed: none, an integer that is a
    `uint32_t` or a multiple of 2^32, or another number (from 2^64 on, and below -2^63, all are
    doubles) or a boolean that `int` makes 0. -/
def IdKept : Option Json → Prop
  | none => True
  | some (.int n) => 0 ≤ n.val ∧ n.val < 2 ^ 32 ∨ n.val % 2 ^ 32 = 0
  | some (.float x) => Json.truncate x = 0#32
  | some (.bool b) => b = false
  | some _ => False

/-- An object with such an id and, if it is a request, no `method` that is not a string. -/
def WellFormed (request : Message) : Prop :=
  ∃ fields, request.j = .obj fields ∧ IdKept (fields.lookup "id") ∧
    (request.type = .request → ∀ v, fields.lookup "method" = some v → ∃ method, v = .str method)

theorem answers_toMessage {now : Nat} {id : BitVec 32} {request : Message} (a : Answer) :
    Answers (a.toMessage now id) request ↔ id = owedId request.j := by
  have hid : (a.toMessage now id).j.find? "id" = some (.uint32 id) := by
    cases a <;> simp [Answer.toMessage, makeResponse, makeError, withId, Json.find?, Json.lookup_assign]
  have hone : (a.toMessage now id).j.contains "result" = !(a.toMessage now id).j.contains "error" := by
    cases a <;>
      simp [Answer.toMessage, makeResponse, makeError, withId, Json.contains, Json.find?, Json.lookup_assign]
  simp [Answers, hid, hone]

/-- The id is read and is the one that is owed. -/
theorem idKept_iff {fields : List (String × Json)} :
    IdKept (fields.lookup "id") ↔ (Json.obj fields).valueInt "id" 0#32 = .ok (owedId (.obj fields)) := by
  simp only [Json.valueInt, Json.valueWith, owedId, Json.find?]
  cases fields.lookup "id" with
  | none => simp [IdKept]
  | some v =>
    cases v with
    | int n =>
      simp only [IdKept, Json.getInt, Except.ok.injEq]
      split
      · rename_i h
        exact iff_of_true (.inl h) rfl
      · rename_i h
        rw [← BitVec.toNat_inj, BitVec.toNat_ofInt, show (0 : BitVec 32).toNat = 0 from rfl]
        omega
    | float x => simp [IdKept, Json.getInt]
    | bool b => cases b <;> simp [IdKept, Json.getInt]
    | _ => simp [IdKept, Json.getInt]

theorem valueString_ok_iff {fields : List (String × Json)} {key dflt : String} :
    (∃ s, (Json.obj fields).valueString key dflt = .ok s) ↔ ∀ v, fields.lookup key = some v → ∃ s, v = .str s := by
  simp only [Json.valueString, Json.valueWith]
  cases fields.lookup key with
  | none => simp
  | some v => cases v <;> simp [Json.getString]

/-- With the id read, what is left to read of a request is its method. -/
theorem handle_ok_iff (h : router.mFallbackHandler = defaultFallback) {now : Nat}
    {request : Message} {fields : List (String × Json)} (hj : request.j = .obj fields) {uid id : BitVec 32}
    (hid : request.j.valueInt "id" 0#32 = .ok id) :
    (∃ answer, router.handle now request uid = .ok answer) ↔
      (request.type = .request → ∃ method, request.j.valueString "method" "" = .ok method) := by
  have hf (code : BitVec 32) (message : String) :
      defaultFallback now request code message = .ok (makeError now id code message) := by
    simp [defaultFallback, hid, Except.map]
  have hparams : ∃ params, request.j.value "params" (.obj []) = .ok params := by
    simp only [hj, Json.value, Json.valueWith]
    split <;> exact ⟨_, rfl⟩
  obtain ⟨params, hparams⟩ := hparams
  simp only [handle, hid, h, hf, bind, Except.bind]
  by_cases ht : request.type = .request
  · cases hm : request.j.valueString "method" "" with
    | error e => simp [ht]
    | ok method =>
      simp only [ht, ne_eq, not_true_eq_false, if_false, hparams]
      refine iff_of_true ?_ fun _ => ⟨method, rfl⟩
      split
      · exact ⟨_, rfl⟩
      · split
        · exact ⟨_, rfl⟩
        · split <;> exact ⟨_, rfl⟩
  · simp [ht]

/-- With the default fallback and any handlers, a message is answered, by one response with a
    result or an error and the id it is owed, if and only if it is well formed. -/
theorem handle_answers_iff (handlers : List (String × Handler)) (now : Nat) (request : Message) (uid : BitVec 32) :
    (∃ answer, (of handlers).handle now request uid = .ok answer ∧ Answers answer request) ↔
      WellFormed request := by
  have hf := fallback_of handlers
  constructor
  · intro h
    obtain ⟨answer, ha, hanswers⟩ := h
    obtain ⟨id, hid⟩ := handle_reads ha
    obtain ⟨a, rfl⟩ := handle_toMessage hf hid ha
    cases hj : request.j with
    | obj fields =>
      have howed := (answers_toMessage a).mp hanswers
      have hmethod := (handle_ok_iff hf hj hid).mp ⟨_, ha⟩
      rw [hj] at hid howed hmethod
      exact ⟨fields, hj, idKept_iff.mpr (hid.trans (congrArg _ howed)), fun ht => valueString_ok_iff.mp (hmethod ht)⟩
    | _ => simp [hj, Json.valueInt, Json.valueWith] at hid
  · intro h
    obtain ⟨fields, hj, hkept, hmethod⟩ := h
    have hid := idKept_iff.mp hkept
    rw [← hj] at hid
    obtain ⟨answer, ha⟩ := (@handle_ok_iff _ hf now request _ hj uid _ hid).mpr fun ht => by
      rw [hj]
      exact valueString_ok_iff.mpr (hmethod ht)
    obtain ⟨a, rfl⟩ := handle_toMessage hf hid ha
    exact ⟨_, ha, (answers_toMessage a).mpr rfl⟩

/-- A request whose id is a string is not answered: reading the id throws. -/
theorem string_id_throws :
    ∃ e, (of [("ping", fun _ _ => .ok .null)]).handle 0
      ⟨.request, Json.object [("id", .str "7"), ("method", .str "ping")]⟩ 1#32 = .error e :=
  ⟨_, rfl⟩

end Router

end CryptoChat.Net
