/-
  CryptoChat.Net.Message — the messages of `protocol/Message.cpp` and their frames: one
  byte of type, four bytes of length, most significant first, and the JSON text.

  The host is little-endian: `hostBytes` is a `uint32_t` as it lies in memory. The length
  is written by a swap done by hand and read back through `memcpy` and `ntohl`; both are
  the big-endian bytes (`hostBytes_lenBE`, `ntohl_hostWord`).
-/

import CryptoChat.Net.Json

namespace CryptoChat.Net

open CryptoChat.Lib

/-- `enum class MessageType : uint8_t`; a type read off the wire can be any byte. -/
structure MessageType where
  byte : Byte
  deriving DecidableEq, Repr

namespace MessageType

def request : MessageType := ⟨0#8⟩

def response : MessageType := ⟨1#8⟩

def push : MessageType := ⟨2#8⟩

end MessageType

def kTypeFieldSize : Nat := 1

def kLengthFieldSize : Nat := 4

def kHeaderSize : Nat := kTypeFieldSize + kLengthFieldSize

structure Message where
  type : MessageType
  j : Json
  deriving DecidableEq

/-! ## Words in memory -/

/-- The bytes of a `uint32_t` on a little-endian host, at increasing addresses. -/
def hostBytes (x : BitVec 32) : Bytes := (toBytes 4 x).reverse

/-- `memcpy` of bytes into a `uint32_t`. -/
def hostWord (bytes : Bytes) : BitVec 32 := ofBytes 32 bytes.reverse

def ntohl (x : BitVec 32) : BitVec 32 := ofBytes 32 (hostBytes x)

/-! ## Encoding and decoding -/

namespace Message

def lenBE (len : BitVec 32) : BitVec 32 :=
  ((len &&& 0x000000ff#32) <<< 24) ||| ((len &&& 0x0000ff00#32) <<< 8) |||
    ((len &&& 0x00ff0000#32) >>> 8) ||| ((len &&& 0xff000000#32) >>> 24)

def encode (text : JsonText) (m : Message) : Bytes :=
  let body := text.dump m.j
  m.type.byte :: (hostBytes (lenBE (BitVec.ofNat 32 body.length)) ++ body)

def decode (text : JsonText) (type : MessageType) (payload : Bytes) : Except Exn Message :=
  if payload = [] then .error (.other "Empty JSON payload")
  else (text.parse payload).map fun parsed => ⟨type, parsed⟩

/-! ## Convenience builders -/

/-- The clock in seconds, as a `uint64_t`. -/
def nowTimestamp (now : Nat) : Json := .uint64 (BitVec.ofNat 64 now)

/-- The fields every message has, over those of its kind. -/
def withId (id : BitVec 32) (key : String) (v : Json) : List (String × Json) :=
  Json.assign (Json.assign [] "id" (.uint32 id)) key v

def makeRequest (now : Nat) (id : BitVec 32) (method : String) (params : Json) : Message :=
  ⟨.request, .obj (Json.assign (Json.assign (withId id "method" (.str method)) "params" params) "timestamp" (nowTimestamp now))⟩

def makeResponse (now : Nat) (id : BitVec 32) (result : Json) : Message :=
  ⟨.response, .obj (Json.assign (withId id "result" result) "timestamp" (nowTimestamp now))⟩

/-- The `error` member of an answer. -/
def errorObject (code : BitVec 32) (msg : String) : Json := Json.object [("code", .int32 code), ("message", .str msg)]

def makeError (now : Nat) (id : BitVec 32) (code : BitVec 32) (msg : String) : Message :=
  ⟨.response, .obj (Json.assign (withId id "error" (errorObject code msg)) "timestamp" (nowTimestamp now))⟩

def makePush (now : Nat) (pushBody : Json) : Message :=
  ⟨.push, .obj (Json.assign (withId 0 "push" pushBody) "timestamp" (nowTimestamp now))⟩

end Message

/-! ## The length field -/

theorem ntohl_hostWord {bytes : Bytes} (h : bytes.length = 4) : ntohl (hostWord bytes) = ofBytes 32 bytes := by
  rw [ntohl, hostBytes, hostWord, toBytes_ofBytes (by omega) (by simpa using h), List.reverse_reverse]

theorem getLsbD_masks (i : Nat) :
    (0x000000ff#32).getLsbD i = decide (i < 8) ∧ (0x0000ff00#32).getLsbD i = decide (8 ≤ i ∧ i < 16) ∧
      (0x00ff0000#32).getLsbD i = decide (16 ≤ i ∧ i < 24) ∧
        (0xff000000#32).getLsbD i = decide (24 ≤ i ∧ i < 32) := by
  by_cases hi : i < 32
  · have := show ∀ i : Fin 32,
        (0x000000ff#32).getLsbD i = decide (i.val < 8) ∧ (0x0000ff00#32).getLsbD i = decide (8 ≤ i.val ∧ i.val < 16) ∧
          (0x00ff0000#32).getLsbD i = decide (16 ≤ i.val ∧ i.val < 24) ∧
            (0xff000000#32).getLsbD i = decide (24 ≤ i.val ∧ i.val < 32) by decide
    exact this ⟨i, hi⟩
  · simp only [BitVec.getLsbD_of_ge _ i (show 32 ≤ i by omega)]
    simp
    omega

theorem getLsbD_lenBE (len : BitVec 32) {i : Nat} (hi : i < 32) :
    (Message.lenBE len).getLsbD i = len.getLsbD (8 * (3 - i / 8) + i % 8) := by
  have m0 (i : Nat) := (getLsbD_masks i).1
  have m1 (i : Nat) := (getLsbD_masks i).2.1
  have m2 (i : Nat) := (getLsbD_masks i).2.2.1
  have m3 (i : Nat) := (getLsbD_masks i).2.2.2
  simp only [Message.lenBE, BitVec.getLsbD_or, BitVec.getLsbD_and, BitVec.getLsbD_shiftLeft,
    BitVec.getLsbD_ushiftRight, m0, m1, m2, m3]
  rcases (by omega : i < 8 ∨ 8 ≤ i ∧ i < 16 ∨ 16 ≤ i ∧ i < 24 ∨ 24 ≤ i) with h | h | h | h
  · rw [show 8 * (3 - i / 8) + i % 8 = 24 + i by omega]
    simp [h, show i < 24 by omega, show ¬ 16 ≤ 8 + i by omega, show 24 + i < 32 by omega]
  · rw [show 8 * (3 - i / 8) + i % 8 = 8 + i by omega]
    simp [hi, show i < 24 by omega, show ¬ 8 ≤ i - 8 by omega, show 16 ≤ 8 + i by omega, show 8 + i < 24 by omega,
      show ¬ 24 + i < 32 by omega]
  · rw [show 8 * (3 - i / 8) + i % 8 = i - 8 by omega]
    simp [hi, show i < 24 by omega, show ¬ i < 8 by omega, show 8 ≤ i - 8 by omega, show i - 8 < 16 by omega,
      show ¬ 8 + i < 24 by omega, show ¬ 24 + i < 32 by omega]
  · rw [show 8 * (3 - i / 8) + i % 8 = i - 24 by omega]
    simp [hi, show ¬ i < 24 by omega, show ¬ i < 8 by omega, show ¬ i - 8 < 16 by omega, show i - 24 < 8 by omega,
      show ¬ 8 + i < 24 by omega, show ¬ 24 + i < 32 by omega]

/-- The swap done by hand leaves the length in memory most significant byte first. -/
theorem hostBytes_lenBE (len : BitVec 32) : hostBytes (Message.lenBE len) = toBytes 4 len := by
  apply List.ext_getElem (by simp [hostBytes])
  intro k hk hk'
  have hk4 : k < 4 := by simpa using hk'
  simp only [hostBytes, List.getElem_reverse, toBytes, List.getElem_map, List.getElem_range, List.length_map,
    List.length_range]
  apply BitVec.eq_of_getLsbD_eq
  intro j hj
  simp only [BitVec.getLsbD_setWidth, BitVec.getLsbD_ushiftRight, hj, decide_true, Bool.true_and]
  rw [getLsbD_lenBE len (by omega)]
  congr 1
  omega

/-! ## Samples -/

/-- Enough of the library for the bodies `null` and `{}`. -/
def sampleText : JsonText where
  dump j := if j = .obj [] then [0x7b#8, 0x7d#8] else [0x6e#8, 0x75#8, 0x6c#8, 0x6c#8]
  parse bytes :=
    if bytes = [0x7b#8, 0x7d#8] then .ok (.obj [])
    else if bytes = [0x6e#8, 0x75#8, 0x6c#8, 0x6c#8] then .ok .null
    else .error (.json "[json.exception.parse_error.101] parse error")

def samplePush : Message := ⟨.push, .obj []⟩

end CryptoChat.Net
