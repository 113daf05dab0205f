/-
  CryptoChat.Net.ReadLoop — the three frame readers: `PlainSession`, `SecureSession` after
  its handshake, and `Client`. Each alternates two exact reads on one buffer, five bytes
  of header and then the declared number of bytes, decodes the frame and hands it to a
  callback, and closes on a read error or when decoding or the callback throws.

  The two sessions run one loop, with a bound on the declared length in `PlainSession`
  only. The client has its own handlers; while it is running they do what the loop
  without a bound does, apart from the text of the error report (`client_feed`).
-/

import CryptoChat.Net.Message
import CryptoChat.Lib.ExactRead

namespace CryptoChat.Net

open CryptoChat.Lib

/-- What is outstanding: the `async_read` of a header, or of a body. -/
inductive Pending where
  | header
  | body (payloadSize : Nat)
  deriving DecidableEq, Repr

/-- The members a read loop works on. In the client the buffer is `mReadBuffer` and
    `mIsClosed` is the negation of `mIsRunning`. -/
structure ReadLoop where
  mBuffer : Bytes
  pending : Option Pending
  mIsClosed : Bool
  /-- How often the socket was closed and its owner told. -/
  closes : Nat
  /-- What the error callback was called with. -/
  errors : List String
  /-- What the message callback was called with. -/
  invoked : List Message
  /-- The calls of the message callback that returned. -/
  returned : List Message
  deriving DecidableEq

/-- A message callback: what it does with a message, given those it was called with before. -/
abbrev MessageCallback := List Message → Message → Except Exn Unit

structure Callbacks where
  mMessageCallback : Option MessageCallback
  /-- Whether an error callback is set. -/
  mErrorCallback : Bool

/-- A session's callbacks, with a message callback that throws nothing. -/
def sampleCallbacks : Callbacks := ⟨some fun _ _ => .ok (), true⟩

namespace ReadLoop

/-! ## Steps the readers share -/

/-- `std::vector::resize`. -/
def resize (n : Nat) (buffer : Bytes) : Bytes := buffer.take n ++ List.replicate (n - buffer.length) 0#8

def start : ReadLoop := ⟨[], none, false, 0, [], [], []⟩

variable (text : JsonText) (cb : Callbacks)

def report (what : String) (s : ReadLoop) : ReadLoop :=
  if cb.mErrorCallback then { s with errors := s.errors ++ [what] } else s

def close (s : ReadLoop) : ReadLoop :=
  if s.mIsClosed then s else { s with mIsClosed := true, closes := s.closes + 1 }

def readHeader (s : ReadLoop) : ReadLoop :=
  { s with mBuffer := resize kHeaderSize s.mBuffer, pending := some .header }

def readBody (payloadSize : Nat) (s : ReadLoop) : ReadLoop :=
  { s with mBuffer := resize (kHeaderSize + payloadSize) s.mBuffer, pending := some (.body payloadSize) }

/-- The length field of the header in the buffer. -/
def payloadSize (s : ReadLoop) : Nat :=
  (ntohl (hostWord ((s.mBuffer.drop kTypeFieldSize).take kLengthFieldSize))).toNat

/-- A call of the message callback, and whether it throws. -/
def callback (f : MessageCallback) (m : Message) (s : ReadLoop) : ReadLoop × Except Exn Unit :=
  match f s.invoked m with
  | .ok () => ({ s with invoked := s.invoked ++ [m], returned := s.returned ++ [m] }, .ok ())
  | .error e => ({ s with invoked := s.invoked ++ [m] }, .error e)

/-- The frame in the buffer, decoded. -/
def decodeBuffer (s : ReadLoop) : Except Exn Message :=
  Message.decode text ⟨s.mBuffer.headD 0#8⟩ (s.mBuffer.drop kHeaderSize)

/-- The completion of the header read, with a bound on the declared length or none. -/
def onHeaderRead (limit : Option Nat) (ec : Option String) (s : ReadLoop) : ReadLoop :=
  match ec with
  | some e => close (report cb e s)
  | none =>
    if limit.any (· < s.payloadSize) then close (report cb "Payload too large" s)
    else readBody s.payloadSize s

/-- The completion of the body read; `wrap` makes the error report from the text of an
    exception. -/
def onBodyRead (wrap : String → String) (ec : Option String) (s : ReadLoop) : ReadLoop :=
  match ec with
  | some e => close (report cb e s)
  | none =>
    match cb.mMessageCallback with
    | none => readHeader s
    | some f =>
      match s.decodeBuffer text with
      | .error e => close (report cb (wrap e.what) s)
      | .ok m =>
        match callback f m s with
        | (s, .error e) => close (report cb (wrap e.what) s)
        | (s, .ok ()) => readHeader s

/-- The completion of the outstanding read, by the handler of that read. -/
def complete (header body : Option String → ReadLoop → ReadLoop) (ec : Option String) (s : ReadLoop) : ReadLoop :=
  match s.pending with
  | none => s
  | some .header => header ec { s with pending := none }
  | some (.body _) => body ec { s with pending := none }

/-- What a read that succeeds puts into the buffer. -/
def fill (bytes : Bytes) (s : ReadLoop) : ReadLoop :=
  match s.pending with
  | none => s
  | some .header => { s with mBuffer := bytes }
  | some (.body _) => { s with mBuffer := s.mBuffer.take kHeaderSize ++ bytes }

def want (s : ReadLoop) : Option Nat :=
  s.pending.map fun
    | .header => kHeaderSize
    | .body n => n

end ReadLoop

open ReadLoop

/-! ## The two sessions -/

namespace PlainSession

def maxPayload : Nat := 1024 * 1024

def readHeader (s : ReadLoop) : ReadLoop := ReadLoop.readHeader s

def onHeaderRead (cb : Callbacks) : Option String → ReadLoop → ReadLoop := ReadLoop.onHeaderRead cb (some maxPayload)

def onBodyRead (text : JsonText) (cb : Callbacks) : Option String → ReadLoop → ReadLoop :=
  ReadLoop.onBodyRead text cb id

end PlainSession

namespace SecureSession

def readHeader (s : ReadLoop) : ReadLoop := ReadLoop.readHeader s

/-- The handler in `readHeader`. -/
def onHeaderRead (cb : Callbacks) : Option String → ReadLoop → ReadLoop := ReadLoop.onHeaderRead cb none

/-- The handler in `readBody`. -/
def onBodyRead (text : JsonText) (cb : Callbacks) : Option String → ReadLoop → ReadLoop :=
  ReadLoop.onBodyRead text cb id

end SecureSession

/-! ## The client -/

namespace Client

variable (text : JsonText) (cb : Callbacks)

def readHeader (s : ReadLoop) : ReadLoop := ReadLoop.readHeader s

def handleIoError (ec : Option String) (s : ReadLoop) : Bool × ReadLoop :=
  match ec with
  | none => (false, s)
  | some e => (true, if s.mIsClosed then s else close (report cb e s))

/-- The handler in `readHeader`. -/
def onHeaderRead (ec : Option String) (s : ReadLoop) : ReadLoop :=
  match handleIoError cb ec s with
  | (true, s) => s
  | (false, s) => readBody s.payloadSize s

/-- The handler in `readBody`, with `f` for `handleMessage`. -/
def onBodyRead (f : MessageCallback) (ec : Option String) (s : ReadLoop) : ReadLoop :=
  match handleIoError cb ec s with
  | (true, s) => s
  | (false, s) =>
    match s.decodeBuffer text with
    | .error e => close (report cb ("Decode error: " ++ e.what) s)
    | .ok m =>
      match callback f m s with
      | (s, .error e) => close (report cb ("Decode error: " ++ e.what) s)
      | (s, .ok ()) => if s.mIsClosed then s else readHeader s

end Client

end CryptoChat.Net
