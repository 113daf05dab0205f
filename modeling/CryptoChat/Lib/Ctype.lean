/-
  CryptoChat.Lib.Ctype — characters as bytes, with the classes and the case mapping of the
  C locale.
-/

import CryptoChat.Lib.Bytes
import Mathlib

namespace CryptoChat.Lib.Ctype

def chr (c : Char) : Byte := BitVec.ofNat 8 c.toNat

/-- A text, as bytes. -/
def ascii (text : List Char) : Bytes := text.map chr

def isspace (ch : Byte) : Bool := ch == chr ' ' || (0x09#8 ≤ ch && ch ≤ 0x0d#8)

def isupper (ch : Byte) : Bool := chr 'A' ≤ ch && ch ≤ chr 'Z'

def islower (ch : Byte) : Bool := chr 'a' ≤ ch && ch ≤ chr 'z'

def isalpha (ch : Byte) : Bool := isupper ch || islower ch

def isdigit (ch : Byte) : Bool := chr '0' ≤ ch && ch ≤ chr '9'

def isxdigit (ch : Byte) : Bool :=
  isdigit ch || (chr 'a' ≤ ch && ch ≤ chr 'f') || (chr 'A' ≤ ch && ch ≤ chr 'F')

def toupper (ch : Byte) : Byte := if islower ch then ch - 0x20#8 else ch

def tolower (ch : Byte) : Byte := if isupper ch then ch + 0x20#8 else ch

end CryptoChat.Lib.Ctype
