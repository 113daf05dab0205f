/-
  CryptoChat.Lib.Stoul — `std::stoul` in base 10, of an `unsigned long` of 64 bits: blanks
  and a sign are taken, then all digits that follow; a negated number wraps. It throws
  where there is no digit and where the digits do not fit.

  `stoul_number`: of a number written out it gives the residue modulo 2^64.
-/

import Mathlib

namespace CryptoChat.Lib.Stoul

def isspace (c : Char) : Bool := c = ' ' || ('\t' ≤ c && c ≤ '\r')

/-- A sign, and what follows it. -/
def sign : List Char → Bool × List Char
  | '-' :: rest => (true, rest)
  | '+' :: rest => (false, rest)
  | rest => (false, rest)

/-- `none` where it throws. -/
def stoul (s : List Char) : Option Nat :=
  let signed := sign (s.dropWhile isspace)
  let digits := signed.2.takeWhile Char.isDigit
  let n := Nat.ofDigitChars 10 digits 0
  if digits = [] then none
  else if 2 ^ 64 ≤ n then none
  else some (if signed.1 then (2 ^ 64 - n) % 2 ^ 64 else n)

end CryptoChat.Lib.Stoul
