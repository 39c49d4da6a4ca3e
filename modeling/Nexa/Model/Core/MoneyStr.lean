import Nexa.Model.Core.Amount

/-! # Amounts as text

`FormatMoney` and `ParseMoney` of `utilmoneystr.cpp`, on the characters of a string without its final zero.
-/

namespace Nexa

def COIN : ℤ := 100

def CENT : ℤ := 1

/-- `isspace` in the locale `C`. -/
def isspace (c : Char) : Bool := c = ' ' ∨ 9 ≤ c.toNat ∧ c.toNat ≤ 13

/-- `nTrim`: the loop from the end of the string, which is given in reverse. -/
def trailingZeros : List Char → ℕ
  | '0' :: before :: digit :: rest => if digit.isDigit then trailingZeros (before :: digit :: rest) + 1 else 0
  | _ => 0

def formatMoney (n : CAmount) : List Char :=
  let n_abs := if 0 < n.toInt then n.toInt else -n.toInt
  let quotient := (n_abs / COIN).toNat
  let remainder := (n_abs % COIN).toNat
  let str := Nat.toDigits 10 quotient ++ ['.', Nat.digitChar (remainder / 10), Nat.digitChar (remainder % 10)]
  let str := str.take (str.length - trailingZeros str.reverse)
  if n.toInt < 0 then '-' :: str else str

/-- The digits behind the point: the units they stand for, and what is left. -/
def parseUnits (nMult : ℤ) : List Char → ℤ × List Char
  | [] => (0, [])
  | c :: rest =>
    if c.isDigit ∧ 0 < nMult then
      let (nUnits, rest) := parseUnits (nMult / 10) rest
      (nMult * (c.toNat - '0'.toNat) + nUnits, rest)
    else (0, c :: rest)

/-- The loop of `ParseMoney` over the first part of the string, with the digits so far: `strWhole`, `nUnits` and what is
left. -/
def parseWhole (strWhole : List Char) : List Char → Option (List Char × ℤ × List Char)
  | [] => some (strWhole, 0, [])
  | c :: rest =>
    if c = '.' then some (strWhole, parseUnits (CENT * 10) rest)
    else if isspace c then some (strWhole, 0, c :: rest)
    else if !c.isDigit then none
    else parseWhole (strWhole ++ [c]) rest

def parseMoney (str : List Char) : Option CAmount := do
  let (strWhole, nUnits, rest) ← parseWhole [] (str.dropWhile isspace)
  if !rest.all isspace then none
  else if 10 < strWhole.length then none
  else if nUnits < 0 ∨ COIN < nUnits then none
  else some (Int64.ofInt (Nat.ofDigitChars 10 strWhole 0 * COIN + nUnits))

end Nexa
