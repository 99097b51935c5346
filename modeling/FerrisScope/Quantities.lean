import FerrisScope.CronFields
import Mathlib.Data.Rat.Defs
import Mathlib.Algebra.Order.Field.Rat

/-!
# Quantities of resources

A decimal number with a suffix is read to an exact number of base units: cores, or bytes.
-/

namespace FerrisScope.Quantities
open HostsFile (Text trim)
open CronFields (isDigit ofDigits)

def isNumberChar (c : Char) : Bool := isDigit c || c = '.' || c = '+' || c = '-' || c = 'e' || c = 'E'

/-- Whether there is a minus sign, and the text behind the sign. -/
def splitSign (t : Text) : Bool × Text :=
  match t with
  | '-' :: rest => (true, rest)
  | '+' :: rest => (false, rest)
  | _ => (false, t)

def signed (negative : Bool) (n : ℕ) : ℤ := if negative then -n else n

def allDigits (t : Text) : Bool := !t.isEmpty && t.all isDigit

def parseExponent (t : Text) : Option ℤ :=
  match t with
  | [] => some 0
  | c :: rest =>
      let (negative, digits) := splitSign rest
      if (c = 'e' ∨ c = 'E') ∧ allDigits digits then some (signed negative (ofDigits digits)) else none

/-- A number as floating point numbers are written, read exactly. -/
def parseNumber (t : Text) : Option ℚ :=
  let (negative, t) := splitSign t
  let whole := t.takeWhile isDigit
  let rest := t.dropWhile isDigit
  let point := rest.head? = some '.'
  let fraction := if point then rest.tail.takeWhile isDigit else []
  let exponent := if point then rest.tail.dropWhile isDigit else rest
  if (whole ++ fraction).isEmpty then none
  else (parseExponent exponent).map fun e =>
    (signed negative (ofDigits (whole ++ fraction)) : ℚ) * (10 : ℚ) ^ (e - (fraction.length : ℤ))

def multiplier (suf : String) : Option ℚ :=
  if suf = "" then some 1
  else if suf = "n" then some (1 / 10 ^ 9)
  else if suf = "u" then some (1 / 10 ^ 6)
  else if suf = "m" then some (1 / 10 ^ 3)
  else if suf = "K" ∨ suf = "k" then some (10 ^ 3)
  else if suf = "M" then some (10 ^ 6)
  else if suf = "G" then some (10 ^ 9)
  else if suf = "T" then some (10 ^ 12)
  else if suf = "P" then some (10 ^ 15)
  else if suf = "E" then some (10 ^ 18)
  else if suf = "Ki" then some 1024
  else if suf = "Mi" then some (1024 ^ 2)
  else if suf = "Gi" then some (1024 ^ 3)
  else if suf = "Ti" then some (1024 ^ 4)
  else if suf = "Pi" then some (1024 ^ 5)
  else if suf = "Ei" then some (1024 ^ 6)
  else none

def parseQuantity (s : Text) : Option ℚ :=
  let s := trim s
  if s = [] then none
  else (parseNumber (s.takeWhile isNumberChar)).bind fun n =>
    (multiplier (String.ofList (s.dropWhile isNumberChar))).map (n * ·)

example : parseQuantity "1.5e1Ki".toList = some 15360 := by decide +kernel

example : parseQuantity "5Ei".toList = none := by decide +kernel

end FerrisScope.Quantities
