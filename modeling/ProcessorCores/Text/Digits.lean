/-!
# Digits

Numbers as text: hexadecimal with a least number of digits, and the reading of a register number
inside a path.
-/

namespace ProcessorCores.Text

/-- Hexadecimal digits in lower case, filled up with zeros to `width`. -/
def hexDigits (width number : Nat) : List Char :=
  let digits := Nat.toDigits 16 number
  List.replicate (width - digits.length) '0' ++ digits

/-- Hexadecimal text in lower case, of `width` digits or as many as the number needs. -/
def hexLower (width number : Nat) : String := String.ofList (hexDigits width number)

/-- Hexadecimal text in upper case, of `width` digits or as many as the number needs. -/
def hexUpper (width number : Nat) : String :=
  String.ofList ((hexDigits width number).map Char.toUpper)

/-- The number written by ASCII digits, the most significant first. -/
def decimalValue (digits : List Char) : Nat :=
  digits.foldl (fun number digit => 10 * number + (digit.toNat - '0'.toNat)) 0

/-- Read an index: an optional plus sign, then at least one ASCII digit and nothing else. Leading
zeros are allowed. -/
def index? (text : List Char) : Option Nat :=
  let digits :=
    match text with
    | '+' :: rest => rest
    | _ => text
  if digits ≠ [] ∧ digits.all Char.isDigit then some (decimalValue digits) else none

/-- Read an index below `bound` that follows a name. -/
def indexAfter? (name : List Char) (bound : Nat) (text : List Char) : Option (Fin bound) := do
  let rest ← name.isPrefixOf? text
  let number ← index? rest
  if h : number < bound then some ⟨number, h⟩ else none

end ProcessorCores.Text
