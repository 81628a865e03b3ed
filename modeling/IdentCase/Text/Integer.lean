import IdentCase.Unicode.Blank
import IdentCase.Unicode.Number

/-! Integers written in the decimal digits of any script. -/
namespace IdentCase.Text

/-- The most digits that a number may be written with. -/
def maxDigits : Nat := 4300

/-- The value of digits that stand alone or are parted by single low lines. -/
def readDigits? (acc : Nat) : List Char → Option Nat
  | [] => none
  | [c] => (Unicode.digitValue? c.toNat).map (acc * 10 + ·)
  | c :: '_' :: rest => do readDigits? (acc * 10 + (← Unicode.digitValue? c.toNat)) rest
  | c :: rest => do readDigits? (acc * 10 + (← Unicode.digitValue? c.toNat)) rest

def isPadding (c : Char) : Bool :=
  if c.toNat < 128 then c == ' ' || 9 ≤ c.toNat && c.toNat ≤ 13 else Unicode.isBlank c.toNat

def trim (text : List Char) : List Char :=
  ((text.dropWhile isPadding).reverse.dropWhile isPadding).reverse

def readInteger? (text : List Char) : Option Int :=
  let body? (digits : List Char) :=
    if digits.countP (· != '_') ≤ maxDigits then readDigits? 0 digits else none
  match trim text with
  | '-' :: digits => (body? digits).map fun n => -(n : Int)
  | '+' :: digits => (body? digits).map fun n => (n : Int)
  | digits => (body? digits).map fun n => (n : Int)

end IdentCase.Text
