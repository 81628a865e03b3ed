import IdentCase.Pattern.Reading

/-! Escapes, within character sets and outside them. -/
namespace IdentCase.Pattern

def isOctal (c : Char) : Bool := '0' ≤ c && c ≤ '7'

def isHex (c : Char) : Bool := c.isDigit || 'a' ≤ c && c ≤ 'f' || 'A' ≤ c && c ≤ 'F'

def hexValue (c : Char) : Nat :=
  if c.isDigit then c.toNat - 48 else if 'a' ≤ c then c.toNat - 87 else c.toNat - 55

def readNumber (base : Nat) (digits : List Char) : Nat :=
  digits.foldl (fun n d => n * base + hexValue d) 0

def control? : Char → Option Nat
  | 'a' => some 7
  | 'b' => some 8
  | 'f' => some 12
  | 'n' => some 10
  | 'r' => some 13
  | 't' => some 9
  | 'v' => some 11
  | '\\' => some 92
  | _ => none

/-- The escapes for categories; a capital letter stands for the complement. -/
def category? (ascii : Bool) : Char → Option Member
  | 'd' => some (.category .digit false ascii)
  | 'D' => some (.category .digit true ascii)
  | 's' => some (.category .space false ascii)
  | 'S' => some (.category .space true ascii)
  | 'w' => some (.category .word false ascii)
  | 'W' => some (.category .word true ascii)
  | _ => none

def anchor? (ascii : Bool) : Char → Option Anchor
  | 'A' => some .textStart
  | 'Z' => some .textEnd
  | 'b' => some (.boundary ascii)
  | 'B' => some (.nonBoundary ascii)
  | _ => none

def failEscape (what : String → Defect) (escape : List Char) : Reading α :=
  fail (what (.ofList ('\\' :: escape))) (escape.length + 1)

/-- A code point in exactly `n` hexadecimal digits after a letter. -/
def readHexEscape (letter : Char) (n : Nat) : Reading Nat := do
  let digits ← takeUpTo isHex n
  if digits.length ≠ n then failEscape .incompleteEscape (letter :: digits)
  let code := readNumber 16 digits
  if 0x80000000 ≤ code then throw (.limit .numberTooLarge)
  if 0x10FFFF < code then failEscape .badEscape (letter :: digits)
  return code

def readNameEscape : Reading Nat := do
  unless ← accept '\x7b' do fail .missingBrace
  let name ← takeName .character '\x7d'
  match (← get).named? name with
  | some code => return code
  | none => fail (.undefinedCharacter (.ofList name)) (name.length + 4)

def octalCode (digits : List Char) : Reading Nat := do
  let code := readNumber 8 digits
  if 0o377 < code then failEscape .octalTooLarge digits
  return code

/-- The escapes by code point, and characters that stand for themselves. -/
def readCode (c : Char) : Reading Nat := do
  match c with
  | 'x' => readHexEscape c 2
  | 'u' => readHexEscape c 4
  | 'U' => readHexEscape c 8
  | 'N' => readNameEscape
  | _ => if c.isAlphanum then failEscape .badEscape [c] else return c.toNat

def readClassEscape (ascii : Bool) (c : Char) : Reading Member := do
  if let some code := control? c then return .code code
  if let some m := category? ascii c then return m
  if isOctal c then return .code (← octalCode (c :: (← takeUpTo isOctal 2)))
  return .code (← readCode c)

namespace Draft

/-- The number of groups, the whole pattern included. -/
def groups (d : Draft) : Nat := d.widths.length + 1

def isClosed (d : Draft) (index : Nat) : Bool := (d.widths[index - 1]?.bind id).isSome

def groupWidth (d : Draft) (index : Nat) : Width := (d.widths[index - 1]?.bind id).getD .zero

end Draft

/-- Within a look behind, only groups that were closed before it may be referred to. -/
def checkLookbehind (index : Nat) : Reading Unit := do
  let d ← get
  if let some before := d.lookbehind then
    unless d.isClosed index do fail .openGroup
    if before ≤ index then fail .groupOfLookbehind

/-- A reference to a group by number; three octal digits stand for a code point instead. -/
def readBackref (mode : CaseMode) (c : Char) : Reading Expr := do
  let more ← takeUpTo Char.isDigit 1
  if more.all isOctal && isOctal c && !more.isEmpty then
    if let [e] ← takeUpTo isOctal 1 then
      return .one (.code mode (← octalCode (c :: more ++ [e])))
  let index := readNumber 10 (c :: more)
  let d ← get
  if d.groups ≤ index then fail (.unknownGroupNumber index) (more.length + 1)
  unless d.isClosed index do fail .openGroup (more.length + 2)
  checkLookbehind index
  return .backref index mode

def readEscape (flags : Flags) (c : Char) : Reading Expr := do
  let mode := flags.caseMode
  if let some a := anchor? flags.ascii c then return .anchor a
  if let some m := category? flags.ascii c then return .one (.set mode false [m])
  if let some code := control? c then return .one (.code mode code)
  if c = '0' then return .one (.code mode (← octalCode (c :: (← takeUpTo isOctal 2))))
  if c.isDigit then readBackref mode c
  else return .one (.code mode (← readCode c))

end IdentCase.Pattern
