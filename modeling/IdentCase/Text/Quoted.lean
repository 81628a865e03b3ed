import IdentCase.Unicode.Printable

/-! Quoted texts: printable characters as they are, all others as escapes. -/
namespace IdentCase.Text

/-- The last `n` hexadecimal digits of a number. -/
def hex : (n : Nat) → Nat → List Char
  | 0, _ => []
  | n + 1, c => hex n (c / 16) ++ [Nat.digitChar (c % 16)]

/-- The quotation mark of a text: the double one if the text holds a single one and no double one. -/
def quoteMark (text : List Char) : Char :=
  if text.contains '\'' && !text.contains '"' then '"' else '\''

def quoteChar (mark c : Char) : List Char :=
  if c = mark ∨ c = '\\' then ['\\', c]
  else if c = '\t' then ['\\', 't']
  else if c = '\n' then ['\\', 'n']
  else if c = '\r' then ['\\', 'r']
  else if Unicode.isPrintable c.toNat then [c]
  else if c.toNat < 0x100 then '\\' :: 'x' :: hex 2 c.toNat
  else if c.toNat < 0x10000 then '\\' :: 'u' :: hex 4 c.toNat
  else '\\' :: 'U' :: hex 8 c.toNat

def quote (text : String) : String :=
  let mark := quoteMark text.toList
  .ofList (mark :: text.toList.flatMap (quoteChar mark) ++ [mark])

end IdentCase.Text
