import IdentCase.Options
import IdentCase.Unicode.Case

/-! Names: the part of a name that is checked, and whether it breaks the convention. -/
namespace IdentCase.Naming

def upperChar (c : Char) : List Char := (Unicode.upper c.toNat).map Char.ofNat

def upperText (text : List Char) : List Char := text.flatMap upperChar

/-- A name breaks the convention if it holds a low line and is not its own upper case. -/
def breaksStyle (name : String) : Bool :=
  name.toList.contains '_' && name.toList != upperText name.toList

/-- `breaksStyle` on any value; lists and objects can hold the low line, but have no upper case. -/
def breaksStyle? : Json → Except Fault Bool
  | .str name => .ok (breaksStyle name)
  | .arr items =>
    if items.any fun | .str s => s == "_" | _ => false then .error .notUppercasable else .ok false
  | .obj fields =>
    if fields.any (·.1 == "_") then .error .notUppercasable else .ok false
  | _ => .error .notUsable

def lowLines : Pattern.Expr := .loop .greedy 1 none (.one (.code .exact '_'.toNat))

/-- Low lines at the start of a text, or at its end or before a line feed there. -/
def edgeLowLines : Pattern.Expr :=
  .alt (.seq (.anchor (.caret false)) lowLines) (.seq lowLines (.anchor (.dollar false)))

/-- A name without the low lines at its edges, which mark it as private. -/
def trimmed (name : String) : String := .ofList (edgeLowLines.removeAll name.toList)

/-- The part of a name that is checked: trimmed, then without one prefix, then without one suffix. -/
def checkable (c : Config) (name : String) : String :=
  stripFirstSuffix (c.suffixes.getD []) (stripFirstPrefix (c.prefixes.getD []) (trimmed name))

def isException (c : Config) (name : String) : Bool := acceptedByAny c.exceptions name

def checkable? (c : Config) : Json → Except Fault String
  | .str name => .ok (checkable c name)
  | _ => .error .notUsable

end IdentCase.Naming
