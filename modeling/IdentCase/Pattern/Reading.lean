import IdentCase.Pattern.Refusal

/-! The state of reading a pattern, and the steps over its text. -/
namespace IdentCase.Pattern

structure Flags where
  ignoreCase : Bool := false
  multiline : Bool := false
  dotAll : Bool := false
  verbose : Bool := false
  ascii : Bool := false
  unicode : Bool := false
  template : Bool := false
  deriving DecidableEq

namespace Flags

def caseMode (f : Flags) : CaseMode :=
  if f.ignoreCase then if f.ascii then .ascii else .unicode else .exact

def put (f : Flags) (on : Bool) : Char → Flags
  | 'i' => { f with ignoreCase := on }
  | 'm' => { f with multiline := on }
  | 's' => { f with dotAll := on }
  | 'x' => { f with verbose := on }
  | 'a' => { f with ascii := on }
  | 'u' => { f with unicode := on }
  | 't' => { f with template := on }
  | _ => f

def letters : List Char := ['i', 'L', 'm', 's', 'x', 'a', 't', 'u']

/-- The flags of which one alone may be chosen: the kind of characters that classes take. -/
def isType (letter : Char) : Bool := ['a', 'L', 'u'].contains letter

/-- Adds and then removes flags. A type that is added replaces the one before. -/
def change (f : Flags) (add remove : List Char) : Flags :=
  let f := if add.any isType then { f with ascii := false, unicode := false } else f
  remove.foldl (·.put false ·) (add.foldl (·.put true ·) f)

end Flags

/-- A character of a pattern, or a backslash with the character that it escapes. -/
inductive Token
  | plain (c : Char)
  | escaped (c : Char)
  deriving DecidableEq

def Token.chars : Token → List Char
  | .plain c => [c]
  | .escaped c => ['\\', c]

def Token.text (t : Token) : String := .ofList t.chars

/-- How far a pattern has been read, and what has been learned. Characters have names as given. -/
structure Draft where
  named? : List Char → Option Nat
  rest : List Char
  pos : Nat := 0
  flags : Flags
  /-- The widths of the groups in order, for those that have been closed. -/
  widths : List (Option Width) := []
  names : List (String × Nat) := []
  /-- Within a look behind, the number of groups opened before it. -/
  lookbehind : Option Nat := none
  /-- The groups of conditions, where each was mentioned first. -/
  conditions : List (Nat × Nat) := []

abbrev Reading := StateT Draft (Except Refusal)

def token? : List Char → Option Token
  | [] => none
  | '\\' :: c :: _ => some (.escaped c)
  | c :: _ => some (.plain c)

/-- Refuses with a defect that lies `back` characters before the place reached. -/
def fail (what : Defect) (back : Nat := 0) : Reading α := do
  throw (.defect what (some ((← get).pos - back)))

def failAt (what : Defect) (pos : Nat) : Reading α := throw (.defect what (some pos))

/-- A backslash with nothing behind it is refused as soon as it is reached. -/
def checkEscape : Reading Unit := do
  if (← get).rest = ['\\'] then fail .escapeAtEnd

def peek : Reading (Option Token) := return token? (← get).rest

def skip (n : Nat) : Reading Unit := do
  modify fun d => { d with rest := d.rest.drop n, pos := d.pos + n }
  checkEscape

def next : Reading (Option Token) := do
  let token ← peek
  match token with
  | none => return none
  | some t =>
    skip t.chars.length
    return some t

def accept (c : Char) : Reading Bool := do
  if (← peek) = some (.plain c) then
    skip 1
    return true
  else return false

def takeUpTo (p : Char → Bool) : Nat → Reading (List Char)
  | 0 => return []
  | n + 1 => do
    match ← peek with
    | some (.plain c) =>
      if p c then
        skip 1
        return c :: (← takeUpTo p n)
      else return []
    | _ => return []

def takeAll (p : Char → Bool) : Reading (List Char) := do takeUpTo p (← get).rest.length

/-- Takes the text up to a terminator, which is passed over. -/
def takeName (kind : NameKind) (terminator : Char) : Reading (List Char) := do
  go ((← get).rest.length + 1) []
where
  go : Nat → List Char → Reading (List Char)
    | 0, _ => throw (.limit .tooDeep)
    | fuel + 1, name => do
      match ← next with
      | none =>
        if name.isEmpty then fail (.missingName kind)
        else fail (.unterminatedName terminator) name.length
      | some t =>
        if t = .plain terminator then
          if name.isEmpty then fail (.missingName kind) 1 else return name
        else go fuel (name ++ t.chars)

end IdentCase.Pattern
