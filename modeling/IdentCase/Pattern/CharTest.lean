import IdentCase.Unicode.Blank
import IdentCase.Unicode.Case
import IdentCase.Unicode.Letter
import IdentCase.Unicode.Number

/-! Tests on one character, with the three ways to treat case. -/
namespace IdentCase.Pattern

/-- Case counts, or does not count among the ASCII letters, or does not count at all. -/
inductive CaseMode
  | exact
  | ascii
  | unicode
  deriving DecidableEq

def CaseMode.fold : CaseMode → Nat → Nat
  | .exact, c => c
  | .ascii, c => if 65 ≤ c && c ≤ 90 then c + 32 else c
  | .unicode, c => Unicode.lower c

def CaseMode.isCased : CaseMode → Nat → Bool
  | .exact, _ => false
  | .ascii, c => 65 ≤ c && c ≤ 90 || 97 ≤ c && c ≤ 122
  | .unicode, c => Unicode.isCased c

def CaseMode.casedWithin : CaseMode → Nat → Nat → Bool
  | .exact, _, _ => false
  | .ascii, lo, hi => lo ≤ 90 && 65 ≤ hi || lo ≤ 122 && 97 ≤ hi
  | .unicode, lo, hi => Unicode.casedWithin lo hi

/-- The folded characters, other than `c`, that a folded `c` stands for. -/
def CaseMode.kin : CaseMode → Nat → List Nat
  | .unicode, c => Unicode.kin c
  | _, _ => []

def CaseMode.sources : CaseMode → Nat → List Nat
  | .exact, c => [c]
  | .ascii, c => if 97 ≤ c && c ≤ 122 then [c, c - 32] else if 65 ≤ c && c ≤ 90 then [] else [c]
  | .unicode, c => Unicode.lowerSources c

inductive Category
  | digit
  | space
  | word
  deriving DecidableEq

/-- Membership of a code point; `ascii` confines the category to ASCII. -/
def Category.holds (k : Category) (ascii : Bool) (c : Nat) : Bool :=
  if ascii then
    match k with
    | .digit => 48 ≤ c && c ≤ 57
    | .space => c == 32 || 9 ≤ c && c ≤ 13
    | .word => 48 ≤ c && c ≤ 57 || 65 ≤ c && c ≤ 90 || c == 95 || 97 ≤ c && c ≤ 122
  else
    match k with
    | .digit => Unicode.isDecimal c
    | .space => Unicode.isBlank c
    | .word => c == 95 || Unicode.isLetter c || Unicode.isNumber c

/-- A member of a character set. Code points are numbers, since a pattern may name a surrogate. -/
inductive Member
  | code (c : Nat)
  | range (lo hi : Nat)
  | category (kind : Category) (negated ascii : Bool)
  deriving DecidableEq

def Member.holds (x : Nat) : Member → Bool
  | .code c => x == c
  | .range lo hi => lo ≤ x && x ≤ hi
  | .category k negated ascii => k.holds ascii x != negated

/-- The first code point outside the basic plane. -/
def planeEnd : Nat := 0x10000

/-- Whether the member makes a set ignore case. -/
def Member.isCased (m : CaseMode) : Member → Bool
  | .code c => m.isCased c || planeEnd ≤ m.fold c
  | .range lo hi => m.casedWithin lo hi || planeEnd ≤ hi
  | .category .. => false

/--
Membership of a folded character. Members of the basic plane are folded too; beyond it a single
code point stands for itself and a range also takes what has its upper case there.
-/
def Member.holdsFolded (m : CaseMode) (y : Nat) : Member → Bool
  | .code c =>
    let d := m.fold c
    if planeEnd ≤ d then y == c else y == d || (m.kin d).contains y
  | .range lo hi =>
    (y :: m.kin y).any (fun z => z < planeEnd && (m.sources z).any fun c => lo ≤ c && c ≤ hi) ||
      planeEnd ≤ hi && (lo ≤ y && y ≤ hi || lo ≤ Unicode.upperHead y && Unicode.upperHead y ≤ hi)
  | .category k negated ascii => k.holds ascii y != negated

inductive CharTest
  | code (mode : CaseMode) (c : Nat)
  | notCode (mode : CaseMode) (c : Nat)
  | set (mode : CaseMode) (negated : Bool) (members : List Member)
  | anyButNewline
  | anything
  deriving DecidableEq

def CaseMode.agrees (m : CaseMode) (c x : Nat) : Bool :=
  if m.isCased c then
    let d := m.fold c
    m.fold x == d || (m.kin d).contains (m.fold x)
  else x == c

/-- Membership in a set, which ignores case only if one of its members is cased. -/
def holdsAny (m : CaseMode) (members : List Member) (x : Nat) : Bool :=
  if members.any (·.isCased m) && m != .exact then
    members.any (·.holdsFolded m (m.fold x))
  else members.any (·.holds x)

def CharTest.accepts (t : CharTest) (x : Char) : Bool :=
  match t with
  | .code m c => m.agrees c x.toNat
  | .notCode m c => !m.agrees c x.toNat
  | .set m negated members => holdsAny m members x.toNat != negated
  | .anyButNewline => x != '\n'
  | .anything => true

end IdentCase.Pattern
