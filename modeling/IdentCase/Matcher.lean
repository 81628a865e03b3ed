import IdentCase.Fault
import IdentCase.Pattern.Compile

/-! Matchers: literal texts and patterns, which exempt names or strip affixes from them. -/
namespace IdentCase

inductive Matcher
  | literal (text : String)
  | pattern (p : Pattern)

namespace Matcher

def display : Matcher → String
  | .literal text => "Matcher(literal=" ++ Text.quote text ++ ")"
  | .pattern p => "Matcher(pattern=" ++ Text.quote p.source ++ ")"

/-- A literal matches the same name only, a pattern any name that holds a match. -/
def accepts (m : Matcher) (name : String) : Bool :=
  match m with
  | .literal text => name == text
  | .pattern p => (p.find? name.toList).isSome

/-- A name without the prefix that matches. A literal prefix must leave something. -/
def stripPrefix? (m : Matcher) (name : String) : Option String :=
  match m with
  | .literal text =>
    if text.length < name.length && text.toList.isPrefixOf name.toList then
      some (.ofList (name.toList.drop text.length))
    else none
  | .pattern p =>
    match p.find? name.toList with
    | some ⟨[], stop⟩ => some (.ofList stop.after)
    | _ => none

/-- A name without the suffix that the leftmost match is. A literal suffix must leave something. -/
def stripSuffix? (m : Matcher) (name : String) : Option String :=
  match m with
  | .literal text =>
    if text.length < name.length && text.toList.isSuffixOf name.toList then
      some (.ofList (name.toList.take (name.length - text.length)))
    else none
  | .pattern p =>
    match p.find? name.toList with
    | some ⟨skipped, stop⟩ => if stop.after.isEmpty then some (.ofList skipped) else none
    | none => none

end Matcher

def stripFirstPrefix (matchers : List Matcher) (name : String) : String :=
  (matchers.findSome? (·.stripPrefix? name)).getD name

def stripFirstSuffix (matchers : List Matcher) (name : String) : String :=
  (matchers.findSome? (·.stripSuffix? name)).getD name

def stripFirstPrefix? (matchers : Option (List Matcher)) (name : String) : Except Fault String :=
  match matchers with
  | some ms => .ok (stripFirstPrefix ms name)
  | none => .error .notUsable

def stripFirstSuffix? (matchers : Option (List Matcher)) (name : String) : Except Fault String :=
  match matchers with
  | some ms => .ok (stripFirstSuffix ms name)
  | none => .error .notUsable

def acceptedByAny (matchers : Option (List Matcher)) (name : String) : Bool :=
  (matchers.getD []).any (·.accepts name)

end IdentCase
