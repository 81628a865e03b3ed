import IdentCase.Tree.Equality

/-! Violations, and the sink that takes one for each node. -/
namespace IdentCase

open IdentCase.Tree

/-- A report of an identifier. The position and the name are those of the node when it was made. -/
structure Violation where
  id : String
  name : Value
  message : String
  line : Value
  column : Value
  node : Path

namespace Violation

def detector : String := "camelcase"

def messageFor (name : String) : String := "Identifier '" ++ name ++ "' is not in camel case."

def idFor (position : Option (String × String)) (name : String) : String :=
  let place :=
    match position with
    | some (line, column) => line ++ ":" ++ column
    | none => "?"
  detector ++ "::" ++ place ++ "::" ++ name

end Violation

/-- The text of a value that is written, which has no integers that are too long. -/
def Json.written (v : Json) : Except Fault String :=
  if v.legible then .ok v.text else .error (.limit .numberTooLong)

namespace Tree.Heap

def fieldOf (h : Heap) (v : Value) (key : String) : Except Fault Value :=
  match v with
  | .object p => .ok (h.get p key)
  | _ => if h.truthy v then .error .notObject else .ok .null

/-- The texts of a line and a column. They are not told if the line is null. -/
def told (h : Heap) (line column : Value) : Except Fault (Option (String × String)) :=
  match line with
  | .null => pure none
  | _ => do
    let line ← (h.toJson line).written
    let column ← (h.toJson column).written
    return some (line, column)

def violation (h : Heap) (p : Path) : Except Fault Violation := do
  let name := (h.get? p "name").getD (.str "")
  let start ← h.fieldOf (h.get p "loc") "start"
  let line ← h.fieldOf start "line"
  let column ← h.fieldOf start "column"
  let position ← h.told line column
  let shown ← (h.toJson name).written
  return {
    id := Violation.idFor position shown
    name, line, column
    message := Violation.messageFor shown
    node := p }

end Tree.Heap

/-- The violations of a run, and the nodes that have been marked as reported. -/
structure Sink where
  marked : List Path := []
  violations : List Violation := []

/-- Reports a node unless it is marked. The mark is set before the violation is made. -/
def Sink.report (h : Heap) (p : Path) : ExceptT Fault (StateM Sink) Bool := do
  if (← get).marked.contains p then return false
  modify fun s => { s with marked := p :: s.marked }
  let v ← h.violation p
  modify fun s => { s with violations := s.violations ++ [v] }
  return true

end IdentCase
