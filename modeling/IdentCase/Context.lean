import IdentCase.Naming
import IdentCase.Tree.Walk

/-! The syntax around an identifier, which decides whether its name is checked. -/
namespace IdentCase

open IdentCase.Tree

inductive Role
  | bare
  | memberObject
  | memberProperty
  | objectKey
  | patternKey
  | callCallee
  deriving DecidableEq

namespace Role

def name : Role → String
  | .bare => "bare"
  | .memberObject => "member_object"
  | .memberProperty => "member_property"
  | .objectKey => "object_key"
  | .patternKey => "pattern_key"
  | .callCallee => "call_callee"

/-- Whether the role is that of a property, which the policy may exempt. -/
def isProperty : Role → Bool
  | .memberObject | .memberProperty | .objectKey | .patternKey => true
  | .bare | .callCallee => false

end Role

namespace Tree.Heap

/-- The object of the given type that a value is. Values that count as false have no type. -/
def typed? (h : Heap) (v : Value) (type : String) : Except Fault (Option Path) :=
  match v with
  | .object p => .ok (if h.hasType p type then some p else none)
  | _ => if h.truthy v then .error .notObject else .ok none

def isObject (v : Value) (p : Path) : Bool :=
  match v with
  | .object q => q = p
  | _ => false

/-- The parent of a node, or what is around it if the parent is a member access. -/
def effectiveParent (h : Heap) (p : Path) : Except Fault Value := do
  let parent := h.get p "parent"
  match ← h.typed? parent "MemberExpression" with
  | some m => return h.get m "parent"
  | none => return parent

def classify (h : Heap) (p : Path) : Except Fault Role := do
  let parent := h.get p "parent"
  if let some m ← h.typed? parent "MemberExpression" then
    if let some o ← h.typed? (h.get m "object") "Identifier" then
      if ← h.same (h.get o "name") (h.get p "name") then return .memberObject
    return .memberProperty
  if let some q ← h.typed? parent "Property" then
    if (← h.typed? (h.get q "parent") "ObjectPattern").isSome then
      if isObject (h.get q "key") p && !isObject (h.get q "value") p then return .patternKey
    return .objectKey
  if (← h.typed? (← h.effectiveParent p) "CallExpression").isSome then return .callCallee
  return .bare

/--
Whether a member property is written to by an assignment. If a member access is assigned, the left
side has to be a member access with a property of the same name.
-/
def isAssigned (h : Heap) (p : Path) : Except Fault Bool := do
  let some a ← h.typed? (← h.effectiveParent p) "AssignmentExpression" | return false
  if (← h.typed? (h.get a "right") "MemberExpression").isNone then return true
  let some l ← h.typed? (h.get a "left") "MemberExpression" | return false
  let property := h.get l "property"
  match property with
  | .object q => h.same (h.get q "name") (h.get p "name")
  | v => if h.truthy v then throw .notObject else h.same .null (h.get p "name")

def shouldReport (h : Heap) (c : Config) (p : Path) (name : Json) : Except Fault Bool := do
  let role ← h.classify p
  if role.isProperty && c.policy = .never then return false
  if role = .patternKey || role = .callCallee then return false
  unless ← Naming.breaksStyle? name do return false
  match role with
  | .memberProperty => h.isAssigned p
  | .objectKey => return (← h.typed? (← h.effectiveParent p) "CallExpression").isNone
  | _ => return true

end Tree.Heap

end IdentCase
