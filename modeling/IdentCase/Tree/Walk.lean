import IdentCase.Tree.Equality

/-! Children of syntax nodes, links to parents, and the walk over identifiers. -/
namespace IdentCase.Tree

/-- Fields that hold no children. -/
def skippedKeys : List String := ["parent", "loc", "range"]

namespace Heap

/-- The syntax node that a value is: an object with a type. -/
def syntaxNode? (h : Heap) : Value → Option Path
  | .object p => if (h.get? p "type").isSome then some p else none
  | _ => none

def nodesIn (h : Heap) : Value → List Path
  | .list items => items.filterMap h.syntaxNode?
  | v => (h.syntaxNode? v).toList

/-- The children of an object in the order of its keys. -/
def children (h : Heap) (p : Path) : List Path :=
  (h.node p).flatMap fun (key, v) => if skippedKeys.contains key then [] else h.nodesIn v

def hasType (h : Heap) (p : Path) (type : String) : Bool :=
  match h.get? p "type" with
  | some (.str s) => s == type
  | _ => false

def identifier? (h : Heap) (v : Value) : Option Path :=
  (h.syntaxNode? v).filter (h.hasType · "Identifier")

end Heap

/-- Edits of a heap that may fail, where the edits before the failure stay. -/
abbrev Edit := ExceptT Fault (StateM Heap)

/-- Lets a shorthand property have one identifier for its key and its value. -/
def shareShorthand (p : Path) : Edit Unit := do
  let h ← get
  if h.truthy (h.get p "shorthand") then
    if let some key := h.identifier? (h.get p "key") then
      if let some value := h.identifier? (h.get p "value") then
        if key ≠ value then
          if ← h.same (h.get key "name") (h.get value "name") then
            set (h.set p "value" (.object key))

/-- Links the nodes below a node to their parents, the last child first. -/
def linkBelow : (fuel : Nat) → Path → Edit Unit
  | 0, _ => throw .cyclic
  | fuel + 1, p => do
    if (← get).hasType p "Property" then shareShorthand p
    let children := (← get).children p
    for c in children do
      modify (·.set c "parent" (.object p))
    for c in children.reverse do
      linkBelow fuel c

/-- Links all nodes below a root to their parents. The root has none, unless it already says so. -/
def attachParents (root : Value) : Edit Unit := do
  match root with
  | .object p =>
    if ((← get).get? p "parent").isNone then modify (·.set p "parent" .null)
    if ((← get).get? p "type").isNone then throw .untyped
    linkBelow ((← get).size + 1) p
  | _ => throw .notObject

namespace Heap

/-- A node and all below it, each before its children; a node is listed once for each way to it. -/
def listing (h : Heap) : (depth : Nat) → Path → List Path
  | 0, _ => []
  | depth + 1, p => p :: (h.children p).flatMap (h.listing depth)

/-- The length of the listing. -/
def visits (h : Heap) : (depth : Nat) → Path → Nat
  | 0, _ => 0
  | depth + 1, p => 1 + (h.children p).foldr (fun c n => h.visits depth c + n) 0

/-- Takes nodes from a stack, on which their children take their place, until it is empty. -/
def walk (h : Heap) : (fuel : Nat) → (stack : List Path) → List Path
  | 0, _ => []
  | _, [] => []
  | fuel + 1, p :: stack => p :: h.walk fuel (h.children p ++ stack)

def identifiers (h : Heap) (root : Path) : List Path :=
  (h.walk (h.visits (h.size + 1) root) [root]).filter (h.hasType · "Identifier")

section
variable {m : Type → Type u} [Monad m]

/-- Takes nodes from a stack as a walk does, and calls a visitor for the identifiers among them. -/
def visitFrom (h : Heap) (visit : Path → m Unit) : (fuel : Nat) → (stack : List Path) → m Unit
  | 0, _ => pure ()
  | _, [] => pure ()
  | fuel + 1, p :: stack => do
    if h.hasType p "Identifier" then visit p
    h.visitFrom visit fuel (h.children p ++ stack)

def traverse [MonadExcept Fault m] (h : Heap) (root : Path) (visit : Path → m Unit) : m Unit := do
  if (h.get? root "type").isNone then throw .untyped
  h.visitFrom visit (h.visits (h.size + 1) root) [root]

/-- The visitor is called for the identifiers met on the walk. -/
theorem visitFrom_eq_forM (h : Heap) (visit : Path → m Unit) (fuel : Nat)
    (stack : List Path) : h.visitFrom visit fuel stack =
      ((h.walk fuel stack).filter (h.hasType · "Identifier")).forM visit := by
  induction fuel generalizing stack with
  | zero => rfl
  | succ fuel ih =>
    cases stack with
    | nil => rfl
    | cons p stack =>
      rw [visitFrom, walk, List.filter_cons, ih]
      split
      · rfl
      · rfl

theorem traverse_eq_forM [MonadExcept Fault m] (h : Heap) (root : Path)
    (visit : Path → m Unit) : h.traverse root visit = (do
      if (h.get? root "type").isNone then throw .untyped
      (h.identifiers root).forM visit) := by
  rw [traverse, visitFrom_eq_forM]
  rfl

end

end Heap

end IdentCase.Tree
