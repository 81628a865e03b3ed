import IdentCase.Decimal.Shortest
import IdentCase.Fault
import IdentCase.Tree.Heap

/-! Equality of values: numbers by value, lists item by item, objects key by key in any order. -/
namespace IdentCase.Tree

def floatIsInt (f : Float) (i : Int) : Bool :=
  if f.isNaN || f.isInf then false
  else
    let m := Decimal.magnitude f
    let (num, den) := Decimal.power 2 m.exponent
    let x : Int := m.mantissa * num
    i * den == if Decimal.isNegative f then -x else x

/-- The integer that a value counts as; true is one and false is zero. -/
def Value.int? : Value → Option Int
  | .int i => some i
  | .bool b => some b.toNat
  | _ => none

/-- Equality of values that are neither lists nor objects. -/
def Value.sameAtom : Value → Value → Bool
  | .null, .null => true
  | .str s, .str t => s == t
  | .float f, .float g => f == g
  | .float f, v => v.int?.any (floatIsInt f)
  | v, .float f => v.int?.any (floatIsInt f)
  | v, w =>
    match v.int?, w.int? with
    | some i, some j => i == j
    | _, _ => false

/-- Equality of such values in lists and fields, where floats that are no numbers are one. -/
def Value.sameItem : Value → Value → Bool
  | .float f, .float g => f == g || f.isNaN && g.isNaN
  | v, w => v.sameAtom w

mutual

/-- Equality of values, where two objects are equal at once if they are one. -/
def Value.sameBy (objects : Path → Path → Except Fault Bool) : Value → Value → Except Fault Bool
  | .list xs, .list ys => if xs.length = ys.length then itemsSameBy objects xs ys else .ok false
  | .object p, .object q => if p = q then .ok true else objects p q
  | v, w => .ok (v.sameItem w)

/-- Equality of items, up to the first that differs. -/
def Value.itemsSameBy (objects : Path → Path → Except Fault Bool) :
    List Value → List Value → Except Fault Bool
  | x :: xs, y :: ys => do if ← x.sameBy objects y then itemsSameBy objects xs ys else return false
  | _, _ => .ok true

end

namespace Heap

/-- Whether a test holds of all elements, in order, up to the first where it does not. -/
def allOf (p : α → Except Fault Bool) : List α → Except Fault Bool
  | [] => .ok true
  | x :: xs => do if ← p x then allOf p xs else return false

/-- Whether an object has a field of the same key with an equal value. -/
def hasField (h : Heap) (objects : Path → Path → Except Fault Bool) (q : Path)
    (field : String × Value) : Except Fault Bool :=
  match h.get? q field.1 with
  | some w => field.2.sameBy objects w
  | none => .ok false

/--
Equality of two objects, within comparisons of others. A comparison that comes back to two objects
that it is about already would never end.
-/
def sameObjects (h : Heap) :
    (fuel : Nat) → (within : List (Path × Path)) → Path → Path → Except Fault Bool
  | 0, _, _, _ => .error .cyclic
  | fuel + 1, within, p, q =>
    if within.contains (p, q) then .error .cyclic
    else if (h.node p).length = (h.node q).length then
      allOf (h.hasField (h.sameObjects fuel ((p, q) :: within)) q) (h.node p)
    else .ok false

/-- Equality of values. No more comparisons can be within one another than there are two objects. -/
def same (h : Heap) : Value → Value → Except Fault Bool
  | .float f, .float g => .ok (f == g)
  | v, w => v.sameBy (h.sameObjects (h.size * h.size + 1) []) w

end Heap

end IdentCase.Tree
