import IdentCase.Json.Basic

/-! The objects of a tree as cells of a heap, each named by its path in the tree as it was read. -/
namespace IdentCase.Tree

inductive Step
  | key (name : String)
  | index (i : Nat)
  deriving DecidableEq

/-- The steps from the root, the last first. -/
abbrev Path := List Step

/-- A value in a heap; an object is named by its path. -/
inductive Value
  | null
  | bool (b : Bool)
  | int (i : Int)
  | float (f : Float)
  | str (s : String)
  | list (items : List Value)
  | object (path : Path)

instance : Inhabited Value := ⟨.null⟩

/-- The fields of an object in the order of their keys. -/
abbrev Node := List (String × Value)

/-- The objects by their paths, of which there are at most `size`. -/
structure Heap where
  node? : Path → Option Node
  size : Nat
  bounded : ∃ ps : List Path, ps.length ≤ size ∧ ∀ p, (node? p).isSome → p ∈ ps

mutual

def valueOf (p : Path) : Json → Value
  | .null => .null
  | .bool b => .bool b
  | .int i => .int i
  | .float f => .float f
  | .str s => .str s
  | .arr items => .list (itemsOf p 0 items)
  | .obj _ => .object p

/-- The items of a list at a path, from the index `i` on. -/
def itemsOf (p : Path) (i : Nat) : List Json → List Value
  | [] => []
  | v :: rest => valueOf (.index i :: p) v :: itemsOf p (i + 1) rest

end

def nodeOf (p : Path) (fields : List (String × Json)) : Node :=
  fields.map fun (k, v) => (k, valueOf (.key k :: p) v)

/-- The value that steps, the first first, lead to. -/
def at? : List Step → Json → Option Json
  | [], v => some v
  | .key k :: steps, .obj fields => (fields.lookup k).bind (at? steps)
  | .index i :: steps, .arr items => items[i]?.bind (at? steps)
  | _ :: _, _ => none

mutual

/-- The steps that lead to the values in a value, itself included. -/
def stepsIn : Json → List (List Step)
  | .arr items => [] :: stepsInItems 0 items
  | .obj fields => [] :: stepsInFields fields
  | _ => [[]]

def stepsInItems (i : Nat) : List Json → List (List Step)
  | [] => []
  | v :: rest => (stepsIn v).map (.index i :: ·) ++ stepsInItems (i + 1) rest

def stepsInFields : List (String × Json) → List (List Step)
  | [] => []
  | (k, v) :: rest => (stepsIn v).map (.key k :: ·) ++ stepsInFields rest

end

mutual

theorem length_stepsIn : (v : Json) → (stepsIn v).length = v.size
  | .arr items => by
    rw [stepsIn, List.length_cons, length_stepsInItems 0 items, Json.size, Nat.add_comm]
  | .obj fields => by
    rw [stepsIn, List.length_cons, length_stepsInFields fields, Json.size, Nat.add_comm]
  | .null | .bool _ | .int _ | .float _ | .str _ => rfl

theorem length_stepsInItems (i : Nat) :
    (items : List Json) → (stepsInItems i items).length = Json.sizeItems items
  | [] => rfl
  | v :: rest => by
    rw [stepsInItems, List.length_append, List.length_map, length_stepsIn v,
      length_stepsInItems (i + 1) rest, Json.sizeItems]

theorem length_stepsInFields :
    (fields : List (String × Json)) → (stepsInFields fields).length = Json.sizeFields fields
  | [] => rfl
  | (k, v) :: rest => by
    rw [stepsInFields, List.length_append, List.length_map, length_stepsIn v,
      length_stepsInFields rest, Json.sizeFields]

end

theorem mem_stepsInItems {items : List Json} {i j : Nat} {v : Json} {steps : List Step}
    (hv : items[j]? = some v) (hs : steps ∈ stepsIn v) :
    .index (i + j) :: steps ∈ stepsInItems i items := by
  induction items generalizing i j with
  | nil => simp at hv
  | cons w rest ih =>
    rw [stepsInItems, List.mem_append]
    cases j with
    | zero =>
      obtain rfl : w = v := by simpa using hv
      exact Or.inl (List.mem_map_of_mem hs)
    | succ j =>
      have hrest := ih (i := i + 1) (j := j) (by simpa using hv)
      exact Or.inr (by rwa [Nat.add_right_comm] at hrest)

theorem mem_stepsInFields {fields : List (String × Json)} {k : String} {v : Json}
    {steps : List Step} (hv : (k, v) ∈ fields) (hs : steps ∈ stepsIn v) :
    .key k :: steps ∈ stepsInFields fields := by
  induction fields with
  | nil => cases hv
  | cons field rest ih =>
    rw [stepsInFields, List.mem_append]
    rcases List.mem_cons.mp hv with rfl | hv
    · exact Or.inl (List.mem_map_of_mem hs)
    · exact Or.inr (ih hv)

theorem mem_stepsIn {steps : List Step} {v w : Json} (hw : at? steps v = some w) :
    steps ∈ stepsIn v := by
  induction steps generalizing v with
  | nil => cases v <;> simp [stepsIn]
  | cons step steps ih =>
    cases step with
    | key k =>
      cases v with
      | obj fields =>
        obtain ⟨u, hu, hw⟩ := Option.bind_eq_some_iff.mp hw
        exact List.mem_cons_of_mem _ (mem_stepsInFields (mem_of_lookup_eq_some hu) (ih hw))
      | _ => cases hw
    | index i =>
      cases v with
      | arr items =>
        obtain ⟨u, hu, hw⟩ := Option.bind_eq_some_iff.mp hw
        have hmem := mem_stepsInItems (i := 0) hu (ih hw)
        rw [Nat.zero_add] at hmem
        exact List.mem_cons_of_mem _ hmem
      | _ => cases hw

namespace Heap

def load (v : Json) : Heap where
  node? p :=
    match at? p.reverse v with
    | some (.obj fields) => some (nodeOf p fields)
    | _ => none
  size := v.size
  bounded := by
    have hlength : ((stepsIn v).map List.reverse).length = v.size := by
      rw [List.length_map, length_stepsIn]
    refine ⟨(stepsIn v).map List.reverse, Nat.le_of_eq hlength, fun p hp => ?_⟩
    cases hv : at? p.reverse v with
    | none => simp [hv] at hp
    | some w => exact List.mem_map.mpr ⟨p.reverse, mem_stepsIn hv, List.reverse_reverse p⟩

def node (h : Heap) (p : Path) : Node := (h.node? p).getD []

def get? (h : Heap) (p : Path) (key : String) : Option Value := (h.node p).lookup key

/-- The value of a field, null if there is none. -/
def get (h : Heap) (p : Path) (key : String) : Value := (h.get? p key).getD .null

/-- Sets a field of an object; a key that is present keeps its place. -/
def set (h : Heap) (p : Path) (key : String) (v : Value) : Heap where
  node? q := if q = p then some (setField key v (h.node p)) else h.node? q
  size := if (h.node? p).isSome then h.size else h.size + 1
  bounded := by
    obtain ⟨ps, hlength, hps⟩ := h.bounded
    by_cases hp : (h.node? p).isSome
    · refine ⟨ps, by rwa [if_pos hp], fun q hq => ?_⟩
      by_cases hqp : q = p
      · exact hqp ▸ hps p hp
      · exact hps q (by rwa [if_neg hqp] at hq)
    · refine ⟨p :: ps, by rw [if_neg hp]; exact Nat.succ_le_succ hlength, fun q hq => ?_⟩
      by_cases hqp : q = p
      · exact hqp ▸ List.mem_cons_self
      · exact List.mem_cons_of_mem p (hps q (by rwa [if_neg hqp] at hq))

def truthy (h : Heap) : Value → Bool
  | .null => false
  | .bool b => b
  | .int i => i != 0
  | .float f => f != 0
  | .str s => s != ""
  | .list items => !items.isEmpty
  | .object p => !(h.node p).isEmpty

/-- The JSON form of a value, with null for an object within itself. -/
def unfold (h : Heap) : (fuel : Nat) → (inside : List Path) → Value → Json
  | 0, _, _ => .null
  | _, _, .null => .null
  | _, _, .bool b => .bool b
  | _, _, .int i => .int i
  | _, _, .float f => .float f
  | _, _, .str s => .str s
  | fuel + 1, inside, .list items => .arr (items.map (h.unfold fuel inside))
  | fuel + 1, inside, .object p =>
    if inside.contains p then .null
    else .obj ((h.node p).map fun (k, v) => (k, h.unfold fuel (p :: inside) v))

def toJson (h : Heap) (v : Value) : Json := h.unfold (h.size + 1) [] v

end Heap

end IdentCase.Tree
