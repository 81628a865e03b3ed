import IdentCase.Proofs.Json.Distinct
import IdentCase.Tree.Walk

/-! A tree as it was read: objects stand at their paths, and children lie below their parents. -/
namespace IdentCase.Tree

def valueAt? (tree : Json) (p : Path) : Option Json := at? p.reverse tree

/-- Where the children of an object stand: in a field of it, or in a list there. -/
inductive ChildPath (p : Path) : Path → Prop
  | field {key : String} (hk : key ∉ skippedKeys) : ChildPath p (.key key :: p)
  | item {key : String} (i : Nat) (hk : key ∉ skippedKeys) :
      ChildPath p (.index i :: .key key :: p)

/-- The object that holds what stands at a path, directly or in a list. -/
def holder : Path → Path
  | .key _ :: p => p
  | .index _ :: p => p.tail
  | [] => []

theorem ChildPath.holder_eq {p c : Path} (h : ChildPath p c) : holder c = p := by
  cases h <;> rfl

theorem ChildPath.ne_nil {p c : Path} (h : ChildPath p c) : c ≠ [] := by
  cases h <;> simp

theorem ChildPath.suffix {p c : Path} (h : ChildPath p c) : p <:+ c := by
  cases h with
  | field => exact List.suffix_cons _ p
  | item => exact (List.suffix_cons _ p).trans (List.suffix_cons _ _)

theorem at?_append (s t : List Step) (v : Json) : at? (s ++ t) v = (at? s v).bind (at? t) := by
  induction s generalizing v with
  | nil => simp [at?]
  | cons step s ih =>
    cases step with
    | key k =>
      cases v with
      | obj fields => cases hl : fields.lookup k <;> simp [at?, hl, ih]
      | _ => simp [at?]
    | index i =>
      cases v with
      | arr items => cases hl : items[i]? <;> simp [at?, hl, ih]
      | _ => simp [at?]

section
variable {tree : Json} {p : Path}

@[simp] theorem valueAt?_nil : valueAt? tree [] = some tree := rfl

theorem valueAt?_key (k : String) :
    valueAt? tree (.key k :: p) = (valueAt? tree p).bind (·.get? k) := by
  rw [valueAt?, List.reverse_cons, at?_append]
  congr 1
  funext v
  cases v with
  | obj fields => cases hl : fields.lookup k <;> simp [at?, Json.get?, hl]
  | _ => rfl

theorem valueAt?_index (i : Nat) :
    valueAt? tree (.index i :: p) =
      (valueAt? tree p).bind fun | .arr items => items[i]? | _ => none := by
  rw [valueAt?, List.reverse_cons, at?_append]
  congr 1
  funext v
  cases v with
  | arr items => cases hl : items[i]? <;> simp [at?, hl]
  | _ => rfl

/-- What holds of a tree and goes on from values to those in them holds of all values of the tree. -/
theorem valueAt?_induction {P : Json → Prop} (hroot : P tree)
    (hfield : ∀ fields, P (.obj fields) → ∀ field ∈ fields, P field.2)
    (hitem : ∀ items, P (.arr items) → ∀ v ∈ items, P v) {v : Json}
    (hv : valueAt? tree p = some v) : P v := by
  induction p generalizing v with
  | nil =>
    rw [valueAt?_nil, Option.some.injEq] at hv
    exact hv ▸ hroot
  | cons step p ih =>
    cases step with
    | key k =>
      rw [valueAt?_key, Option.bind_eq_some_iff] at hv
      obtain ⟨u, hu, hv⟩ := hv
      cases u with
      | obj fields => exact hfield fields (ih hu) _ (mem_of_lookup_eq_some hv)
      | _ => cases hv
    | index i =>
      rw [valueAt?_index, Option.bind_eq_some_iff] at hv
      obtain ⟨u, hu, hv⟩ := hv
      cases u with
      | arr items => exact hitem items (ih hu) v (List.mem_of_getElem? hv)
      | _ => cases hv

theorem everywhere_of_valueAt? {P : List (String × Json) → Prop} (ht : tree.Everywhere P)
    {fields : List (String × Json)} (hv : valueAt? tree p = some (.obj fields)) : P fields := by
  have hall : (Json.obj fields).Everywhere P := by
    apply valueAt?_induction ht _ _ hv
    · intro fields hf
      unfold Json.Everywhere at hf
      exact Json.everywhereFields_iff.mp hf.2
    · intro items hi
      unfold Json.Everywhere at hi
      exact Json.everywhereItems_iff.mp hi
  unfold Json.Everywhere at hall
  exact hall.1

theorem lookup_nodeOf (fields : List (String × Json)) (k : String) :
    (nodeOf p fields).lookup k = (fields.lookup k).map (valueOf (.key k :: p)) := by
  induction fields with
  | nil => rfl
  | cons field rest ih =>
    obtain ⟨k', v⟩ := field
    have hcons : nodeOf p ((k', v) :: rest) = (k', valueOf (.key k' :: p) v) :: nodeOf p rest := rfl
    rw [hcons, lookup_cons_eq_ite, lookup_cons_eq_ite, ih]
    by_cases hk : k = k'
    · subst hk
      simp
    · simp [hk]

namespace Heap

theorem node?_load : (load tree).node? p = (valueAt? tree p).bind fun
    | .obj fields => some (nodeOf p fields)
    | _ => none := by
  simp only [load, valueAt?]
  cases at? p.reverse tree with
  | none => rfl
  | some v => cases v <;> rfl

/-- The fields of an object that was read are the values one step below it. -/
theorem get?_load (k : String) :
    (load tree).get? p k = (valueAt? tree (.key k :: p)).map (valueOf (.key k :: p)) := by
  rw [get?, node, node?_load, valueAt?_key]
  cases valueAt? tree p with
  | none => rfl
  | some v =>
    cases v with
    | obj fields => simpa [Json.get?] using lookup_nodeOf fields k
    | _ => rfl

end Heap

theorem valueOf_eq_object {v : Json} {q : Path} (h : valueOf p v = .object q) :
    q = p ∧ ∃ fields, v = .obj fields := by
  cases v with
  | obj fields =>
    simp only [valueOf, Value.object.injEq] at h
    exact ⟨h.symm, fields, rfl⟩
  | _ => simp [valueOf] at h

theorem getElem?_itemsOf (p : Path) (items : List Json) (i j : Nat) :
    (itemsOf p i items)[j]? = items[j]?.map (valueOf (.index (i + j) :: p)) := by
  induction items generalizing i j with
  | nil => simp [itemsOf]
  | cons v rest ih =>
    cases j with
    | zero => simp [itemsOf]
    | succ j =>
      rw [itemsOf, List.getElem?_cons_succ, List.getElem?_cons_succ, ih, Nat.add_right_comm,
        Nat.add_assoc]

theorem mem_itemsOf {items : List Json} {i : Nat} {w : Value} (h : w ∈ itemsOf p i items) :
    ∃ j v, i ≤ j ∧ j < i + items.length ∧ w = valueOf (.index j :: p) v := by
  obtain ⟨j, hj⟩ := List.mem_iff_getElem?.mp h
  rw [getElem?_itemsOf, Option.map_eq_some_iff] at hj
  obtain ⟨v, hv, rfl⟩ := hj
  have hlt := (List.getElem?_eq_some_iff.mp hv).1
  exact ⟨i + j, v, by omega, by omega, rfl⟩

end

/-- Whether a value is a given object or a list that has it as an item. -/
def Value.Holds (v : Value) (c : Path) : Prop :=
  v = .object c ∨ ∃ items, v = .list items ∧ .object c ∈ items

theorem holds_valueOf {p c : Path} {v : Json} (h : (valueOf p v).Holds c) :
    c = p ∨ ∃ i, c = .index i :: p := by
  rcases h with h | ⟨items, hl, hc⟩
  · exact Or.inl (valueOf_eq_object h).1
  · cases v with
    | arr vs =>
      simp only [valueOf, Value.list.injEq] at hl
      subst hl
      obtain ⟨j, w, -, -, hw⟩ := mem_itemsOf hc
      exact Or.inr ⟨j, (valueOf_eq_object hw.symm).1⟩
    | _ => simp [valueOf] at hl

namespace Heap

theorem syntaxNode?_eq_some {h : Heap} {v : Value} {c : Path} :
    h.syntaxNode? v = some c ↔ v = .object c ∧ (h.get? c "type").isSome := by
  cases v with
  | object q =>
    simp only [syntaxNode?]
    split
    · next ht =>
      simp only [Option.some.injEq, Value.object.injEq]
      exact ⟨fun he => ⟨he, he ▸ ht⟩, fun he => he.1⟩
    · next ht =>
      simp only [reduceCtorEq, Value.object.injEq, false_iff]
      rintro ⟨rfl, ht'⟩
      exact ht ht'
  | _ => simp [syntaxNode?]

theorem mem_nodesIn {h : Heap} {v : Value} {c : Path} :
    c ∈ h.nodesIn v ↔ v.Holds c ∧ (h.get? c "type").isSome := by
  cases v with
  | list items => simp [nodesIn, syntaxNode?_eq_some, Value.Holds]
  | _ => simp [nodesIn, syntaxNode?_eq_some, Value.Holds]

theorem mem_children {h : Heap} {p c : Path} :
    c ∈ h.children p ↔
      ∃ key v, (key, v) ∈ h.node p ∧ key ∉ skippedKeys ∧ v.Holds c ∧ (h.get? c "type").isSome := by
  simp only [children, List.mem_flatMap, Prod.exists]
  refine exists_congr fun key => exists_congr fun v => and_congr_right fun _ => ?_
  by_cases hk : key ∈ skippedKeys <;> simp [hk, mem_nodesIn]

theorem mem_node_load {tree : Json} {p : Path} {key : String} {w : Value}
    (h : (key, w) ∈ (load tree).node p) : ∃ v, w = valueOf (.key key :: p) v := by
  rw [node, node?_load] at h
  cases hv : valueAt? tree p with
  | none => simp [hv] at h
  | some u =>
    cases u with
    | obj fields =>
      simp only [hv, Option.bind_some, Option.getD_some, nodeOf, List.mem_map, Prod.exists,
        Prod.mk.injEq] at h
      obtain ⟨k, v, -, rfl, rfl⟩ := h
      exact ⟨v, rfl⟩
    | _ => simp [hv] at h

theorem childPath_of_mem_children {tree : Json} {p c : Path} (h : c ∈ (load tree).children p) :
    ChildPath p c := by
  obtain ⟨key, w, hm, hk, hc, -⟩ := mem_children.mp h
  obtain ⟨v, rfl⟩ := mem_node_load hm
  rcases holds_valueOf hc with rfl | ⟨i, rfl⟩
  · exact .field hk
  · exact .item i hk

theorem exists_fields_of_get? {tree : Json} {p : Path} {key : String} {v : Value}
    (h : (load tree).get? p key = some v) : ∃ fields, valueAt? tree p = some (.obj fields) := by
  rw [get?_load, valueAt?_key] at h
  cases hv : valueAt? tree p with
  | none => simp [hv] at h
  | some u =>
    cases u with
    | obj fields => exact ⟨fields, rfl⟩
    | _ => simp [hv, Json.get?] at h

end Heap

/-- What is within a field that holds an object is within the child in that field. -/
theorem Heap.suffix_child_iff {tree : Json} {p q c : Path} {k : String}
    (hc : c ∈ (load tree).children p) (ht : ((load tree).get? (.key k :: q) "type").isSome) :
    .key k :: q <:+ c ↔ .key k :: q = c ∨ .key k :: q <:+ p := by
  cases childPath_of_mem_children hc with
  | field => exact List.suffix_cons_iff
  | @item k' i =>
    rw [List.suffix_cons_iff, List.suffix_cons_iff]
    refine or_congr_right (or_iff_right ?_)
    -- The field would hold a list with the child in it.
    intro he
    obtain ⟨-, -, -, -, -, hct⟩ := mem_children.mp hc
    obtain ⟨type, htype⟩ := Option.isSome_iff_exists.mp ht
    obtain ⟨type', htype'⟩ := Option.isSome_iff_exists.mp hct
    obtain ⟨fields, hv⟩ := exists_fields_of_get? htype
    obtain ⟨fields', hv'⟩ := exists_fields_of_get? htype'
    rw [valueAt?_index, ← he, hv] at hv'
    cases hv'

def sizeAt (tree : Json) (p : Path) : Nat := ((valueAt? tree p).map Json.size).getD 0

theorem size_lt_of_mem_items {items : List Json} {v : Json} (h : v ∈ items) :
    v.size < (Json.arr items).size := by
  have hle : v.size ≤ Json.sizeItems items := by
    induction items with
    | nil => simp at h
    | cons w rest ih =>
      simp only [Json.sizeItems]
      rcases List.mem_cons.mp h with rfl | h
      · omega
      · have := ih h
        omega
  simp only [Json.size]
  omega

theorem size_lt_of_mem_fields {fields : List (String × Json)} {key : String} {v : Json}
    (h : (key, v) ∈ fields) : v.size < (Json.obj fields).size := by
  have hle : v.size ≤ Json.sizeFields fields := by
    induction fields with
    | nil => simp at h
    | cons field rest ih =>
      simp only [Json.sizeFields]
      rcases List.mem_cons.mp h with rfl | h
      · dsimp only
        omega
      · have := ih h
        omega
  simp only [Json.size]
  omega

theorem sizeAt_key_lt {tree v : Json} {p : Path} {k : String}
    (h : valueAt? tree (.key k :: p) = some v) : sizeAt tree (.key k :: p) < sizeAt tree p := by
  have hs := h
  rw [valueAt?_key, Option.bind_eq_some_iff] at hs
  obtain ⟨u, hu, hv⟩ := hs
  cases u with
  | obj fields =>
    have := size_lt_of_mem_fields (mem_of_lookup_eq_some hv)
    simpa [sizeAt, h, hu] using this
  | _ => simp [Json.get?] at hv

theorem sizeAt_index_lt {tree v : Json} {p : Path} {i : Nat}
    (h : valueAt? tree (.index i :: p) = some v) : sizeAt tree (.index i :: p) < sizeAt tree p := by
  have hs := h
  rw [valueAt?_index, Option.bind_eq_some_iff] at hs
  obtain ⟨u, hu, hv⟩ := hs
  cases u with
  | arr items =>
    have := size_lt_of_mem_items (List.mem_of_getElem? hv)
    simpa [sizeAt, h, hu] using this
  | _ => simp at hv

theorem sizeAt_le (tree : Json) (p : Path) : sizeAt tree p ≤ tree.size := by
  induction p with
  | nil => exact Nat.le_refl _
  | cons step p ih =>
    cases hv : valueAt? tree (step :: p) with
    | none => simp [sizeAt, hv]
    | some v =>
      cases step with
      | key k => exact Nat.le_trans (Nat.le_of_lt (sizeAt_key_lt hv)) ih
      | index i => exact Nat.le_trans (Nat.le_of_lt (sizeAt_index_lt hv)) ih

/-- Children are smaller than their parents. -/
theorem sizeAt_lt_of_mem_children {tree : Json} {p c : Path}
    (h : c ∈ (Heap.load tree).children p) : sizeAt tree c < sizeAt tree p := by
  obtain ⟨-, -, -, -, -, ht⟩ := Heap.mem_children.mp h
  obtain ⟨type, htype⟩ := Option.isSome_iff_exists.mp ht
  obtain ⟨fields, hc⟩ := Heap.exists_fields_of_get? htype
  cases Heap.childPath_of_mem_children h with
  | field => exact sizeAt_key_lt hc
  | item i =>
    have hlt := sizeAt_index_lt hc
    rw [valueAt?_index, Option.bind_eq_some_iff] at hc
    obtain ⟨u, hu, -⟩ := hc
    exact Nat.lt_trans hlt (sizeAt_key_lt hu)

end IdentCase.Tree
