import IdentCase.Proofs.Json.Reader
import IdentCase.Proofs.Tree.Siblings

/-! Values that are equal up to the order of the keys of objects. -/
namespace IdentCase

/-- Whether values differ at most in the order of the keys of objects. -/
inductive Json.Reorders : Json → Json → Prop
  | same (v : Json) : Reorders v v
  | arr {items items' : List Json} (hl : items.length = items'.length)
      (hi : ∀ (i : Nat) (v v' : Json), items[i]? = some v → items'[i]? = some v' → Reorders v v') :
      Reorders (.arr items) (.arr items')
  | obj {fields fields' : List (String × Json)}
      (hk : (fields.map Prod.fst).Perm (fields'.map Prod.fst))
      (hf : ∀ k v v', fields.lookup k = some v → fields'.lookup k = some v' → Reorders v v') :
      Reorders (.obj fields) (.obj fields')

theorem isSome_lookup {key : String} {fields : List (String × α)} :
    (fields.lookup key).isSome ↔ key ∈ fields.map Prod.fst := by
  induction fields with
  | nil => simp
  | cons field rest ih =>
    obtain ⟨k, v⟩ := field
    rw [lookup_cons_eq_ite, List.map_cons, List.mem_cons, ← ih]
    by_cases hk : key = k <;> simp [hk]

section
variable {α β γ δ : Type} {r : α → β → Prop} {x : Option α} {y : Option β}

/-- Options are related if they are given alike and their values are related. -/
theorem rel_of_isSome (hs : x.isSome ↔ y.isSome) (hr : ∀ a b, x = some a → y = some b → r a b) :
    x.Rel r y := by
  cases x with
  | none =>
    cases y with
    | none => exact .none
    | some b => simp at hs
  | some a =>
    cases y with
    | none => simp at hs
    | some b => exact .some (hr a b rfl rfl)

theorem rel_bind {s : γ → δ → Prop} {f : α → Option γ} {g : β → Option δ} (hx : x.Rel r y)
    (hf : ∀ a b, r a b → (f a).Rel s (g b)) : (x.bind f).Rel s (y.bind g) := by
  cases hx with
  | none => exact .none
  | some hab => exact hf _ _ hab

theorem rel_getD {a : α} {b : β} (hx : x.Rel r y) (hab : r a b) : r (x.getD a) (y.getD b) := by
  cases hx with
  | none => exact hab
  | some hcd => exact hcd

theorem map_eq_of_rel {f : α → γ} {x y : Option α} (h : x.Rel (fun a b => f b = f a) y) :
    y.map f = x.map f := by
  cases h with
  | none => rfl
  | some hab => exact congrArg some hab

end

namespace Json.Reorders

variable {v v' : Json}

theorem rel_refl (x : Option Json) : x.Rel Reorders x := by
  cases x with
  | none => exact .none
  | some v => exact .some (.same v)

theorem get? (h : v.Reorders v') (k : String) : (v.get? k).Rel Reorders (v'.get? k) := by
  cases h with
  | same => exact rel_refl _
  | arr => exact .none
  | obj hk hf =>
    refine rel_of_isSome ?_ (hf k)
    rw [Json.get?, Json.get?, isSome_lookup, isSome_lookup]
    exact hk.mem_iff

theorem getElem? {items items' : List Json} (hl : items.length = items'.length) {i : Nat}
    {r : Json → Json → Prop} (hr : ∀ v v', items[i]? = some v → items'[i]? = some v' → r v v') :
    items[i]?.Rel r items'[i]? := by
  refine rel_of_isSome ?_ hr
  simp [hl]

/-- To change the order of the fields of an object is to reorder it. -/
theorem of_perm {fields fields' : List (String × Json)} (hp : fields.Perm fields')
    (hd : (fields.map Prod.fst).Nodup) : (Json.obj fields).Reorders (.obj fields') := by
  refine .obj (hp.map _) fun k v v' hv hv' => ?_
  have hmem : (k, v') ∈ fields := hp.mem_iff.mpr (mem_of_lookup_eq_some hv')
  rw [lookup_eq_some_of_mem hd hmem, Option.some.injEq] at hv
  exact hv ▸ .same v'

/-- The integers of a value are the same whatever the order of keys in it. -/
theorem legible_eq (h : v.Reorders v') (hd : v.Distinct) (hd' : v'.Distinct) :
    v'.legible = v.legible := by
  rw [Bool.eq_iff_iff]
  induction h with
  | same => rfl
  | @arr items items' hl hi ih =>
    rw [Distinct, distinctItems_iff] at hd hd'
    rw [legible, legible, legibleItems_iff, legibleItems_iff, List.forall_mem_iff_getElem,
      List.forall_mem_iff_getElem]
    refine forall_congr' fun i => ?_
    by_cases hlt : i < items.length
    · have hlt' : i < items'.length := hl ▸ hlt
      simp only [hlt, hlt', forall_true_left]
      exact ih i _ _ (List.getElem?_eq_getElem hlt) (List.getElem?_eq_getElem hlt')
        (hd _ (List.getElem_mem hlt)) (hd' _ (List.getElem_mem hlt'))
    · have hlt' : ¬ i < items'.length := hl ▸ hlt
      simp only [hlt, hlt', IsEmpty.forall_iff]
  | @obj fields fields' hk hf ih =>
    rw [Distinct, distinctFields_iff] at hd hd'
    have hfields : ∀ k v v', fields.lookup k = some v → fields'.lookup k = some v' →
        (v'.legible ↔ v.legible) := fun k v v' hv hv' =>
      ih k v v' hv hv' (hd.2 _ (mem_of_lookup_eq_some hv)) (hd'.2 _ (mem_of_lookup_eq_some hv'))
    rw [legible, legible, legibleFields_iff, legibleFields_iff]
    constructor
    · rintro h ⟨k, v⟩ hmem
      have hkey : k ∈ fields'.map Prod.fst := hk.mem_iff.mp (List.mem_map_of_mem hmem)
      obtain ⟨v', hv'⟩ := Option.isSome_iff_exists.mp (isSome_lookup.mpr hkey)
      exact (hfields k v v' (lookup_eq_some_of_mem hd.1 hmem) hv').mp
        (h _ (mem_of_lookup_eq_some hv'))
    · rintro h ⟨k, v'⟩ hmem
      have hkey : k ∈ fields.map Prod.fst := hk.mem_iff.mpr (List.mem_map_of_mem hmem)
      obtain ⟨v, hv⟩ := Option.isSome_iff_exists.mp (isSome_lookup.mpr hkey)
      exact (hfields k v v' hv (lookup_eq_some_of_mem hd'.1 hmem)).mpr
        (h _ (mem_of_lookup_eq_some hv))

end Json.Reorders

namespace Tree

open Json

section
variable {tree tree' v v' : Json}

/-- Values look the same from outside whatever the order of keys in them. -/
theorem valueOf_of_reorders (h : v.Reorders v') (p : Path) : valueOf p v' = valueOf p v := by
  induction h generalizing p with
  | same => rfl
  | @arr items items' hl _ ih =>
    rw [valueOf, valueOf, Value.list.injEq]
    refine List.ext_getElem? fun i => ?_
    rw [getElem?_itemsOf, getElem?_itemsOf]
    have hrel := Reorders.getElem? hl fun v v' hv hv' => ih i v v' hv hv' (.index (0 + i) :: p)
    exact map_eq_of_rel hrel
  | obj => rw [valueOf, valueOf]

/-- Trees that are equal up to the order of keys hold such values at each path. -/
theorem valueAt?_of_reorders (h : tree.Reorders tree') (p : Path) :
    (valueAt? tree p).Rel Reorders (valueAt? tree' p) := by
  induction p with
  | nil => exact .some h
  | cons step p ih =>
    cases step with
    | key k =>
      rw [valueAt?_key, valueAt?_key]
      exact rel_bind ih fun v v' hv => hv.get? k
    | index i =>
      rw [valueAt?_index, valueAt?_index]
      refine rel_bind ih fun v v' hv => ?_
      cases hv with
      | same => exact Reorders.rel_refl _
      | arr hl hi => exact Reorders.getElem? hl (hi i)
      | obj => exact .none

/-- What is at a path has the same integers whatever the order of keys. -/
theorem legible_valueAt?_of_reorders (h : tree.Reorders tree') (hd : tree.Distinct)
    (hd' : tree'.Distinct) (p : Path) :
    ((valueAt? tree' p).getD .null).legible = ((valueAt? tree p).getD .null).legible := by
  have hv : ∀ v, valueAt? tree p = some v → v.Distinct := fun _ => distinct_of_valueAt? hd
  have hv' : ∀ v, valueAt? tree' p = some v → v.Distinct := fun _ => distinct_of_valueAt? hd'
  have hrel := valueAt?_of_reorders h p
  generalize valueAt? tree p = x at hrel hv ⊢
  generalize valueAt? tree' p = y at hrel hv' ⊢
  cases hrel with
  | none => rfl
  | some hr => exact hr.legible_eq (hv _ rfl) (hv' _ rfl)

end

end Tree

end IdentCase
