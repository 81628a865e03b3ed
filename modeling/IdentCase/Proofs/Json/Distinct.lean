import IdentCase.Json.Basic
import Mathlib.Data.List.Nodup

/-! Fields of objects, and what holds of all objects in a value: no key occurs twice in them. -/
namespace IdentCase

theorem lookup_setField (key k : String) (v : α) (fields : List (String × α)) :
    (setField key v fields).lookup k = if k = key then some v else fields.lookup k := by
  induction fields with
  | nil => simp [setField, lookup_cons_eq_ite]
  | cons field rest ih =>
    obtain ⟨k', w⟩ := field
    by_cases hk' : k' = key
    · subst hk'
      by_cases hk : k = k' <;> simp [setField, lookup_cons_eq_ite, hk]
    · simp only [setField, hk', if_false, lookup_cons_eq_ite, ih]
      by_cases hk : k = k'
      · subst hk
        simp [hk']
      · simp [hk]

/-- A key that is set keeps its place, and a new one comes last. -/
theorem map_fst_setField (key : String) (v : α) (fields : List (String × α)) :
    (setField key v fields).map Prod.fst =
      if key ∈ fields.map Prod.fst then fields.map Prod.fst else fields.map Prod.fst ++ [key] := by
  induction fields with
  | nil => simp [setField]
  | cons field rest ih =>
    obtain ⟨k', w⟩ := field
    by_cases hk' : k' = key
    · simp [setField, hk']
    · simp only [setField, hk', if_false, List.map_cons, ih, List.mem_cons, Ne.symm hk', false_or]
      split <;> simp

theorem setField_setField (key : String) (v w : α) (fields : List (String × α)) :
    setField key v (setField key w fields) = setField key v fields := by
  induction fields with
  | nil => simp [setField]
  | cons field rest ih =>
    obtain ⟨k', u⟩ := field
    by_cases hk' : k' = key <;> simp [setField, hk', ih]

/-- Two keys can be set in either order if one of them is there already. -/
theorem setField_comm {key key' : String} (hne : key ≠ key') (v w : α)
    {fields : List (String × α)} (hk : key ∈ fields.map Prod.fst) :
    setField key v (setField key' w fields) = setField key' w (setField key v fields) := by
  induction fields with
  | nil => simp at hk
  | cons field rest ih =>
    obtain ⟨k', u⟩ := field
    by_cases h : k' = key
    · subst h
      simp [setField, hne]
    · have hk' : key ∈ rest.map Prod.fst := by simpa [Ne.symm h] using hk
      by_cases h' : k' = key'
      · subst h'
        simp [setField, h]
      · simp [setField, h, h', ih hk']

theorem setField_ne_nil (key : String) (v : α) (fields : List (String × α)) :
    setField key v fields ≠ [] := by
  cases fields with
  | nil => simp [setField]
  | cons field rest =>
    simp only [setField]
    split <;> simp

theorem mem_setField {key k : String} {v w : α} {fields : List (String × α)}
    (h : (k, w) ∈ setField key v fields) : (k, w) ∈ fields ∨ k = key ∧ w = v := by
  induction fields with
  | nil => simpa [setField] using h
  | cons field rest ih =>
    obtain ⟨k', u⟩ := field
    simp only [setField] at h
    split at h
    · next hk =>
      rcases List.mem_cons.mp h with he | hr
      · simp only [Prod.mk.injEq] at he
        exact Or.inr ⟨he.1.trans hk, he.2⟩
      · exact Or.inl (List.mem_cons_of_mem _ hr)
    · rcases List.mem_cons.mp h with he | hr
      · exact Or.inl (he ▸ List.mem_cons_self)
      · exact (ih hr).imp_left (List.mem_cons_of_mem _)

theorem lookup_eq_some_of_mem {key : String} {v : α} {fields : List (String × α)}
    (hd : (fields.map Prod.fst).Nodup) (h : (key, v) ∈ fields) : fields.lookup key = some v := by
  induction fields with
  | nil => simp at h
  | cons field rest ih =>
    obtain ⟨k, w⟩ := field
    obtain ⟨hk, hd'⟩ := List.nodup_cons.mp hd
    rw [lookup_cons_eq_ite]
    rcases List.mem_cons.mp h with he | hr
    · simp_all
    · have hne : key ≠ k := by
        rintro rfl
        exact hk (List.mem_map.mpr ⟨_, hr, rfl⟩)
      rw [if_neg hne]
      exact ih hd' hr

namespace Json

mutual

/-- No object has a key twice. -/
def Distinct : Json → Prop
  | .arr items => DistinctItems items
  | .obj fields => (fields.map Prod.fst).Nodup ∧ DistinctFields fields
  | _ => True

def DistinctItems : List Json → Prop
  | [] => True
  | v :: rest => v.Distinct ∧ DistinctItems rest

def DistinctFields : List (String × Json) → Prop
  | [] => True
  | (_, v) :: rest => v.Distinct ∧ DistinctFields rest

end

theorem distinctItems_iff {items : List Json} :
    DistinctItems items ↔ ∀ v ∈ items, v.Distinct := by
  induction items with
  | nil => simp [DistinctItems]
  | cons v rest ih => simp [DistinctItems, ih]

theorem distinctItems_append {xs ys : List Json} :
    DistinctItems (xs ++ ys) ↔ DistinctItems xs ∧ DistinctItems ys := by
  simp [distinctItems_iff, or_imp, forall_and]

theorem distinctFields_iff {fields : List (String × Json)} :
    DistinctFields fields ↔ ∀ field ∈ fields, field.2.Distinct := by
  induction fields with
  | nil => simp [DistinctFields]
  | cons field rest ih => simp [DistinctFields, ih]

mutual

/-- Something holds of the fields of all objects in a value. -/
def Everywhere (P : List (String × Json) → Prop) : Json → Prop
  | .arr items => EverywhereItems P items
  | .obj fields => P fields ∧ EverywhereFields P fields
  | _ => True

def EverywhereItems (P : List (String × Json) → Prop) : List Json → Prop
  | [] => True
  | v :: rest => v.Everywhere P ∧ EverywhereItems P rest

def EverywhereFields (P : List (String × Json) → Prop) : List (String × Json) → Prop
  | [] => True
  | (_, v) :: rest => v.Everywhere P ∧ EverywhereFields P rest

end

variable {P : List (String × Json) → Prop}

theorem everywhereItems_iff {items : List Json} :
    EverywhereItems P items ↔ ∀ v ∈ items, v.Everywhere P := by
  induction items with
  | nil => simp [EverywhereItems]
  | cons v rest ih => simp [EverywhereItems, ih]

theorem everywhereFields_iff {fields : List (String × Json)} :
    EverywhereFields P fields ↔ ∀ field ∈ fields, field.2.Everywhere P := by
  induction fields with
  | nil => simp [EverywhereFields]
  | cons field rest ih => simp [EverywhereFields, ih]

end Json

end IdentCase
