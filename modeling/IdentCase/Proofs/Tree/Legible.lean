import IdentCase.Proofs.Json.Reader
import IdentCase.Proofs.Tree.Linking
import IdentCase.Violation

/-! Values of trees whose integers can all be written. Linking brings no others in. -/
namespace IdentCase.Tree

/-- Whether a value is one of those that a legible value is made of. -/
def Value.FromLegible (v : Value) : Prop := ∃ p w, Json.legible w ∧ v = valueOf p w

theorem fromLegible_null : Value.FromLegible .null := ⟨[], .null, rfl, rfl⟩

theorem fromLegible_object (p : Path) : Value.FromLegible (.object p) := ⟨p, .obj [], rfl, rfl⟩

theorem legible_of_at? {steps : List Step} {v w : Json} (hv : v.legible) (hw : at? steps v = some w) :
    w.legible := by
  induction steps generalizing v with
  | nil => exact Option.some.inj hw ▸ hv
  | cons step steps ih =>
    cases step with
    | key k =>
      cases v with
      | obj fields =>
        obtain ⟨u, hu, hw⟩ := Option.bind_eq_some_iff.mp hw
        exact ih (Json.legibleFields_iff.mp hv _ (mem_of_lookup_eq_some hu)) hw
      | _ => cases hw
    | index i =>
      cases v with
      | arr items =>
        obtain ⟨u, hu, hw⟩ := Option.bind_eq_some_iff.mp hw
        exact ih (Json.legibleItems_iff.mp hv u (List.mem_of_getElem? hu)) hw
      | _ => cases hw

/-- Whether all fields of the objects in a heap are of that kind. -/
def Heap.FromLegible (h : Heap) : Prop := ∀ p, ∀ field ∈ h.node p, field.2.FromLegible

namespace Heap

variable {h : Heap} {p : Path} {v : Value} {k : String}

theorem FromLegible.get (hh : h.FromLegible) (p : Path) (k : String) : (h.get p k).FromLegible := by
  cases hv : h.get? p k with
  | none =>
    rw [Heap.get, hv]
    exact fromLegible_null
  | some v =>
    rw [Heap.get, hv]
    exact hh p _ (mem_of_lookup_eq_some hv)

theorem FromLegible.fieldOf (hh : h.FromLegible) {w : Value} (hw : h.fieldOf v k = .ok w) :
    w.FromLegible := by
  unfold Heap.fieldOf at hw
  split at hw
  · cases hw
    exact hh.get _ _
  · split at hw <;> cases hw
    exact fromLegible_null

theorem FromLegible.unfold (hh : h.FromLegible) (fuel : Nat) (inside : List Path)
    (hv : v.FromLegible) : (h.unfold fuel inside v).legible := by
  induction fuel generalizing inside v with
  | zero => rfl
  | succ fuel ih =>
    obtain ⟨p, w, hw, rfl⟩ := hv
    cases w with
    | arr items =>
      rw [valueOf, Heap.unfold, Json.legible, Json.legibleItems_iff]
      intro u hu
      obtain ⟨x, hx, rfl⟩ := List.mem_map.mp hu
      obtain ⟨i, hi⟩ := List.mem_iff_getElem?.mp hx
      rw [getElem?_itemsOf] at hi
      obtain ⟨item, hitem, rfl⟩ := Option.map_eq_some_iff.mp hi
      exact ih inside ⟨_, item, Json.legibleItems_iff.mp hw item (List.mem_of_getElem? hitem), rfl⟩
    | obj fields =>
      rw [valueOf, Heap.unfold]
      split
      · rfl
      · rw [Json.legible, Json.legibleFields_iff]
        intro field hfield
        obtain ⟨x, hx, rfl⟩ := List.mem_map.mp hfield
        exact ih _ (hh p x hx)
    | int i => exact hw
    | _ => rfl

theorem FromLegible.toJson (hh : h.FromLegible) (hv : v.FromLegible) : (h.toJson v).legible :=
  hh.unfold _ _ hv

end Heap

section
variable {tree : Json} {S : Set Path} {L : Path → Option Value}

theorem fromLegible_load (ht : tree.legible) : (Heap.load tree).FromLegible := by
  intro p field hfield
  rw [Heap.node, Heap.node?_load] at hfield
  cases hv : valueAt? tree p with
  | none => simp [hv] at hfield
  | some v =>
    cases v with
    | obj fields =>
      simp only [hv, Option.bind_some, Option.getD_some, nodeOf] at hfield
      obtain ⟨⟨k, w⟩, hw, rfl⟩ := List.mem_map.mp hfield
      have hfields : Json.legible (.obj fields) := legible_of_at? ht hv
      exact ⟨_, w, Json.legibleFields_iff.mp hfields _ hw, rfl⟩
    | _ => simp [hv] at hfield

theorem fromLegible_setField {key : String} {v : Value} {fields : Node} (hv : v.FromLegible)
    (hfields : ∀ field ∈ fields, field.2.FromLegible) :
    ∀ field ∈ setField key v fields, field.2.FromLegible := by
  rintro ⟨k, w⟩ hw
  rcases mem_setField hw with hw | ⟨-, rfl⟩
  · exact hfields _ hw
  · exact hv

theorem fromLegible_stage (ht : tree.legible) (hL : ∀ p, ∀ v ∈ L p, v.FromLegible) :
    (stage tree S L).FromLegible := by
  intro p
  have hload := fromLegible_load ht p
  unfold Heap.node at hload ⊢
  cases hn : (Heap.load tree).node? p with
  | none => simp [stage, hn]
  | some fields =>
    rw [hn, Option.getD_some] at hload
    simp only [stage, hn, Option.map_some, Option.getD_some]
    have hplace : ∀ {fields : Node}, (∀ field ∈ fields, field.2.FromLegible) →
        ∀ field ∈ place (L p) fields, field.2.FromLegible := by
      intro fields hfields
      cases hp : L p with
      | none => exact hfields
      | some v => exact fromLegible_setField (hL p v hp) hfields
    split
    · exact hplace (fromLegible_setField (fromLegible_object _) hload)
    · exact hplace hload

/-- Whatever a legible tree holds is legible once it is linked. -/
theorem fromLegible_linked (ht : tree.legible) : (linked tree).FromLegible := by
  refine fromLegible_stage ht fun p v hv => ?_
  unfold linkTo rootLink at hv
  split at hv
  · cases hv
    exact fromLegible_object _
  · split at hv
    · rw [Function.update_apply] at hv
      split at hv <;> cases hv
      exact fromLegible_null
    · cases hv

end

end IdentCase.Tree
