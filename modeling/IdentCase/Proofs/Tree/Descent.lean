import IdentCase.Proofs.Run
import IdentCase.Proofs.Tree.Comparison

/-! Comparisons in which one side only goes down: they come to an end, and they never find an object
equal to one that can be reached from itself. -/
namespace IdentCase.Tree.Heap

variable {h : Heap} {v w : Value} {n : Nat} {k l : String} {p q r s : Path}
  {pairs : List (Path × Path)} {f : Path → Path → Except Fault Bool}

/-- Whether the comparison of a pair of objects in `P` leads to pairs in `P` only, of lower rank. -/
def Descends (h : Heap) (P : Path → Path → Prop) (rank : Path → Path → Nat) : Prop :=
  ∀ p q k v w r s, P p q → (k, v) ∈ h.node p → h.get? q k = some w → v.Leads r → w.Leads s →
    P r s ∧ rank r s < rank p q

theorem Descends.succeeds {P : Path → Path → Prop} {rank : Path → Path → Nat}
    (hd : h.Descends P rank) (hpq : P p q) (hp : Pending h pairs)
    (hn : h.size * h.size < n + pairs.length)
    (habove : ∀ ab ∈ pairs, P ab.1 ab.2 → rank p q < rank ab.1 ab.2) :
    Succeeds (h.sameObjects n pairs p q) := by
  induction n generalizing pairs p q with
  | zero => exact absurd hp.length_le (by omega)
  | succ n ih =>
    rcases hs : h.sameObjects (n + 1) pairs p q with e | b
    · rw [sameObjects_succ] at hs
      split_ifs at hs with hmem hlen
      · exact absurd (habove _ (List.contains_iff_mem.mp hmem) hpq) (Nat.lt_irrefl _)
      · obtain ⟨⟨k, v⟩, hv, hfail⟩ := exists_of_allOf_eq_error hs
        obtain ⟨r, s, w, hr, hw, hs, -, hfail⟩ := exists_of_hasField_eq_error hfail
        obtain ⟨hrs, hlt⟩ := hd p q k v w r s hpq hv hw hr hs
        have hrest : ∀ ab ∈ pairs, P ab.1 ab.2 → rank r s < rank ab.1 ab.2 :=
          fun ab hab hP => hlt.trans (habove ab hab hP)
        obtain ⟨b, hb⟩ := ih hrs (hp.cons hmem hlen hv) (by rw [List.length_cons]; omega)
          (List.forall_mem_cons.mpr ⟨fun _ => hlt, hrest⟩)
        rw [hb] at hfail
        cases hfail
    · exact succeeds_ok b

section
variable {xs ys : List Value}

theorem forall_of_allOf_eq_true {α : Type} {t : α → Except Fault Bool} {xs : List α} (ht : allOf t xs = .ok true) :
    ∀ x ∈ xs, t x = .ok true := by
  induction xs with
  | nil => exact List.forall_mem_nil _
  | cons x xs ih =>
    rw [allOf] at ht
    rcases hx : t x with e | b
    · rw [hx] at ht
      cases ht
    · rw [hx] at ht
      cases b with
      | true => exact List.forall_mem_cons.mpr ⟨hx, ih ht⟩
      | false => cases ht

theorem exists_object_right (hs : (Value.object p).sameBy f w = .ok true) :
    ∃ q, w = .object q ∧ (p = q ∨ f p q = .ok true) := by
  cases w with
  | object q =>
    rw [Value.sameBy] at hs
    split at hs
    · next hpq => exact ⟨q, rfl, Or.inl hpq⟩
    · exact ⟨q, rfl, Or.inr hs⟩
  | _ => cases hs

theorem exists_object_left (hs : v.sameBy f (.object q) = .ok true) :
    ∃ p, v = .object p ∧ (p = q ∨ f p q = .ok true) := by
  cases v with
  | object p =>
    rw [Value.sameBy] at hs
    split at hs
    · next hpq => exact ⟨p, rfl, Or.inl hpq⟩
    · exact ⟨p, rfl, Or.inr hs⟩
  | _ => cases hs

/-- Lists that are found equal have equal items at each place. -/
theorem exists_getElem?_of_sameBy (hs : (Value.list xs).sameBy f (.list ys) = .ok true) (i : Nat) :
    xs[i]?.Rel (fun x y => x.sameBy f y = .ok true) ys[i]? := by
  rw [sameBy_list] at hs
  split at hs
  · next hlen =>
    have hall := forall_of_allOf_eq_true hs
    by_cases hi : i < xs.length
    · have hi' : i < ys.length := hlen ▸ hi
      rw [List.getElem?_eq_getElem hi, List.getElem?_eq_getElem hi']
      have hmem : (xs[i], ys[i]) ∈ xs.zip ys := by
        rw [← List.getElem_zip (h := by simpa using ⟨hi, hi'⟩)]
        exact List.getElem_mem _
      exact .some (hall _ hmem)
    · rw [List.getElem?_eq_none (by omega), List.getElem?_eq_none (by omega)]
      exact .none
  · cases hs

theorem exists_item_right (hs : (Value.list xs).sameBy f w = .ok true) (hv : v ∈ xs) :
    ∃ ys u, w = .list ys ∧ u ∈ ys ∧ v.sameBy f u = .ok true := by
  cases w with
  | list ys =>
    obtain ⟨i, hi⟩ := List.mem_iff_getElem?.mp hv
    have hrel := exists_getElem?_of_sameBy hs i
    rw [hi] at hrel
    cases hu : ys[i]? with
    | none =>
      rw [hu] at hrel
      cases hrel
    | some u =>
      rw [hu] at hrel
      cases hrel with
      | some hsame => exact ⟨ys, u, rfl, List.mem_of_getElem? hu, hsame⟩
  | _ => cases hs

theorem exists_item_left (hs : v.sameBy f (.list ys) = .ok true) (hw : w ∈ ys) :
    ∃ xs u, v = .list xs ∧ u ∈ xs ∧ u.sameBy f w = .ok true := by
  cases v with
  | list xs =>
    obtain ⟨i, hi⟩ := List.mem_iff_getElem?.mp hw
    have hrel := exists_getElem?_of_sameBy hs i
    rw [hi] at hrel
    cases hu : xs[i]? with
    | none =>
      rw [hu] at hrel
      cases hrel
    | some u =>
      rw [hu] at hrel
      cases hrel with
      | some hsame => exact ⟨xs, u, rfl, List.mem_of_getElem? hu, hsame⟩
  | _ => cases hs

end

/-- Objects that are found equal have as many fields, and each of the first is one of the second. -/
theorem exists_of_sameObjects_eq_true (hs : h.sameObjects n pairs p q = .ok true) :
    ∃ m, n = m + 1 ∧ (h.node p).length = (h.node q).length ∧
      ∀ field ∈ h.node p, ∃ w, h.get? q field.1 = some w ∧
        field.2.sameBy (h.sameObjects m ((p, q) :: pairs)) w = .ok true := by
  cases n with
  | zero => cases hs
  | succ m =>
    rw [sameObjects_succ] at hs
    split_ifs at hs with hmem hlen
    · refine ⟨m, rfl, hlen, fun field hfield => ?_⟩
      have hsame := forall_of_allOf_eq_true hs field hfield
      unfold hasField at hsame
      split at hsame
      · next w hw => exact ⟨w, hw, hsame⟩
      · cases hsame
    · cases hs

theorem exists_field_right (hs : h.sameObjects n pairs p q = .ok true) (hv : h.get? p k = some v) :
    ∃ m pairs' w, m < n ∧ h.get? q k = some w ∧
      v.sameBy (h.sameObjects m pairs') w = .ok true := by
  obtain ⟨m, rfl, -, hfields⟩ := exists_of_sameObjects_eq_true hs
  obtain ⟨w, hw, hsame⟩ := hfields _ (mem_of_lookup_eq_some hv)
  exact ⟨m, _, w, Nat.lt_succ_self m, hw, hsame⟩

/-- If no key occurs twice in the first object, the two have the same keys. -/
theorem exists_field_left (hs : h.sameObjects n pairs p q = .ok true)
    (hkeys : ((h.node p).map Prod.fst).Nodup) (hw : h.get? q k = some w) :
    ∃ m pairs' v, m < n ∧ (k, v) ∈ h.node p ∧
      v.sameBy (h.sameObjects m pairs') w = .ok true := by
  obtain ⟨m, rfl, hlen, hfields⟩ := exists_of_sameObjects_eq_true hs
  have hsub : (h.node p).map Prod.fst ⊆ (h.node q).map Prod.fst := by
    intro key hkey
    obtain ⟨field, hfield, rfl⟩ := List.mem_map.mp hkey
    obtain ⟨w, hw, -⟩ := hfields field hfield
    exact List.mem_map.mpr ⟨_, mem_of_lookup_eq_some hw, rfl⟩
  have hperm := (List.subperm_of_subset hkeys hsub).perm_of_length_le (by simp [hlen])
  have hkey : k ∈ (h.node p).map Prod.fst :=
    hperm.mem_iff.mpr (List.mem_map.mpr ⟨_, mem_of_lookup_eq_some hw, rfl⟩)
  obtain ⟨⟨key, v⟩, hv, rfl⟩ := List.mem_map.mp hkey
  obtain ⟨w', hw', hsame⟩ := hfields _ hv
  obtain rfl : w = w' := Option.some.inj (hw.symm.trans hw')
  exact ⟨m, _, v, Nat.lt_succ_self m, hv, hsame⟩

/-- Objects whose fields lead to objects of the same set only, which are of lower rank. -/
def Sinks (h : Heap) (Q : Set Path) (rank : Path → Nat) : Prop :=
  ∀ p ∈ Q, ∀ k v r, (k, v) ∈ h.node p → v.Leads r → r ∈ Q ∧ rank r < rank p

/-- Whether an object has a list with an object that has the first in a field. -/
structure Rings (h : Heap) (p q : Path) (k l : String) : Prop where
  down : ∃ items, h.get? p k = some (.list items) ∧ .object q ∈ items
  up : h.get? q l = some (.object p)

namespace Sinks

variable {Q : Set Path} {rank : Path → Nat} (hQ : h.Sinks Q rank)

include hQ

theorem left : h.Descends (fun p _ => p ∈ Q) fun p _ => rank p :=
  fun p _ k v _ r _ hp hv _ hr _ => hQ p hp k v r hv hr

theorem right : h.Descends (fun _ q => q ∈ Q) fun _ q => rank q :=
  fun _ q k _ w _ s hq _ hw _ hs => hQ q hq k w s (mem_of_lookup_eq_some hw) hs

/-- No sinking object is found equal to one on a ring that does not sink. -/
theorem ne_true_right (hr : h.Rings p q k l) (hp : p ∉ Q) (hq : q ∉ Q) (hs : s ∈ Q) :
    h.sameObjects n pairs p s ≠ .ok true := by
  induction n using Nat.strongRecOn generalizing pairs s with
  | ind n ih =>
    intro hsame
    -- Once round the ring `p` is found equal to an object that is further down than `s`.
    obtain ⟨items, hitems, hmem⟩ := hr.down
    obtain ⟨m, pairs₁, w, hm, hw, hsame⟩ := exists_field_right hsame hitems
    obtain ⟨ys, u, rfl, hu, hsame⟩ := exists_item_right hsame hmem
    obtain ⟨c, rfl, hc⟩ := exists_object_right hsame
    have hcQ : c ∈ Q := (hQ s hs _ _ c (mem_of_lookup_eq_some hw) (.item hu (.object c))).1
    obtain ⟨m', pairs₂, w', hm', hw', hsame⟩ :=
      exists_field_right (hc.resolve_left fun he => hq (he ▸ hcQ)) hr.up
    obtain ⟨d, rfl, hd⟩ := exists_object_right hsame
    have hdQ : d ∈ Q := (hQ c hcQ _ _ d (mem_of_lookup_eq_some hw') (.object d)).1
    exact ih m' (hm'.trans hm) hdQ (hd.resolve_left fun he => hp (he ▸ hdQ))

theorem ne_true_left (hkeys : ∀ r ∈ Q, ((h.node r).map Prod.fst).Nodup) (hr : h.Rings p q k l)
    (hp : p ∉ Q) (hq : q ∉ Q) (hs : s ∈ Q) : h.sameObjects n pairs s p ≠ .ok true := by
  induction n using Nat.strongRecOn generalizing pairs s with
  | ind n ih =>
    intro hsame
    obtain ⟨items, hitems, hmem⟩ := hr.down
    obtain ⟨m, pairs₁, v, hm, hv, hsame⟩ := exists_field_left hsame (hkeys s hs) hitems
    obtain ⟨xs, u, rfl, hu, hsame⟩ := exists_item_left hsame hmem
    obtain ⟨c, rfl, hc⟩ := exists_object_left hsame
    have hcQ : c ∈ Q := (hQ s hs _ _ c hv (.item hu (.object c))).1
    obtain ⟨m', pairs₂, v', hm', hv', hsame⟩ :=
      exists_field_left (hc.resolve_left fun he => hq (he ▸ hcQ)) (hkeys c hcQ) hr.up
    obtain ⟨d, rfl, hd⟩ := exists_object_left hsame
    have hdQ : d ∈ Q := (hQ c hcQ _ _ d hv' (.object d)).1
    exact ih m' (hm'.trans hm) hdQ (hd.resolve_left fun he => hp (he ▸ hdQ))

end Sinks

end IdentCase.Tree.Heap
