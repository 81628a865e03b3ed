import IdentCase.Proofs.Tree.Descent

/-! The nodes that linking has got to from the root. Their parents lead up, all else leads down. -/
namespace IdentCase.Tree

/-- The root, and the nodes that have been linked. -/
def attached (L : Path → Option Value) : Set Path := {p | p = [] ∨ (L p).isSome}

/-- Whether nodes have been linked from the root down, each to the object that holds it. -/
structure Climbs (S : Set Path) (L : Path → Option Value) : Prop where
  link : ∀ p v, p ≠ [] → L p = some v →
    v = .object (holder p) ∧ ChildPath (holder p) p ∧ holder p ∈ attached L
  shared : S ⊆ attached L

/-- Whether a path leads into a field of an object, directly or through lists. -/
def InField (p r : Path) : Prop :=
  ∃ (key : String) (is : List Nat), r = is.map Step.index ++ .key key :: p

/-- The number of objects that a path leads through. -/
def level (p : Path) : Nat := p.countP fun | .key _ => true | .index _ => false

section
variable {p q r : Path} {k : String}

theorem level_key : level (.key k :: p) = level p + 1 := by
  simp [level]

theorem level_index {i : Nat} : level (.index i :: p) = level p := by
  simp [level]

theorem InField.suffix (h : InField p r) : p <:+ r := by
  obtain ⟨key, is, rfl⟩ := h
  exact (List.suffix_cons _ p).trans (List.suffix_append _ _)

theorem InField.level_eq (h : InField p r) : level r = level p + 1 := by
  obtain ⟨key, is, rfl⟩ := h
  induction is with
  | nil => exact level_key
  | cons i is ih => rw [List.map_cons, List.cons_append, level_index, ih]

theorem ChildPath.level_eq (h : ChildPath p r) : level r = level p + 1 := by
  cases h with
  | field => exact level_key
  | item => rw [level_index, level_key]

/-- What is in a field of an object is in no field of another. -/
theorem InField.eq_of_childPath (h : InField p r) (hc : ChildPath q r) : q = p := by
  obtain ⟨key, is, rfl⟩ := h
  cases is with
  | nil => exact (hc.holder_eq.symm : q = p)
  | cons i is =>
    generalize hr : (i :: is).map Step.index ++ .key key :: p = r at hc
    cases hc with
    | field => cases hr
    | item =>
      cases is with
      | nil =>
        cases hr
        rfl
      | cons j is => cases hr

end

section
variable {tree : Json} {S : Set Path} {L : Path → Option Value} {B : Set Path} {p q r t : Path}
  {k : String} {v w : Value} {u : Json}

theorem attached_linkTo (B : Set Path) (L : Path → Option Value) :
    attached (linkTo B L) = B ∪ attached L := by
  ext p
  unfold linkTo
  by_cases hp : p ∈ B
  · simp [attached, hp]
  · simp [attached, hp]

theorem leads_valueOf (hu : valueAt? tree p = some u) (hr : (valueOf p u).Leads r) :
    (∃ is : List Nat, r = is.map Step.index ++ p) ∧ sizeAt tree r ≤ sizeAt tree p := by
  generalize hv : valueOf p u = v at hr
  induction hr generalizing p u with
  | object q =>
    obtain ⟨rfl, -⟩ := valueOf_eq_object hv
    exact ⟨⟨[], rfl⟩, le_rfl⟩
  | @item items v q hmem _ ih =>
    cases u with
    | arr vs =>
      rw [valueOf, Value.list.injEq] at hv
      subst hv
      obtain ⟨i, hi⟩ := List.mem_iff_getElem?.mp hmem
      rw [getElem?_itemsOf, Nat.zero_add, Option.map_eq_some_iff] at hi
      obtain ⟨w, hw, rfl⟩ := hi
      have hat : valueAt? tree (.index i :: p) = some w := by
        rw [valueAt?_index, hu]
        exact hw
      obtain ⟨⟨is, rfl⟩, hle⟩ := ih hat rfl
      exact ⟨⟨is ++ [i], by simp⟩, hle.trans (sizeAt_index_lt hat).le⟩
    | _ => cases hv

theorem leads_of_get?_load (hg : (Heap.load tree).get? p k = some v) (hr : v.Leads r) :
    InField p r ∧ sizeAt tree r < sizeAt tree p := by
  rw [Heap.get?_load, Option.map_eq_some_iff] at hg
  obtain ⟨u, hu, rfl⟩ := hg
  obtain ⟨⟨is, rfl⟩, hle⟩ := leads_valueOf hu hr
  exact ⟨⟨k, is, rfl⟩, hle.trans_lt (sizeAt_key_lt hu)⟩

/-- Unless an object is linked all its fields lead down. So do the others if it is. -/
theorem inField_of_leads (hs : Staged tree S L) (hk : k ≠ "parent" ∨ L p = none)
    (hg : (stage tree S L).get? p k = some v) (hr : v.Leads r) : InField p r := by
  by_cases hparent : k = "parent"
  · have hL := hk.resolve_left (not_not_intro hparent)
    rw [hparent, get?_stage_parent hs, hL, Option.none_or] at hg
    exact (leads_of_get?_load hg hr).1
  · by_cases hvalue : k = "value" ∧ p ∈ S
    · obtain ⟨rfl, hp⟩ := hvalue
      rw [get?_stage_value_of_mem hs hp] at hg
      cases hg
      cases hr
      exact ⟨"key", [], rfl⟩
    · have hload : (stage tree S L).get? p k = (Heap.load tree).get? p k := by
        by_cases hkv : k = "value"
        · subst hkv
          exact get?_stage_value_of_not_mem fun hp => hvalue ⟨rfl, hp⟩
        · exact get?_stage_of_ne hparent hkv
      exact (leads_of_get?_load (hload ▸ hg) hr).1

theorem node_stage_of_not_attached (hc : Climbs S L) (hp : p ∉ attached L) :
    (stage tree S L).node p = (Heap.load tree).node p := by
  have hL : L p = none := Option.not_isSome_iff_eq_none.mp fun h => hp (Or.inr h)
  have hS : p ∉ S := fun h => hp (hc.shared h)
  simp only [Heap.node, stage, hL, if_neg hS, place, Option.map_id']

theorem get?_of_mem_node_stage (hd : tree.Distinct) (hs : Staged tree S L)
    (hv : (k, v) ∈ (stage tree S L).node p) : (stage tree S L).get? p k = some v := by
  refine lookup_eq_some_of_mem ?_ hv
  have hkeys := nodup_keys_load hd p
  rw [keys_stage hs]
  split
  · exact hkeys
  · next hnot =>
    rw [not_or] at hnot
    exact List.nodup_append.mpr ⟨hkeys, List.nodup_singleton _, by
      intro key hkey key' hkey'
      rw [List.mem_singleton] at hkey'
      rintro rfl
      exact hnot.2 (hkey' ▸ hkey)⟩

namespace Climbs

theorem link_eq (hc : Climbs S L) (hp : p ∈ attached L) (hne : p ≠ []) :
    L p = some (.object (holder p)) := by
  obtain ⟨v, hv⟩ := Option.isSome_iff_exists.mp (hp.resolve_left hne)
  rw [hv, (hc.link p v hne hv).1]

theorem childPath (hc : Climbs S L) (hp : p ∈ attached L) (hne : p ≠ []) :
    ChildPath (holder p) p := (hc.link p _ hne (hc.link_eq hp hne)).2.1

theorem holder_mem (hc : Climbs S L) (hp : p ∈ attached L) (hne : p ≠ []) :
    holder p ∈ attached L := (hc.link p _ hne (hc.link_eq hp hne)).2.2

theorem not_mem_of_inField (hc : Climbs S L) (hp : p ∉ attached L) (hr : InField p r) :
    r ∉ attached L := by
  intro hmem
  have hne : r ≠ [] := by
    rintro rfl
    exact hp (Or.inl (List.suffix_nil.mp hr.suffix))
  exact hp (hr.eq_of_childPath (hc.childPath hmem hne) ▸ hc.holder_mem hmem hne)

/-- Objects that are not attached lead to others that are not, and these are smaller. -/
theorem sinks (hc : Climbs S L) (hd : tree.Distinct) :
    (stage tree S L).Sinks (attached L)ᶜ (sizeAt tree) := by
  intro p hp k v r hv hr
  rw [node_stage_of_not_attached hc hp] at hv
  obtain ⟨hin, hlt⟩ := leads_of_get?_load (get?_of_mem_node hd hv) hr
  exact ⟨hc.not_mem_of_inField hp hin, hlt⟩

/-- Where a field of an object leads to an attached node: up from its parent, or else down. -/
theorem level_of_leads (hc : Climbs S L) (hd : tree.Distinct) (hs : Staged tree S L) (hne : p ≠ [])
    (hg : (stage tree S L).get? p k = some v) (hr : v.Leads r) (hmem : r ∈ attached L) :
    p ∈ attached L ∧ if k = "parent" then level r + 1 = level p else level r = level p + 1 := by
  have hp : p ∈ attached L := by
    by_contra hp
    exact (hc.sinks hd p hp k v r (mem_node_of_get? hg) hr).1 hmem
  refine ⟨hp, ?_⟩
  split
  · next hk =>
    rw [hk, get?_stage_parent hs, hc.link_eq hp hne] at hg
    cases hg
    cases hr
    exact (hc.childPath hp hne).level_eq.symm
  · next hk => exact (inField_of_leads hs (Or.inl hk) hg hr).level_eq

/-- From attached objects at one level the same field leads to attached objects at one level. -/
theorem level_eq_of_leads (hc : Climbs S L) (hd : tree.Distinct) (hs : Staged tree S L) (hp : p ≠ [])
    (hq : q ≠ []) (hlevel : p ∈ attached L → q ∈ attached L → level p = level q)
    (hv : (stage tree S L).get? p k = some v) (hr : v.Leads r) (hw : (stage tree S L).get? q k = some w)
    (ht : w.Leads t) (hmr : r ∈ attached L) (hmt : t ∈ attached L) : level r = level t := by
  obtain ⟨hmp, hup⟩ := hc.level_of_leads hd hs hp hv hr hmr
  obtain ⟨hmq, hup'⟩ := hc.level_of_leads hd hs hq hw ht hmt
  have heq := hlevel hmp hmq
  by_cases hk : k = "parent"
  · rw [if_pos hk] at hup hup'
    omega
  · rw [if_neg hk] at hup hup'
    omega

theorem insert (hc : Climbs S L) (hp : p ∈ attached L) : Climbs (insert p S) L :=
  ⟨hc.link, Set.insert_subset hp hc.shared⟩

/-- The children of an attached node can be linked to it. -/
theorem linkTo (hc : Climbs S L) (hp : p ∈ attached L) (hB : ∀ c ∈ B, ChildPath p c) :
    Climbs S (linkTo B L) where
  link c v hne hv := by
    rw [attached_linkTo]
    unfold Tree.linkTo at hv
    split at hv
    · next hcB =>
      have hholder := (hB c hcB).holder_eq
      cases hv
      exact ⟨rfl, hholder.symm ▸ hB c hcB, Or.inr (hholder.symm ▸ hp)⟩
    · obtain ⟨hv, hchild, hholder⟩ := hc.link c v hne hv
      exact ⟨hv, hchild, Or.inr hholder⟩
  shared := by
    rw [attached_linkTo]
    exact hc.shared.trans Set.subset_union_right

end Climbs

end

end IdentCase.Tree
