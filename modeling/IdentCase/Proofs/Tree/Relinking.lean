import IdentCase.Proofs.Tree.Links

/-! Linking from several nodes of a tree, one after the other. To link from the root in the end leaves
the same as to link once. -/
namespace IdentCase.Tree

def TextName (fields : List (String × Json)) : Prop :=
  fields.lookup "type" = some (.str "Identifier") →
    ∀ v, fields.lookup "name" = some v → ∃ s, v = .str s

/-- A stage between the tree as it was read and the linked tree. The nodes below the root may have any
parents, for they get others in the end. -/
structure LinkedInPart (tree : Json) (S : Set Path) (L : Path → Option Value) : Prop where
  shared : S ⊆ shorthandsFrom tree []
  links : ∀ q, q ∉ below tree [] → L q = none ∨ L q = rootLink tree q
  typed : ∀ q v, L q = some v → ((Heap.load tree).get? q "type").isSome

section
variable {tree : Json} {S : Set Path} {L : Path → Option Value} {p q : Path}

theorem nil_not_mem_below : [] ∉ below tree [] := fun h => (mem_below_iff.mp h).2 rfl

theorem isSome_type_of_reaches (hr : ((Heap.load tree).get? [] "type").isSome)
    (hp : (Heap.load tree).shared.Reaches [] p) : ((Heap.load tree).get? p "type").isSome :=
  Heap.isSome_type_of_reaches hr (reaches_load_of_shared hp)

theorem below_subset (hp : (Heap.load tree).shared.Reaches [] p) : below tree p ⊆ below tree [] := by
  rintro c ⟨q, hq, hc⟩
  exact ⟨q, hp.trans hq, hc⟩

theorem shorthandsFrom_subset (hp : (Heap.load tree).shared.Reaches [] p) :
    shorthandsFrom tree p ⊆ shorthandsFrom tree [] := by
  rintro q ⟨hq, hsh⟩
  exact ⟨hp.trans hq, hsh⟩

theorem startLink_of_ne (hq : q ≠ p) : startLink tree p L q = L q := by
  unfold startLink
  split
  · exact Function.update_of_ne hq _ _
  · rfl

/-- Where all names of identifiers are atoms, all names that linking compares are. -/
theorem comparable_of_reaches_shared (ha : AtomicNames (Heap.load tree).shared)
    (hp : (Heap.load tree).shared.Reaches [] p) : Comparable tree p := by
  rw [shared_eq_stage] at ha hp
  exact comparable_of_reaches ha hp

theorem atomicNames_of_everywhere (ht : tree.Everywhere TextName) :
    AtomicNames (Heap.load tree).shared := by
  intro p _ hp
  rw [shared_eq_stage, Heap.hasType, get?_stage_of_ne (by decide) (by decide)] at hp
  rw [shared_eq_stage, Heap.get, get?_stage_of_ne (by decide) (by decide)]
  cases hv : (Heap.load tree).get? p "name" with
  | none => rfl
  | some v =>
    obtain ⟨fields, hf⟩ := Heap.exists_fields_of_get? hv
    rw [Heap.get?_load, valueAt?_key, hf, Option.bind_some, Json.get?] at hp hv
    have htype : fields.lookup "type" = some (.str "Identifier") := by
      cases hl : fields.lookup "type" with
      | none => simp [hl] at hp
      | some u => cases u <;> simp_all [valueOf]
    obtain ⟨u, hu, rfl⟩ := Option.map_eq_some_iff.mp hv
    obtain ⟨s, rfl⟩ := everywhere_of_valueAt? ht hf htype u hu
    rfl

namespace LinkedInPart

theorem nothing (tree : Json) : LinkedInPart tree ∅ fun _ => none where
  shared := Set.empty_subset _
  links _ _ := Or.inl rfl
  typed := by simp

theorem staged (hl : LinkedInPart tree S L) : Staged tree S L where
  likely p hp := by
    obtain ⟨-, _, _, hs⟩ := hl.shared hp
    exact hs.likely
  typed := hl.typed

/-- The parent that the root gets is the same before and after. -/
theorem startLink_root (hl : LinkedInPart tree S L) : startLink tree [] L [] = rootLink tree [] := by
  have hroot := hl.links [] nil_not_mem_below
  unfold startLink rootLink at *
  cases hload : (Heap.load tree).get? [] "parent" with
  | none =>
    simp only [hload, Option.isNone_none, if_true, Function.update_self, Option.or_none] at hroot ⊢
    rcases hroot with h | h <;> simp [h]
  | some v => simpa [hload] using hroot

theorem link (hl : LinkedInPart tree S L) (hr : ((Heap.load tree).get? [] "type").isSome)
    (hp : (Heap.load tree).shared.Reaches [] p) :
    LinkedInPart tree (S ∪ shorthandsFrom tree p)
      (linkTo (below tree p) (startLink tree p L)) where
  shared := Set.union_subset hl.shared (shorthandsFrom_subset hp)
  links q hq := by
    have hqp : q ∉ below tree p := fun h => hq (below_subset hp h)
    rw [linkTo, if_neg hqp]
    by_cases hne : q = p
    · subst hne
      have hroot : q = [] := by
        by_contra hne
        exact hq (mem_below_iff.mpr ⟨reaches_linked.mpr hp, hne⟩)
      subst hroot
      exact Or.inr hl.startLink_root
    · rw [startLink_of_ne hne]
      exact hl.links q hq
  typed := (staged_linkTo (staged_startLink hl.staged (isSome_type_of_reaches hr hp)) fun _ =>
    isSome_type_of_mem_below).typed

/-- Linking from a node of a tree that is linked in part goes well and leaves it linked in part. -/
theorem run_attachParents (hl : LinkedInPart tree S L)
    (hr : ((Heap.load tree).get? [] "type").isSome) (ha : AtomicNames (Heap.load tree).shared)
    (hp : (Heap.load tree).shared.Reaches [] p) :
    ∃ S' L', (attachParents (.object p)).run.run (stage tree S L) = (.ok (), stage tree S' L') ∧
      LinkedInPart tree S' L' := by
  have hrun := run_attachParents_stage_eq hl.staged (isSome_type_of_reaches hr hp)
    fun q hq => comparable_of_reaches_shared ha (hp.trans hq)
  exact ⟨_, _, hrun, hl.link hr hp⟩

/-- Linking from the root completes a tree that is linked in part. -/
theorem run_attachParents_root (hl : LinkedInPart tree S L)
    (hr : ((Heap.load tree).get? [] "type").isSome) (ha : AtomicNames (Heap.load tree).shared) :
    (attachParents (.object [])).run.run (stage tree S L) = (.ok (), linked tree) := by
  have hrun := run_attachParents_stage_eq hl.staged hr
    fun q hq => comparable_of_reaches_shared ha hq
  have hshared : S ∪ shorthandsFrom tree [] = shorthandsFrom tree [] :=
    Set.union_eq_self_of_subset_left hl.shared
  have hlinks : linkTo (below tree []) (startLink tree [] L) =
      linkTo (below tree []) (rootLink tree) := by
    funext q
    unfold linkTo
    split
    · rfl
    · next hq =>
      by_cases hne : q = []
      · rw [hne]
        exact hl.startLink_root
      · have hnone : L q = none := by
          rcases hl.links q hq with h | h
          · exact h
          · rw [h, rootLink_of_ne hne]
        rw [startLink_of_ne hne, hnone, rootLink_of_ne hne]
  rw [hrun, hshared, hlinks]
  rfl

end LinkedInPart

end

end IdentCase.Tree
