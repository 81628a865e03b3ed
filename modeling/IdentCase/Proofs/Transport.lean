import IdentCase.Proofs.Neighbours
import IdentCase.Proofs.Tree.Mirrors

/-! What is found for a node does not depend on where the node stands. -/
namespace IdentCase.Tree

/-- Whether a value that is an object is in `D` or the root. -/
def Near (D : Set Path) (v : Value) : Prop := ∀ r, v = .object r → r ∈ D ∨ r = []

namespace Heap.Mirrors

variable {f : Path → Path} {D R X : Set Path} {h h' : Heap} {p q : Path} {v v' : Value}
  {k type : String}

theorem get (hm : Mirrors f D R h h') (hp : p ∈ D) (hk : k ≠ "parent") (hv : k ≠ "value") :
    h'.get (f p) k = (h.get p k).rename f := by
  rw [Heap.get, Heap.get, hm.get? p hp k hk hv]
  cases h.get? p k <;> rfl

theorem hasType (hm : Mirrors f D R h h') (hp : p ∈ D) (type : String) :
    h'.hasType (f p) type = h.hasType p type := by
  rw [Heap.hasType, Heap.hasType, hm.get? p hp "type" (by decide) (by decide)]
  cases h.get? p "type" with
  | none => rfl
  | some v => cases v <;> rfl

theorem near_of_subset (hm : Mirrors f D R h h') (hv : Near R v) : Near D v :=
  fun r hr => (hv r hr).imp_left fun hR => hm.subset hR

/-- The root has none of the types that make a difference. -/
theorem mem_of_hasType (hm : Mirrors f D R h h') (hv : Near X (.object q))
    (ht : h.hasType q type) (hne : type ≠ "Program") : q ∈ X := by
  refine (hv q rfl).resolve_right ?_
  rintro rfl
  rw [(hm.root type hne).1] at ht
  cases ht

theorem corresponds (hm : Mirrors f D R h h') (hv : Near D v) (he : v' = v.rename f) :
    Corresponds f h h' v v' where
  eq := he
  hasType q hq type ht := by
    rcases hv q hq with hD | rfl
    · exact hm.hasType hD type
    · have hne : type ≠ "Program" := by
        rintro rfl
        revert ht
        decide
      rw [hm.root_eq, (hm.root type hne).1, (hm.root type hne).2]

theorem corresponds_get (hm : Mirrors f D R h h') (hp : p ∈ D) (hk : k ≠ "parent")
    (hv : k ≠ "value") : Corresponds f h h' (h.get p k) (h'.get (f p) k) :=
  hm.corresponds (fun r hr => Or.inl (hm.held p hp k r hk hv hr)) (hm.get hp hk hv)

theorem corresponds_parent (hm : Mirrors f D R h h') (hp : p ∈ R) :
    Corresponds f h h' (h.get p "parent") (h'.get (f p) "parent") :=
  hm.corresponds (hm.near_of_subset (hm.above p hp)) (hm.parent p hp)

theorem mem_of_parent (hm : Mirrors f D R h h') (hp : p ∈ R) (hq : h.get p "parent" = .object q)
    (ht : h.hasType q type) (hne : type ≠ "Program") : q ∈ R :=
  hm.mem_of_hasType (hq ▸ hm.above p hp) ht hne

theorem near_effectiveParent (hm : Mirrors f D R h h') (hp : p ∈ R)
    (hv : h.effectiveParent p = .ok v) : Near R v := by
  have hnear : Near R (h.get p "parent") := hm.above p hp
  unfold Heap.effectiveParent at hv
  dsimp only at hv
  cases hq : h.typed? (h.get p "parent") "MemberExpression" with
  | error e =>
    rw [hq] at hv
    cases hv
  | ok m =>
    rw [hq] at hv
    cases m with
    | none =>
      cases hv
      exact hnear
    | some m =>
      obtain ⟨hparent, htype⟩ := typed?_eq_some hq
      cases hv
      exact hm.above m (hm.mem_of_parent hp hparent htype (by decide))

/-- Whether a property has an identifier as its key, and not as its value too. -/
theorem isObject_key_value (hm : Mirrors f D R h h') (hp : p ∈ R) (hq : q ∈ R)
    (hname : (h.get p "name").isAtom) :
    (isObject (h'.get (f q) "key") (f p) && !isObject (h'.get (f q) "value") (f p)) =
      (isObject (h.get q "key") p && !isObject (h.get q "value") p) := by
  have hkey : isObject (h'.get (f q) "key") (f p) = isObject (h.get q "key") p := by
    rw [hm.get (hm.subset hq) (by decide) (by decide)]
    exact isObject_rename hm.inj (fun r => hm.held q (hm.subset hq) "key" r (by decide) (by decide))
      (hm.subset hp)
  rw [hkey]
  by_cases hk : isObject (h.get q "key") p
  · rw [hm.value p hp q hq hname hk]
  · rw [Bool.eq_false_iff.mpr hk, Bool.false_and, Bool.false_and]

/-- The neighbours of a node correspond wherever it stands. -/
theorem resembles (hm : Mirrors f D R h h') (hp : p ∈ R) (hname : (h.get p "name").isAtom) :
    Resembles f h h' p where
  name := hm.get? p (hm.subset hp) "name" (by decide) (by decide)
  parent := hm.corresponds_parent hp
  member m hparent htype := by
    have hmR := hm.mem_of_parent hp hparent htype (by decide)
    exact ⟨hm.corresponds_parent hmR, hm.corresponds_get (hm.subset hmR) (by decide) (by decide)⟩
  object m o hparent htype ho := by
    have hmD := hm.subset (hm.mem_of_parent hp hparent htype (by decide))
    have hoD := hm.held m hmD "object" o (by decide) (by decide) ho
    exact hm.get hoD (by decide) (by decide)
  property q hparent htype := by
    have hqR := hm.mem_of_parent hp hparent htype (by decide)
    exact ⟨hm.corresponds_parent hqR, hm.isObject_key_value hp hqR hname⟩
  assignment a ha htype := by
    have haD := hm.subset (hm.mem_of_hasType (hm.near_effectiveParent hp ha) htype (by decide))
    exact ⟨hm.corresponds_get haD (by decide) (by decide),
      hm.corresponds_get haD (by decide) (by decide)⟩
  assigned a l ha htype hl _ := by
    have haD := hm.subset (hm.mem_of_hasType (hm.near_effectiveParent hp ha) htype (by decide))
    have hlD := hm.held a haD "left" l (by decide) (by decide) hl
    refine ⟨hm.get hlD (by decide) (by decide), fun q hq => ?_⟩
    exact hm.get (hm.held l hlD "property" q (by decide) (by decide) hq) (by decide) (by decide)

theorem verdict (hm : Mirrors f D R h h') (hp : p ∈ R) (c : Config) :
    h'.verdict c (f p) = h.verdict c p := by
  by_cases hname : (h.get p "name").isAtom
  · exact (hm.resembles hp hname).verdict c
  · have hname' : ¬ (h'.get (f p) "name").isAtom := by
      rwa [hm.get (hm.subset hp) (by decide) (by decide), isAtom_rename]
    rw [verdict_of_not_isAtom hname, verdict_of_not_isAtom hname']

end Heap.Mirrors

end IdentCase.Tree
