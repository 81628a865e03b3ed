import IdentCase.Proofs.Tree.Mirrors

/-! Walks over linked programs. Those over a part and over the whole agree up to the first name that
is a list or an object. -/
namespace IdentCase.Tree

/-- Whether a node is an identifier with a list or an object for a name. -/
def Heap.Misnamed (h : Heap) (p : Path) : Prop :=
  h.hasType p "Identifier" ∧ ¬ (h.get p "name").isAtom

/-- Nodes in two heaps are the same nodes of `R`, up to the first that have no usable names. -/
inductive Agrees (f : Path → Path) (R : Set Path) (h h' : Heap) : List Path → List Path → Prop
  | nil : Agrees f R h h' [] []
  | cons {p : Path} {l l' : List Path} (hp : p ∈ R) (hl : Agrees f R h h' l l') :
      Agrees f R h h' (p :: l) (f p :: l')
  | stop {p p' : Path} {l l' : List Path} (hp : h.Misnamed p) (hp' : h'.Misnamed p') :
      Agrees f R h h' (p :: l) (p' :: l')

namespace Agrees

variable {f : Path → Path} {R : Set Path} {h h' : Heap} {l l' k k' ps ps' : List Path}

theorem of_map (hl : ∀ p ∈ l, p ∈ R) : Agrees f R h h' l (l.map f) := by
  induction l with
  | nil => exact .nil
  | cons p l ih =>
    exact .cons (hl p List.mem_cons_self) (ih fun q hq => hl q (List.mem_cons_of_mem _ hq))

theorem append (hl : Agrees f R h h' l l') (hk : Agrees f R h h' k k') :
    Agrees f R h h' (l ++ k) (l' ++ k') := by
  induction hl with
  | nil => exact hk
  | cons hp _ ih => exact .cons hp ih
  | stop hp hp' => exact .stop hp hp'

/-- Walks agree if they start at nodes that do and the children of a node of `R` do. -/
theorem preorder (hc : ∀ p ∈ R, Agrees f R h h' (h.children p) (h'.children (f p)))
    (ha : Agrees f R h h' ps ps') (hl : h.Preorder ps l) (hl' : h'.Preorder ps' l') :
    Agrees f R h h' l l' := by
  induction hl generalizing ps' l' with
  | nil =>
    cases ha
    cases hl'
    exact .nil
  | cons _ _ ihc ihs =>
    cases ha with
    | cons hp ha =>
      cases hl' with
      | cons hbelow hrest => exact (cons hp (ihc (hc _ hp) hbelow)).append (ihs ha hrest)
    | stop hp hp' =>
      cases hl' with
      | cons => exact .stop hp hp'

theorem filter (ht : ∀ p ∈ R, h'.hasType (f p) "Identifier" = h.hasType p "Identifier")
    (ha : Agrees f R h h' l l') :
    Agrees f R h h' (l.filter (h.hasType · "Identifier"))
      (l'.filter (h'.hasType · "Identifier")) := by
  induction ha with
  | nil => exact .nil
  | @cons p l l' hp _ ih =>
    rw [List.filter_cons, List.filter_cons, ht p hp]
    split
    · exact .cons hp ih
    · exact ih
  | stop hp hp' =>
    rw [List.filter_cons, List.filter_cons, if_pos hp.1, if_pos hp'.1]
    exact .stop hp hp'

end Agrees

section
variable {S S' : Set Path} {L L' : Path → Option Value} {f : Path → Path}
  {body whole : List Json} {p : Path}

theorem not_likely_root : ¬ Likely (program body) [] := by
  intro hl
  have hp := hl.isProperty
  rw [hasType_root (by decide)] at hp
  cases hp

theorem children_stage_root (hs : Staged (program body) S L) :
    (stage (program body) S L).children [] = (Heap.load (program body)).children [] :=
  children_stage_of_not_mem fun h => not_likely_root (hs.likely _ h)

theorem misnamed_stage {tree : Json} (ht : (Heap.load tree).hasType p "Identifier")
    (hn : ¬ ((Heap.load tree).get p "name").isAtom) : (stage tree S L).Misnamed p := by
  constructor
  · rw [hasType_stage]
    exact ht
  · rw [get_stage_of_ne (by decide) (by decide)]
    exact hn

/-- Properties with names that cannot be compared have two identifiers without usable names. -/
theorem likely_of_not_comparable {tree : Json} (h : ¬ Comparable tree p) :
    Likely tree p ∧ ¬ ((Heap.load tree).get (.key "key" :: p) "name").isAtom ∧
      ¬ ((Heap.load tree).get (.key "value" :: p) "name").isAtom := by
  unfold Comparable at h
  push Not at h
  obtain ⟨hp, hsh, hk, hv, hkey, hvalue⟩ := h
  exact ⟨⟨hp, hsh, hk, hv, fun ha => (ha.elim hkey hvalue).elim⟩, hkey, hvalue⟩

open scoped Classical in
/-- A property that is shared has its key as a child in place of its value. -/
theorem exists_children_stage {tree : Json} (hl : Likely tree p) :
    ∃ before after, ∀ (S : Set Path) (L : Path → Option Value), (stage tree S L).children p =
      before ++ (if p ∈ S then .key "key" :: p else .key "value" :: p) :: after := by
  have hs : Staged tree {p} fun _ => none := ⟨fun _ hq => hq ▸ hl, by simp⟩
  obtain ⟨before, after, hvalue, hkey⟩ := children_stage_of_mem hs rfl
  refine ⟨before, after, fun S L => ?_⟩
  by_cases hp : p ∈ S
  · rw [if_pos hp, ← hkey]
    exact children_stage_congr (by simp [hp])
  · rw [if_neg hp, ← hvalue]
    exact children_stage_of_not_mem hp

/-- Where names can be compared the children of a node agree, and where they cannot its key and its
value have no usable names. -/
theorem Part.agrees_children (hpart : Part f body whole) (hb : Finished (program body) S L)
    (hw : Finished (program whole) S' L')
    (hp : p ∈ keptBoth f (within body.length) (stage (program body) S L)
      (stage (program whole) S' L')) :
    Agrees f (keptBoth f (within body.length) (stage (program body) S L)
        (stage (program whole) S' L')) (stage (program body) S L) (stage (program whole) S' L')
      ((stage (program body) S L).children p) ((stage (program whole) S' L').children (f p)) := by
  have hkept : ∀ c ∈ (stage (program body) S L).children p,
      f c ∈ (stage (program whole) S' L').children (f p) →
        c ∈ keptBoth f (within body.length) (stage (program body) S L)
          (stage (program whole) S' L') := fun c hc hfc =>
    ⟨mem_within_of_mem_children hp.1 (children_stage_subset hc), hp.2.1.tail hc, hp.2.2.tail hfc⟩
  -- The children in the whole, as if the whole had been shared in the part.
  have hwhole : (stage (program whole) S' L').children (f p) =
      ((stage (program body) {q | f q ∈ S'} fun _ => none).children p).map f :=
    hpart.embeds.children_stage hpart.step_key (fun q hq h => hpart.inj q hq p hp.1 h) hp.1 Iff.rfl
  by_cases hcomp : Comparable (program body) p
  · have hchildren : (stage (program whole) S' L').children (f p) =
        ((stage (program body) S L).children p).map f := by
      rw [hwhole]
      congr 1
      exact children_stage_congr (hpart.mem_iff_mem hb hw hcomp hp)
    rw [hchildren]
    refine .of_map fun c hc => hkept c hc ?_
    rw [hchildren]
    exact List.mem_map_of_mem hc
  · obtain ⟨hl, hkey, hvalue⟩ := likely_of_not_comparable hcomp
    obtain ⟨before, after, hchildren⟩ := exists_children_stage hl
    have hmisnamed : ∀ k, (Heap.load (program body)).hasType (.key k :: p) "Identifier" →
        ¬ ((Heap.load (program body)).get (.key k :: p) "name").isAtom →
        (stage (program body) S L).Misnamed (.key k :: p) ∧
          (stage (program whole) S' L').Misnamed (f (.key k :: p)) := by
      intro k ht hn
      have hk := (hpart.step_key p hp.1 k).1
      refine ⟨misnamed_stage ht hn, misnamed_stage ?_ ?_⟩
      · rw [hpart.embeds.hasType hk, ht]
      · rwa [hpart.embeds.get hk, isAtom_rename]
    have hk := hmisnamed "key" hl.key hkey
    have hv := hmisnamed "value" hl.value hvalue
    have hbefore : ∀ c ∈ before, c ∈ keptBoth f (within body.length) (stage (program body) S L)
        (stage (program whole) S' L') := by
      intro c hc
      refine hkept c ?_ ?_
      · rw [hchildren]
        exact List.mem_append_left _ hc
      · rw [hwhole, hchildren]
        exact List.mem_map_of_mem (List.mem_append_left _ hc)
    rw [hwhole, hchildren, hchildren, List.map_append, List.map_cons]
    refine (Agrees.of_map hbefore).append (.stop ?_ ?_)
    · split
      · exact hk.1
      · exact hv.1
    · split
      · exact hk.2
      · exact hv.2

end

end IdentCase.Tree
