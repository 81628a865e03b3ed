import IdentCase.Proofs.Tree.Staging
import Mathlib.Logic.Relation

/-! Linking goes from stage to stage of a tree, whether or not the names in it can be compared. -/
namespace IdentCase.Tree

/-- Whether a node can be reached from another through children. -/
def Heap.Reaches (h : Heap) : Path → Path → Prop :=
  Relation.ReflTransGen fun p c => c ∈ h.children p

/-- Nodes that are closed under children and include a node include all that it reaches. -/
theorem Heap.mem_of_reaches {h : Heap} {root q : Path} {ps : List Path} (hroot : root ∈ ps)
    (hps : ∀ p ∈ ps, ∀ c ∈ h.children p, c ∈ ps) (hq : h.Reaches root q) : q ∈ ps := by
  induction hq with
  | refl => exact hroot
  | tail _ hc ih => exact hps _ ih _ hc

/-- All that is reached from a node with a type has a type. -/
theorem Heap.isSome_type_of_reaches {h : Heap} {root p : Path} (ht : (h.get? root "type").isSome)
    (hp : h.Reaches root p) : (h.get? p "type").isSome := by
  rcases Relation.ReflTransGen.cases_tail hp with rfl | ⟨q, -, hc⟩
  · exact ht
  · obtain ⟨-, -, -, -, -, ht⟩ := Heap.mem_children.mp hc
    exact ht

open scoped Classical in
/-- Sets the parents of the nodes in `B` to the objects that hold them. -/
noncomputable def linkTo (B : Set Path) (L : Path → Option Value) : Path → Option Value :=
  fun q => if q ∈ B then some (.object (holder q)) else L q

section
variable {tree : Json} {S S₁ S' : Set Path} {L L₁ L' : Path → Option Value} {p q c : Path}

theorem linkTo_linkTo (A B : Set Path) (L : Path → Option Value) :
    linkTo A (linkTo B L) = linkTo (A ∪ B) L := by
  funext q
  unfold linkTo
  by_cases hA : q ∈ A
  · rw [if_pos hA, if_pos (Set.mem_union_left B hA)]
  · rw [if_neg hA]
    by_cases hB : q ∈ B
    · rw [if_pos hB, if_pos (Set.mem_union_right A hB)]
    · rw [if_neg hB, if_neg fun h => h.elim hA hB]

theorem linkTo_empty (L : Path → Option Value) : linkTo ∅ L = L := by
  funext q
  simp [linkTo]

theorem update_eq_linkTo (L : Path → Option Value) (c : Path) :
    Function.update L c (some (.object (holder c))) = linkTo {c} L := by
  funext q
  by_cases hq : q = c
  · subst hq
    simp [linkTo]
  · simp [linkTo, hq]

theorem isSome_type_of_mem_children (hc : c ∈ (stage tree S L).children p) :
    ((Heap.load tree).get? c "type").isSome := by
  obtain ⟨-, -, -, -, -, ht⟩ := Heap.mem_children.mp hc
  rwa [get?_stage_of_ne (by decide) (by decide)] at ht

theorem holder_of_mem_children (hc : c ∈ (stage tree S L).children p) : holder c = p :=
  (Heap.childPath_of_mem_children (children_stage_subset hc)).holder_eq

theorem staged_linkTo (hs : Staged tree S L) {B : Set Path}
    (hB : ∀ c ∈ B, ((Heap.load tree).get? c "type").isSome) : Staged tree S (linkTo B L) := by
  refine ⟨hs.likely, fun q v hq => ?_⟩
  unfold linkTo at hq
  split at hq
  · next h => exact hB q h
  · exact hs.typed q v hq

/-- The children of a node are linked to it all at once. -/
theorem run_link_children (cs : List Path) (L : Path → Option Value)
    (hh : ∀ c ∈ cs, holder c = p) (ht : ∀ c ∈ cs, ((Heap.load tree).get? c "type").isSome) :
    (cs.forM fun c => (modify (·.set c "parent" (.object p)) : Edit Unit)).run.run (stage tree S L) =
      (.ok (), stage tree S (linkTo {c | c ∈ cs} L)) := by
  induction cs generalizing L with
  | nil =>
    have he : {c : Path | c ∈ ([] : List Path)} = ∅ := by simp
    rw [run_forM_nil, he, linkTo_empty]
  | cons c cs ih =>
    have hc : holder c = p := hh c List.mem_cons_self
    have he : ({x | x ∈ cs} ∪ {c} : Set Path) = {x | x ∈ c :: cs} := by
      ext x
      simp
    rw [run_forM_cons, run_modify, andThen_ok, set_parent_stage (ht c List.mem_cons_self), ← hc,
      update_eq_linkTo, hc, ih _ (fun x hx => hh x (List.mem_cons_of_mem _ hx))
        (fun x hx => ht x (List.mem_cons_of_mem _ hx)), linkTo_linkTo, he]

theorem reaches_stage_anti (hS : S ⊆ S') (h : (stage tree S' L').Reaches p q) :
    (stage tree S L).Reaches p q := by
  induction h with
  | refl => exact .refl
  | tail _ hc ih => exact ih.tail (children_stage_anti (fun hp => hS hp) hc)

theorem reaches_load_of_stage (h : (stage tree S L).Reaches p q) :
    (Heap.load tree).Reaches p q := by
  rw [← stage_nothing]
  exact reaches_stage_anti (Set.empty_subset S) h

/-- What is reached from a node stands within it. -/
theorem suffix_of_reaches (h : (stage tree S L).Reaches p q) : p <:+ q := by
  induction h with
  | refl => exact List.suffix_rfl
  | tail _ hc ih =>
    exact ih.trans (Heap.childPath_of_mem_children (children_stage_subset hc)).suffix

/-- What changes from a stage to a later one if only nodes reached from `p` are linked between. -/
structure Grows (tree : Json) (p : Path) (S S' : Set Path) (L L' : Path → Option Value) : Prop where
  subset : S ⊆ S'
  shared : ∀ q ∈ S', q ∈ S ∨ (Heap.load tree).Reaches p q
  links : ∀ c, L' c = L c ∨
    (Heap.load tree).Reaches p c ∧ c ≠ [] ∧ L' c = some (.object (holder c))

/-- All nodes reached from `p` are ready, and their children are linked to them. -/
structure LinkedFrom (tree : Json) (p : Path) (S : Set Path) (L : Path → Option Value) : Prop where
  shared : ∀ q, (stage tree S L).Reaches p q → Comparable tree q → q ∈ shorthands tree → q ∈ S
  links : ∀ q c, (stage tree S L).Reaches p q → c ∈ (stage tree S L).children q →
    L c = some (.object q)

namespace Grows

theorem refl (S : Set Path) (L : Path → Option Value) : Grows tree p S S L L :=
  ⟨le_rfl, fun _ hq => Or.inl hq, fun _ => Or.inl rfl⟩

theorem trans (h : Grows tree p S S₁ L L₁) (h' : Grows tree p S₁ S' L₁ L') :
    Grows tree p S S' L L' where
  subset := h.subset.trans h'.subset
  shared q hq := (h'.shared q hq).elim (h.shared q) Or.inr
  links c := by
    rcases h'.links c with he | hlink
    · rw [he]
      exact h.links c
    · exact Or.inr hlink

theorem above (h : Grows tree c S S' L L') (hc : (Heap.load tree).Reaches p c) :
    Grows tree p S S' L L' where
  subset := h.subset
  shared q hq := (h.shared q hq).imp_right hc.trans
  links q := (h.links q).imp_right fun hq => ⟨hc.trans hq.1, hq.2⟩

/-- Nodes that are linked stay linked. -/
theorem linkedFrom (h : Grows tree q S S' L L') (hl : LinkedFrom tree p S L) :
    LinkedFrom tree p S' L' where
  shared r hr hcomp hsh := h.subset (hl.shared r (reaches_stage_anti h.subset hr) hcomp hsh)
  links r c hr hc := by
    have hlink := hl.links r c (reaches_stage_anti h.subset hr)
      (children_stage_anti (fun hp => h.subset hp) hc)
    rcases h.links c with he | ⟨-, -, he⟩
    · rw [he, hlink]
    · rw [he, holder_of_mem_children hc]

end Grows

theorem grows_of_prepare (tree : Json) (hS : S ⊆ S') (hS' : S' ⊆ insert p S) (L : Path → Option Value) :
    Grows tree p S S' L L where
  subset := hS
  shared q hq := by
    rcases hS' hq with rfl | hq
    · exact Or.inr .refl
    · exact Or.inl hq
  links _ := Or.inl rfl

theorem grows_of_link_children (S : Set Path) (L : Path → Option Value) :
    Grows tree p S S L (linkTo {c | c ∈ (stage tree S L).children p} L) where
  subset := le_rfl
  shared _ hq := Or.inl hq
  links c := by
    by_cases hc : c ∈ (stage tree S L).children p
    · have hload := children_stage_subset hc
      exact Or.inr ⟨.single hload, (Heap.childPath_of_mem_children hload).ne_nil, if_pos hc⟩
    · exact Or.inl (if_neg hc)

theorem linkedFrom_of_children (hS : S ⊆ S') (hp : Comparable tree p → p ∈ shorthands tree → p ∈ S)
    (hg : Grows tree p S S' (linkTo {c | c ∈ (stage tree S L).children p} L) L')
    (hcs : ∀ c ∈ (stage tree S L).children p, LinkedFrom tree c S' L') :
    LinkedFrom tree p S' L' := by
  have hchild : ∀ {c}, c ∈ (stage tree S' L').children p → c ∈ (stage tree S L).children p :=
    fun hc => children_stage_anti (fun hp => hS hp) hc
  constructor
  · intro q hq hcomp hsh
    rcases Relation.ReflTransGen.cases_head hq with rfl | ⟨c, hc, hcq⟩
    · exact hS (hp hcomp hsh)
    · exact (hcs c (hchild hc)).shared q hcq hcomp hsh
  · intro q c hq hc
    rcases Relation.ReflTransGen.cases_head hq with rfl | ⟨b, hb, hbq⟩
    · have hlink : linkTo {c | c ∈ (stage tree S L).children p} L c = some (.object (holder c)) :=
        if_pos (hchild hc)
      have hholder := holder_of_mem_children hc
      rcases hg.links c with he | ⟨-, -, he⟩
      · rw [he, hlink, hholder]
      · rw [he, hholder]
    · exact (hcs b (hchild hb)).links q c hbq hc

/-- Whether an edit goes from each stage of a tree to one, and from there only shares and links what
is reached from `p`, so that `P` holds if the edit succeeds. -/
def Advances (tree : Json) (p : Path) (P : Set Path → (Path → Option Value) → Prop) (m : Edit Unit) :
    Prop :=
  ∀ {S L r h'}, Staged tree S L → m.run.run (stage tree S L) = (r, h') →
    ∃ S' L', h' = stage tree S' L' ∧ Staged tree S' L' ∧ Grows tree p S S' L L' ∧
      (r = .ok () → P S' L')

/-- Nodes can be linked one after the other, each from the stage that the one before left. -/
theorem Advances.forM {cs : List Path} {f : Path → Edit Unit}
    (hcs : ∀ c ∈ cs, (Heap.load tree).Reaches p c)
    (hf : ∀ c ∈ cs, Advances tree c (LinkedFrom tree c) (f c)) :
    Advances tree p (fun S L => ∀ c ∈ cs, LinkedFrom tree c S L) (cs.forM f) := by
  induction cs with
  | nil =>
    intro S L r h' hs hr
    cases hr
    exact ⟨S, L, rfl, hs, .refl S L, by simp⟩
  | cons c cs ih =>
    intro S L r h' hs hr
    have hc := hcs c List.mem_cons_self
    rw [run_forM_cons] at hr
    rcases hrun : (f c).run.run (stage tree S L) with ⟨e | u, h₁⟩
    · rw [hrun] at hr
      cases hr
      obtain ⟨S₁, L₁, rfl, hs₁, hg₁, -⟩ := hf c List.mem_cons_self hs hrun
      exact ⟨S₁, L₁, rfl, hs₁, hg₁.above hc, by simp⟩
    · obtain ⟨S₁, L₁, rfl, hs₁, hg₁, hl₁⟩ := hf c List.mem_cons_self hs hrun
      rw [hrun, andThen_ok] at hr
      obtain ⟨S₂, L₂, rfl, hs₂, hg₂, hl₂⟩ := ih (fun x hx => hcs x (List.mem_cons_of_mem _ hx))
        (fun x hx => hf x (List.mem_cons_of_mem _ hx)) hs₁ hr
      refine ⟨S₂, L₂, rfl, hs₂, (hg₁.above hc).trans hg₂, fun hok => ?_⟩
      exact List.forall_mem_cons.mpr ⟨hg₂.linkedFrom (hl₁ rfl), hl₂ hok⟩

/-- Whatever the names, linking goes from stage to stage, and if it succeeds all is linked. -/
theorem advances_linkBelow (fuel : Nat) (p : Path) :
    Advances tree p (LinkedFrom tree p) (linkBelow fuel p) := by
  induction fuel generalizing p with
  | zero =>
    intro S L r h' hs hr
    cases hr
    exact ⟨S, L, rfl, hs, .refl S L, by simp⟩
  | succ fuel ih =>
    intro S L r h' hs hr
    rw [linkBelow_succ, run_bind] at hr
    obtain ⟨r₁, S₁, hprep, hs₁, hSS₁, hS₁, hp⟩ := run_prepare_stage hs p
    have hg₁ := grows_of_prepare tree hSS₁ hS₁ L
    rw [hprep] at hr
    cases r₁ with
    | error e =>
      cases hr
      exact ⟨S₁, L, rfl, hs₁, hg₁, by simp⟩
    | ok u =>
      rw [andThen_ok, run_bind, run_get, andThen_ok, run_bind,
        run_link_children _ _ (fun _ => holder_of_mem_children)
          (fun _ => isSome_type_of_mem_children), andThen_ok] at hr
      have hs₂ : Staged tree S₁ (linkTo {c | c ∈ (stage tree S₁ L).children p} L) :=
        staged_linkTo hs₁ fun _ => isSome_type_of_mem_children
      have hcs : ∀ c ∈ ((stage tree S₁ L).children p).reverse, (Heap.load tree).Reaches p c :=
        fun c hc => .single (children_stage_subset (List.mem_reverse.mp hc))
      obtain ⟨S₂, L₂, rfl, hs₃, hg₂, hl⟩ := Advances.forM hcs (fun c _ => ih c) hs₂ hr
      refine ⟨S₂, L₂, rfl, hs₃, (hg₁.trans (grows_of_link_children S₁ L)).trans hg₂, fun hok => ?_⟩
      exact linkedFrom_of_children hg₂.subset (fun hcomp => (hp hcomp).2) hg₂
        fun c hc => hl hok c (List.mem_reverse.mpr hc)

end

end IdentCase.Tree
