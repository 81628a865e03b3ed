import IdentCase.Proofs.Tree.Stages
import Mathlib.Data.Set.Lattice

/-! What linking does to a tree that was read. If the names in it can be compared it cannot fail, and
it shares all shorthands that can be reached and links all that can be reached to their holders. -/
namespace IdentCase.Tree

section
variable {tree : Json} {S : Set Path} {L : Path → Option Value} {p q c : Path}

/-- The nodes that stand below a node, where shorthands are shared. -/
def below (tree : Json) (p : Path) : Set Path :=
  {c | ∃ q, (Heap.load tree).shared.Reaches p q ∧ c ∈ (Heap.load tree).shared.children q}

def shorthandsFrom (tree : Json) (p : Path) : Set Path :=
  {q | (Heap.load tree).shared.Reaches p q ∧ q ∈ shorthands tree}

theorem reaches_load_of_shared (h : (Heap.load tree).shared.Reaches p q) :
    (Heap.load tree).Reaches p q := by
  rw [shared_eq_stage] at h
  exact reaches_load_of_stage h

theorem shorthandsFrom_eq (tree : Json) (p : Path) :
    shorthandsFrom tree p = {q | q = p ∧ q ∈ shorthands tree} ∪
      ⋃ c ∈ (Heap.load tree).shared.children p, shorthandsFrom tree c := by
  ext q
  simp only [shorthandsFrom, Set.mem_ofPred_eq, Set.mem_union, Set.mem_iUnion, exists_prop]
  constructor
  · rintro ⟨hq, hsh⟩
    rcases Relation.ReflTransGen.cases_head hq with rfl | ⟨c, hc, hcq⟩
    · exact Or.inl ⟨rfl, hsh⟩
    · exact Or.inr ⟨c, hc, hcq, hsh⟩
  · rintro (⟨rfl, hsh⟩ | ⟨c, hc, hcq, hsh⟩)
    · exact ⟨.refl, hsh⟩
    · exact ⟨.head hc hcq, hsh⟩

theorem below_eq (tree : Json) (p : Path) :
    below tree p = {c | c ∈ (Heap.load tree).shared.children p} ∪
      ⋃ c ∈ (Heap.load tree).shared.children p, below tree c := by
  ext x
  simp only [below, Set.mem_ofPred_eq, Set.mem_union, Set.mem_iUnion, exists_prop]
  constructor
  · rintro ⟨q, hq, hx⟩
    rcases Relation.ReflTransGen.cases_head hq with rfl | ⟨c, hc, hcq⟩
    · exact Or.inl hx
    · exact Or.inr ⟨c, hc, q, hcq, hx⟩
  · rintro (hx | ⟨c, hc, q, hcq, hx⟩)
    · exact ⟨p, .refl, hx⟩
    · exact ⟨q, .head hc hcq, hx⟩

theorem isSome_type_of_mem_below (hc : c ∈ below tree p) :
    ((Heap.load tree).get? c "type").isSome := by
  obtain ⟨q, -, hc⟩ := hc
  rw [shared_eq_stage] at hc
  exact isSome_type_of_mem_children hc

/-- Where its names can be compared the preparation of a node shares it if it is a shorthand. -/
theorem run_prepare_eq (hs : Staged tree S L) (ha : Comparable tree p) :
    ∃ S', (prepare p).run.run (stage tree S L) = (.ok (), stage tree S' L) ∧ Staged tree S' L ∧
      S' = S ∪ {q | q = p ∧ q ∈ shorthands tree} ∧ (p ∈ S' ↔ p ∈ shorthands tree) := by
  obtain ⟨r, S', hr, hs', hSS', hS', hdec⟩ := run_prepare_stage hs p
  obtain ⟨rfl, hsh⟩ := hdec ha
  have hp : p ∈ S' ↔ p ∈ shorthands tree := mem_iff_mem_shorthands hs' ha hsh
  refine ⟨S', hr, hs', Set.Subset.antisymm (fun q hq => ?_) (Set.union_subset hSS' ?_), hp⟩
  · rcases hS' hq with rfl | hq'
    · exact Or.inr ⟨rfl, hp.mp hq⟩
    · exact Or.inl hq'
  · rintro q ⟨rfl, hq⟩
    exact hp.mpr hq

theorem staged_below (hs : Staged tree S L) (p : Path) :
    Staged tree (S ∪ shorthandsFrom tree p) (linkTo (below tree p) L) := by
  refine staged_linkTo ⟨?_, hs.typed⟩ fun _ => isSome_type_of_mem_below
  rintro q (hq | ⟨-, _, _, hq⟩)
  · exact hs.likely q hq
  · exact hq.likely

/-- What is left when nodes are linked one after the other. -/
theorem run_forM_link_eq {cs : List Path} {f : Path → Edit Unit} (hs : Staged tree S L)
    (hf : ∀ c ∈ cs, ∀ S L, Staged tree S L → (f c).run.run (stage tree S L) =
      (.ok (), stage tree (S ∪ shorthandsFrom tree c) (linkTo (below tree c) L))) :
    (cs.forM f).run.run (stage tree S L) =
      (.ok (), stage tree (S ∪ ⋃ c ∈ cs, shorthandsFrom tree c)
        (linkTo (⋃ c ∈ cs, below tree c) L)) := by
  induction cs generalizing S L with
  | nil =>
    simp only [run_forM_nil, List.not_mem_nil, Set.iUnion_of_empty, Set.iUnion_empty,
      Set.union_empty, linkTo_empty]
  | cons c cs ih =>
    rw [run_forM_cons, hf c List.mem_cons_self S L hs, andThen_ok,
      ih (staged_below hs c) fun x hx => hf x (List.mem_cons_of_mem _ hx), linkTo_linkTo,
      Set.union_assoc, Set.union_comm (⋃ c ∈ cs, below tree c)]
    simp only [List.mem_cons, Set.iUnion_iUnion_eq_or_left]

/-- Where names can be compared linking succeeds, and this is what it leaves. -/
theorem run_linkBelow_eq {fuel : Nat} (hf : sizeAt tree p < fuel) (hs : Staged tree S L)
    (ha : ∀ q, (Heap.load tree).shared.Reaches p q → Comparable tree q) :
    (linkBelow fuel p).run.run (stage tree S L) =
      (.ok (), stage tree (S ∪ shorthandsFrom tree p) (linkTo (below tree p) L)) := by
  induction fuel generalizing p S L with
  | zero => omega
  | succ fuel ih =>
    obtain ⟨S₁, hprep, hs₁, hS₁, hp⟩ := run_prepare_eq hs (ha p .refl)
    have hch : (stage tree S₁ L).children p = (Heap.load tree).shared.children p := by
      rw [shared_eq_stage]
      exact children_stage_congr hp
    have hbelow : ∀ c ∈ ((stage tree S₁ L).children p).reverse, ∀ S L, Staged tree S L →
        (linkBelow fuel c).run.run (stage tree S L) =
          (.ok (), stage tree (S ∪ shorthandsFrom tree c) (linkTo (below tree c) L)) := by
      intro c hc S L hs
      rw [List.mem_reverse] at hc
      have hlt := sizeAt_lt_of_mem_children (children_stage_subset hc)
      exact ih (by omega) hs fun q hq => ha q (.head (hch ▸ hc) hq)
    have hs₂ : Staged tree S₁ (linkTo {c | c ∈ (stage tree S₁ L).children p} L) :=
      staged_linkTo hs₁ fun _ => isSome_type_of_mem_children
    rw [linkBelow_succ, run_bind, hprep, andThen_ok, run_bind, run_get, andThen_ok, run_bind,
      run_link_children _ _ (fun _ => holder_of_mem_children)
        (fun _ => isSome_type_of_mem_children), andThen_ok,
      run_forM_link_eq hs₂ hbelow, hch, linkTo_linkTo, hS₁, Set.union_assoc]
    simp only [List.mem_reverse]
    rw [← shorthandsFrom_eq, Set.union_comm _ {c | c ∈ (Heap.load tree).shared.children p},
      ← below_eq]

/-- The parents once the node from which linking starts has one: null, unless it says otherwise. -/
def startLink (tree : Json) (p : Path) (L : Path → Option Value) : Path → Option Value :=
  if ((L p).or ((Heap.load tree).get? p "parent")).isNone then Function.update L p (some .null)
  else L

theorem staged_startLink (hs : Staged tree S L) (ht : ((Heap.load tree).get? p "type").isSome) :
    Staged tree S (startLink tree p L) := by
  unfold startLink
  split
  · exact staged_update hs ht _
  · exact hs

theorem start_stage (hs : Staged tree S L) (ht : ((Heap.load tree).get? p "type").isSome) :
    (stage tree S L).start p = stage tree S (startLink tree p L) := by
  unfold Heap.start startLink
  rw [get?_stage_parent hs]
  split
  · exact set_parent_stage ht .null
  · rfl

/-- To link from a node is to link what is below it, once it has a parent itself. -/
theorem run_attachParents_stage (hs : Staged tree S L)
    (ht : ((Heap.load tree).get? p "type").isSome) :
    (attachParents (.object p)).run.run (stage tree S L) =
      (linkBelow (tree.size + 1) p).run.run (stage tree S (startLink tree p L)) := by
  have htype : ¬ ((stage tree S L).get? p "type").isNone := by
    rw [get?_stage_of_ne (by decide) (by decide), Option.isNone_iff_eq_none, ← ne_eq,
      Option.ne_none_iff_isSome]
    exact ht
  rw [run_attachParents_object, if_neg htype, start_stage hs ht]
  rfl

/-- Where names can be compared linking from a node succeeds, and this is what it leaves. -/
theorem run_attachParents_stage_eq (hs : Staged tree S L)
    (ht : ((Heap.load tree).get? p "type").isSome)
    (ha : ∀ q, (Heap.load tree).shared.Reaches p q → Comparable tree q) :
    (attachParents (.object p)).run.run (stage tree S L) =
      (.ok (), stage tree (S ∪ shorthandsFrom tree p)
        (linkTo (below tree p) (startLink tree p L))) := by
  have hf : sizeAt tree p < tree.size + 1 := Nat.lt_succ_of_le (sizeAt_le tree p)
  rw [run_attachParents_stage hs ht, run_linkBelow_eq hf (staged_startLink hs ht) ha]

/-- The parent that the root gets: null, unless it says otherwise. -/
def rootLink (tree : Json) : Path → Option Value :=
  if ((Heap.load tree).get? [] "parent").isNone then Function.update (fun _ => none) [] (some .null)
  else fun _ => none

noncomputable def linked (tree : Json) : Heap :=
  stage tree (shorthandsFrom tree []) (linkTo (below tree []) (rootLink tree))

theorem staged_rootLink (hr : ((Heap.load tree).get? [] "type").isSome) :
    Staged tree ∅ (rootLink tree) := by
  unfold rootLink
  split
  · exact staged_update staged_nothing hr _
  · exact staged_nothing

theorem startLink_nothing (tree : Json) : startLink tree [] (fun _ => none) = rootLink tree := rfl

/-- Linking a tree comes down to linking what is below its root. -/
theorem run_attachParents (hr : ((Heap.load tree).get? [] "type").isSome) :
    (attachParents (.object [])).run.run (Heap.load tree) =
      (linkBelow (tree.size + 1) []).run.run (stage tree ∅ (rootLink tree)) := by
  have hrun := run_attachParents_stage staged_nothing hr
  rwa [stage_nothing, startLink_nothing] at hrun

/-- A stage at which all that is left of a tree is linked. -/
structure Finished (tree : Json) (S : Set Path) (L : Path → Option Value) : Prop where
  staged : Staged tree S L
  grows : Grows tree [] ∅ S (rootLink tree) L
  linkedFrom : LinkedFrom tree [] S L

/-- Whatever the names, linking a tree leaves a stage of it, which is finished if linking succeeds. -/
theorem exists_stage_of_run_attachParents {r : Except Fault Unit} {h : Heap}
    (hr : ((Heap.load tree).get? [] "type").isSome)
    (hrun : (attachParents (.object [])).run.run (Heap.load tree) = (r, h)) :
    ∃ S L, h = stage tree S L ∧ Staged tree S L ∧ (r = .ok () → Finished tree S L) := by
  rw [run_attachParents hr] at hrun
  obtain ⟨S, L, rfl, hs, hg, hl⟩ := advances_linkBelow _ _ (staged_rootLink hr) hrun
  exact ⟨S, L, rfl, hs, fun hok => ⟨hs, hg, hl hok⟩⟩

theorem run_attachParents_eq (hr : ((Heap.load tree).get? [] "type").isSome)
    (ha : ∀ q, (Heap.load tree).shared.Reaches [] q → Comparable tree q) :
    (attachParents (.object [])).run.run (Heap.load tree) = (.ok (), linked tree) := by
  have hrun := run_attachParents_stage_eq staged_nothing hr ha
  rwa [stage_nothing, startLink_nothing, Set.empty_union] at hrun

end

end IdentCase.Tree
