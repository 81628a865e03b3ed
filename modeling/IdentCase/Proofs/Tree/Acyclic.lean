import IdentCase.Proofs.Tree.Links
import IdentCase.Proofs.Tree.Order
import Mathlib.Data.Set.Card

/-! Walks where no node is below itself, though objects be shared and held in turn by what they hold:
they come to an end, and go through the nodes in their order. -/
namespace IdentCase.Tree

namespace Heap

def objects (h : Heap) : Set Path := {p | (h.node? p).isSome}

/-- Whether no node that can be reached from a root is below itself. -/
def Acyclic (h : Heap) (root : Path) : Prop :=
  ∀ p, h.Reaches root p → ¬ Relation.TransGen (fun p c => c ∈ h.children p) p p

noncomputable def reach (h : Heap) (p : Path) : Nat := {q | h.Reaches p q}.ncard

section
variable {h : Heap} {p c root : Path} {rank : Path → Nat}

theorem mem_objects_of_type (ht : (h.get? p "type").isSome) : p ∈ h.objects := by
  by_contra hp
  have hnode : h.node? p = none := by simpa [objects] using hp
  simp [get?, node, hnode] at ht

theorem reaches_subset_objects (ht : (h.get? root "type").isSome) :
    {q | h.Reaches root q} ⊆ h.objects :=
  fun _ hq => mem_objects_of_type (isSome_type_of_reaches ht hq)

theorem encard_objects_le (h : Heap) : h.objects.encard ≤ h.size := by
  obtain ⟨ps, hlength, hps⟩ := h.bounded
  have hsub : h.objects ⊆ (ps.toFinset : Set Path) := by
    intro p hp
    rw [List.coe_toFinset]
    exact hps p hp
  have hcard := Set.encard_le_encard hsub
  rw [Set.encard_coe_eq_coe_finsetCard] at hcard
  exact hcard.trans (by exact_mod_cast (List.toFinset_card_le ps).trans hlength)

theorem finite_reaches (ht : (h.get? root "type").isSome) : {q | h.Reaches root q}.Finite :=
  (Set.finite_of_encard_le_coe h.encard_objects_le).subset (reaches_subset_objects ht)

theorem reach_le (ht : (h.get? root "type").isSome) : h.reach root ≤ h.size := by
  have hle := (Set.encard_le_encard (reaches_subset_objects ht)).trans h.encard_objects_le
  rw [← (finite_reaches ht).cast_ncard_eq] at hle
  exact_mod_cast hle

/-- From a child fewer nodes can be reached, for the node itself is not among them. -/
theorem ranked_reach (ht : (h.get? root "type").isSome) (ha : h.Acyclic root) :
    h.Ranked h.reach root := by
  intro p hp c hc
  have htp := isSome_type_of_reaches ht hp
  refine Set.ncard_lt_ncard ⟨fun q hq => .head hc hq, fun hsub => ?_⟩ (finite_reaches htp)
  have hback : h.Reaches c p := hsub .refl
  exact ha p hp (Relation.TransGen.head' hc hback)

/-- Where children rank below their parents no node is below itself. -/
theorem Ranked.acyclic (hr : h.Ranked rank root) : h.Acyclic root := by
  have hlt : ∀ p q, h.Reaches root p → Relation.TransGen (fun p c => c ∈ h.children p) p q →
      rank q < rank p := by
    intro p q hp hq
    induction hq with
    | single hc => exact hr p hp _ hc
    | tail hb hc ih => exact (hr _ (hp.trans hb.to_reflTransGen) _ hc).trans ih
  exact fun p hp hpp => (hlt p p hp hpp).ne rfl

/--
If no node is below itself a traversal comes to an end. It calls the visitor for the identifiers in
the order of the nodes, each as often as there are ways to it, and does nothing else.
-/
theorem traverse_preorder (h : Heap) (root : Path) (hr : (h.get? root "type").isSome)
    (ha : h.Acyclic root) :
    ∃ order, h.Preorder [root] order ∧ (∀ l, h.Preorder [root] l → l = order) ∧
      ∀ {m : Type → Type u} [Monad m] [MonadExcept Fault m] (visit : Path → m Unit),
        (∀ fuel, order.length ≤ fuel → h.visitFrom visit fuel [root] =
          (order.filter (h.hasType · "Identifier")).forM visit) ∧
        h.traverse root visit = (order.filter (h.hasType · "Identifier")).forM visit := by
  have hrank := ranked_reach hr ha
  have hroots : ∀ p ∈ [root], h.Ranked h.reach p := by simpa using hrank
  obtain ⟨order, ho⟩ := exists_preorder hroots
  refine ⟨order, ho, fun l hl => ho.unique hl, fun visit => ?_⟩
  have hloop : ∀ fuel, order.length ≤ fuel → h.visitFrom visit fuel [root] =
      (order.filter (h.hasType · "Identifier")).forM visit := by
    intro fuel hf
    rw [visitFrom_eq_forM, walk_eq ho hf]
  refine ⟨hloop, ?_⟩
  have hsome : ¬ (h.get? root "type").isNone := by simpa [Option.isSome_iff_ne_none] using hr
  have hfuel := visits_eq_length ho hrank (reach_le hr)
  rw [traverse, if_neg hsome]
  exact hloop _ hfuel.ge

end

end Heap

/-- A property that shares its key, where the key and the property hold in turn what holds them. -/
def knotted : Heap :=
  let body : Path := [.index 0, .key "body"]
  let key : Path := .key "key" :: body
  let shared := (Heap.load shorthandProgram).set body "value" (.object key)
  ((shared.set key "parent" (.object body)).set body "loc" (.object [])).set [] "range"
    (.list [.object key])

def notePath (p : Path) : ExceptT Fault (StateM (List Path)) Unit := modify (· ++ [p])

theorem traverse_preorder_knotted :
    ((knotted.traverse [] notePath).run.run []).2 =
      [[.key "key", .index 0, .key "body"], [.key "key", .index 0, .key "body"]] := by
  let body : Path := [.index 0, .key "body"]
  let key : Path := .key "key" :: body
  let reached : List Path := [[], body, key]
  have hrank : knotted.Ranked (fun p => 9 - p.length) [] := by
    intro p hp
    replace hp : p ∈ reached := Heap.mem_of_reaches (by decide) (by decide +kernel) hp
    revert p
    decide +kernel
  have hroot : knotted.children [] = [body] := by decide +kernel
  have hbody : knotted.children body = [key, key] := by decide +kernel
  have hkey : knotted.children key = [] := by decide +kernel
  have hnone : knotted.Preorder (knotted.children key) [] := by
    rw [hkey]
    exact .nil
  have honce : knotted.Preorder [key] [key] := .cons hnone .nil
  have htwice : knotted.Preorder (knotted.children body) [key, key] := by
    rw [hbody]
    exact honce.append honce
  have hbelow : knotted.Preorder (knotted.children []) [body, key, key] := by
    rw [hroot]
    exact .cons htwice .nil
  have horder : knotted.Preorder [[]] [[], body, key, key] := .cons hbelow .nil
  obtain ⟨order, -, hunique, hvisit⟩ := Heap.traverse_preorder knotted [] (by decide) hrank.acyclic
  rw [(hvisit notePath).2, ← hunique _ horder]
  decide +kernel

end IdentCase.Tree
