import IdentCase.Proofs.Tree.Staging
import Mathlib.Data.List.Nodup

/-! The children of one node differ from each other, except where a property shares its key. -/
namespace IdentCase

theorem setField_append {key : String} {v w : α} {before after : List (String × α)}
    (h : ∀ field ∈ before, key ≠ field.1) :
    setField key v (before ++ (key, w) :: after) = before ++ (key, v) :: after := by
  induction before with
  | nil => simp [setField]
  | cons field before ih =>
    obtain ⟨k, u⟩ := field
    have hk : k ≠ key := fun he => h (k, u) List.mem_cons_self he.symm
    have hrest := ih fun field hf => h field (List.mem_cons_of_mem _ hf)
    simp only [List.cons_append, setField, if_neg hk, hrest]

namespace Tree

section
variable {tree : Json} {S : Set Path} {L : Path → Option Value} {p c : Path}

theorem distinct_of_valueAt? (hd : tree.Distinct) {v : Json} (hv : valueAt? tree p = some v) :
    v.Distinct := by
  apply valueAt?_induction hd _ _ hv
  · intro fields hf
    unfold Json.Distinct at hf
    exact Json.distinctFields_iff.mp hf.2
  · intro items hi
    unfold Json.Distinct at hi
    exact Json.distinctItems_iff.mp hi

theorem nodup_keys_load (hd : tree.Distinct) (p : Path) :
    (((Heap.load tree).node p).map Prod.fst).Nodup := by
  rw [Heap.node, Heap.node?_load]
  cases hat : valueAt? tree p with
  | none => simp
  | some u =>
    cases u with
    | obj fields =>
      have hdu := distinct_of_valueAt? hd hat
      unfold Json.Distinct at hdu
      simpa [nodeOf, Function.comp_def] using hdu.1
    | _ => simp

theorem mem_node_of_get? {h : Heap} {k : String} {v : Value} (hv : h.get? p k = some v) :
    (k, v) ∈ h.node p := mem_of_lookup_eq_some hv

theorem get?_of_mem_node (hd : tree.Distinct) {k : String} {v : Value}
    (hv : (k, v) ∈ (Heap.load tree).node p) : (Heap.load tree).get? p k = some v :=
  lookup_eq_some_of_mem (nodup_keys_load hd p) hv

/-- Items are told apart by where they stand in their list. -/
theorem nodup_syntaxNode?_itemsOf (h : Heap) (p : Path) (items : List Json) (i : Nat) :
    ((itemsOf p i items).filterMap h.syntaxNode?).Nodup := by
  induction items generalizing i with
  | nil => simp [itemsOf]
  | cons v rest ih =>
    rw [itemsOf, List.filterMap_cons]
    split
    · exact ih (i + 1)
    · next c hc =>
      refine List.nodup_cons.mpr ⟨fun hmem => ?_, ih (i + 1)⟩
      obtain ⟨w, hw, hcw⟩ := List.mem_filterMap.mp hmem
      obtain ⟨j, u, hj, -, rfl⟩ := mem_itemsOf hw
      have hi := (valueOf_eq_object (Heap.syntaxNode?_eq_some.mp hc).1).1
      have hj' := (valueOf_eq_object (Heap.syntaxNode?_eq_some.mp hcw).1).1
      rw [hi] at hj'
      simp only [List.cons.injEq, Step.index.injEq, and_true] at hj'
      omega

theorem nodup_nodesIn_valueOf (h : Heap) (p : Path) (v : Json) :
    (h.nodesIn (valueOf p v)).Nodup := by
  have hsingle : ∀ o : Option Path, o.toList.Nodup := by
    intro o
    cases o <;> simp
  cases v with
  | arr items =>
    simp only [valueOf, Heap.nodesIn]
    exact nodup_syntaxNode?_itemsOf h p items 0
  | _ =>
    simp only [valueOf, Heap.nodesIn]
    exact hsingle _

theorem nodup_children_load (hd : tree.Distinct) : ((Heap.load tree).children p).Nodup := by
  rw [Heap.children, Heap.node, Heap.node?_load]
  cases hv : valueAt? tree p with
  | none => simp
  | some v =>
    cases v with
    | obj fields =>
      have hkeys := distinct_of_valueAt? hd hv
      unfold Json.Distinct at hkeys
      simp only [Option.bind_some, Option.getD_some, nodeOf, List.flatMap_map]
      refine List.nodup_flatMap.mpr ⟨fun field _ => ?_, ?_⟩
      · split
        · exact List.nodup_nil
        · exact nodup_nodesIn_valueOf _ _ _
      · refine (List.pairwise_map.mp hkeys.1).imp fun {f g} hne => ?_
        have hstep : ∀ {field : String × Json} {x : Path},
            (x ∈ if skippedKeys.contains field.1 then []
              else (Heap.load tree).nodesIn (valueOf (.key field.1 :: p) field.2)) →
            x = .key field.1 :: p ∨ ∃ i, x = .index i :: .key field.1 :: p := by
          intro field x hx
          split at hx
          · simp at hx
          · exact holds_valueOf (Heap.mem_nodesIn.mp hx).1
        intro x hf hg
        rcases hstep hf with rfl | ⟨i, rfl⟩ <;> rcases hstep hg with h | ⟨j, h⟩ <;> simp_all
    | _ => simp

/-- To share the key of a property is to have it among the children in the place of the value. -/
theorem children_stage_of_mem (hs : Staged tree S L) (hp : p ∈ S) :
    ∃ before after, (Heap.load tree).children p = before ++ (.key "value" :: p) :: after ∧
      (stage tree S L).children p = before ++ (.key "key" :: p) :: after := by
  have hvt := Heap.isSome_get?_type (hs.likely p hp).value
  have hkt := Heap.isSome_get?_type (hs.likely p hp).key
  obtain ⟨type, ht⟩ := Option.isSome_iff_exists.mp hvt
  have hv := Heap.get_load_of_get? ht
  rw [Heap.get] at hv
  cases hg : (Heap.load tree).get? p "value" with
  | none => simp [hg] at hv
  | some w =>
    obtain ⟨fields, hf, hlookup⟩ := node?_load_of_get? hg
    obtain rfl : w = .object (.key "value" :: p) := by simpa [hg] using hv
    obtain ⟨before, after, rfl, hbefore⟩ := List.lookup_eq_some_iff.mp hlookup
    have hne : ∀ field ∈ before, "value" ≠ field.1 := fun field hf => by
      simpa using hbefore field hf
    have hskip : "value" ∉ skippedKeys := by decide
    have hmid : ∀ q, ((Heap.load tree).get? q "type").isSome →
        childrenIn (Heap.load tree) (before ++ ("value", .object q) :: after) =
          childrenIn (Heap.load tree) before ++ q :: childrenIn (Heap.load tree) after := by
      intro q hq
      simp [childrenIn, hskip, Heap.nodesIn, Heap.syntaxNode?, hq]
    have hin : childrenIn (stage tree S L) = childrenIn (Heap.load tree) := by
      funext fields
      simp only [childrenIn, nodesIn_stage]
    refine ⟨childrenIn (Heap.load tree) before, childrenIn (Heap.load tree) after, ?_, ?_⟩
    · rw [children_eq_childrenIn, Heap.node, hf, Option.getD_some, hmid _ hvt]
    · rw [children_eq_childrenIn, hin, Heap.node]
      simp only [stage, hf, Option.map_some, Option.getD_some]
      rw [childrenIn_place, if_pos hp, setField_append hne, hmid _ hkt]

theorem count_children_stage_of_not_mem (hd : tree.Distinct) (hp : p ∉ S)
    (hc : c ∈ (stage tree S L).children p) : ((stage tree S L).children p).count c = 1 := by
  rw [children_stage_of_not_mem hp] at hc ⊢
  exact List.count_eq_one_of_mem (nodup_children_load hd) hc

/-- A node stands once among its siblings, or twice as the key and the value of a property. -/
theorem count_children_stage_of_mem (hd : tree.Distinct) (hs : Staged tree S L) (hp : p ∈ S)
    (hc : c ∈ (stage tree S L).children p) :
    ((stage tree S L).children p).count c = if c = .key "key" :: p then 2 else 1 := by
  have hload := List.count_eq_one_of_mem (nodup_children_load hd) (children_stage_subset hc)
  obtain ⟨before, after, hvalue, hkey⟩ := children_stage_of_mem hs hp
  rw [hvalue, List.count_append, List.count_cons] at hload
  rw [hkey] at hc ⊢
  rw [List.count_append, List.count_cons]
  by_cases hck : c = .key "key" :: p
  · have hcv : ((.key "value" :: p : Path) == c) = false := by simp [hck]
    rw [hcv] at hload
    simp only [hck, if_true, beq_self_eq_true, Bool.false_eq_true, if_false] at hload ⊢
    omega
  · have hmem : c ∈ before ++ after := by
      simpa [hck] using hc
    have hpos := List.count_pos_iff.mpr hmem
    rw [List.count_append] at hpos
    have hkc : ((.key "key" :: p : Path) == c) = false := by
      simpa using fun he : .key "key" :: p = c => hck he.symm
    rw [if_neg hck, hkc]
    split at hload
    · omega
    · simpa using hload

end

end Tree

end IdentCase
