import IdentCase.Violation
import IdentCase.Proofs.Tree.Mirrors

/-! What links leave alone keeps its JSON form, such as the positions of nodes. -/
namespace IdentCase.Tree

theorem toJson_of_isAtom {h h' : Heap} {v : Value} (hv : v.isAtom) : h'.toJson v = h.toJson v := by
  cases v <;> simp [Value.isAtom, Heap.toJson, Heap.unfold] at hv ⊢

theorem Heap.fieldOf_of_ne_object {h : Heap} {v : Value} (hv : ∀ r, v ≠ .object r) (k : String) :
    h.fieldOf v k = if h.truthy v then .error .notObject else .ok .null := by
  cases v with
  | object r => exact absurd rfl (hv r)
  | _ => rfl

section
variable {tree v : Json} {h : Heap} {S : Set Path} {L : Path → Option Value} {p q : Path} {k : String}

theorem size_pos (v : Json) : 0 < v.size := by
  cases v <;> simp only [Json.size] <;> omega

theorem map_itemsOf {items : List Json} {f : Value → Json}
    (hf : ∀ i w, items[i]? = some w → f (valueOf (.index i :: p) w) = w) :
    (itemsOf p 0 items).map f = items := by
  refine List.ext_getElem? fun i => ?_
  rw [List.getElem?_map, getElem?_itemsOf, Nat.zero_add]
  cases hw : items[i]? with
  | none => rfl
  | some w => exact congrArg some (hf i w hw)

/-- Where a heap is as it was read, values unfold to what they were read from. -/
theorem unfold_valueOf {fuel : Nat} {inside : List Path}
    (hh : ∀ q, p <:+ q → h.node? q = (Heap.load tree).node? q) (hd : v.Distinct)
    (hv : valueAt? tree p = some v) (hin : ∀ q ∈ inside, q.length < p.length)
    (hf : v.size ≤ fuel) : h.unfold fuel inside (valueOf p v) = v := by
  induction fuel generalizing v p inside with
  | zero =>
    have := size_pos v
    omega
  | succ fuel ih =>
    cases v with
    | arr items =>
      unfold Json.Distinct at hd
      have hitems : (itemsOf p 0 items).map (h.unfold fuel inside) = items := by
        refine map_itemsOf fun i w hw => ?_
        have hmem := List.mem_of_getElem? hw
        have hsize := size_lt_of_mem_items hmem
        refine ih (fun q hq => hh q ((List.suffix_cons _ p).trans hq)) ?_ ?_ ?_ (by omega)
        · exact Json.distinctItems_iff.mp hd w hmem
        · rw [valueAt?_index, hv]
          exact hw
        · intro q hq
          have := hin q hq
          rw [List.length_cons]
          omega
      rw [valueOf, Heap.unfold, hitems]
    | obj fields =>
      have hnode : h.node p = nodeOf p fields := by
        rw [Heap.node, hh p List.suffix_rfl, Heap.node?_load, hv]
        rfl
      have hp : ¬ inside.contains p := by
        rw [List.contains_iff_mem]
        intro hm
        exact absurd (hin p hm) (Nat.lt_irrefl _)
      unfold Json.Distinct at hd
      rw [valueOf, Heap.unfold, if_neg hp, hnode, nodeOf, List.map_map]
      congr 1
      refine (List.map_congr_left fun field hfield => ?_).trans (List.map_id fields)
      obtain ⟨k, w⟩ := field
      have hsize := size_lt_of_mem_fields hfield
      have hw : h.unfold fuel (p :: inside) (valueOf (.key k :: p) w) = w := by
        refine ih (fun q hq => hh q ((List.suffix_cons _ p).trans hq)) ?_ ?_ ?_ (by omega)
        · exact Json.distinctFields_iff.mp hd.2 (k, w) hfield
        · rw [valueAt?_key, hv]
          exact lookup_eq_some_of_mem hd.1 hfield
        · intro q hq
          rw [List.length_cons]
          rcases List.mem_cons.mp hq with rfl | hq
          · omega
          · have := hin q hq
            omega
      simp only [Function.comp_apply, hw, id]
    | _ => rfl

theorem toJson_valueOf (hd : tree.Distinct) (hs : h.size = tree.size)
    (hh : ∀ q, p <:+ q → h.node? q = (Heap.load tree).node? q) (hv : valueAt? tree p = some v) :
    h.toJson (valueOf p v) = v := by
  refine unfold_valueOf hh (distinct_of_valueAt? hd hv) hv (by simp) ?_
  have hle := sizeAt_le tree p
  rw [sizeAt, hv, Option.map_some, Option.getD_some] at hle
  omega

/-- A position has the JSON form that it had when it was read. -/
theorem Finished.toJson_get (hf : Finished tree S L) (hd : tree.Distinct)
    (hq : .key "loc" :: p <:+ q) (k : String) :
    (stage tree S L).toJson ((stage tree S L).get q k) =
      (valueAt? tree (.key k :: q)).getD .null := by
  have hh : ∀ r, q <:+ r → (stage tree S L).node? r = (Heap.load tree).node? r := by
    intro r hqr
    refine hf.node?_of_not_reaches fun hreach => ?_
    rw [← stage_nothing] at hreach
    exact (step_of_reaches hd staged_nothing hreach (hq.trans hqr)).1 (by decide)
  have hget : (stage tree S L).get q k = (Heap.load tree).get q k := by
    rw [Heap.get, Heap.get?, Heap.node, hh q List.suffix_rfl]
    rfl
  rw [hget, Heap.get, Heap.get?_load]
  cases hv : valueAt? tree (.key k :: q) with
  | none => rfl
  | some v => exact toJson_valueOf hd rfl (fun r hr => hh r ((List.suffix_cons _ q).trans hr)) hv

theorem exists_finished_linked (hr : ((Heap.load tree).get? [] "type").isSome)
    (hn : ∀ p, (Heap.load tree).shared.Reaches [] p → Comparable tree p) :
    ∃ S L, linked tree = stage tree S L ∧ Finished tree S L := by
  obtain ⟨S, L, hl, -, hf⟩ := exists_stage_of_run_attachParents hr (run_attachParents_eq hr hn)
  exact ⟨S, L, hl, hf rfl⟩

theorem toJson_get_linked (hd : tree.Distinct) (hr : ((Heap.load tree).get? [] "type").isSome)
    (hn : ∀ p, (Heap.load tree).shared.Reaches [] p → Comparable tree p)
    (hq : .key "loc" :: p <:+ q) (k : String) :
    (linked tree).toJson ((linked tree).get q k) = (valueAt? tree (.key k :: q)).getD .null := by
  obtain ⟨S, L, hl, hf⟩ := exists_finished_linked hr hn
  rw [hl]
  exact hf.toJson_get hd hq k

/-- A part of a position is null or a field of the start of the location. -/
theorem start_field {start w : Value}
    (hs : (stage tree S L).fieldOf ((stage tree S L).get p "loc") "start" = .ok start)
    (hw : (stage tree S L).fieldOf start k = .ok w) :
    w = .null ∨ w = (stage tree S L).get (.key "start" :: .key "loc" :: p) k := by
  have hobject : ∀ {q key r}, key ≠ "parent" → key ≠ "value" →
      (stage tree S L).get q key = .object r → r = .key key :: q := by
    intro q key r hp hv hr
    rw [get_stage_of_ne hp hv] at hr
    exact Heap.get_load_eq_object hr
  by_cases hstart : ∃ r, start = .object r
  · obtain ⟨r, rfl⟩ := hstart
    refine Or.inr ?_
    by_cases hloc : ∃ q, (stage tree S L).get p "loc" = .object q
    · obtain ⟨q, hq⟩ := hloc
      obtain rfl := hobject (by decide) (by decide) hq
      rw [hq] at hs
      simp only [Heap.fieldOf, Except.ok.injEq] at hs hw
      obtain rfl := hobject (by decide) (by decide) hs
      exact hw.symm
    · push Not at hloc
      rw [Heap.fieldOf_of_ne_object hloc] at hs
      split at hs <;> cases hs
  · push Not at hstart
    rw [Heap.fieldOf_of_ne_object hstart] at hw
    split at hw
    · cases hw
    · exact Or.inl (Except.ok.inj hw).symm

end

end IdentCase.Tree
