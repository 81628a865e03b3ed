import IdentCase.Proofs.Tree.Links

/-! Heaps that hold other heaps with their objects renamed. -/
namespace IdentCase.Tree

mutual

def Value.rename (f : Path → Path) : Value → Value
  | .list items => .list (renameItems f items)
  | .object p => .object (f p)
  | .null => .null
  | .bool b => .bool b
  | .int i => .int i
  | .float x => .float x
  | .str s => .str s

def renameItems (f : Path → Path) : List Value → List Value
  | [] => []
  | v :: rest => v.rename f :: renameItems f rest

end

def renameFields (f : Path → Path) (fields : Node) : Node :=
  fields.map fun (k, v) => (k, v.rename f)

section
variable {f : Path → Path}

theorem renameItems_eq_map (items : List Value) : renameItems f items = items.map (·.rename f) := by
  induction items with
  | nil => rfl
  | cons v rest ih => rw [renameItems, ih, List.map_cons]

mutual

theorem rename_id : ∀ v : Value, v.rename id = v
  | .list items => by rw [Value.rename, renameItems_id items]
  | .object p => by rw [Value.rename, id]
  | .null | .bool _ | .int _ | .float _ | .str _ => rfl

theorem renameItems_id : ∀ items : List Value, renameItems id items = items
  | [] => rfl
  | v :: rest => by rw [renameItems, rename_id v, renameItems_id rest]

end

theorem rename_eq_self_of_isAtom {v : Value} (h : v.isAtom) : v.rename f = v := by
  cases v <;> simp [Value.isAtom, Value.rename] at h ⊢

theorem isAtom_rename (v : Value) : (v.rename f).isAtom = v.isAtom := by
  cases v <;> rfl

theorem sameAtom_rename (v w : Value) : (v.rename f).sameAtom (w.rename f) = v.sameAtom w := by
  cases v <;> cases w <;> rfl

theorem rename_eq_object {v : Value} {q : Path} :
    v.rename f = .object q ↔ ∃ p, v = .object p ∧ f p = q := by
  cases v <;> simp [Value.rename]

theorem lookup_renameFields (fields : Node) (k : String) :
    (renameFields f fields).lookup k = (fields.lookup k).map (·.rename f) := by
  induction fields with
  | nil => rfl
  | cons field rest ih =>
    obtain ⟨k', v⟩ := field
    have hcons : renameFields f ((k', v) :: rest) = (k', v.rename f) :: renameFields f rest := rfl
    rw [hcons, lookup_cons_eq_ite, lookup_cons_eq_ite, ih]
    by_cases hk : k = k' <;> simp [hk]

theorem setField_renameFields (k : String) (v : Value) (fields : Node) :
    setField k (v.rename f) (renameFields f fields) = renameFields f (setField k v fields) := by
  induction fields with
  | nil => rfl
  | cons field rest ih =>
    obtain ⟨k', w⟩ := field
    have hcons : ∀ w rest, renameFields f ((k', w) :: rest) =
        (k', w.rename f) :: renameFields f rest := fun _ _ => rfl
    rw [hcons, setField, setField]
    by_cases hk : k' = k
    · rw [if_pos hk, if_pos hk]
      rfl
    · rw [if_neg hk, if_neg hk, ih, hcons]

mutual

/-- To rename the objects of a value that is read is to read it elsewhere. -/
theorem valueOf_rename : ∀ (v : Json) (p : Path),
    (∀ q step, p <:+ q → f (step :: q) = step :: f q) → valueOf (f p) v = (valueOf p v).rename f
  | .arr items, p, hf => by rw [valueOf, valueOf, Value.rename, itemsOf_rename items p 0 hf]
  | .obj _, _, _ => by rw [valueOf, valueOf, Value.rename]
  | .null, _, _ | .bool _, _, _ | .int _, _, _ | .float _, _, _ | .str _, _, _ => by
    rw [valueOf, valueOf, Value.rename]

theorem itemsOf_rename : ∀ (items : List Json) (p : Path) (i : Nat),
    (∀ q step, p <:+ q → f (step :: q) = step :: f q) →
      itemsOf (f p) i items = renameItems f (itemsOf p i items)
  | [], _, _, _ => by rw [itemsOf, itemsOf, renameItems]
  | v :: rest, p, i, hf => by
    have hv := valueOf_rename v (.index i :: p) fun q step hq =>
      hf q step ((List.suffix_cons _ p).trans hq)
    rw [hf p _ List.suffix_rfl] at hv
    rw [itemsOf, itemsOf, renameItems, itemsOf_rename rest p (i + 1) hf, hv]

end

end

/-- Whether a heap holds the objects of another that are in `D`, renamed. The root is apart. -/
structure Heap.Embeds (f : Path → Path) (D : Set Path) (h h' : Heap) : Prop where
  node? : ∀ p ∈ D, h'.node? (f p) = (h.node? p).map (renameFields f)
  held : ∀ p ∈ D, ∀ k v r, (k, v) ∈ h.node p → v.Holds r → r ∈ D
  root : ∀ type, type ≠ "Program" → h.hasType [] type = false ∧ h'.hasType [] type = false
  root_eq : f [] = []

namespace Heap.Embeds

variable {f : Path → Path} {D : Set Path} {h h' : Heap} {p r : Path} {v : Value} {k : String}

theorem node (he : Embeds f D h h') (hp : p ∈ D) : h'.node (f p) = renameFields f (h.node p) := by
  rw [Heap.node, Heap.node, he.node? p hp]
  cases h.node? p <;> rfl

theorem get? (he : Embeds f D h h') (hp : p ∈ D) (k : String) :
    h'.get? (f p) k = (h.get? p k).map (·.rename f) := by
  rw [Heap.get?, Heap.get?, he.node hp, lookup_renameFields]

theorem get (he : Embeds f D h h') (hp : p ∈ D) (k : String) :
    h'.get (f p) k = (h.get p k).rename f := by
  rw [Heap.get, Heap.get, he.get? hp]
  cases h.get? p k <;> rfl

theorem hasType (he : Embeds f D h h') (hp : p ∈ D) (type : String) :
    h'.hasType (f p) type = h.hasType p type := by
  rw [Heap.hasType, Heap.hasType, he.get? hp]
  cases h.get? p "type" with
  | none => rfl
  | some v => cases v <;> rfl

theorem mem_of_get (he : Embeds f D h h') (hp : p ∈ D) (hv : h.get p k = .object r) : r ∈ D := by
  rw [Heap.get] at hv
  cases hg : h.get? p k with
  | none => simp [hg] at hv
  | some w =>
    obtain rfl : w = .object r := by simpa [hg] using hv
    exact he.held p hp k _ r (mem_of_lookup_eq_some hg) (Or.inl rfl)

theorem truthy (he : Embeds f D h h') (hv : ∀ r, v = .object r → r ∈ D) :
    h'.truthy (v.rename f) = h.truthy v := by
  cases v with
  | object r =>
    have hr := he.node (hv r rfl)
    simp only [Value.rename, Heap.truthy, hr, renameFields, List.isEmpty_map]
  | list items => simp [Value.rename, Heap.truthy, renameItems_eq_map]
  | _ => rfl

theorem syntaxNode? (he : Embeds f D h h') (hv : ∀ r, v = .object r → r ∈ D) :
    h'.syntaxNode? (v.rename f) = (h.syntaxNode? v).map f := by
  cases v with
  | object r =>
    simp only [Value.rename, Heap.syntaxNode?, he.get? (hv r rfl), Option.isSome_map]
    split <;> rfl
  | _ => rfl

theorem nodesIn (he : Embeds f D h h') (hv : ∀ r, v.Holds r → r ∈ D) :
    h'.nodesIn (v.rename f) = (h.nodesIn v).map f := by
  cases v with
  | list items =>
    have hitems : ∀ w ∈ items, h'.syntaxNode? (w.rename f) = (h.syntaxNode? w).map f := by
      intro w hw
      refine he.syntaxNode? fun r hr => hv r (Or.inr ⟨items, rfl, hr ▸ hw⟩)
    simp only [Value.rename, Heap.nodesIn, renameItems_eq_map, List.filterMap_map,
      List.map_filterMap]
    exact List.filterMap_congr hitems
  | object r =>
    have ho := he.syntaxNode? (v := .object r) fun r' hr => hv r' (Or.inl hr)
    simp only [Value.rename] at ho
    simp only [Value.rename, Heap.nodesIn, ho]
    cases h.syntaxNode? (.object r) <;> rfl
  | _ => rfl

/-- The children of a renamed node are its children, renamed. -/
theorem children (he : Embeds f D h h') (hp : p ∈ D) :
    h'.children (f p) = (h.children p).map f := by
  rw [Heap.children, Heap.children, he.node hp, renameFields, List.flatMap_map, List.map_flatMap]
  refine List.flatMap_congr fun field hfield => ?_
  obtain ⟨k, v⟩ := field
  dsimp only
  split
  · rfl
  · exact he.nodesIn fun r hr => he.held p hp k v r hfield hr

/-- Trees correspond with their properties shared if the same ones are shared. -/
theorem stage {tree tree' : Json} {S S' : Set Path}
    (he : Embeds f D (Heap.load tree) (Heap.load tree'))
    (hkey : ∀ p ∈ D, .key "key" :: p ∈ D ∧ f (.key "key" :: p) = .key "key" :: f p)
    (hS : ∀ p ∈ D, f p ∈ S' ↔ p ∈ S) :
    Embeds f D (IdentCase.Tree.stage tree S fun _ => none)
      (IdentCase.Tree.stage tree' S' fun _ => none) where
  node? p hp := by
    simp only [IdentCase.Tree.stage, he.node? p hp, Option.map_map]
    congr 1
    funext fields
    simp only [Function.comp_apply, place]
    by_cases hpS : p ∈ S
    · have hrename : Value.object (.key "key" :: f p) =
          (Value.object (.key "key" :: p)).rename f := by
        rw [Value.rename, (hkey p hp).2]
      rw [if_pos hpS, if_pos ((hS p hp).mpr hpS), hrename, setField_renameFields]
    · rw [if_neg hpS, if_neg (mt (hS p hp).mp hpS)]
  held p hp k v r hm hr := by
    rcases mem_node_stage hm with hm | ⟨-, hv⟩ | ⟨-, -, rfl⟩
    · exact he.held p hp k v r hm hr
    · cases hv
    · obtain rfl : .key "key" :: p = r := by simpa [Value.Holds] using hr
      exact (hkey p hp).1
  root type h := by
    rw [hasType_stage, hasType_stage]
    exact he.root type h
  root_eq := he.root_eq

theorem truthy_shorthand (he : Embeds f D h h') (hp : p ∈ D) :
    h'.truthy (h'.get (f p) "shorthand") = h.truthy (h.get p "shorthand") := by
  rw [he.get hp, he.truthy fun r hr => he.mem_of_get hp hr]

section
variable {tree tree' : Json} (he : Embeds f D (Heap.load tree) (Heap.load tree'))
  (hstep : ∀ p ∈ D, ∀ k, .key k :: p ∈ D ∧ f (.key k :: p) = .key k :: f p)

include he hstep

theorem hasType_key (hp : p ∈ D) (k type : String) :
    (Heap.load tree').hasType (.key k :: f p) type = (Heap.load tree).hasType (.key k :: p) type := by
  rw [← (hstep p hp k).2, he.hasType (hstep p hp k).1]

theorem get_key_name (hp : p ∈ D) (k : String) :
    (Heap.load tree').get (.key k :: f p) "name" =
      ((Heap.load tree).get (.key k :: p) "name").rename f := by
  rw [← (hstep p hp k).2, he.get (hstep p hp k).1]

theorem comparable_iff (hp : p ∈ D) : Comparable tree' (f p) ↔ Comparable tree p := by
  unfold Comparable
  rw [he.hasType hp, he.truthy_shorthand hp, he.hasType_key hstep hp, he.hasType_key hstep hp,
    he.get_key_name hstep hp, he.get_key_name hstep hp, isAtom_rename, isAtom_rename]

theorem mem_shorthands_iff (hp : p ∈ D) (hc : Comparable tree p) :
    f p ∈ shorthands tree' ↔ p ∈ shorthands tree := by
  rw [IdentCase.Tree.mem_shorthands_iff, IdentCase.Tree.mem_shorthands_iff, he.hasType hp,
    he.truthy_shorthand hp, he.hasType_key hstep hp, he.hasType_key hstep hp,
    he.get_key_name hstep hp, he.get_key_name hstep hp]
  refine and_congr_right fun h₁ => and_congr_right fun h₂ => and_congr_right fun h₃ =>
    and_congr_right fun h₄ => ?_
  have hatom := hc h₁ h₂ h₃ h₄
  rw [same_of_isAtom hatom, same_of_isAtom (by rwa [isAtom_rename, isAtom_rename]),
    sameAtom_rename]

/-- A node has the same children in two stages if it is shared in both or in none. -/
theorem children_stage {S S' : Set Path} {L L' : Path → Option Value}
    (hinj : ∀ q ∈ D, f q = f p → q = p) (hp : p ∈ D) (hS : f p ∈ S' ↔ p ∈ S) :
    (IdentCase.Tree.stage tree' S' L').children (f p) =
      ((IdentCase.Tree.stage tree S L).children p).map f := by
  have hone : Embeds f D (IdentCase.Tree.stage tree {q | q = p ∧ p ∈ S} fun _ => none)
      (IdentCase.Tree.stage tree' {q | q = f p ∧ f p ∈ S'} fun _ => none) :=
    he.stage (fun q hq => hstep q hq "key")
      (fun q hq => and_congr ⟨hinj q hq, fun h => h ▸ rfl⟩ hS)
  have hp' : (IdentCase.Tree.stage tree' S' L').children (f p) =
      (IdentCase.Tree.stage tree' {q | q = f p ∧ f p ∈ S'} fun _ => none).children (f p) :=
    children_stage_congr (by simp)
  rw [hp', hone.children hp]
  congr 1
  exact children_stage_congr (by simp)

end

end Heap.Embeds

end IdentCase.Tree
