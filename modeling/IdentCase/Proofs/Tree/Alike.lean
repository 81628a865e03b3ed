import IdentCase.Proofs.Tree.Relinking

/-! Trees that are alike but for some ranges and parents, and for the order of keys. Once they are
linked they hold the same, wherever a check looks. -/
namespace IdentCase.Tree

/-- Whether two trees hold the same at the paths in `D`. These are all paths but for ranges, and for
the parents of nodes that are reached below the root. -/
structure Alike (D : Set Path) (tree tree' : Json) : Prop where
  distinct : tree.Distinct
  distinct' : tree'.Distinct
  root : [] ∈ D
  key : ∀ p ∈ D, ∀ k, k ≠ "parent" → k ≠ "range" → .key k :: p ∈ D
  item : ∀ p ∈ D, ∀ i, .index i :: p ∈ D
  parent : ∀ p ∈ D, p = [] ∨ ¬ (Heap.load tree).Reaches [] p → .key "parent" :: p ∈ D
  get? : ∀ p ∈ D, ∀ k, .key k :: p ∈ D → (Heap.load tree').get? p k = (Heap.load tree).get? p k
  empty : ∀ p ∈ D, (Heap.load tree').node p = [] ↔ (Heap.load tree).node p = []

/-- Whether two heaps hold the same in the objects of `E`, but for ranges, and these hold each other. -/
structure Heap.Coincides (E : Set Path) (h h' : Heap) : Prop where
  get? : ∀ p ∈ E, ∀ k, k ≠ "range" → h'.get? p k = h.get? p k
  held : ∀ p ∈ E, ∀ k, k ≠ "range" → ∀ r, h.get p k = .object r → r ∈ E

section
variable {tree : Json} {S : Set Path} {L : Path → Option Value} {p c : Path} {k : String} {v : Value}

/-- The children of an object are the nodes in its fields. -/
theorem mem_children_load (hd : tree.Distinct) : c ∈ (Heap.load tree).children p ↔
    ∃ k v, (Heap.load tree).get? p k = some v ∧ k ∉ skippedKeys ∧ v.Holds c ∧
      ((Heap.load tree).get? c "type").isSome := by
  rw [Heap.mem_children]
  refine exists_congr fun k => exists_congr fun v => and_congr_left fun _ => ?_
  exact ⟨get?_of_mem_node hd, mem_node_of_get?⟩

/-- To share the key of a property is to drop its value from the children. -/
theorem mem_children_stage_of_mem (hd : tree.Distinct) (hs : Staged tree S L) (hp : p ∈ S) :
    c ∈ (stage tree S L).children p ↔
      c ∈ (Heap.load tree).children p ∧ c ≠ .key "value" :: p := by
  constructor
  · intro hc
    refine ⟨children_stage_subset hc, ?_⟩
    rintro rfl
    exact not_mem_children_of_value hd hs hp hc List.suffix_rfl
  · rintro ⟨hc, hne⟩
    obtain ⟨before, after, hvalue, hkey⟩ := children_stage_of_mem hs hp
    rw [hvalue, List.mem_append, List.mem_cons] at hc
    rw [hkey, List.mem_append, List.mem_cons]
    rcases hc with hc | hc | hc
    · exact Or.inl hc
    · exact absurd hc hne
    · exact Or.inr (Or.inr hc)

theorem children_stage_eq_map (hd : tree.Distinct) (hs : Staged tree S L) (hp : p ∈ S) :
    (stage tree S L).children p =
      ((Heap.load tree).children p).map fun c => if c = .key "value" :: p then .key "key" :: p else c := by
  obtain ⟨before, after, hvalue, hkey⟩ := children_stage_of_mem hs hp
  have hnodup := nodup_children_load (p := p) hd
  rw [hvalue, List.nodup_middle, List.nodup_cons, List.mem_append, not_or] at hnodup
  have hkeep : ∀ l : List Path, .key "value" :: p ∉ l →
      (l.map fun c => if c = .key "value" :: p then .key "key" :: p else c) = l := by
    intro l hl
    refine (List.map_congr_left fun c hc => ?_).trans (List.map_id l)
    refine if_neg ?_
    rintro rfl
    exact hl hc
  rw [hkey, hvalue, List.map_append, List.map_cons, if_pos rfl, hkeep before hnodup.1.1,
    hkeep after hnodup.1.2]

theorem staged_shorthands (tree : Json) : Staged tree (shorthands tree) fun _ => none where
  likely := by
    rintro p ⟨key, value, hs⟩
    exact hs.likely
  typed := by simp

/-- The children in a tree whose shorthands are shared. -/
theorem mem_children_shared (hd : tree.Distinct) : c ∈ (Heap.load tree).shared.children p ↔
    c ∈ (Heap.load tree).children p ∧ ¬ (p ∈ shorthands tree ∧ c = .key "value" :: p) := by
  rw [shared_eq_stage]
  by_cases hp : p ∈ shorthands tree
  · rw [mem_children_stage_of_mem hd (staged_shorthands tree) hp]
    simp [hp]
  · rw [children_stage_of_not_mem hp]
    simp [hp]

/-- What stands in a field of an object that is not reached is not reached either. -/
theorem not_reaches_key (hp : ¬ (Heap.load tree).Reaches [] p) (k : String) :
    ¬ (Heap.load tree).Reaches [] (.key k :: p) := by
  intro hr
  rcases Relation.ReflTransGen.cases_tail hr with he | ⟨q, hq, hc⟩
  · cases he
  · obtain rfl : p = q := (Heap.childPath_of_mem_children hc).holder_eq
    exact hp hq

/-- Neither is what has no type. -/
theorem not_reaches_of_untyped (hc : ((Heap.load tree).get? c "type").isSome = false)
    (hne : c ≠ []) : ¬ (Heap.load tree).Reaches [] c := by
  intro hr
  rcases Relation.ReflTransGen.cases_tail hr with he | ⟨q, -, hcq⟩
  · exact hne he
  · obtain ⟨-, -, -, -, -, ht⟩ := Heap.mem_children.mp hcq
    rw [hc] at ht
    cases ht

theorem get?_linked_of_not_reaches (hp : ¬ (Heap.load tree).Reaches [] p) (k : String) :
    (linked tree).get? p k = (Heap.load tree).get? p k := by
  have hl : ¬ (linked tree).Reaches [] p := fun h =>
    hp (reaches_load_of_shared (reaches_linked.mp h))
  rw [Heap.get?, Heap.get?, Heap.node, Heap.node, node?_linked_of_not_reaches hl]

/-- An object in a field of a node is reached in the linked tree, or was not reached before. -/
theorem reaches_or_not_reaches_key (hd : tree.Distinct) (hp : (linked tree).Reaches [] p)
    (hk : k ≠ "value" ∨ p ∉ shorthands tree) :
    (linked tree).Reaches [] (.key k :: p) ∨ ¬ (Heap.load tree).Reaches [] (.key k :: p) := by
  by_cases hskip : k ∈ skippedKeys
  · refine Or.inr fun hr => ?_
    rw [← stage_nothing] at hr
    exact (step_of_reaches hd staged_nothing hr List.suffix_rfl).1 hskip
  · cases ht : ((Heap.load tree).get? (.key k :: p) "type").isSome with
    | false => exact Or.inr (not_reaches_of_untyped ht (by simp))
    | true =>
      refine Or.inl (hp.tail ?_)
      obtain ⟨type, htype⟩ := Option.isSome_iff_exists.mp ht
      have hvalue := Heap.get_load_of_get? htype
      have hfield : (Heap.load tree).get? p k = some (.object (.key k :: p)) := by
        rw [Heap.get] at hvalue
        cases hg : (Heap.load tree).get? p k with
        | none => simp [hg] at hvalue
        | some w => simpa [hg] using hvalue
      rw [children_linked (reaches_linked.mp hp), mem_children_shared hd, mem_children_load hd]
      refine ⟨⟨k, _, hfield, hskip, Or.inl rfl, ht⟩, ?_⟩
      rintro ⟨hs, he⟩
      rcases hk with hk | hk
      · simp [hk] at he
      · exact hk hs

theorem parent_linked_eq_object (hr : ((Heap.load tree).get? [] "type").isSome) {r : Path}
    (hp : (linked tree).Reaches [] p) (hv : (linked tree).get p "parent" = .object r) :
    (linked tree).Reaches [] r ∨ p = [] ∧ r = [.key "parent"] := by
  by_cases hne : p = []
  · subst hne
    rw [Heap.get, get?_root_parent_linked hr] at hv
    exact Or.inr ⟨rfl, Heap.get_load_eq_object hv⟩
  · obtain ⟨q, hq, hreach, -, -⟩ := parent_linked hr hp hne
    rw [Heap.get, hq, Option.getD_some, Value.object.injEq] at hv
    exact Or.inl (hv ▸ hreach)

/-- An object in any other field of a node stands there, or it is the key that the node shares. -/
theorem field_linked_eq_object (hr : ((Heap.load tree).get? [] "type").isSome) {r : Path}
    (hp : (linked tree).Reaches [] p) (hk : k ≠ "parent") (hv : (linked tree).get p k = .object r) :
    ∃ k', r = .key k' :: p ∧ (k' = k ∨ k' = "key") ∧ (k' ≠ "value" ∨ p ∉ shorthands tree) := by
  by_cases hs : k = "value" ∧ p ∈ shorthands tree
  · obtain ⟨rfl, hs⟩ := hs
    rw [Heap.get, get?_linked_value hp hr hs, Option.getD_some, Value.object.injEq] at hv
    exact ⟨"key", hv.symm, Or.inr rfl, Or.inl (by decide)⟩
  · rw [not_and_or] at hs
    refine ⟨k, ?_, Or.inl rfl, hs⟩
    by_cases hval : k = "value"
    · subst hval
      have hS : p ∉ shorthandsFrom tree [] := fun h => hs.resolve_left (fun hne => hne rfl) h.2
      rw [Heap.get, linked, get?_stage_value_of_not_mem hS] at hv
      exact Heap.get_load_eq_object hv
    · rw [linked, get_stage_of_ne hk hval] at hv
      exact Heap.get_load_eq_object hv

end

namespace Alike

variable {D : Set Path} {tree tree' : Json} {p c : Path} {k : String}

theorem get (ha : Alike D tree tree') (hp : p ∈ D) (hk : .key k :: p ∈ D) :
    (Heap.load tree').get p k = (Heap.load tree).get p k := by
  rw [Heap.get, Heap.get, ha.get? p hp k hk]

theorem isSome_type (ha : Alike D tree tree') (hp : p ∈ D) :
    ((Heap.load tree').get? p "type").isSome = ((Heap.load tree).get? p "type").isSome := by
  rw [ha.get? p hp "type" (ha.key p hp "type" (by decide) (by decide))]

theorem hasType (ha : Alike D tree tree') (hp : p ∈ D) (type : String) :
    (Heap.load tree').hasType p type = (Heap.load tree).hasType p type := by
  rw [Heap.hasType, Heap.hasType, ha.get? p hp "type" (ha.key p hp "type" (by decide) (by decide))]

theorem mem_of_childPath (ha : Alike D tree tree') (hp : p ∈ D) (hc : ChildPath p c) : c ∈ D := by
  have hskip : ∀ {k}, k ∉ skippedKeys → .key k :: p ∈ D := by
    intro k hk
    refine ha.key p hp k ?_ ?_
    · rintro rfl
      exact hk (by decide)
    · rintro rfl
      exact hk (by decide)
  cases hc with
  | field hk => exact hskip hk
  | item i hk => exact ha.item _ (hskip hk) i

theorem mem_children (ha : Alike D tree tree') (hp : p ∈ D) :
    c ∈ (Heap.load tree').children p ↔ c ∈ (Heap.load tree).children p := by
  by_cases hc : ChildPath p c
  · have hcD := ha.mem_of_childPath hp hc
    rw [mem_children_load ha.distinct', mem_children_load ha.distinct]
    refine exists_congr fun k => exists_congr fun v => ?_
    by_cases hk : k ∈ skippedKeys
    · simp [hk]
    · have hkD : .key k :: p ∈ D := ha.mem_of_childPath hp (.field hk)
      rw [ha.get? p hp k hkD, ha.isSome_type hcD]
  · exact iff_of_false (fun h => hc (Heap.childPath_of_mem_children h))
      fun h => hc (Heap.childPath_of_mem_children h)

theorem mem_of_reaches (ha : Alike D tree tree') (hp : (Heap.load tree).Reaches [] p) : p ∈ D := by
  induction hp with
  | refl => exact ha.root
  | tail _ hc ih => exact ha.mem_of_childPath ih (Heap.childPath_of_mem_children hc)

theorem mem_of_shared_reaches (ha : Alike D tree tree') (hp : (Heap.load tree).shared.Reaches [] p) :
    p ∈ D := ha.mem_of_reaches (reaches_load_of_shared hp)

theorem reaches (ha : Alike D tree tree') :
    (Heap.load tree').Reaches [] p ↔ (Heap.load tree).Reaches [] p := by
  constructor
  · intro hp
    induction hp with
    | refl => exact .refl
    | tail _ hc ih => exact ih.tail ((ha.mem_children (ha.mem_of_reaches ih)).mp hc)
  · intro hp
    induction hp with
    | refl => exact .refl
    | tail hb hc ih => exact ih.tail ((ha.mem_children (ha.mem_of_reaches hb)).mpr hc)

theorem truthy_shorthand (ha : Alike D tree tree') (hp : p ∈ D) :
    (Heap.load tree').truthy ((Heap.load tree').get p "shorthand") =
      (Heap.load tree).truthy ((Heap.load tree).get p "shorthand") := by
  have hD := ha.key p hp "shorthand" (by decide) (by decide)
  rw [ha.get hp hD]
  cases hv : (Heap.load tree).get p "shorthand" with
  | object q =>
    obtain rfl := Heap.get_load_eq_object hv
    have hempty := ha.empty _ hD
    simp only [Heap.truthy]
    rw [Bool.eq_iff_iff]
    simp [hempty]
  | _ => rfl

section
variable (ha : Alike D tree tree') (hp : p ∈ D)

include ha hp

theorem hasType_key (hk : k ≠ "parent" ∧ k ≠ "range") (type : String) :
    (Heap.load tree').hasType (.key k :: p) type = (Heap.load tree).hasType (.key k :: p) type :=
  ha.hasType (ha.key p hp k hk.1 hk.2) type

theorem get_key_name (hk : k ≠ "parent" ∧ k ≠ "range") :
    (Heap.load tree').get (.key k :: p) "name" = (Heap.load tree).get (.key k :: p) "name" := by
  have hkD := ha.key p hp k hk.1 hk.2
  exact ha.get hkD (ha.key _ hkD "name" (by decide) (by decide))

theorem comparable : Comparable tree' p ↔ Comparable tree p := by
  unfold Comparable
  rw [ha.hasType hp, ha.truthy_shorthand hp, ha.hasType_key hp (by decide),
    ha.hasType_key hp (by decide), ha.get_key_name hp (by decide), ha.get_key_name hp (by decide)]

theorem mem_shorthands (hc : Comparable tree p) : p ∈ shorthands tree' ↔ p ∈ shorthands tree := by
  rw [mem_shorthands_iff, mem_shorthands_iff, ha.hasType hp, ha.truthy_shorthand hp,
    ha.hasType_key hp (by decide), ha.hasType_key hp (by decide), ha.get_key_name hp (by decide),
    ha.get_key_name hp (by decide)]
  refine and_congr_right fun h₁ => and_congr_right fun h₂ => and_congr_right fun h₃ =>
    and_congr_right fun h₄ => ?_
  have hatom := hc h₁ h₂ h₃ h₄
  rw [same_of_isAtom hatom, same_of_isAtom hatom]

theorem children_shared (hc : Comparable tree p)
    (hch : (Heap.load tree').children p = (Heap.load tree).children p) :
    (Heap.load tree').shared.children p = (Heap.load tree).shared.children p := by
  have hS := ha.mem_shorthands hp hc
  rw [shared_eq_stage, shared_eq_stage]
  by_cases hs : p ∈ shorthands tree
  · rw [children_stage_eq_map ha.distinct' (staged_shorthands tree') (hS.mpr hs),
      children_stage_eq_map ha.distinct (staged_shorthands tree) hs, hch]
  · rw [children_stage_of_not_mem hs, children_stage_of_not_mem (mt hS.mp hs), hch]

theorem mem_children_shared (hc : Comparable tree p) :
    c ∈ (Heap.load tree').shared.children p ↔ c ∈ (Heap.load tree).shared.children p := by
  rw [IdentCase.Tree.mem_children_shared ha.distinct', IdentCase.Tree.mem_children_shared ha.distinct,
    ha.mem_children hp, ha.mem_shorthands hp hc]

end

section
variable (ha : Alike D tree tree')
  (hn : ∀ p, (Heap.load tree).shared.Reaches [] p → Comparable tree p)

include ha hn

theorem shared_reaches :
    (Heap.load tree').shared.Reaches [] p ↔ (Heap.load tree).shared.Reaches [] p := by
  constructor
  · intro hp
    induction hp with
    | refl => exact .refl
    | tail _ hc ih =>
      exact ih.tail ((ha.mem_children_shared (ha.mem_of_shared_reaches ih) (hn _ ih)).mp hc)
  · intro hp
    induction hp with
    | refl => exact .refl
    | tail hb hc ih =>
      exact ih.tail ((ha.mem_children_shared (ha.mem_of_shared_reaches hb) (hn _ hb)).mpr hc)

theorem comparable_of_shared_reaches :
    ∀ p, (Heap.load tree').shared.Reaches [] p → Comparable tree' p := by
  intro p hp
  have hp' := (ha.shared_reaches hn).mp hp
  exact (ha.comparable (ha.mem_of_shared_reaches hp')).mpr (hn p hp')

theorem linked_reaches : (linked tree').Reaches [] p ↔ (linked tree).Reaches [] p := by
  rw [reaches_linked, reaches_linked, ha.shared_reaches hn]

theorem mem_shorthandsFrom : p ∈ shorthandsFrom tree' [] ↔ p ∈ shorthandsFrom tree [] := by
  constructor
  · rintro ⟨hp, hs⟩
    have hp' := (ha.shared_reaches hn).mp hp
    exact ⟨hp', (ha.mem_shorthands (ha.mem_of_shared_reaches hp') (hn p hp')).mp hs⟩
  · rintro ⟨hp, hs⟩
    exact ⟨(ha.shared_reaches hn).mpr hp,
      (ha.mem_shorthands (ha.mem_of_shared_reaches hp) (hn p hp)).mpr hs⟩

end

/-- The objects of a linked tree in which a check may look: those that are reached, and all that
never were. -/
def inSight (D : Set Path) (tree : Json) : Set Path :=
  {p | p ∈ D ∧ ((linked tree).Reaches [] p ∨ ¬ (Heap.load tree).Reaches [] p)}

section
variable (ha : Alike D tree tree') (hr : ((Heap.load tree).get? [] "type").isSome)
  (hn : ∀ p, (Heap.load tree).shared.Reaches [] p → Comparable tree p)

include ha

theorem key_parent_mem (hp : p ∈ inSight D tree) (h : p = [] ∨ ¬ (linked tree).Reaches [] p) :
    .key "parent" :: p ∈ D :=
  ha.parent p hp.1 (h.imp_right fun hl => hp.2.resolve_left hl)

include hr hn

theorem get?_linked_parent (hp : p ∈ inSight D tree) :
    (linked tree').get? p "parent" = (linked tree).get? p "parent" := by
  have hr' : ((Heap.load tree').get? [] "type").isSome := by
    rw [ha.isSome_type ha.root]
    exact hr
  by_cases hl : (linked tree).Reaches [] p
  · by_cases hne : p = []
    · subst hne
      have hD := ha.key_parent_mem hp (Or.inl rfl)
      rw [get?_root_parent_linked hr, get?_root_parent_linked hr', ha.get? [] ha.root "parent" hD]
    · have hl' := (ha.linked_reaches hn).mpr hl
      rw [linked, linked, get?_stage_parent (staged_linked hr), get?_stage_parent (staged_linked hr'),
        linkTo_below_of_reaches hl hne, linkTo_below_of_reaches hl' hne]
      rfl
  · have hload := hp.2.resolve_left hl
    rw [get?_linked_of_not_reaches hload, get?_linked_of_not_reaches (mt ha.reaches.mp hload),
      ha.get? p hp.1 "parent" (ha.key_parent_mem hp (Or.inr hl))]

theorem get?_linked_value (hp : p ∈ D) :
    (linked tree').get? p "value" = (linked tree).get? p "value" := by
  have hr' : ((Heap.load tree').get? [] "type").isSome := by
    rw [ha.isSome_type ha.root]
    exact hr
  by_cases hs : p ∈ shorthandsFrom tree []
  · have hs' := (ha.mem_shorthandsFrom hn).mpr hs
    rw [linked, linked, get?_stage_value_of_mem (staged_linked hr) hs,
      get?_stage_value_of_mem (staged_linked hr') hs']
  · have hs' := mt (ha.mem_shorthandsFrom hn).mp hs
    rw [linked, linked, get?_stage_value_of_not_mem hs, get?_stage_value_of_not_mem hs',
      ha.get? p hp "value" (ha.key p hp "value" (by decide) (by decide))]

/-- Linked trees that were alike hold the same, wherever a check may look. -/
theorem coincides : (linked tree).Coincides (inSight D tree) (linked tree') where
  get? p hp k hk := by
    by_cases hpar : k = "parent"
    · subst hpar
      exact ha.get?_linked_parent hr hn hp
    · by_cases hval : k = "value"
      · subst hval
        exact ha.get?_linked_value hr hn hp.1
      · rw [linked, linked, get?_stage_of_ne hpar hval, get?_stage_of_ne hpar hval,
          ha.get? p hp.1 k (ha.key p hp.1 k hpar hk)]
  held p hp k hk r hv := by
    by_cases hl : (linked tree).Reaches [] p
    · by_cases hpar : k = "parent"
      · subst hpar
        rcases parent_linked_eq_object hr hl hv with hreach | ⟨rfl, rfl⟩
        · exact ⟨ha.mem_of_shared_reaches (reaches_linked.mp hreach), Or.inl hreach⟩
        · exact ⟨ha.key_parent_mem hp (Or.inl rfl),
            reaches_or_not_reaches_key ha.distinct hl (Or.inl (by decide))⟩
      · obtain ⟨k', rfl, hk', hs⟩ := field_linked_eq_object hr hl hpar hv
        refine ⟨?_, reaches_or_not_reaches_key ha.distinct hl hs⟩
        rcases hk' with rfl | rfl
        · exact ha.key p hp.1 k' hpar hk
        · exact ha.key p hp.1 "key" (by decide) (by decide)
    · have hload := hp.2.resolve_left hl
      rw [Heap.get, get?_linked_of_not_reaches hload] at hv
      obtain rfl := Heap.get_load_eq_object hv
      refine ⟨?_, Or.inr (not_reaches_key hload k)⟩
      by_cases hpar : k = "parent"
      · rw [hpar]
        exact ha.key_parent_mem hp (Or.inr hl)
      · exact ha.key p hp.1 k hpar hk

end

end Alike

end IdentCase.Tree
