import IdentCase.Proofs.Tree.Shorthand
import Mathlib.Data.Set.Insert

/-! The heaps between a tree as it was read and the tree with its links: some properties have got
their keys as values, and the parents of some objects have been set. -/
namespace IdentCase.Tree

def Value.isAtom : Value → Bool
  | .list _ | .object _ => false
  | _ => true

def place : Option Value → Node → Node
  | none, fields => fields
  | some v, fields => setField "parent" v fields

open scoped Classical in
/-- A tree in which the properties in `S` have their keys as values, and objects the parents of `L`. -/
noncomputable def stage (tree : Json) (S : Set Path) (L : Path → Option Value) : Heap where
  node? p := ((Heap.load tree).node? p).map fun fields =>
    place (L p) (if p ∈ S then setField "value" (.object (.key "key" :: p)) fields else fields)
  size := (Heap.load tree).size
  bounded := by simpa only [Option.isSome_map] using (Heap.load tree).bounded

/-- A property written as a shorthand. It is one at least if one of its names is an atom. -/
structure Likely (tree : Json) (p : Path) : Prop where
  isProperty : (Heap.load tree).hasType p "Property"
  isShorthand : (Heap.load tree).truthy ((Heap.load tree).get p "shorthand")
  key : (Heap.load tree).hasType (.key "key" :: p) "Identifier"
  value : (Heap.load tree).hasType (.key "value" :: p) "Identifier"
  shares : ((Heap.load tree).get (.key "key" :: p) "name").isAtom ∨
      ((Heap.load tree).get (.key "value" :: p) "name").isAtom →
    ∃ key value, (Heap.load tree).Shares p key value

/-- What holds of the properties and parents that have been set. -/
structure Staged (tree : Json) (S : Set Path) (L : Path → Option Value) : Prop where
  likely : ∀ p ∈ S, Likely tree p
  typed : ∀ p v, L p = some v → ((Heap.load tree).get? p "type").isSome

namespace Heap

theorem isSome_get?_type {h : Heap} {p : Path} {type : String} (ht : h.hasType p type) :
    (h.get? p "type").isSome := by
  unfold hasType at ht
  split at ht
  · next heq => simp [heq]
  · cases ht

theorem identifier?_eq_some {h : Heap} {v : Value} {c : Path} :
    h.identifier? v = some c ↔ v = .object c ∧ h.hasType c "Identifier" := by
  simp only [identifier?, Option.filter_eq_some_iff, syntaxNode?_eq_some]
  exact ⟨fun hc => ⟨hc.1.1, hc.2⟩, fun hc => ⟨⟨hc.1, isSome_get?_type hc.2⟩, hc.2⟩⟩

theorem get_load_eq_object {tree : Json} {p c : Path} {k : String}
    (h : (load tree).get p k = .object c) : c = .key k :: p := by
  rw [get, get?_load] at h
  cases hv : valueAt? tree (.key k :: p) with
  | none => simp [hv] at h
  | some v =>
    simp only [hv, Option.map_some, Option.getD_some] at h
    exact (valueOf_eq_object h).1

theorem get_load_of_get? {tree : Json} {p : Path} {k key : String} {v : Value}
    (h : (load tree).get? (.key k :: p) key = some v) :
    (load tree).get p k = .object (.key k :: p) := by
  obtain ⟨fields, hf⟩ := exists_fields_of_get? h
  simp [get, get?_load, hf, valueOf]

theorem identifier?_load {tree : Json} {p c : Path} {k : String} :
    (load tree).identifier? ((load tree).get p k) = some c ↔
      c = .key k :: p ∧ (load tree).hasType (.key k :: p) "Identifier" := by
  rw [identifier?_eq_some]
  constructor
  · rintro ⟨ho, ht⟩
    obtain rfl := get_load_eq_object ho
    exact ⟨rfl, ht⟩
  · rintro ⟨rfl, ht⟩
    obtain ⟨v, hv⟩ := Option.isSome_iff_exists.mp (isSome_get?_type ht)
    exact ⟨get_load_of_get? hv, ht⟩

theorem Shares.likely {tree : Json} {p key value : Path} (hs : (load tree).Shares p key value) :
    Likely tree p :=
  ⟨hs.isProperty, hs.isShorthand, (identifier?_load.mp hs.key_eq).2, (identifier?_load.mp hs.value_eq).2,
    fun _ => ⟨key, value, hs⟩⟩

end Heap

section
variable {tree : Json} {S S' : Set Path} {L : Path → Option Value} {p q c : Path} {k : String}

theorem lookup_place (v : Option Value) (fields : Node) (k : String) :
    (place v fields).lookup k = if k = "parent" then v.or (fields.lookup k) else fields.lookup k := by
  cases v with
  | none => simp [place]
  | some v => simp [place, lookup_setField]

theorem stage_nothing : stage tree ∅ (fun _ => none) = Heap.load tree := by
  unfold stage
  simp only [Set.mem_empty_iff_false, if_false, place, Option.map_id']

theorem get?_stage_of_ne (hp : k ≠ "parent") (hv : k ≠ "value") :
    (stage tree S L).get? p k = (Heap.load tree).get? p k := by
  simp only [Heap.get?, Heap.node, stage]
  cases (Heap.load tree).node? p with
  | none => rfl
  | some fields =>
    simp only [Option.map_some, Option.getD_some, lookup_place, hp, if_false]
    split
    · rw [lookup_setField, if_neg hv]
    · rfl

theorem get?_stage_parent (hs : Staged tree S L) :
    (stage tree S L).get? p "parent" = (L p).or ((Heap.load tree).get? p "parent") := by
  simp only [Heap.get?, Heap.node, stage]
  cases hn : (Heap.load tree).node? p with
  | none =>
    cases hL : L p with
    | none => rfl
    | some v =>
      have ht := hs.typed p v hL
      simp [Heap.get?, Heap.node, hn] at ht
  | some fields =>
    simp only [Option.map_some, Option.getD_some, lookup_place, if_true]
    split
    · rw [lookup_setField, if_neg (by decide)]
    · rfl

theorem get?_stage_value_of_mem (hs : Staged tree S L) (hp : p ∈ S) :
    (stage tree S L).get? p "value" = some (.object (.key "key" :: p)) := by
  simp only [Heap.get?, Heap.node, stage]
  cases hn : (Heap.load tree).node? p with
  | none =>
    have ht := Heap.isSome_get?_type (hs.likely p hp).isProperty
    simp [Heap.get?, Heap.node, hn] at ht
  | some fields =>
    simp only [Option.map_some, Option.getD_some, lookup_place]
    rw [if_neg (by decide), if_pos hp, lookup_setField, if_pos rfl]

theorem get?_stage_value_of_not_mem (hp : p ∉ S) :
    (stage tree S L).get? p "value" = (Heap.load tree).get? p "value" := by
  simp only [Heap.get?, Heap.node, stage]
  cases (Heap.load tree).node? p with
  | none => rfl
  | some fields =>
    simp only [Option.map_some, Option.getD_some, lookup_place]
    rw [if_neg (by decide), if_neg hp]

theorem hasType_stage (type : String) :
    (stage tree S L).hasType p type = (Heap.load tree).hasType p type := by
  rw [Heap.hasType, Heap.hasType, get?_stage_of_ne (by decide) (by decide)]

theorem nodesIn_stage (v : Value) :
    (stage tree S L).nodesIn v = (Heap.load tree).nodesIn v := by
  have hn : (stage tree S L).syntaxNode? = (Heap.load tree).syntaxNode? := by
    funext v
    cases v with
    | object q => simp only [Heap.syntaxNode?, get?_stage_of_ne (k := "type") (by decide) (by decide)]
    | _ => rfl
  simp only [Heap.nodesIn, hn]

theorem place_eq_nil (v : Option Value) (fields : Node) :
    place v fields = [] ↔ v = none ∧ fields = [] := by
  cases v with
  | none => simp [place]
  | some v => simp [place, setField_ne_nil]

theorem truthy_stage (hs : Staged tree S L) (v : Value) :
    (stage tree S L).truthy v = (Heap.load tree).truthy v := by
  cases v with
  | object q =>
    simp only [Heap.truthy, Heap.node, stage]
    cases hn : (Heap.load tree).node? q with
    | none => rfl
    | some fields =>
      cases fields with
      | nil =>
        have hL : L q = none := by
          by_contra hne
          obtain ⟨v, hv⟩ := Option.ne_none_iff_exists'.mp hne
          have ht := hs.typed q v hv
          simp [Heap.get?, Heap.node, hn] at ht
        have hS : q ∉ S := by
          intro hq
          have ht := Heap.isSome_get?_type (hs.likely q hq).isProperty
          simp [Heap.get?, Heap.node, hn] at ht
        simp [hL, hS, place]
      | cons field rest =>
        simp only [Option.map_some, Option.getD_some, List.isEmpty_cons, Bool.not_false,
          Bool.not_eq_true', List.isEmpty_eq_false_iff, ne_eq, place_eq_nil, not_and]
        intro _
        split
        · exact setField_ne_nil _ _ _
        · exact List.cons_ne_nil _ _
  | _ => rfl

/-- Only two lists or two objects are compared by what they hold. -/
theorem same_of_isAtom {h : Heap} {v w : Value} (ha : v.isAtom ∨ w.isAtom) :
    h.same v w = .ok (v.sameAtom w) := by
  cases v <;> cases w <;> first | rfl | simp [Value.isAtom] at ha

theorem get_stage_of_ne (hp : k ≠ "parent") (hv : k ≠ "value") :
    (stage tree S L).get p k = (Heap.load tree).get p k := by
  rw [Heap.get, Heap.get, get?_stage_of_ne hp hv]

theorem identifier?_stage (v : Value) :
    (stage tree S L).identifier? v = (Heap.load tree).identifier? v := by
  ext c
  simp only [Heap.identifier?_eq_some, hasType_stage]

/-- What a node of a stage shares it has not shared before. -/
theorem shares_stage {key value : Path} (hs : Staged tree S L)
    (h : (stage tree S L).Shares p key value) :
    p ∉ S ∧ key = .key "key" :: p ∧ Likely tree p := by
  have hk := h.key_eq
  rw [identifier?_stage, get_stage_of_ne (by decide) (by decide), Heap.identifier?_load] at hk
  obtain ⟨rfl, hkt⟩ := hk
  have hp : p ∉ S := by
    intro hp
    have hv := h.value_eq
    rw [Heap.get, get?_stage_value_of_mem hs hp, Heap.identifier?_eq_some] at hv
    exact h.ne (by simpa using hv.1)
  have hv := h.value_eq
  rw [Heap.get, get?_stage_value_of_not_mem hp, identifier?_stage] at hv
  have hvalue : (Heap.load tree).identifier? ((Heap.load tree).get p "value") = some value := hv
  obtain ⟨rfl, hvt⟩ := Heap.identifier?_load.mp hvalue
  have hprop := h.isProperty
  rw [hasType_stage] at hprop
  have hsh := h.isShorthand
  rw [get_stage_of_ne (by decide) (by decide), truthy_stage hs] at hsh
  refine ⟨hp, rfl, hprop, hsh, hkt, hvt, fun ha => ⟨_, _, hprop, hsh, ?_, hvalue, h.ne, ?_⟩⟩
  · exact Heap.identifier?_load.mpr ⟨rfl, hkt⟩
  · have hn := h.sameName
    rw [get_stage_of_ne (by decide) (by decide), get_stage_of_ne (by decide) (by decide),
      same_of_isAtom ha] at hn
    rwa [same_of_isAtom ha]

theorem heap_eq_of_node? {h h' : Heap} (hn : ∀ q, h.node? q = h'.node? q)
    (hs : h.size = h'.size) : h = h' := by
  cases h
  cases h'
  simp only [Heap.mk.injEq]
  exact ⟨funext hn, hs⟩

theorem setField_place (v : Option Value) (fields : Node) (u : Value) :
    setField "parent" u (place v fields) = place (some u) fields := by
  cases v with
  | none => rfl
  | some v => exact setField_setField _ _ _ _

theorem node?_load_of_get? {key : String} {v : Value}
    (h : (Heap.load tree).get? p key = some v) :
    ∃ fields, (Heap.load tree).node? p = some fields ∧ fields.lookup key = some v := by
  simp only [Heap.get?, Heap.node] at h
  cases hn : (Heap.load tree).node? p with
  | none => simp [hn] at h
  | some fields => exact ⟨fields, rfl, by simpa [hn] using h⟩

theorem isSome_node?_stage (hc : ((Heap.load tree).get? c "type").isSome) :
    ((stage tree S L).node? c).isSome := by
  simpa only [stage, Option.isSome_map] using Heap.isSome_node?_of_get? hc

theorem set_parent_stage (hc : ((Heap.load tree).get? c "type").isSome) (v : Value) :
    (stage tree S L).set c "parent" v = stage tree S (Function.update L c (some v)) := by
  obtain ⟨type, ht⟩ := Option.isSome_iff_exists.mp hc
  obtain ⟨fields, hf, -⟩ := node?_load_of_get? ht
  refine heap_eq_of_node? (fun q => ?_) (Heap.size_set (isSome_node?_stage hc))
  simp only [Heap.set, Heap.node, stage]
  by_cases hq : q = c
  · subst hq
    simp [hf, setField_place]
  · simp [hq]

theorem set_value_stage (hp : Likely tree p) :
    (stage tree S L).set p "value" (.object (.key "key" :: p)) = stage tree (insert p S) L := by
  have htype := Heap.isSome_get?_type hp.isProperty
  obtain ⟨type, ht⟩ := Option.isSome_iff_exists.mp (Heap.isSome_get?_type hp.value)
  have hv := Heap.get_load_of_get? ht
  rw [Heap.get] at hv
  cases hg : (Heap.load tree).get? p "value" with
  | none => simp [hg] at hv
  | some w =>
    obtain ⟨fields, hf, hl⟩ := node?_load_of_get? hg
    have hk : "value" ∈ fields.map Prod.fst := List.mem_map.mpr ⟨_, mem_of_lookup_eq_some hl, rfl⟩
    refine heap_eq_of_node? (fun q => ?_) (Heap.size_set (isSome_node?_stage htype))
    simp only [Heap.set, Heap.node, stage]
    by_cases hq : q = p
    · subst hq
      simp only [hf, Option.map_some, Option.getD_some, if_true, Set.mem_insert_iff, true_or]
      congr 1
      cases hL : L q with
      | none =>
        simp only [place]
        split
        · rw [setField_setField]
        · rfl
      | some u =>
        simp only [place]
        split
        · rw [setField_comm (by decide) _ _ (by rw [map_fst_setField, if_pos hk]; exact hk),
            setField_setField]
        · rw [setField_comm (by decide) _ _ hk]
    · have hmem : q ∈ insert p S ↔ q ∈ S := by simp [hq]
      by_cases h : q ∈ S
      · simp only [hq, if_false, if_pos h, if_pos (hmem.mpr h)]
      · simp only [hq, if_false, if_neg h, if_neg (mt hmem.mp h)]

theorem value_mem_keys (hs : Staged tree S L) (hp : p ∈ S) {fields : Node}
    (hf : (Heap.load tree).node? p = some fields) : "value" ∈ fields.map Prod.fst := by
  obtain ⟨type, ht⟩ := Option.isSome_iff_exists.mp (Heap.isSome_get?_type (hs.likely p hp).value)
  have hv := Heap.get_load_of_get? ht
  rw [Heap.get, Heap.get?, Heap.node, hf, Option.getD_some] at hv
  cases hl : fields.lookup "value" with
  | none => simp [hl] at hv
  | some w => exact List.mem_map.mpr ⟨_, mem_of_lookup_eq_some hl, rfl⟩

open scoped Classical in
theorem keys_stage (hs : Staged tree S L) :
    ((stage tree S L).node p).map Prod.fst =
      if (L p).isNone ∨ "parent" ∈ ((Heap.load tree).node p).map Prod.fst
      then ((Heap.load tree).node p).map Prod.fst
      else ((Heap.load tree).node p).map Prod.fst ++ ["parent"] := by
  cases hf : (Heap.load tree).node? p with
  | none =>
    have hL : L p = none := by
      by_contra hne
      obtain ⟨v, hv⟩ := Option.ne_none_iff_exists'.mp hne
      have ht := hs.typed p v hv
      simp [Heap.get?, Heap.node, hf] at ht
    simp [Heap.node, stage, hf, hL]
  | some fields =>
    simp only [Heap.node, stage, hf, Option.map_some, Option.getD_some]
    generalize hg : (if p ∈ S then setField "value" (.object (.key "key" :: p)) fields
      else fields) = fields'
    have hkeys : fields'.map Prod.fst = fields.map Prod.fst := by
      rw [← hg]
      split
      · next hp => rw [map_fst_setField, if_pos (value_mem_keys hs hp hf)]
      · rfl
    cases hL : L p with
    | none => simp [place, hkeys]
    | some v => simp [place, map_fst_setField, hkeys]

theorem staged_nothing : Staged tree ∅ fun _ => none := ⟨by simp, by simp⟩

theorem staged_insert (hs : Staged tree S L) (hp : Likely tree p) : Staged tree (insert p S) L := by
  refine ⟨?_, hs.typed⟩
  rintro q (rfl | hq)
  · exact hp
  · exact hs.likely q hq

theorem staged_update (hs : Staged tree S L) (hc : ((Heap.load tree).get? c "type").isSome)
    (v : Value) : Staged tree S (Function.update L c (some v)) := by
  refine ⟨hs.likely, fun q w hq => ?_⟩
  by_cases hqc : q = c
  · exact hqc ▸ hc
  · rw [Function.update_of_ne hqc] at hq
    exact hs.typed q w hq

def childrenIn (h : Heap) (fields : Node) : List Path :=
  fields.flatMap fun (key, v) => if skippedKeys.contains key then [] else h.nodesIn v

theorem childrenIn_place (h : Heap) (v : Option Value) (fields : Node) :
    childrenIn h (place v fields) = childrenIn h fields := by
  have hparent : "parent" ∈ skippedKeys := by decide
  cases v with
  | none => rfl
  | some v =>
    simp only [place]
    induction fields with
    | nil => simp [setField, childrenIn, hparent]
    | cons field rest ih =>
      obtain ⟨k, w⟩ := field
      by_cases hk : k = "parent"
      · subst hk
        simp [setField, childrenIn, hparent]
      · simp only [setField, hk, if_false, childrenIn, List.flatMap_cons] at ih ⊢
        rw [ih]

theorem children_eq_childrenIn (h : Heap) (p : Path) : h.children p = childrenIn h (h.node p) := rfl

/-- Only what is shared bears on the children. -/
theorem children_stage_congr {L' : Path → Option Value} (hp : p ∈ S ↔ p ∈ S') :
    (stage tree S L).children p = (stage tree S' L').children p := by
  have hn : ∀ S L, childrenIn (stage tree S L) = childrenIn (Heap.load tree) := by
    intro S L
    funext fields
    simp only [childrenIn, nodesIn_stage]
  rw [children_eq_childrenIn, children_eq_childrenIn, hn, hn]
  simp only [Heap.node, stage]
  cases (Heap.load tree).node? p with
  | none => rfl
  | some fields =>
    simp only [Option.map_some, Option.getD_some, childrenIn_place]
    congr 1
    by_cases h : p ∈ S
    · rw [if_pos h, if_pos (hp.mp h)]
    · rw [if_neg h, if_neg (mt hp.mpr h)]

theorem children_stage_of_not_mem (hp : p ∉ S) :
    (stage tree S L).children p = (Heap.load tree).children p := by
  rw [← stage_nothing]
  exact children_stage_congr (by simp [hp])

open scoped Classical in
theorem mem_node_stage {v : Value} (h : (k, v) ∈ (stage tree S L).node p) :
    (k, v) ∈ (Heap.load tree).node p ∨ k = "parent" ∧ L p = some v ∨
      p ∈ S ∧ k = "value" ∧ v = .object (.key "key" :: p) := by
  simp only [Heap.node, stage] at h ⊢
  cases hn : (Heap.load tree).node? p with
  | none => simp [hn] at h
  | some fields =>
    rw [hn, Option.map_some, Option.getD_some] at h
    have hplace : (k, v) ∈ (if p ∈ S then setField "value" (.object (.key "key" :: p)) fields
        else fields) ∨ k = "parent" ∧ L p = some v := by
      cases hL : L p with
      | none => exact Or.inl (by simpa [hL, place] using h)
      | some u =>
        rw [hL, place] at h
        exact (mem_setField h).imp_right fun hk => ⟨hk.1, congrArg some hk.2.symm⟩
    rcases hplace with hm | hk
    · split at hm
      · next hp =>
        rcases mem_setField hm with hm | ⟨hk, hv⟩
        · exact Or.inl hm
        · exact Or.inr (Or.inr ⟨hp, hk, hv⟩)
      · exact Or.inl hm
    · exact Or.inr (Or.inl hk)

/-- Sharing only takes children away. -/
theorem children_stage_subset (hc : c ∈ (stage tree S L).children p) :
    c ∈ (Heap.load tree).children p := by
  obtain ⟨key, v, hm, hk, hv, ht⟩ := Heap.mem_children.mp hc
  rw [get?_stage_of_ne (by decide) (by decide)] at ht
  rcases mem_node_stage hm with hm | ⟨rfl, -⟩ | ⟨hp, -, rfl⟩
  · exact Heap.mem_children.mpr ⟨key, v, hm, hk, hv, ht⟩
  · exact absurd (by decide) hk
  · obtain rfl : .key "key" :: p = c := by simpa [Value.Holds] using hv
    obtain ⟨type, htype⟩ := Option.isSome_iff_exists.mp ht
    have hkey := Heap.get_load_of_get? htype
    rw [Heap.get] at hkey
    cases hg : (Heap.load tree).get? p "key" with
    | none => simp [hg] at hkey
    | some w =>
      obtain ⟨fields, hf, hl⟩ := node?_load_of_get? hg
      obtain rfl : w = .object (.key "key" :: p) := by simpa [hg] using hkey
      refine Heap.mem_children.mpr ⟨"key", _, ?_, by decide, Or.inl rfl, ht⟩
      rw [Heap.node, hf]
      exact mem_of_lookup_eq_some hl

theorem children_stage_anti {L' : Path → Option Value} (hp : p ∈ S → p ∈ S')
    (hc : c ∈ (stage tree S' L').children p) : c ∈ (stage tree S L).children p := by
  by_cases h : p ∈ S
  · rwa [children_stage_congr (iff_of_true h (hp h))]
  · rw [children_stage_of_not_mem h]
    exact children_stage_subset hc

/-- The properties that are to share their keys. -/
def shorthands (tree : Json) : Set Path := {p | ∃ key value, (Heap.load tree).Shares p key value}

/-- If a property is written as a shorthand the name of its key or of its value is an atom. -/
def Comparable (tree : Json) (p : Path) : Prop :=
  (Heap.load tree).hasType p "Property" →
    (Heap.load tree).truthy ((Heap.load tree).get p "shorthand") →
    (Heap.load tree).hasType (.key "key" :: p) "Identifier" →
    (Heap.load tree).hasType (.key "value" :: p) "Identifier" →
    ((Heap.load tree).get (.key "key" :: p) "name").isAtom ∨
      ((Heap.load tree).get (.key "value" :: p) "name").isAtom

theorem mem_shorthands_of_likely (hp : Likely tree p) (ha : Comparable tree p) :
    p ∈ shorthands tree := hp.shares (ha hp.isProperty hp.isShorthand hp.key hp.value)

/-- A property that is written as a shorthand of two identifiers, whether or not their names are equal. -/
structure Written (tree : Json) (p : Path) : Prop where
  isProperty : (Heap.load tree).hasType p "Property"
  isShorthand : (Heap.load tree).truthy ((Heap.load tree).get p "shorthand")
  key : (Heap.load tree).hasType (.key "key" :: p) "Identifier"
  value : (Heap.load tree).hasType (.key "value" :: p) "Identifier"

theorem Likely.written (hp : Likely tree p) : Written tree p :=
  ⟨hp.isProperty, hp.isShorthand, hp.key, hp.value⟩

def Heap.sameNames (h : Heap) (tree : Json) (p : Path) : Except Fault Bool :=
  h.same ((load tree).get (.key "key" :: p) "name") ((load tree).get (.key "value" :: p) "name")

namespace Written

theorem identifier?_key (hw : Written tree p) : (stage tree S L).identifier?
    ((stage tree S L).get p "key") = some (.key "key" :: p) := by
  rw [identifier?_stage, get_stage_of_ne (by decide) (by decide)]
  exact Heap.identifier?_load.mpr ⟨rfl, hw.key⟩

theorem identifier?_value (hw : Written tree p) (hp : p ∉ S) : (stage tree S L).identifier?
    ((stage tree S L).get p "value") = some (.key "value" :: p) := by
  rw [identifier?_stage, Heap.get, get?_stage_value_of_not_mem hp]
  exact Heap.identifier?_load.mpr ⟨rfl, hw.value⟩

theorem shares (hw : Written tree p) (hs : Staged tree S L) (hp : p ∉ S)
    (hn : (stage tree S L).sameNames tree p = .ok true) :
    (stage tree S L).Shares p (.key "key" :: p) (.key "value" :: p) where
  isProperty := by rw [hasType_stage]; exact hw.isProperty
  isShorthand := by
    rw [get_stage_of_ne (by decide) (by decide), truthy_stage hs]
    exact hw.isShorthand
  key_eq := hw.identifier?_key
  value_eq := hw.identifier?_value hp
  ne := by simp
  sameName := by
    rw [get_stage_of_ne (by decide) (by decide), get_stage_of_ne (by decide) (by decide)]
    exact hn

end Written

theorem written_of_identifiers {key value : Path} (hs : Staged tree S L)
    (hp : (stage tree S L).hasType p "Property")
    (hsh : (stage tree S L).truthy ((stage tree S L).get p "shorthand"))
    (hk : (stage tree S L).identifier? ((stage tree S L).get p "key") = some key)
    (hv : (stage tree S L).identifier? ((stage tree S L).get p "value") = some value)
    (hne : key ≠ value) : p ∉ S ∧ Written tree p := by
  rw [get_stage_of_ne (by decide) (by decide), identifier?_stage, Heap.identifier?_load] at hk
  rw [hasType_stage] at hp
  rw [get_stage_of_ne (by decide) (by decide), truthy_stage hs] at hsh
  obtain ⟨rfl, hkt⟩ := hk
  have hpS : p ∉ S := by
    intro hpS
    rw [Heap.get, get?_stage_value_of_mem hs hpS, Heap.identifier?_eq_some] at hv
    exact hne (by simpa using hv.1)
  rw [Heap.get, get?_stage_value_of_not_mem hpS, identifier?_stage] at hv
  exact ⟨hpS, hp, hsh, hkt, (Heap.identifier?_load.mp hv).2⟩

/-- Before its children are listed a shorthand is shared if its names are equal. -/
theorem run_prepare_of_written (hs : Staged tree S L) (hp : p ∉ S) (hw : Written tree p) :
    (prepare p).run.run (stage tree S L) =
      match (stage tree S L).sameNames tree p with
      | .error e => (.error e, stage tree S L)
      | .ok b => (.ok (), stage tree (if b then insert p S else S) L) := by
  have hprop : (stage tree S L).hasType p "Property" := by
    rw [hasType_stage]
    exact hw.isProperty
  have hsh : (stage tree S L).truthy ((stage tree S L).get p "shorthand") := by
    rw [get_stage_of_ne (by decide) (by decide), truthy_stage hs]
    exact hw.isShorthand
  have hsame : (stage tree S L).same ((stage tree S L).get (.key "key" :: p) "name")
      ((stage tree S L).get (.key "value" :: p) "name") = (stage tree S L).sameNames tree p := by
    rw [get_stage_of_ne (by decide) (by decide), get_stage_of_ne (by decide) (by decide),
      Heap.sameNames]
  have hne : (.key "key" :: p : Path) ≠ .key "value" :: p := by simp
  rcases hn : (stage tree S L).sameNames tree p with e | _ | _
  · simp only [prepare, shareShorthand, run_bind, run_get, andThen_ok, andThen_error, hprop, hsh,
      if_true, hw.identifier?_key, hw.identifier?_value hp, ne_eq, hne, not_false_eq_true,
      run_liftM, hsame, hn]
  · simp only [prepare, shareShorthand, run_bind, run_get, andThen_ok, hprop, hsh, if_true,
      hw.identifier?_key, hw.identifier?_value hp, ne_eq, hne, not_false_eq_true, run_liftM, hsame,
      hn]
    rfl
  · have hshares := hw.shares hs hp hn
    rw [run_prepare_of_shares hshares, set_value_stage (shares_stage hs hshares).2.2]
    rfl

theorem run_prepare_of_not_written (hs : Staged tree S L) (hw : ¬ (p ∉ S ∧ Written tree p)) :
    (prepare p).run.run (stage tree S L) = (.ok (), stage tree S L) := by
  have hnot : ∀ key value, ¬ (stage tree S L).Shares p key value := fun key value h =>
    hw (written_of_identifiers hs h.isProperty h.isShorthand h.key_eq h.value_eq h.ne)
  rcases run_prepare_of_not_shares hnot with hr | ⟨key, value, e, hp, hsh, hk, hv, hne, -, -⟩
  · exact hr
  · exact absurd (written_of_identifiers hs hp hsh hk hv hne) hw

/-- Before its children are listed a node is shared or stays as it is. -/
theorem run_prepare_stage (hs : Staged tree S L) (p : Path) :
    ∃ r S', (prepare p).run.run (stage tree S L) = (r, stage tree S' L) ∧ Staged tree S' L ∧
      S ⊆ S' ∧ S' ⊆ insert p S ∧
      (Comparable tree p → r = .ok () ∧ (p ∈ shorthands tree → p ∈ S')) := by
  by_cases hw : p ∉ S ∧ Written tree p
  · obtain ⟨hp, hw⟩ := hw
    rw [run_prepare_of_written hs hp hw]
    have hatoms : Comparable tree p → (stage tree S L).sameNames tree p =
        (Heap.load tree).sameNames tree p := fun ha => by
      have hatom := ha hw.isProperty hw.isShorthand hw.key hw.value
      rw [Heap.sameNames, Heap.sameNames, same_of_isAtom hatom, same_of_isAtom hatom]
    rcases hn : (stage tree S L).sameNames tree p with e | _ | _
    · refine ⟨_, S, rfl, hs, le_rfl, Set.subset_insert p S, fun ha => ?_⟩
      rw [Heap.sameNames, same_of_isAtom (ha hw.isProperty hw.isShorthand hw.key hw.value)] at hn
      cases hn
    · refine ⟨_, S, rfl, hs, le_rfl, Set.subset_insert p S, fun ha => ⟨rfl, ?_⟩⟩
      rintro ⟨key, value, hload⟩
      obtain ⟨rfl, -⟩ := Heap.identifier?_load.mp hload.key_eq
      obtain ⟨rfl, -⟩ := Heap.identifier?_load.mp hload.value_eq
      have hsame : (Heap.load tree).sameNames tree p = .ok true := hload.sameName
      rw [← hatoms ha, hn] at hsame
      cases hsame
    · exact ⟨_, _, rfl, staged_insert hs (shares_stage hs (hw.shares hs hp hn)).2.2,
        Set.subset_insert p S, le_rfl, fun _ => ⟨rfl, fun _ => Set.mem_insert p S⟩⟩
  · refine ⟨_, S, run_prepare_of_not_written hs hw, hs, le_rfl, Set.subset_insert p S,
      fun _ => ⟨rfl, ?_⟩⟩
    rintro ⟨key, value, hload⟩
    by_contra hp
    exact hw ⟨hp, hload.likely.written⟩

/-- Where names can be compared exactly the shorthands are shared. -/
theorem mem_iff_mem_shorthands (hs : Staged tree S L) (ha : Comparable tree p)
    (hp : p ∈ shorthands tree → p ∈ S) : p ∈ S ↔ p ∈ shorthands tree :=
  ⟨fun h => mem_shorthands_of_likely (hs.likely p h) ha, hp⟩

theorem shared_eq_stage : (Heap.load tree).shared = stage tree (shorthands tree) (fun _ => none) := by
  refine heap_eq_of_node? (fun q => ?_) rfl
  simp only [Heap.shared, stage, place]
  congr 1
  funext fields
  cases hk : (Heap.load tree).sharedKey? q with
  | none =>
    have hq : q ∉ shorthands tree := by
      rintro ⟨key, value, hsh⟩
      rw [Heap.sharedKey?_eq_some.mpr ⟨value, hsh⟩] at hk
      cases hk
    rw [if_neg hq]
  | some key =>
    obtain ⟨value, hsh⟩ := Heap.sharedKey?_eq_some.mp hk
    obtain ⟨rfl, -⟩ := Heap.identifier?_load.mp hsh.key_eq
    rw [if_pos ⟨_, value, hsh⟩]

theorem mem_children_stage_of_key {type : Value} (hp : k ≠ "value") (hk : k ∉ skippedKeys)
    (ht : (Heap.load tree).get? (.key k :: p) "type" = some type) :
    .key k :: p ∈ (stage tree S L).children p := by
  have hg : (stage tree S L).get p k = .object (.key k :: p) := by
    rw [get_stage_of_ne (by rintro rfl; exact hk (by decide)) hp]
    exact Heap.get_load_of_get? ht
  refine Heap.mem_children.mpr ⟨k, _, ?_, hk, Or.inl rfl, ?_⟩
  · rw [Heap.get] at hg
    cases hl : (stage tree S L).get? p k with
    | none => simp [hl] at hg
    | some w =>
      obtain rfl : w = .object (.key k :: p) := by simpa [hl] using hg
      exact mem_of_lookup_eq_some hl
  · rw [get?_stage_of_ne (by decide) (by decide), ht]
    rfl

end

end IdentCase.Tree
