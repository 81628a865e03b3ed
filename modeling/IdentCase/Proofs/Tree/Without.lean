import IdentCase.Proofs.Tree.Alike

/-! Trees without some of their fields. Without parents that linking sets, and without ranges, a tree
is alike to what it was. -/
namespace IdentCase.Tree

open scoped Classical in
mutual

/-- A value at a path without the fields at the paths in `X`. -/
noncomputable def without (X : Set Path) (p : Path) : Json → Json
  | .arr items => .arr (withoutItems X p 0 items)
  | .obj fields => .obj (withoutFields X p fields)
  | v => v

noncomputable def withoutItems (X : Set Path) (p : Path) (i : Nat) : List Json → List Json
  | [] => []
  | v :: rest => without X (.index i :: p) v :: withoutItems X p (i + 1) rest

noncomputable def withoutFields (X : Set Path) (p : Path) :
    List (String × Json) → List (String × Json)
  | [] => []
  | (k, v) :: rest =>
    if .key k :: p ∈ X then withoutFields X p rest
    else (k, without X (.key k :: p) v) :: withoutFields X p rest

end

/-- The paths that neither are in a set nor lead through it. -/
def outside (X : Set Path) : Set Path := {p | ∀ x ∈ X, ¬ x <:+ p}

section
variable {X : Set Path} {tree v : Json} {p q : Path} {k : String}

theorem mem_outside_of_cons {step : Step} (h : step :: p ∈ outside X) : p ∈ outside X :=
  fun x hx hs => h x hx (hs.trans (List.suffix_cons _ _))

theorem cons_mem_outside {step : Step} (hp : p ∈ outside X) (hs : step :: p ∉ X) :
    step :: p ∈ outside X := by
  intro x hx hsuffix
  rcases List.suffix_cons_iff.mp hsuffix with rfl | h
  · exact hs hx
  · exact hp x hx h

theorem getElem?_withoutItems (items : List Json) (i j : Nat) :
    (withoutItems X p i items)[j]? = items[j]?.map (without X (.index (i + j) :: p)) := by
  induction items generalizing i j with
  | nil => simp [withoutItems]
  | cons v rest ih =>
    cases j with
    | zero => simp [withoutItems]
    | succ j =>
      rw [withoutItems, List.getElem?_cons_succ, List.getElem?_cons_succ, ih, Nat.add_right_comm,
        Nat.add_assoc]

theorem lookup_withoutFields (fields : List (String × Json)) (hk : .key k :: p ∉ X) :
    (withoutFields X p fields).lookup k = (fields.lookup k).map (without X (.key k :: p)) := by
  induction fields with
  | nil => rfl
  | cons field rest ih =>
    obtain ⟨k', v⟩ := field
    rw [withoutFields, lookup_cons_eq_ite]
    by_cases hkk : k = k'
    · subst hkk
      rw [if_neg hk, if_pos rfl, lookup_cons_eq_ite, if_pos rfl]
      rfl
    · rw [if_neg hkk, ← ih]
      split
      · rfl
      · rw [lookup_cons_eq_ite, if_neg hkk]

/-- What is left of a tree stands where it stood. -/
theorem valueAt?_without (hp : p ∈ outside X) :
    valueAt? (without X [] tree) p = (valueAt? tree p).map (without X p) := by
  induction p with
  | nil => rfl
  | cons step p ih =>
    have ih := ih (mem_outside_of_cons hp)
    cases step with
    | key k =>
      have hk : .key k :: p ∉ X := fun h => hp _ h List.suffix_rfl
      rw [valueAt?_key, valueAt?_key, ih]
      cases valueAt? tree p with
      | none => rfl
      | some v =>
        cases v with
        | obj fields =>
          simp only [Option.map_some, Option.bind_some, without, Json.get?]
          exact lookup_withoutFields fields hk
        | _ => simp [without, Json.get?]
    | index i =>
      rw [valueAt?_index, valueAt?_index, ih]
      cases valueAt? tree p with
      | none => rfl
      | some v =>
        cases v with
        | arr items =>
          simp only [Option.map_some, Option.bind_some, without, getElem?_withoutItems, Nat.zero_add]
        | _ => simp [without]

mutual

/-- Values without fields look the same from outside. -/
theorem valueOf_without : ∀ (v : Json) (p q : Path), valueOf q (without X p v) = valueOf q v
  | .arr items, p, q => by
    rw [without, valueOf, valueOf, itemsOf_withoutItems items p q 0 0]
  | .obj _, _, _ => by rw [without, valueOf, valueOf]
  | .null, _, _ | .bool _, _, _ | .int _, _, _ | .float _, _, _ | .str _, _, _ => rfl

theorem itemsOf_withoutItems : ∀ (items : List Json) (p q : Path) (i j : Nat),
    itemsOf q j (withoutItems X p i items) = itemsOf q j items
  | [], _, _, _, _ => by rw [withoutItems]
  | v :: rest, p, q, i, j => by
    rw [withoutItems, itemsOf, itemsOf, valueOf_without v, itemsOf_withoutItems rest]

end

mutual

/-- Nothing goes from a value if all that goes stands elsewhere. -/
theorem without_eq_self : ∀ (v : Json) (p : Path), (∀ x ∈ X, ¬ p <:+ x) → without X p v = v
  | .arr items, p, h => by rw [without, withoutItems_eq_self items p 0 h]
  | .obj fields, p, h => by rw [without, withoutFields_eq_self fields p h]
  | .null, _, _ | .bool _, _, _ | .int _, _, _ | .float _, _, _ | .str _, _, _ => rfl

theorem withoutItems_eq_self : ∀ (items : List Json) (p : Path) (i : Nat),
    (∀ x ∈ X, ¬ p <:+ x) → withoutItems X p i items = items
  | [], _, _, _ => by rw [withoutItems]
  | v :: rest, p, i, h => by
    have hv : ∀ x ∈ X, ¬ .index i :: p <:+ x := fun x hx hs =>
      h x hx ((List.suffix_cons _ p).trans hs)
    rw [withoutItems, without_eq_self v _ hv, withoutItems_eq_self rest p (i + 1) h]

theorem withoutFields_eq_self : ∀ (fields : List (String × Json)) (p : Path),
    (∀ x ∈ X, ¬ p <:+ x) → withoutFields X p fields = fields
  | [], _, _ => by rw [withoutFields]
  | (k, v) :: rest, p, h => by
    have hv : ∀ x ∈ X, ¬ .key k :: p <:+ x := fun x hx hs =>
      h x hx ((List.suffix_cons _ p).trans hs)
    have hk : .key k :: p ∉ X := fun hx => hv _ hx List.suffix_rfl
    rw [withoutFields, if_neg hk, without_eq_self v _ hv, withoutFields_eq_self rest p h]

end

theorem map_fst_withoutFields_sublist (p : Path) (fields : List (String × Json)) :
    ((withoutFields X p fields).map Prod.fst).Sublist (fields.map Prod.fst) := by
  induction fields with
  | nil => exact .slnil
  | cons field rest ih =>
    obtain ⟨k, v⟩ := field
    rw [withoutFields]
    split
    · exact ih.cons k
    · exact ih.cons_cons k

mutual

theorem distinct_without : ∀ (v : Json) (p : Path), v.Distinct → (without X p v).Distinct
  | .arr items, p, h => by
    unfold Json.Distinct at h
    rw [without, Json.Distinct]
    exact distinctItems_withoutItems items p 0 h
  | .obj fields, p, h => by
    unfold Json.Distinct at h
    rw [without, Json.Distinct]
    exact ⟨h.1.sublist (map_fst_withoutFields_sublist p fields),
      distinctFields_withoutFields fields p h.2⟩
  | .null, _, h | .bool _, _, h | .int _, _, h | .float _, _, h | .str _, _, h => h

theorem distinctItems_withoutItems : ∀ (items : List Json) (p : Path) (i : Nat),
    Json.DistinctItems items → Json.DistinctItems (withoutItems X p i items)
  | [], _, _, _ => by
    rw [withoutItems]
    trivial
  | v :: rest, p, i, h => by
    rw [withoutItems, Json.DistinctItems]
    exact ⟨distinct_without v _ h.1, distinctItems_withoutItems rest p (i + 1) h.2⟩

theorem distinctFields_withoutFields : ∀ (fields : List (String × Json)) (p : Path),
    Json.DistinctFields fields → Json.DistinctFields (withoutFields X p fields)
  | [], _, _ => by
    rw [withoutFields]
    trivial
  | (k, v) :: rest, p, h => by
    rw [withoutFields]
    split
    · exact distinctFields_withoutFields rest p h.2
    · exact ⟨distinct_without v _ h.1, distinctFields_withoutFields rest p h.2⟩

end

/-- Only the types of what a value holds bear on the nodes in it. -/
theorem nodesIn_congr {h h' : Heap} {v : Value}
    (hv : ∀ c, v.Holds c → (h'.get? c "type").isSome = (h.get? c "type").isSome) :
    h'.nodesIn v = h.nodesIn v := by
  have hnode : ∀ w, (∀ c, w = .object c → (h'.get? c "type").isSome = (h.get? c "type").isSome) →
      h'.syntaxNode? w = h.syntaxNode? w := by
    intro w hw
    cases w with
    | object c => rw [Heap.syntaxNode?, Heap.syntaxNode?, hw c rfl]
    | _ => rfl
  cases v with
  | list items =>
    exact List.filterMap_congr fun w hw =>
      hnode w fun c hc => hv c (Or.inr ⟨items, rfl, hc ▸ hw⟩)
  | object c => exact congrArg Option.toList (hnode _ fun _ hc => hv _ (Or.inl hc))
  | _ => rfl

/-- The parents below the root that linking sets, and those in values that are replaced. -/
def overwritten (tree : Json) : Set Path :=
  {x | ∃ p, x = .key "parent" :: p ∧ p ≠ [] ∧ (Heap.load tree).Reaches [] p}

def ranges (tree : Json) : Set Path :=
  {x | ∃ p, x = .key "range" :: p ∧ ((Heap.load tree).get? p "type").isSome}

theorem exists_key_of_mem {x : Path} (hx : x ∈ overwritten tree ∪ ranges tree) :
    ∃ k p, x = .key k :: p ∧ (k = "parent" ∨ k = "range") ∧
      ((Heap.load tree).get? p "type").isSome := by
  rcases hx with ⟨p, rfl, hne, hr⟩ | ⟨p, rfl, ht⟩
  · refine ⟨"parent", p, rfl, Or.inl rfl, ?_⟩
    by_contra ht
    exact not_reaches_of_untyped (Bool.eq_false_iff.mpr ht) hne hr
  · exact ⟨"range", p, rfl, Or.inr rfl, ht⟩

section
variable (hX : X ⊆ overwritten tree ∪ ranges tree)

include hX

theorem key_not_mem (hk : k ≠ "parent" ∧ k ≠ "range") : .key k :: p ∉ X := by
  intro hx
  obtain ⟨k', q, he, hk', -⟩ := exists_key_of_mem (hX hx)
  obtain rfl : k = k' := by simpa using congrArg List.head? he
  exact hk'.elim hk.1 hk.2

theorem withoutFields_eq_nil {fields : List (String × Json)}
    (hv : valueAt? tree p = some (.obj fields)) : withoutFields X p fields = [] ↔ fields = [] := by
  refine ⟨fun hnil => ?_, fun hnil => ?_⟩
  · cases fields with
    | nil => rfl
    | cons field rest =>
      obtain ⟨k, v⟩ := field
      by_cases hk : .key k :: p ∈ X
      · -- An object that loses a field has a type, which it keeps.
        obtain ⟨k', q, he, -, ht⟩ := exists_key_of_mem (hX hk)
        obtain rfl : p = q := by simpa using congrArg List.tail he
        rw [Heap.get?_load, valueAt?_key, hv, Option.isSome_map] at ht
        have hl := lookup_withoutFields ((k, v) :: rest) (key_not_mem hX (p := p) (k := "type") (by decide))
        rw [hnil] at hl
        rw [Option.bind_some, Json.get?, ← Option.isSome_map, ← hl] at ht
        cases ht
      · rw [withoutFields, if_neg hk] at hnil
        cases hnil
  · rw [hnil, withoutFields]

/-- Without ranges, and without parents that linking sets, a tree is alike to what it was. -/
theorem alike_without (hd : tree.Distinct) : Alike (outside X) tree (without X [] tree) where
  distinct := hd
  distinct' := distinct_without tree [] hd
  root x hx hs := by
    rw [List.suffix_nil] at hs
    obtain ⟨k, p, he, -⟩ := exists_key_of_mem (hX hx)
    rw [hs] at he
    cases he
  key p hp k hpar hran := cons_mem_outside hp (key_not_mem hX ⟨hpar, hran⟩)
  item p hp i := by
    refine cons_mem_outside hp fun hx => ?_
    obtain ⟨k, q, he, -⟩ := exists_key_of_mem (hX hx)
    cases he
  parent p hp h := by
    refine cons_mem_outside hp fun hx => ?_
    rcases hX hx with ⟨q, he, hne, hr⟩ | ⟨q, he, -⟩
    · cases he
      exact h.elim hne fun hn => hn hr
    · simp at he
  get? p hp k hk := by
    rw [Heap.get?_load, Heap.get?_load, valueAt?_without hk, Option.map_map]
    congr 1
    funext v
    exact valueOf_without v _ _
  empty p hp := by
    rw [Heap.node, Heap.node, Heap.node?_load, Heap.node?_load, valueAt?_without hp]
    cases hv : valueAt? tree p with
    | none => rfl
    | some v =>
      cases v with
      | obj fields =>
        simp only [Option.map_some, Option.bind_some, Option.getD_some, without, nodeOf,
          List.map_eq_nil_iff, withoutFields_eq_nil hX hv]
      | _ => simp [without]

/-- The children stay as they are, and in their order. -/
theorem children_without (hd : tree.Distinct) (hp : p ∈ outside X) :
    (Heap.load (without X [] tree)).children p = (Heap.load tree).children p := by
  have ha := alike_without hX hd
  have hfield : ∀ k v, .key k :: p ∉ X →
      (Heap.load (without X [] tree)).nodesIn (valueOf (.key k :: p) v) =
        (Heap.load tree).nodesIn (valueOf (.key k :: p) v) := by
    intro k v hk
    have hkp : .key k :: p ∈ outside X := cons_mem_outside hp hk
    refine nodesIn_congr fun c hc => ?_
    rcases holds_valueOf hc with rfl | ⟨i, rfl⟩
    · exact ha.isSome_type hkp
    · exact ha.isSome_type (ha.item _ hkp i)
  have hfields : ∀ fields : List (String × Json),
      childrenIn (Heap.load (without X [] tree)) (nodeOf p (withoutFields X p fields)) =
        childrenIn (Heap.load tree) (nodeOf p fields) := by
    intro fields
    induction fields with
    | nil => rfl
    | cons field rest ih =>
      obtain ⟨k, v⟩ := field
      simp only [childrenIn, nodeOf, List.map_cons, List.flatMap_cons] at ih ⊢
      rw [withoutFields]
      by_cases hk : .key k :: p ∈ X
      · have hskip : skippedKeys.contains k := by
          obtain ⟨k', q, he, hk', -⟩ := exists_key_of_mem (hX hk)
          obtain rfl : k = k' := by simpa using congrArg List.head? he
          rcases hk' with rfl | rfl
          · decide
          · decide
        rw [if_pos hk, ih, if_pos hskip, List.nil_append]
      · rw [if_neg hk, List.map_cons, List.flatMap_cons, ih]
        dsimp only
        rw [valueOf_without, hfield k v hk]
  rw [children_eq_childrenIn, children_eq_childrenIn, Heap.node, Heap.node, Heap.node?_load,
    Heap.node?_load, valueAt?_without hp]
  cases valueAt? tree p with
  | none => rfl
  | some v =>
    cases v with
    | obj fields => simpa [without] using hfields fields
    | _ => simp [without, childrenIn]

end

end

end IdentCase.Tree
