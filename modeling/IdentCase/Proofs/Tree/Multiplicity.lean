import IdentCase.Proofs.Tree.Order
import Mathlib.Data.Set.Card
import Mathlib.Tactic.Ring

/-! How often a walk comes to a node of a linked tree: once for each way to it, and to what is within
the key of a shorthand there are twice as many ways as to the shorthand. -/
namespace IdentCase.Tree

/-- A walk comes to a node that only `p` holds from its start, or from `p` as often as `p` holds it. -/
theorem Heap.Preorder.count_eq {h : Heap} {p q : Path} {ps l : List Path} (hl : h.Preorder ps l)
    (hp : ∀ x, q ∈ h.children x → x = p) :
    l.count q = ps.count q + l.count p * (h.children p).count q := by
  induction hl with
  | nil => simp
  | @cons x ps below rest _ _ ihc ihs =>
    have hx : (h.children x).count q = (if x == p then 1 else 0) * (h.children p).count q := by
      by_cases hxp : x = p
      · simp [hxp]
      · simp [hxp, List.count_eq_zero.mpr fun hmem => hxp (hp x hmem)]
    simp only [List.cons_append, List.count_cons, List.count_append, ihc, ihs, hx]
    ring

/-- The shorthands that have a node for their key, or within it. -/
def shorthandsAbove (tree : Json) (q : Path) : Set Path :=
  {p | p ∈ shorthands tree ∧ .key "key" :: p <:+ q}

section
variable {tree : Json} {p q c : Path} {order : List Path}

theorem finite_shorthandsAbove (tree : Json) (q : Path) : (shorthandsAbove tree q).Finite :=
  q.tails.finite_toSet.subset fun p hp =>
    (List.mem_tails p q).mpr ((List.suffix_cons _ p).trans hp.2)

theorem shorthandsAbove_nil : shorthandsAbove tree [] = ∅ := by
  ext p
  simp [shorthandsAbove]

theorem not_mem_shorthandsAbove_self : p ∉ shorthandsAbove tree p := by
  rintro ⟨-, hsuffix⟩
  exact absurd hsuffix.length_le (by simp)

/-- A child is within the keys that its holder is within, and in that of its holder if it is the key. -/
theorem shorthandsAbove_child (hc : c ∈ (linked tree).children p) :
    shorthandsAbove tree c =
      shorthandsAbove tree p ∪ {x | x = p ∧ p ∈ shorthands tree ∧ c = .key "key" :: p} := by
  ext x
  have hchild := children_stage_subset hc
  constructor
  · rintro ⟨hx, hsuffix⟩
    obtain ⟨-, -, hkt, -⟩ := mem_shorthands_iff.mp hx
    rcases (Heap.suffix_child_iff hchild (Heap.isSome_get?_type hkt)).mp hsuffix with rfl | hsuffix
    · obtain rfl : x = p := holder_of_mem_children hc
      exact Or.inr ⟨rfl, hx, rfl⟩
    · exact Or.inl ⟨hx, hsuffix⟩
  · rintro (⟨hx, hsuffix⟩ | ⟨rfl, hx, rfl⟩)
    · exact ⟨hx, hsuffix.trans (Heap.childPath_of_mem_children hchild).suffix⟩
    · exact ⟨hx, List.suffix_rfl⟩

/-- To be a key of a shorthand doubles the ways to a node, and to be another child keeps them. -/
theorem two_pow_shorthandsAbove_child (hd : tree.Distinct)
    (hr : ((Heap.load tree).get? [] "type").isSome) (hp : (linked tree).Reaches [] p)
    (hc : c ∈ (linked tree).children p) :
    2 ^ (shorthandsAbove tree c).ncard =
      2 ^ (shorthandsAbove tree p).ncard * ((linked tree).children p).count c := by
  rw [shorthandsAbove_child hc]
  by_cases hk : p ∈ shorthands tree ∧ c = .key "key" :: p
  · have hinsert : shorthandsAbove tree p ∪ {x | x = p ∧ p ∈ shorthands tree ∧ c = .key "key" :: p} =
        insert p (shorthandsAbove tree p) := by
      ext x
      simp only [Set.mem_union, Set.mem_insert_iff, Set.mem_ofPred_eq, hk, and_true]
      exact or_comm
    obtain ⟨hsh, rfl⟩ := hk
    rw [hinsert, Set.ncard_insert_of_notMem not_mem_shorthandsAbove_self (finite_shorthandsAbove tree p),
      count_children_linked_key hd hr hp hsh, pow_succ]
  · have hempty : {x | x = p ∧ p ∈ shorthands tree ∧ c = .key "key" :: p} = ∅ := by
      ext x
      simp only [hk, and_false, Set.mem_ofPred_eq, Set.mem_empty_iff_false]
    rw [hempty, Set.union_empty, count_children_linked_of_ne hd hr hc hk, Nat.mul_one]

/-- A walk through the linked tree comes to each node as often as the shorthands above it double it. -/
theorem count_order_linked (hd : tree.Distinct) (hr : ((Heap.load tree).get? [] "type").isSome)
    (ho : (linked tree).Preorder [[]] order) (hq : (linked tree).Reaches [] q) :
    order.count q = 2 ^ (shorthandsAbove tree q).ncard := by
  induction hq with
  | refl =>
    have hnone : ∀ x, [] ∉ (linked tree).children x := fun x hx =>
      (Heap.childPath_of_mem_children (children_stage_subset hx)).ne_nil rfl
    rw [ho.count_eq (p := []) fun x hx => absurd hx (hnone x), List.count_eq_zero.mpr (hnone []),
      shorthandsAbove_nil, Set.ncard_empty]
    rfl
  | @tail p c hp hc ih =>
    have hne : c ≠ [] := (Heap.childPath_of_mem_children (children_stage_subset hc)).ne_nil
    have hholder : ∀ x, c ∈ (linked tree).children x → x = p := fun x hx =>
      (holder_of_mem_children hx).symm.trans (holder_of_mem_children hc)
    rw [ho.count_eq hholder, ih, two_pow_shorthandsAbove_child hd hr hp hc,
      List.count_eq_zero.mpr (by simpa using hne), Nat.zero_add]

theorem count_identifiers_linked (hd : tree.Distinct)
    (hr : ((Heap.load tree).get? [] "type").isSome) (hq : (linked tree).Reaches [] q)
    (ht : (Heap.load tree).hasType q "Identifier") :
    ((linked tree).identifiers []).count q = 2 ^ (shorthandsAbove tree q).ncard := by
  obtain ⟨order, ho, hids⟩ := exists_order_stage tree (shorthandsFrom tree [])
    (linkTo (below tree []) (rootLink tree))
  simp only [hasType_stage] at hids
  rw [linked, hids, List.count_filter (p := ((Heap.load tree).hasType · "Identifier")) ht]
  exact count_order_linked hd hr ho hq

/-- Whoever holds something that can be reached in a field can be reached. -/
theorem reaches_of_field {k : String} (hq : (linked tree).Reaches [] q) (hk : .key k :: p <:+ q) :
    (linked tree).Reaches [] p := by
  induction hq with
  | refl => simp at hk
  | @tail b c hb hc ih =>
    have hhead : ∀ {k'}, .key k :: p <:+ .key k' :: b → (linked tree).Reaches [] p := by
      intro k' hk
      rcases List.suffix_cons_iff.mp hk with he | hk
      · obtain ⟨-, rfl⟩ := List.cons.inj he
        exact hb
      · exact ih hk
    cases Heap.childPath_of_mem_children (children_stage_subset hc) with
    | field => exact hhead hk
    | item => exact hhead ((List.suffix_cons_iff.mp hk).resolve_left (by simp))

/-- Nothing within the value that a shorthand has given up can be reached. -/
theorem not_reaches_of_value (hd : tree.Distinct) (hr : ((Heap.load tree).get? [] "type").isSome)
    (hsh : p ∈ shorthands tree) (hv : .key "value" :: p <:+ q) : ¬ (linked tree).Reaches [] q :=
  fun hq => (links_linked hd hr).replaced p q (reaches_of_field hq hv) hsh hv hq

/-- Only a tree whose root has a type can be linked. -/
theorem isSome_type_of_run_attachParents {h : Heap}
    (hrun : (attachParents (valueOf [] tree)).run.run (Heap.load tree) = (.ok (), h)) :
    ((Heap.load tree).get? [] "type").isSome := by
  by_contra hr
  have hnone : ((Heap.load tree).get? [] "type").isNone := by simpa using hr
  cases tree with
  | obj fields =>
    rw [valueOf, run_attachParents_object, if_pos hnone] at hrun
    cases hrun
  | _ => cases hrun

/--
A tree whose names are atoms can be linked if its root has a type. A traversal of it then visits an
identifier that can be reached twice as often for each shorthand whose key it is or is within, and
nothing else: so nothing within the values that shorthands have given up.
-/
theorem traverse_multiplicity (tree : Json) (hd : tree.Distinct) (r : Except Fault Unit) (h : Heap)
    (hrun : (attachParents (valueOf [] tree)).run.run (Heap.load tree) = (r, h))
    (ha : AtomicNames h) :
    (r = .ok () ↔ ((Heap.load tree).get? [] "type").isSome) ∧
      (r = .ok () → ∃ visited : List Path,
        (∀ {m : Type → Type u} [Monad m] [MonadExcept Fault m] (visit : Path → m Unit),
          h.traverse [] visit = visited.forM visit) ∧
        (∀ q, h.Reaches [] q → h.hasType q "Identifier" →
          visited.count q = 2 ^ (shorthandsAbove tree q).ncard) ∧
        (∀ q ∈ visited, h.Reaches [] q ∧ h.hasType q "Identifier") ∧
        ∀ p ∈ shorthands tree, ∀ q, .key "value" :: p <:+ q → q ∉ visited) := by
  by_cases hr : ((Heap.load tree).get? [] "type").isSome
  · rw [valueOf_root hr] at hrun
    obtain ⟨rfl, rfl⟩ := run_attachParents_of_atomicNames hr hrun ha
    refine ⟨iff_of_true rfl hr, fun _ => ⟨(linked tree).identifiers [], ?_, ?_, ?_, ?_⟩⟩
    · intro m _ _ visit
      have htype : ¬ ((linked tree).get? [] "type").isNone := by
        rw [linked, get?_stage_of_ne (by decide) (by decide)]
        simpa [Option.isSome_iff_ne_none] using hr
      rw [Heap.traverse_eq_forM, if_neg htype]
    · intro q hq ht
      exact count_identifiers_linked hd hr hq ((hasType_stage _).symm.trans ht)
    · intro q hq
      obtain ⟨hreach, ht⟩ := mem_identifiers_linked.mp hq
      exact ⟨hreach, (hasType_stage _).trans ht⟩
    · intro p hsh q hv hq
      exact not_reaches_of_value hd hr hsh hv (mem_identifiers_linked.mp hq).1
  · refine ⟨iff_of_false ?_ hr, ?_⟩
    · rintro rfl
      exact hr (isSome_type_of_run_attachParents hrun)
    · rintro rfl
      exact absurd (isSome_type_of_run_attachParents hrun) hr

def nestedShorthand : Json :=
  .obj [("type", .str "Property"), ("shorthand", .bool true),
    ("key", .obj [("type", .str "Identifier"), ("name", .str "a"),
      ("default", .obj [("type", .str "Property"), ("shorthand", .bool true),
        ("key", .obj [("type", .str "Identifier"), ("name", .str "b")]),
        ("value", .obj [("type", .str "Identifier"), ("name", .str "b")])])]),
    ("value", .obj [("type", .str "Identifier"), ("name", .str "a")])]

theorem shorthandsAbove_nestedShorthand :
    shorthandsAbove nestedShorthand [.key "key", .key "default", .key "key"] =
      {[], [.key "default", .key "key"]} := by
  ext p
  constructor
  · rintro ⟨-, hsuffix⟩
    simpa [List.suffix_cons_iff, or_comm] using hsuffix
  · rintro (rfl | rfl)
    · exact ⟨mem_shorthands_iff.mpr ⟨rfl, rfl, rfl, rfl, rfl⟩, by decide⟩
    · exact ⟨mem_shorthands_iff.mpr ⟨rfl, rfl, rfl, rfl, rfl⟩, by decide⟩

def nestedShorthandLinks : Heap :=
  ((attachParents (valueOf [] nestedShorthand)).run.run (Heap.load nestedShorthand)).2

/-- The key of the inner shorthand is visited four times, and its value is not. -/
theorem traverse_multiplicity_nestedShorthand :
    ∃ visited : List Path,
      (∀ visit : Path → ExceptT Fault (StateM (List Path)) Unit,
        nestedShorthandLinks.traverse [] visit = visited.forM visit) ∧
      visited.count [.key "key", .key "default", .key "key"] = 4 ∧
      [.key "value", .key "default", .key "key"] ∉ visited := by
  let inner : Path := [.key "default", .key "key"]
  let reached : List Path := [[], [.key "key"], inner, .key "key" :: inner]
  have hd : nestedShorthand.Distinct := by
    simp [nestedShorthand, Json.Distinct, Json.DistinctFields]
  have hnames : AtomicNames nestedShorthandLinks := by
    intro p hp
    replace hp : p ∈ reached := Heap.mem_of_reaches (by decide) (by decide +kernel) hp
    revert p
    decide +kernel
  obtain ⟨visited, htraverse, hcount, -, hvalue⟩ :=
    (traverse_multiplicity nestedShorthand hd (.ok ()) nestedShorthandLinks rfl hnames).2 rfl
  have hkey : nestedShorthandLinks.Reaches [] [.key "key"] := .single (by decide +kernel)
  have hinner : nestedShorthandLinks.Reaches [] inner := hkey.tail (by decide +kernel)
  have hreach : nestedShorthandLinks.Reaches [] (.key "key" :: inner) := hinner.tail (by decide +kernel)
  refine ⟨visited, fun visit => htraverse visit, ?_, hvalue inner ?_ _ List.suffix_rfl⟩
  · rw [hcount _ hreach (by decide +kernel), shorthandsAbove_nestedShorthand,
      Set.ncard_pair (by decide)]
    rfl
  · exact mem_shorthands_iff.mpr ⟨rfl, rfl, rfl, rfl, rfl⟩

end

end IdentCase.Tree
