import IdentCase.Proofs.Coincidence
import IdentCase.Proofs.Tree.Without

/-! Ranges in a tree, and parents that linking sets, have no bearing on the records of a check. -/
namespace IdentCase

open IdentCase.Tree

namespace Tree

/-- What is within the line and the column of an identifier, which are told in its record. -/
def recorded (tree : Json) : Set Path :=
  {x | ∃ p, (Heap.load tree).shared.Reaches [] p ∧ (Heap.load tree).hasType p "Identifier" ∧
    ∃ k ∈ ["line", "column"], .key k :: .key "start" :: .key "loc" :: p <:+ x}

/-- The parents that linking sets, and the ranges of nodes but for those that are told in records. -/
def irrelevant (tree : Json) : Set Path := overwritten tree ∪ (ranges tree \ recorded tree)

section
variable {tree : Json} {p : Path} {k : String}

theorem irrelevant_subset : irrelevant tree ⊆ overwritten tree ∪ ranges tree :=
  Set.union_subset_union_right _ Set.sdiff_subset

theorem not_suffix_of_mem_irrelevant (hd : tree.Distinct)
    (hp : (Heap.load tree).shared.Reaches [] p) (hi : (Heap.load tree).hasType p "Identifier")
    (hk : k ∈ ["line", "column"]) :
    ∀ x ∈ irrelevant tree, ¬ .key k :: .key "start" :: .key "loc" :: p <:+ x := by
  rintro x (⟨q, rfl, -, hq⟩ | ⟨-, hx⟩) hs
  · -- Nothing is reached through a position.
    rcases List.suffix_cons_iff.mp hs with he | hs
    · simp only [List.cons.injEq, Step.key.injEq] at he
      rw [he.1] at hk
      revert hk
      decide
    · have hloc : .key "loc" :: p <:+ q :=
        (((List.suffix_cons _ _).trans (List.suffix_cons _ _)).trans hs)
      rw [← stage_nothing] at hq
      exact (step_of_reaches hd staged_nothing hq hloc).1 (by decide)
  · exact hx ⟨p, hp, hi, k, hk, hs⟩

/-- The position of an identifier is left as it was. -/
theorem valueAt?_position (hd : tree.Distinct) (hp : (Heap.load tree).shared.Reaches [] p)
    (hi : (Heap.load tree).hasType p "Identifier") (hk : k ∈ ["line", "column"]) :
    valueAt? (without (irrelevant tree) [] tree) (.key k :: .key "start" :: .key "loc" :: p) =
      valueAt? tree (.key k :: .key "start" :: .key "loc" :: p) := by
  have ha := alike_without irrelevant_subset hd
  have hmem : .key k :: .key "start" :: .key "loc" :: p ∈ outside (irrelevant tree) := by
    have hstart := ha.key _ (ha.key p (ha.mem_of_shared_reaches hp) "loc" (by decide) (by decide))
      "start" (by decide) (by decide)
    refine ha.key _ hstart k ?_ ?_
    · rintro rfl
      revert hk
      decide
    · rintro rfl
      revert hk
      decide
  have hself : without (irrelevant tree) (.key k :: .key "start" :: .key "loc" :: p) = id :=
    funext fun v => without_eq_self v _ (not_suffix_of_mem_irrelevant hd hp hi hk)
  rw [valueAt?_without hmem, hself, Option.map_id, id]

end

end Tree

section
variable {tree : Json}

/-- Without what is irrelevant the same is found, in the same order. -/
theorem findings_without (hd : tree.Distinct) (hr : ((Heap.load tree).get? [] "type").isSome)
    (hn : ∀ p, (Heap.load tree).shared.Reaches [] p → Comparable tree p) (c : Config) :
    let tree' := without (irrelevant tree) [] tree
    ((linked tree').findings c [] ((linked tree').identifiers [])).map
        (·.map (·.record (linked tree'))) =
      ((linked tree).findings c [] ((linked tree).identifiers [])).map
        (·.map (·.record (linked tree))) := by
  intro tree'
  have ha : Alike (outside (irrelevant tree)) tree tree' := alike_without irrelevant_subset hd
  rw [ha.identifiers_eq hn fun p hp => children_without irrelevant_subset hd hp]
  refine Heap.findings_map_congr (fun p hp => ?_) fun p hp hv => ?_
  · exact ha.verdict hr hn (mem_identifiers_linked.mp hp).1 c
  · obtain ⟨hreach, htype⟩ := mem_identifiers_linked.mp hp
    exact ha.map_violation_record hr hn hreach (Heap.isAtom_of_verdict hv) fun k hk =>
      valueAt?_position hd (reaches_linked.mp hreach) htype hk

/-- Without what is irrelevant a check has the same records, or the same error. -/
theorem recordsOf_without (hd : tree.Distinct) (hn : AtomicNames (Heap.load tree).shared)
    (host : Host) (options : Json) (progress progress' : Progress) :
    let tree' := without (irrelevant tree) [] tree
    recordsOf ((lint host options (valueOf [] tree')).run.run ⟨Heap.load tree', progress'⟩) =
      recordsOf ((lint host options (valueOf [] tree)).run.run ⟨Heap.load tree, progress⟩) := by
  intro tree'
  have ha : Alike (outside (irrelevant tree)) tree tree' := alike_without irrelevant_subset hd
  rcases hc : Options.resolve host options with e | ⟨c, notices⟩
  · rw [recordsOf_run_lint, recordsOf_run_lint, hc]
  by_cases hr : ((Heap.load tree).get? [] "type").isSome
  · have hn : ∀ p, (Heap.load tree).shared.Reaches [] p → Comparable tree p :=
      fun p hp => comparable_of_reaches_shared hn hp
    rw [recordsOf_run_lint_load hc hr hn, recordsOf_run_lint_load hc (ha.isSome_type_root hr)
      (ha.comparable_of_shared_reaches hn)]
    exact findings_without hd hr hn c
  · -- A root that has no type, or is no object, keeps both trees from being linked.
    have hnone : ((Heap.load tree).get? [] "type").isNone := by simpa using hr
    have hnone' : ((Heap.load tree').get? [] "type").isNone := by
      rw [← ha.isSome_type ha.root] at hr
      simpa using hr
    rw [recordsOf_run_lint, recordsOf_run_lint, hc, valueOf_without]
    cases hv : valueOf [] tree with
    | object p =>
      obtain rfl := (valueOf_eq_object hv).1
      dsimp only
      rw [pass_of_untyped hnone, pass_of_untyped hnone']
      rfl
    | _ => rfl

end

/--
Checks of trees that differ in what is irrelevant alone have the same records in the same order, or
the same error.
-/
theorem lint_without_irrelevant (tree tree' : Json) (hd : tree.Distinct) (hd' : tree'.Distinct)
    (hn : AtomicNames (Heap.load tree).shared) (hn' : AtomicNames (Heap.load tree').shared)
    (he : without (irrelevant tree) [] tree = without (irrelevant tree') [] tree')
    (host : Host) (options : Json) (progress progress' : Progress) :
    recordsOf ((lint host options (valueOf [] tree')).run.run ⟨Heap.load tree', progress'⟩) =
      recordsOf ((lint host options (valueOf [] tree)).run.run ⟨Heap.load tree, progress⟩) := by
  rw [← recordsOf_without hd hn host options progress {},
    ← recordsOf_without hd' hn' host options progress' {}, he]

def statementOf (fields : List (String × Json)) : Json :=
  .obj [("type", .str "ExpressionStatement"),
    ("expression", .obj (("type", .str "Identifier") :: ("name", .str "a_b") :: fields))]

/-- A parent, which would make of the identifier a member, and a range. -/
def staleFields : List (String × Json) :=
  [("parent", .obj [("type", .str "MemberExpression")]), ("range", .arr [.int 0, .int 3])]

theorem lint_without_irrelevant_staleFields :
    ∃ rs, recordsOf ((lint {} .null (.object [])).run.run
        ⟨Heap.load (statementOf staleFields), {}⟩) = .ok rs ∧
      recordsOf ((lint {} .null (.object [])).run.run ⟨Heap.load (statementOf []), {}⟩) = .ok rs ∧
      rs.map (·.node) = [[.key "expression"]] := by
  have hd : (statementOf staleFields).Distinct := by
    simp [statementOf, staleFields, Json.Distinct, Json.DistinctFields, Json.DistinctItems]
  have hd' : (statementOf []).Distinct := by
    simp [statementOf, Json.Distinct, Json.DistinctFields]
  have hn : (statementOf staleFields).Everywhere TextName := by
    simp [statementOf, staleFields, Json.Everywhere, Json.EverywhereFields, Json.EverywhereItems,
      TextName, lookup_cons_eq_ite]
  have hn' : (statementOf []).Everywhere TextName := by
    simp [statementOf, Json.Everywhere, Json.EverywhereFields, TextName, lookup_cons_eq_ite]
  have hparent : [.key "parent", .key "expression"] ∈ irrelevant (statementOf staleFields) :=
    Or.inl ⟨_, rfl, by decide, .single (by decide +kernel)⟩
  have hrange : [.key "range", .key "expression"] ∈ irrelevant (statementOf staleFields) := by
    refine Or.inr ⟨⟨_, rfl, by decide +kernel⟩, ?_⟩
    rintro ⟨p, -, -, k, -, hs⟩
    simpa using hs.length_le
  have hkey : ∀ (tree : Json) (p : Path) (k : String), k ≠ "parent" ∧ k ≠ "range" →
      .key k :: p ∉ irrelevant tree := fun _ _ _ => key_not_mem irrelevant_subset
  have he : without (irrelevant (statementOf [])) [] (statementOf []) =
      without (irrelevant (statementOf staleFields)) [] (statementOf staleFields) := by
    simp only [statementOf, staleFields] at hparent hrange
    simp [statementOf, staleFields, without, withoutFields, hkey, hparent, hrange]
  have hrun := lint_without_irrelevant (statementOf []) (statementOf staleFields) hd' hd
    (atomicNames_of_everywhere hn') (atomicNames_of_everywhere hn) he {} .null {} {}
  have hlone := recordsOf_run_lint {} .null (.object []) ⟨Heap.load (statementOf []), {}⟩
  exact ⟨_, hrun.trans (hlone.trans rfl), hlone.trans rfl, rfl⟩

/-- An identifier whose line is an object with a type. -/
def placedAt (fields : List (String × Json)) : Json :=
  .obj [("type", .str "Identifier"), ("name", .str "a_b"),
    ("loc", .obj [("start", .obj [("line", .obj (("type", .str "X") :: fields))])])]

/-- A range in the position of an identifier is told in its record. -/
theorem not_lint_without_ranges : ¬ ∀ tree tree' : Json, tree.Distinct → tree'.Distinct →
    tree.Everywhere TextName → tree'.Everywhere TextName →
    without (overwritten tree ∪ ranges tree) [] tree =
      without (overwritten tree' ∪ ranges tree') [] tree' →
    ∀ (host : Host) options progress progress',
      recordsOf ((lint host options (valueOf [] tree')).run.run ⟨Heap.load tree', progress'⟩) =
        recordsOf ((lint host options (valueOf [] tree)).run.run ⟨Heap.load tree, progress⟩) := by
  intro h
  let tree := placedAt []
  let tree' := placedAt [("range", .int 1)]
  have hd : tree.Distinct ∧ tree'.Distinct := by
    simp [tree, tree', placedAt, Json.Distinct, Json.DistinctFields]
  have hn : tree.Everywhere TextName ∧ tree'.Everywhere TextName := by
    simp [tree, tree', placedAt, Json.Everywhere, Json.EverywhereFields, TextName,
      lookup_cons_eq_ite]
  have hrange : [.key "range", .key "line", .key "start", .key "loc"] ∈
      overwritten tree' ∪ ranges tree' := Or.inr ⟨_, rfl, by decide +kernel⟩
  have hkey : ∀ (tree : Json) (p : Path) (k : String), k ≠ "parent" ∧ k ≠ "range" →
      .key k :: p ∉ overwritten tree ∪ ranges tree := fun _ _ _ => key_not_mem le_rfl
  have he : without (overwritten tree ∪ ranges tree) [] tree =
      without (overwritten tree' ∪ ranges tree') [] tree' := by
    simp only [tree', placedAt] at hrange
    simp [tree, tree', placedAt, without, withoutFields, hkey, hrange]
  have hids := congrArg (·.toOption.map (·.map (·.id)))
    (h tree tree' hd.1 hd.2 hn.1 hn.2 he {} .null {} {})
  rw [recordsOf_run_lint, recordsOf_run_lint] at hids
  revert hids
  decide +kernel

end IdentCase
