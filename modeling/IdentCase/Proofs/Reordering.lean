import IdentCase.Proofs.Coincidence
import IdentCase.Proofs.Json.Reorders

/-! The order of keys in a tree bears on the order of the records of a check, and on nothing else. -/
namespace IdentCase

open IdentCase.Tree

section
variable {tree tree' : Json} {p : Path} {c : Config} {vs : List Violation}

/-- Trees that are equal up to the order of keys are alike everywhere. -/
theorem Json.Reorders.alike (ho : tree.Reorders tree') (hd : tree.Distinct) (hd' : tree'.Distinct) :
    Alike Set.univ tree tree' where
  distinct := hd
  distinct' := hd'
  root := Set.mem_univ _
  key _ _ _ _ _ := Set.mem_univ _
  item _ _ _ := Set.mem_univ _
  parent _ _ _ := Set.mem_univ _
  get? p _ k _ := by
    have hrel := valueAt?_of_reorders ho (.key k :: p)
    rw [Heap.get?_load, Heap.get?_load]
    generalize valueAt? tree (.key k :: p) = x at hrel ⊢
    generalize valueAt? tree' (.key k :: p) = y at hrel ⊢
    cases hrel with
    | none => rfl
    | some hv => exact congrArg some (valueOf_of_reorders hv _)
  empty p _ := by
    have hrel := valueAt?_of_reorders ho p
    rw [Heap.node, Heap.node, Heap.node?_load, Heap.node?_load]
    generalize valueAt? tree p = x at hrel ⊢
    generalize valueAt? tree' p = y at hrel ⊢
    cases hrel with
    | none => rfl
    | some hv =>
      cases hv with
      | same => rfl
      | arr => rfl
      | @obj fields fields' hk _ =>
        have hlength : fields.length = fields'.length := by simpa using hk.length_eq
        simp only [Option.bind_some, Option.getD_some, nodeOf, List.map_eq_nil_iff]
        rw [← List.length_eq_zero_iff, ← List.length_eq_zero_iff, hlength]

/-- What does not fail is checked from a root with a type. -/
theorem isSome_type_of_pass (hp : pass c (valueOf [] tree) (Heap.load tree) = .ok vs) :
    ((Heap.load tree).get? [] "type").isSome := by
  cases hv : valueOf [] tree with
  | object p =>
    obtain rfl := (valueOf_eq_object hv).1
    by_contra hr
    have hnone : ((Heap.load tree).get? [] "type").isNone := by simpa using hr
    rw [hv, pass_of_untyped hnone] at hp
    cases hp
  | _ =>
    rw [hv] at hp
    cases hp

/-- A check that succeeds has linked the tree, in which it could compare all names. -/
theorem of_recordsOf_eq_ok {host : Host} {options : Json} {progress : Progress} {rs : List Record}
    (hl : recordsOf ((lint host options (valueOf [] tree)).run.run ⟨Heap.load tree, progress⟩) = .ok rs) :
    ∃ c notices vs, Options.resolve host options = .ok (c, notices) ∧
      ((Heap.load tree).get? [] "type").isSome ∧
      (∀ p, (Heap.load tree).shared.Reaches [] p → Comparable tree p) ∧
      (linked tree).findings c [] ((linked tree).identifiers []) = .ok vs ∧
      rs = vs.map (·.record (linked tree)) := by
  rw [recordsOf_run_lint] at hl
  rcases hc : Options.resolve host options with e | ⟨c, notices⟩
  · rw [hc] at hl
    cases hl
  · rw [hc] at hl
    obtain ⟨vs, hp, rfl⟩ := map_eq_ok.mp hl
    have hr := isSome_type_of_pass hp
    rw [valueOf_root hr] at hp
    obtain ⟨hrun, hf⟩ := (pass_load_eq_ok hr).mp hp
    refine ⟨c, notices, vs, rfl, hr, fun p hreach => ?_, hf, ?_⟩
    · exact comparable_of_reaches (atomicNames_of_findings hf) (reaches_linked.mpr hreach)
    · rw [valueOf_root hr, hrun]

end

/--
Trees that are equal up to the order of keys have the same nodes reported, each once, with the same
names and, up to the order of keys, at the same lines and columns.
-/
theorem lint_reorders (tree tree' : Json) (hd : tree.Distinct) (hd' : tree'.Distinct)
    (ho : tree.Reorders tree') (host : Host) (options : Json) (progress progress' : Progress) (rs : List Record)
    (hl : recordsOf ((lint host options (valueOf [] tree)).run.run ⟨Heap.load tree, progress⟩) = .ok rs) :
    ∃ rs', recordsOf ((lint host options (valueOf [] tree')).run.run ⟨Heap.load tree', progress'⟩) =
        .ok rs' ∧
      (rs.map (·.node)).Nodup ∧ (rs'.map (·.node)).Perm (rs.map (·.node)) ∧
      ∀ r ∈ rs, ∀ r' ∈ rs', r'.node = r.node →
        r'.name = r.name ∧ r.line.Reorders r'.line ∧ r.column.Reorders r'.column := by
  obtain ⟨c, notices, vs, hc, hr, hn, hf, rfl⟩ := of_recordsOf_eq_ok hl
  have ha := ho.alike hd hd'
  obtain ⟨vs', hf'⟩ := ha.succeeds_findings hr hn
    (fun p k _ => legible_valueAt?_of_reorders ho hd hd' _) hf
  rw [recordsOf_run_lint_load hc (ha.isSome_type_root hr) (ha.comparable_of_shared_reaches hn), hf']
  obtain ⟨hnodes, hall⟩ := Heap.of_findings hf
  obtain ⟨-, hall'⟩ := Heap.of_findings hf'
  have hrecords : ∀ (h : Heap) (vs : List Violation),
      (vs.map (·.record h)).map (·.node) = vs.map (·.node) := fun h vs => by
    rw [List.map_map]
    rfl
  refine ⟨_, rfl, ?_, ?_, ?_⟩
  · rw [hrecords, hnodes]
    exact (nodup_eraseDups _).filter _
  · rw [hrecords, hrecords]
    exact ha.perm_nodes hr hn hf hf'
  · intro r hrs r' hrs' hnode
    obtain ⟨v, hv, rfl⟩ := List.mem_map.mp hrs
    obtain ⟨v', hv', rfl⟩ := List.mem_map.mp hrs'
    replace hnode : v'.node = v.node := hnode
    have hmem : v.node ∈ (linked tree).identifiers [] := by
      have hmem := List.mem_map_of_mem (f := (·.node)) hv
      rw [hnodes, List.mem_filter, List.mem_eraseDups] at hmem
      exact hmem.1
    obtain ⟨b, hb⟩ := (Heap.findings_eq_ok.mp hf).1 v.node hmem
    have hv' := hnode ▸ hall' v' hv'
    refine ha.record_violation hr hn (mem_identifiers_linked.mp hmem).1 (Heap.isAtom_of_verdict hb)
      (.same _) (fun k _ => ?_) (hall v hv) hv'
    exact rel_getD (valueAt?_of_reorders ho _) (.same _)

def shorthandFields : List (String × Json) :=
  [("type", .str "Property"), ("shorthand", .bool true),
    ("key", .obj [("type", .str "Identifier"), ("name", .str "a_b")]),
    ("value", .obj [("type", .str "Identifier"), ("name", .str "a_b")])]

theorem lint_reorders_shorthandFields :
    ∃ rs, recordsOf ((lint {} .null (.object [])).run.run
        ⟨Heap.load (.obj shorthandFields.reverse), {}⟩) = .ok rs ∧
      (rs.map (·.node)).Perm [[.key "key"]] := by
  have hkeys : (shorthandFields.map Prod.fst).Nodup := by decide
  have hd : (Json.obj shorthandFields).Distinct := by
    simp [shorthandFields, Json.Distinct, Json.DistinctFields]
  have hd' : (Json.obj shorthandFields.reverse).Distinct := by
    simp [shorthandFields, Json.Distinct, Json.DistinctFields]
  have ho : (Json.obj shorthandFields).Reorders (.obj shorthandFields.reverse) :=
    .of_perm (List.reverse_perm _).symm hkeys
  obtain ⟨rs, hrun, -, hperm, -⟩ := lint_reorders (.obj shorthandFields)
    (.obj shorthandFields.reverse) hd hd' ho {} .null {} {}
    [{ shorthandViolation.record (Heap.load .null) with node := [.key "key"] }]
    ((recordsOf_run_lint _ _ _ _).trans rfl)
  exact ⟨rs, hrun, hperm⟩

end IdentCase
