import IdentCase.Proofs.Decision
import IdentCase.Proofs.Reordering

/-! The two identifiers of a property: which of them a check reports, and how often. -/
namespace IdentCase

open IdentCase.Tree

/-- Whether a property of the given name is to be reported, unless it names a binding only. -/
def Reportable (c : Config) (name : String) : Prop :=
  c.policy = .always ∧ Naming.breaksStyle (Naming.checkable c name) ∧
    ¬ Naming.isException c (Naming.checkable c name)

instance (c : Config) (name : String) : Decidable (Reportable c name) :=
  inferInstanceAs (Decidable (_ ∧ _))

namespace Tree

def Heap.IsBinding (h : Heap) (p : Path) : Prop :=
  ∃ q, h.Reaches [] q ∧ h.hasType q "ObjectPattern" ∧ p ∈ h.children q

/-- A property that was read with two identifiers, its key and its value, of the given names. -/
structure Pairs (tree : Json) (p : Path) (key value : String) : Prop where
  isProperty : (Heap.load tree).hasType p "Property"
  keyType : (Heap.load tree).hasType (.key "key" :: p) "Identifier"
  keyName : (Heap.load tree).get? (.key "key" :: p) "name" = some (.str key)
  valueType : (Heap.load tree).hasType (.key "value" :: p) "Identifier"
  valueName : (Heap.load tree).get? (.key "value" :: p) "name" = some (.str value)

/-- An identifier of the given name that a property holds in the linked tree. -/
structure Names (tree : Json) (p q : Path) (name : String) : Prop where
  isProperty : (linked tree).hasType p "Property"
  reaches : (linked tree).Reaches [] q
  isIdentifier : (Heap.load tree).hasType q "Identifier"
  name_eq : (linked tree).get? q "name" = some (.str name)
  parent : (linked tree).get q "parent" = .object p

section
variable {tree : Json} {c : Config} {p q : Path} {key value name : String} {vs : List Violation}

/-- A node has the node that holds it for a parent. -/
theorem get_parent_linked (hr : ((Heap.load tree).get? [] "type").isSome)
    (hp : (linked tree).Reaches [] p) (hq : q ∈ (linked tree).children p) :
    (linked tree).get q "parent" = .object p := by
  have hne : q ≠ [] := (Heap.childPath_of_mem_children (children_stage_subset hq)).ne_nil
  obtain ⟨p', hparent, -, -, huniq⟩ := parent_linked hr (hp.tail hq) hne
  rw [Heap.get, hparent, huniq p hq]
  rfl

/-- A node is held by a pattern if and only if its parent is one, which was not read. -/
theorem isTyped_parent_iff (hr : ((Heap.load tree).get? [] "type").isSome)
    (hroot : (Heap.load tree).get? [] "parent" = none) (hp : (linked tree).Reaches [] p) :
    (linked tree).IsTyped ((linked tree).get p "parent") "ObjectPattern" ↔
      (linked tree).IsBinding p := by
  constructor
  · rintro ⟨q, hq, ht⟩
    by_cases hne : p = []
    · subst hne
      rw [Heap.get, get?_root_parent_linked hr, hroot] at hq
      cases hq
    · obtain ⟨q', hparent, hreach, hmem, -⟩ := parent_linked hr hp hne
      rw [Heap.get, hparent] at hq
      obtain rfl := Value.object.inj hq
      exact ⟨q', hreach, ht, hmem⟩
  · rintro ⟨q, hreach, ht, hmem⟩
    exact ⟨q, get_parent_linked hr hreach hmem, ht⟩

/-- A node is told of once if it breaks the convention, and not otherwise. -/
theorem count_nodes (hf : (linked tree).findings c [] ((linked tree).identifiers []) = .ok vs)
    (hq : (linked tree).Reaches [] q) (ht : (Heap.load tree).hasType q "Identifier") :
    (vs.map (·.node)).count q = if (linked tree).offends c q then 1 else 0 := by
  have hmem : q ∈ (linked tree).identifiers [] := mem_identifiers_linked.mpr ⟨hq, ht⟩
  rw [(Heap.of_findings hf).1, List.Nodup.count ((nodup_eraseDups _).filter _)]
  simp only [List.mem_filter, List.mem_eraseDups, hmem, true_and]

theorem count_nodes_of_not_reaches
    (hf : (linked tree).findings c [] ((linked tree).identifiers []) = .ok vs)
    (hq : ¬ (linked tree).Reaches [] q) : (vs.map (·.node)).count q = 0 := by
  rw [(Heap.of_findings hf).1, List.count_eq_zero, List.mem_filter, List.mem_eraseDups]
  exact fun hmem => hq (mem_identifiers_linked.mp hmem.1).1

namespace Names

/-- The name of a property breaks the convention if it is to be reported, and not for a binding only. -/
theorem offends_iff (hn : Names tree p q name)
    (hf : (linked tree).findings c [] ((linked tree).identifiers []) = .ok vs) :
    (linked tree).offends c q ↔ Reportable c name ∧ ¬ (linked tree).NamesBinding p q := by
  have hmem : q ∈ (linked tree).identifiers [] :=
    mem_identifiers_linked.mpr ⟨hn.reaches, hn.isIdentifier⟩
  obtain ⟨b, hb⟩ := (Heap.findings_eq_ok.mp hf).1 q hmem
  rw [Heap.offends_of_verdict hb]
  rw [Heap.verdict_eq, hn.name_eq] at hb
  dsimp only [Option.getD_some] at hb
  split at hb
  · next hexempt =>
    cases hb
    exact iff_of_false Bool.false_ne_true fun ⟨hreport, _⟩ => hreport.2.2 hexempt
  · next hexempt =>
    rw [Heap.reported_iff hb, Heap.checked_property_iff hn.parent hn.isProperty, Reportable,
      and_iff_left hexempt, ← and_assoc, and_comm (a := c.policy = .always)]

theorem count_of_namesBinding (hn : Names tree p q name)
    (hf : (linked tree).findings c [] ((linked tree).identifiers []) = .ok vs)
    (hb : (linked tree).NamesBinding p q) : (vs.map (·.node)).count q = 0 := by
  have hoffends : ¬ (linked tree).offends c q := fun ho => ((hn.offends_iff hf).mp ho).2 hb
  rw [count_nodes hf hn.reaches hn.isIdentifier, if_neg hoffends]

theorem count_of_not_namesBinding (hn : Names tree p q name)
    (hf : (linked tree).findings c [] ((linked tree).identifiers []) = .ok vs)
    (hb : ¬ (linked tree).NamesBinding p q) :
    (vs.map (·.node)).count q = if Reportable c name then 1 else 0 := by
  rw [count_nodes hf hn.reaches hn.isIdentifier]
  refine if_congr ?_ rfl rfl
  rw [hn.offends_iff hf, and_iff_left hb]

end Names

namespace Pairs

theorem mem_shorthands_iff (hn : Pairs tree p key value) :
    p ∈ shorthands tree ↔
      (Heap.load tree).truthy ((Heap.load tree).get p "shorthand") ∧ key = value := by
  have hkey : (Heap.load tree).get (.key "key" :: p) "name" = .str key := by
    rw [Heap.get, hn.keyName, Option.getD_some]
  have hvalue : (Heap.load tree).get (.key "value" :: p) "name" = .str value := by
    rw [Heap.get, hn.valueName, Option.getD_some]
  have hsame : (Heap.load tree).same (.str key) (.str value) = .ok (key == value) :=
    same_of_isAtom (Or.inl rfl)
  rw [Tree.mem_shorthands_iff, hkey, hvalue, hsame]
  simp only [hn.isProperty, hn.keyType, hn.valueType, true_and, Except.ok.injEq, beq_iff_eq]

theorem get_key (hn : Pairs tree p key value) :
    (linked tree).get p "key" = .object (.key "key" :: p) := by
  rw [linked, get_stage_of_ne (by decide) (by decide)]
  exact Heap.get_load_of_get? hn.keyName

/-- The value of a property is kept if it is not shared. -/
theorem get?_value (hn : Pairs tree p key value) (hsh : p ∉ shorthands tree) :
    (linked tree).get? p "value" = some (.object (.key "value" :: p)) := by
  have hget : (Heap.load tree).get p "value" = .object (.key "value" :: p) :=
    Heap.get_load_of_get? hn.valueName
  rw [linked, get?_stage_value_of_not_mem fun h => hsh h.2]
  rw [Heap.get] at hget
  cases hv : (Heap.load tree).get? p "value" with
  | none => simp [hv] at hget
  | some v => simpa [hv] using hget

/-- What a property holds is the identifier of the given name. -/
theorem names (hn : Pairs tree p key value) (hr : ((Heap.load tree).get? [] "type").isSome)
    (hp : (linked tree).Reaches [] p) (hq : q ∈ (linked tree).children p)
    (ht : (Heap.load tree).hasType q "Identifier")
    (hname : (Heap.load tree).get? q "name" = some (.str name)) : Names tree p q name where
  isProperty := (hasType_stage _).trans hn.isProperty
  reaches := hp.tail hq
  isIdentifier := ht
  name_eq := by rw [linked, get?_stage_of_ne (by decide) (by decide), hname]
  parent := get_parent_linked hr hp hq

theorem names_key (hn : Pairs tree p key value) (hr : ((Heap.load tree).get? [] "type").isSome)
    (hp : (linked tree).Reaches [] p) : Names tree p (.key "key" :: p) key := by
  obtain ⟨type, ht⟩ := Option.isSome_iff_exists.mp (Heap.isSome_get?_type hn.keyType)
  have hmem : .key "key" :: p ∈ (linked tree).children p :=
    mem_children_stage_of_key (by decide) (by decide) ht
  exact hn.names hr hp hmem hn.keyType hn.keyName

theorem names_value (hn : Pairs tree p key value) (hr : ((Heap.load tree).get? [] "type").isSome)
    (hp : (linked tree).Reaches [] p) (hsh : p ∉ shorthands tree) :
    Names tree p (.key "value" :: p) value := by
  have hentry := mem_of_lookup_eq_some (hn.get?_value hsh)
  have hmem : .key "value" :: p ∈ (linked tree).children p := by
    refine Heap.mem_children.mpr ⟨"value", _, hentry, by decide, Or.inl rfl, ?_⟩
    rw [linked, get?_stage_of_ne (by decide) (by decide)]
    exact Heap.isSome_get?_type hn.valueType
  exact hn.names hr hp hmem hn.valueType hn.valueName

theorem not_namesBinding_of_shared (hr : ((Heap.load tree).get? [] "type").isSome)
    (hp : (linked tree).Reaches [] p) (hsh : p ∈ shorthands tree) :
    ¬ (linked tree).NamesBinding p (.key "key" :: p) := by
  rintro ⟨-, -, hvalue⟩
  rw [Heap.get, get?_linked_value hp hr hsh] at hvalue
  exact hvalue rfl

theorem namesBinding_iff (hn : Pairs tree p key value)
    (hr : ((Heap.load tree).get? [] "type").isSome)
    (hroot : (Heap.load tree).get? [] "parent" = none) (hp : (linked tree).Reaches [] p)
    (hsh : p ∉ shorthands tree) :
    (linked tree).NamesBinding p (.key "key" :: p) ↔ (linked tree).IsBinding p := by
  have hvalue : (linked tree).get p "value" ≠ .object (.key "key" :: p) := by
    rw [Heap.get, hn.get?_value hsh]
    simp
  rw [Heap.NamesBinding, isTyped_parent_iff hr hroot hp]
  exact and_iff_left ⟨hn.get_key, hvalue⟩

theorem not_namesBinding_value (hn : Pairs tree p key value) :
    ¬ (linked tree).NamesBinding p (.key "value" :: p) := by
  rintro ⟨-, hkey, -⟩
  rw [hn.get_key] at hkey
  simp at hkey

end Pairs

end

end Tree

/--
Of a property with two identifiers a check reports, if the property is a shorthand, the key once if
its name is to be reported, and never what was the value. If it is none, it reports each of the two
once if its name is to be reported, but for the key of a property of a pattern.
-/
theorem lint_properties (tree : Json) (host : Host) (options : Json) (hd : tree.Distinct)
    (hroot : (Heap.load tree).get? [] "parent" = none) (c : Config) (notices : List Notice)
    (hc : Options.resolve host options = .ok (c, notices)) (progress : Progress) (rs : List Record)
    (hl : recordsOf ((lint host options (valueOf [] tree)).run.run ⟨Heap.load tree, progress⟩) = .ok rs) :
    ∃ h, (attachParents (valueOf [] tree)).run.run (Heap.load tree) = (.ok (), h) ∧
      ∀ p key value, h.Reaches [] p → Pairs tree p key value →
        ((Heap.load tree).truthy ((Heap.load tree).get p "shorthand") ∧ key = value →
          (rs.map (·.node)).count (.key "key" :: p) = (if Reportable c key then 1 else 0) ∧
          (rs.map (·.node)).count (.key "value" :: p) = 0) ∧
        (¬ ((Heap.load tree).truthy ((Heap.load tree).get p "shorthand") ∧ key = value) →
          (h.IsBinding p → (rs.map (·.node)).count (.key "key" :: p) = 0) ∧
          (¬ h.IsBinding p →
            (rs.map (·.node)).count (.key "key" :: p) = if Reportable c key then 1 else 0) ∧
          (rs.map (·.node)).count (.key "value" :: p) = if Reportable c value then 1 else 0) := by
  obtain ⟨c', notices', vs, hc', hr, hcomparable, hf, rfl⟩ := of_recordsOf_eq_ok hl
  obtain ⟨rfl, rfl⟩ := Prod.mk.inj (Except.ok.inj (hc.symm.trans hc'))
  have hnodes : (vs.map (·.record (linked tree))).map (·.node) = vs.map (·.node) := by
    rw [List.map_map]
    rfl
  rw [hnodes, valueOf_root hr]
  refine ⟨linked tree, run_attachParents_eq hr hcomparable, fun p key value hp hn => ?_⟩
  have hkey := hn.names_key hr hp
  rw [← hn.mem_shorthands_iff]
  constructor
  · intro hsh
    have hgone : ¬ (linked tree).Reaches [] (.key "value" :: p) :=
      (links_linked hd hr).replaced p _ hp hsh List.suffix_rfl
    have hbinding := Pairs.not_namesBinding_of_shared hr hp hsh
    exact ⟨hkey.count_of_not_namesBinding hf hbinding, count_nodes_of_not_reaches hf hgone⟩
  · intro hsh
    have hbinding := hn.namesBinding_iff hr hroot hp hsh
    refine ⟨fun hb => ?_, fun hb => ?_, ?_⟩
    · exact hkey.count_of_namesBinding hf (hbinding.mpr hb)
    · exact hkey.count_of_not_namesBinding hf (mt hbinding.mp hb)
    · exact (hn.names_value hr hp hsh).count_of_not_namesBinding hf hn.not_namesBinding_value

/-- A pattern of a shorthand and of a property that is bound to another name. -/
def renamingPattern : Json :=
  .obj [("type", .str "ObjectPattern"), ("properties", .arr [
    .obj [("type", .str "Property"), ("shorthand", .bool true),
      ("key", .obj [("type", .str "Identifier"), ("name", .str "a_b")]),
      ("value", .obj [("type", .str "Identifier"), ("name", .str "a_b")])],
    .obj [("type", .str "Property"), ("shorthand", .bool false),
      ("key", .obj [("type", .str "Identifier"), ("name", .str "c_d")]),
      ("value", .obj [("type", .str "Identifier"), ("name", .str "e_f")])]])]

theorem lint_properties_renamingPattern :
    ∃ rs, recordsOf ((lint {} .null (valueOf [] renamingPattern)).run.run
        ⟨Heap.load renamingPattern, {}⟩) = .ok rs ∧
      (rs.map (·.node)).count [.key "key", .index 0, .key "properties"] = 1 ∧
      (rs.map (·.node)).count [.key "value", .index 0, .key "properties"] = 0 ∧
      (rs.map (·.node)).count [.key "key", .index 1, .key "properties"] = 0 ∧
      (rs.map (·.node)).count [.key "value", .index 1, .key "properties"] = 1 := by
  let property (i : Nat) : Path := [.index i, .key "properties"]
  have hd : renamingPattern.Distinct := by
    simp [renamingPattern, Json.Distinct, Json.DistinctFields, Json.DistinctItems]
  obtain ⟨rs, hl⟩ : ∃ rs, recordsOf ((lint {} .null (valueOf [] renamingPattern)).run.run
      ⟨Heap.load renamingPattern, {}⟩) = .ok rs := ⟨_, (recordsOf_run_lint _ _ _ _).trans rfl⟩
  obtain ⟨h, hrun, hall⟩ := lint_properties renamingPattern {} .null hd rfl {} [] rfl {} rs hl
  obtain rfl : ((attachParents (valueOf [] renamingPattern)).run.run
    (Heap.load renamingPattern)).2 = h := congrArg Prod.snd hrun
  have hshorthand : Pairs renamingPattern (property 0) "a_b" "a_b" := ⟨rfl, rfl, rfl, rfl, rfl⟩
  have hrenamed : Pairs renamingPattern (property 1) "c_d" "e_f" := ⟨rfl, rfl, rfl, rfl, rfl⟩
  have hfirst := hall (property 0) "a_b" "a_b" (.tail .refl (by decide +kernel)) hshorthand
  have hsecond := hall (property 1) "c_d" "e_f" (.tail .refl (by decide +kernel)) hrenamed
  obtain ⟨hkey, hvalue⟩ := hfirst.1 (by decide)
  obtain ⟨hexternal, -, hlocal⟩ := hsecond.2 (by decide)
  have hreportable : Reportable {} "a_b" ∧ Reportable {} "e_f" := by decide +kernel
  refine ⟨rs, hl, ?_, hvalue, hexternal ⟨[], .refl, by decide +kernel, by decide +kernel⟩, ?_⟩
  · rw [hkey, if_pos hreportable.1]
  · rw [hlocal, if_pos hreportable.2]

end IdentCase
