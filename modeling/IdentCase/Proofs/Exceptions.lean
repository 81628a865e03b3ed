import IdentCase.Proofs.Trace

/-! Exceptions: they exempt the checkable parts of names, and so a name that is its own. -/
namespace IdentCase

open IdentCase.Tree

section
variable {α β ε : Type} {f : α → Except ε β}

theorem exists_mem_of_mapM {l : List α} {out : List β} {x : α} (hm : l.mapM f = .ok out)
    (hx : x ∈ l) : ∃ y ∈ out, f x = .ok y := by
  obtain ⟨out', hone, hsub⟩ := mapM_sublist (List.singleton_sublist.mpr hx) hm
  obtain ⟨y, ys, hy, -, rfl⟩ := mapM_cons_eq_ok.mp hone
  exact ⟨y, hsub.subset List.mem_cons_self, hy⟩

end

section
variable {host : Host} {options : Json} {items : List Json} {c : Config} {notices : List Notice} {e : String}
  {root : Value} {s : Session} {rs : List Record}

/-- A text in the list of exceptions is an exception. -/
theorem Naming.isException_of_mem (hc : Options.resolve host options = .ok (c, notices))
    (hi : options.get? "exceptions" = some (.arr items)) (he : .str e ∈ items) :
    isException c e := by
  have hlist := (Options.resolves_of_eq_ok hc).exceptions
  rw [hi] at hlist
  obtain ⟨matchers, hm, hsome⟩ := map_eq_ok.mp hlist
  obtain ⟨m, hmem, hmatcher⟩ := exists_mem_of_mapM hm he
  have hliteral : .literal e = m := Except.ok.inj hmatcher
  rw [isException, acceptedByAny, ← hsome, List.any_eq_true]
  refine ⟨m, hmem, ?_⟩
  rw [← hliteral]
  exact beq_self_eq_true e

/-- The name of a node that is reported has a checkable part that is no exception. -/
theorem Tree.Heap.not_isException_of_verdict {h : Heap} {p : Path} {raw : String}
    (hname : h.get? p "name" = some (.str raw)) (hv : h.verdict c p = .ok true) :
    ¬ Naming.isException c (Naming.checkable c raw) := by
  intro hexempt
  rw [verdict_eq, hname, Option.getD_some] at hv
  dsimp only at hv
  rw [if_pos hexempt] at hv
  cases hv

/-- Each record of a check is of a node that is to be reported, as it stands when it is linked. -/
theorem of_mem_records (hc : Options.resolve host options = .ok (c, notices))
    (hl : recordsOf ((lint host options root).run.run s) = .ok rs) :
    ∃ h : Heap, ∀ r ∈ rs, h.verdict c r.node = .ok true ∧
      r.name = h.toJson ((h.get? r.node "name").getD (.str "")) := by
  rw [recordsOf_run_lint, hc] at hl
  obtain ⟨vs, hpass, rfl⟩ := map_eq_ok.mp hl
  cases root with
  | object p =>
    obtain ⟨h, hrun, -, hf⟩ := pass_eq_ok.mp hpass
    obtain ⟨hnodes, hall⟩ := Heap.of_findings hf
    rw [hrun]
    refine ⟨h, fun r hr => ?_⟩
    obtain ⟨v, hv, rfl⟩ := List.mem_map.mp hr
    have hnode : v.node ∈ vs.map (·.node) := List.mem_map_of_mem hv
    rw [hnodes, List.mem_filter, List.mem_eraseDups] at hnode
    obtain ⟨b, hb⟩ := (Heap.findings_eq_ok.mp hf).1 v.node hnode.1
    have htrue : b = true := (Heap.offends_of_verdict hb).symm.trans hnode.2
    exact ⟨htrue ▸ hb, congrArg h.toJson (Heap.name_of_violation (hall v hv))⟩
  | _ => cases hpass

theorem name_of_mem_records (hc : Options.resolve host options = .ok (c, notices))
    (hl : recordsOf ((lint host options root).run.run s) = .ok rs) (r : Record) (hr : r ∈ rs) :
    ∃ raw, r.name = .str raw ∧ ¬ Naming.isException c (Naming.checkable c raw) := by
  obtain ⟨h, hall⟩ := of_mem_records hc hl
  obtain ⟨hv, hname⟩ := hall r hr
  obtain ⟨raw, hraw⟩ := Heap.get?_name_of_verdict hv
  rw [hraw] at hname
  exact ⟨raw, hname, Heap.not_isException_of_verdict hraw hv⟩

end

/--
No name is reported if its checkable part is listed as an exception. So a name that is listed is not
reported itself if it is its own checkable part.
-/
theorem lint_exempts (host : Host) (options : Json) (items : List Json) (e : String)
    (hi : options.get? "exceptions" = some (.arr items)) (he : .str e ∈ items) (c : Config)
    (notices : List Notice) (hc : Options.resolve host options = .ok (c, notices)) (root : Value)
    (s : Session) (rs : List Record)
    (hl : recordsOf ((lint host options root).run.run s) = .ok rs) :
    (∀ r ∈ rs, ∃ raw, r.name = .str raw ∧ Naming.checkable c raw ≠ e) ∧
      (Naming.checkable c e = e → ∀ r ∈ rs, r.name ≠ .str e) := by
  have hexempt := Naming.isException_of_mem hc hi he
  have hnames : ∀ r ∈ rs, ∃ raw, r.name = .str raw ∧ Naming.checkable c raw ≠ e := by
    intro r hr
    obtain ⟨raw, hname, hn⟩ := name_of_mem_records hc hl r hr
    exact ⟨raw, hname, fun heq => hn (heq ▸ hexempt)⟩
  refine ⟨hnames, fun hself r hr hname => ?_⟩
  obtain ⟨raw, hraw, hne⟩ := hnames r hr
  obtain rfl := Json.str.inj (hraw.symm.trans hname)
  exact hne hself

def identifierOf (name : String) : Json := .obj [("type", .str "Identifier"), ("name", .str name)]

def identifiersProgram : Json :=
  .obj [("type", .str "Program"),
    ("body", .arr [identifierOf "a_b", identifierOf "_opt_a_b_", identifierOf "c_d"])]

def exemptingOptions : Json :=
  .obj [("allowedPrefixes", .arr [.str "opt_"]), ("exceptions", .arr [.str "a_b"])]

theorem lint_exempts_identifiersProgram :
    ∃ rs, recordsOf ((lint {} exemptingOptions (.object [])).run.run
        ⟨Heap.load identifiersProgram, {}⟩) = .ok rs ∧
      rs.map (·.name) = [.str "c_d"] ∧ ∀ r ∈ rs, r.name ≠ .str "a_b" := by
  let c : Config :=
    { prefixes := some [.literal "opt_"], exceptions := some [.literal "a_b"] }
  have hself : Naming.checkable c "a_b" = "a_b" := by decide +kernel
  obtain ⟨rs, hl, hnames⟩ : ∃ rs, recordsOf ((lint {} exemptingOptions (.object [])).run.run
      ⟨Heap.load identifiersProgram, {}⟩) = .ok rs ∧ rs.map (·.name) = [.str "c_d"] :=
    ⟨_, (recordsOf_run_lint _ _ _ _).trans rfl, rfl⟩
  obtain ⟨-, hnone⟩ := lint_exempts {} exemptingOptions [.str "a_b"] "a_b" rfl
    (List.mem_singleton_self _) c [] rfl (.object []) _ rs hl
  exact ⟨rs, hl, hnames, hnone hself⟩

/-- A name that is listed is reported if it is marked as private, as its checkable part is not listed. -/
theorem not_lint_exempts_listed : ¬ ∀ (tree options : Json) (items : List Json) (e : String)
    (c : Config) (notices : List Notice) (progress : Progress) (rs : List Record), tree.Distinct →
    options.get? "exceptions" = some (.arr items) → .str e ∈ items →
    Options.resolve {} options = .ok (c, notices) →
    recordsOf ((lint {} options (valueOf [] tree)).run.run ⟨Heap.load tree, progress⟩) = .ok rs →
    ∀ r ∈ rs, r.name ≠ .str e := by
  intro h
  let options : Json := .obj [("exceptions", .arr [.str "_a_b"])]
  have hd : (identifierOf "_a_b").Distinct := by
    simp [identifierOf, Json.Distinct, Json.DistinctFields]
  obtain ⟨rs, hl, hnames⟩ : ∃ rs, recordsOf ((lint {} options (valueOf [] (identifierOf "_a_b"))).run.run
      ⟨Heap.load (identifierOf "_a_b"), {}⟩) = .ok rs ∧ rs.map (·.name) = [.str "_a_b"] :=
    ⟨_, (recordsOf_run_lint _ _ _ _).trans rfl, rfl⟩
  have hnone := h _ options [.str "_a_b"] "_a_b" { exceptions := some [.literal "_a_b"] } [] {} rs hd
    rfl (List.mem_singleton_self _) rfl hl
  have hmem : .str "_a_b" ∈ rs.map (·.name) := by
    rw [hnames]
    exact List.mem_singleton_self _
  obtain ⟨r, hr, hname⟩ := List.mem_map.mp hmem
  exact hnone r hr hname

end IdentCase
