import IdentCase.Proofs.Reports

/-! The records of a check: its violations with all values in their JSON form. -/
namespace IdentCase

open IdentCase.Tree

structure Record where
  id : String
  name : Json
  message : String
  line : Json
  column : Json
  node : Path

def Violation.record (h : Heap) (v : Violation) : Record where
  id := v.id
  name := h.toJson v.name
  message := v.message
  line := h.toJson v.line
  column := h.toJson v.column
  node := v.node

/-- The records of a check, with the values as they are in the heap that it leaves. -/
def recordsOf (run : Except Fault (List Violation) × Session) : Except Fault (List Record) :=
  run.1.map (·.map (·.record run.2.heap))

namespace Tree.Heap

def position (h : Heap) (p : Path) : Except Fault (Value × Value) := do
  let start ← h.fieldOf (h.get p "loc") "start"
  let line ← h.fieldOf start "line"
  let column ← h.fieldOf start "column"
  return (line, column)

/-- A line and a column as an identification tells them: not at all if the line is null. -/
def toldPosition (h : Heap) (line column : Value) : Option (String × String) :=
  match line with
  | .null => none
  | _ => some ((h.toJson line).text, (h.toJson column).text)

/-- Whether what is told of a line and a column can be written. -/
def tellable (h : Heap) (line column : Value) : Bool :=
  match line with
  | .null => true
  | _ => (h.toJson line).legible && (h.toJson column).legible

def violationAt (h : Heap) (p : Path) (position : Value × Value) : Violation :=
  let name := (h.get? p "name").getD (.str "")
  let shown := (h.toJson name).text
  { id := Violation.idFor (h.toldPosition position.1 position.2) shown
    name
    message := Violation.messageFor shown
    line := position.1
    column := position.2
    node := p }

/-- Whether the name of a node can be written, and a position with it. -/
def tellableAt (h : Heap) (p : Path) (position : Value × Value) : Bool :=
  h.tellable position.1 position.2 && (h.toJson ((h.get? p "name").getD (.str ""))).legible

section
variable {h h' : Heap} {line column : Value}

theorem toldPosition_congr (hline : h'.toJson line = h.toJson line)
    (hcolumn : h'.toJson column = h.toJson column) :
    h'.toldPosition line column = h.toldPosition line column := by
  unfold toldPosition
  rw [hline, hcolumn]

theorem tellable_congr (hline : (h'.toJson line).legible = (h.toJson line).legible)
    (hcolumn : (h'.toJson column).legible = (h.toJson column).legible) :
    h'.tellable line column = h.tellable line column := by
  unfold tellable
  rw [hline, hcolumn]

end

theorem told_eq (h : Heap) (line column : Value) : h.told line column =
    if h.tellable line column then .ok (h.toldPosition line column)
    else .error (.limit .numberTooLong) := by
  by_cases hl : (h.toJson line).legible
  · by_cases hc : (h.toJson column).legible
    · cases line <;> simp only [told, tellable, Json.written, hl, hc, if_true, Bool.and_self] <;> rfl
    · cases line <;> simp only [told, tellable, Json.written, hl, hc, if_true, Bool.and_false] <;> rfl
  · cases line <;> simp only [told, tellable, Json.written, hl, if_true, Bool.false_and] <;> rfl

/-- A violation can be made if the position can be read, and all that it tells can be written. -/
theorem violation_eq (h : Heap) (p : Path) :
    h.violation p = h.position p >>= fun position =>
      if h.tellableAt p position then .ok (h.violationAt p position)
      else .error (.limit .numberTooLong) := by
  unfold violation position violationAt tellableAt
  simp only [bind_assoc, pure_bind, told_eq, Json.written]
  generalize (h.get? p "name").getD (.str "") = name
  refine congrArg _ (funext fun start => congrArg _ (funext fun line => congrArg _ (funext fun column => ?_)))
  by_cases ht : h.tellable line column
  · by_cases hn : (h.toJson name).legible
    · simp only [ht, hn, if_true, Bool.and_self]
      rfl
    · simp only [ht, hn, if_true, Bool.and_false]
      rfl
  · simp only [ht, Bool.false_and]
    rfl

theorem violation_eq_ok {h : Heap} {p : Path} {v : Violation} :
    h.violation p = .ok v ↔ ∃ position, h.position p = .ok position ∧ h.tellableAt p position ∧
      v = h.violationAt p position := by
  rw [violation_eq, bind_eq_ok]
  refine exists_congr fun position => and_congr_right fun _ => ?_
  by_cases ht : h.tellableAt p position
  · simp [ht, eq_comm]
  · simp [ht]

theorem node_of_violation {h : Heap} {p : Path} {v : Violation} (hv : h.violation p = .ok v) :
    v.node = p := by
  obtain ⟨position, -, -, rfl⟩ := violation_eq_ok.mp hv
  rfl

theorem of_mapM_violation {h : Heap} {ps : List Path} {vs : List Violation}
    (hm : ps.mapM h.violation = .ok vs) :
    vs.map (·.node) = ps ∧ ∀ v ∈ vs, h.violation v.node = .ok v := by
  induction ps generalizing vs with
  | nil =>
    cases hm
    exact ⟨rfl, nofun⟩
  | cons p ps ih =>
    obtain ⟨v, ws, hv, hws, rfl⟩ := mapM_cons_eq_ok.mp hm
    obtain ⟨hnodes, hall⟩ := ih hws
    have hnode := node_of_violation hv
    rw [List.map_cons, hnode, hnodes]
    exact ⟨rfl, List.forall_mem_cons.mpr ⟨hnode.symm ▸ hv, hall⟩⟩

/-- The findings are the violations of the nodes that break the convention. -/
theorem of_findings {c : Config} {h : Heap} {ps : List Path} {vs : List Violation}
    (hf : h.findings c [] ps = .ok vs) :
    vs.map (·.node) = ps.eraseDups.filter (h.offends c) ∧ ∀ v ∈ vs, h.violation v.node = .ok v := by
  have hm := (findings_eq_ok.mp hf).2
  simp only [List.contains_nil, Bool.not_false, Bool.and_true] at hm
  exact of_mapM_violation hm

theorem findings_cons {c : Config} {h : Heap} {p : Path} {b : Bool} (hb : h.verdict c p = .ok b)
    (marked ps : List Path) :
    h.findings c marked (p :: ps) =
      if b && !marked.contains p then
        (h.violation p).bind fun v => (h.findings c (p :: marked) ps).map (v :: ·)
      else h.findings c marked ps := by
  rw [findings, hb]
  dsimp only
  split
  · cases h.violation p <;> rfl
  · rfl

theorem map_bind_cons {α β ε : Type} (g : α → β) (x : Except ε α) (xs : Except ε (List α)) :
    (x.bind fun a => xs.map (a :: ·)).map (·.map g) =
      (x.map g).bind fun b => (xs.map (·.map g)).map (b :: ·) := by
  cases x with
  | error e => rfl
  | ok a => cases xs <;> rfl

/-- What is told of the findings depends on what is told of the violation of each node. -/
theorem findings_map_congr {β : Type} {c : Config} {h h' : Heap} {g g' : Violation → β}
    {marked ps : List Path} (hv : ∀ p ∈ ps, h'.verdict c p = h.verdict c p)
    (hx : ∀ p ∈ ps, h.verdict c p = .ok true → (h'.violation p).map g' = (h.violation p).map g) :
    (h'.findings c marked ps).map (·.map g') = (h.findings c marked ps).map (·.map g) := by
  induction ps generalizing marked with
  | nil => rfl
  | cons p ps ih =>
    obtain ⟨hvp, hvs⟩ := List.forall_mem_cons.mp hv
    obtain ⟨hxp, hxs⟩ := List.forall_mem_cons.mp hx
    cases hb : h.verdict c p with
    | error e => simp only [findings, hvp, hb, Except.map]
    | ok b =>
      rw [findings_cons hb, findings_cons (hvp.trans hb)]
      split
      · next hmark =>
        obtain rfl : b = true := (Bool.and_eq_true_iff.mp hmark).1
        rw [map_bind_cons, map_bind_cons, hxp hb, ih hvs hxs]
      · exact ih hvs hxs

theorem position_eq_ok {h : Heap} {p : Path} {line column : Value} :
    h.position p = .ok (line, column) ↔ ∃ start, h.fieldOf (h.get p "loc") "start" = .ok start ∧
      h.fieldOf start "line" = .ok line ∧ h.fieldOf start "column" = .ok column := by
  unfold position
  rw [bind_eq_ok]
  refine exists_congr fun start => and_congr_right fun _ => ?_
  rw [bind_eq_ok]
  constructor
  · rintro ⟨line', hl, hc⟩
    obtain ⟨column', hc, he⟩ := bind_eq_ok.mp hc
    cases he
    exact ⟨hl, hc⟩
  · rintro ⟨hl, hc⟩
    exact ⟨line, hl, bind_eq_ok.mpr ⟨column, hc, rfl⟩⟩

end Tree.Heap

/-- The records of a check with raw options are those of a check with what the options resolve to. -/
theorem recordsOf_run_lint (host : Host) (options : Json) (root : Value) (s : Session) :
    recordsOf ((lint host options root).run.run s) =
      match Options.resolve host options with
      | .error e => .error e
      | .ok (c, _) => (pass c root s.heap).map
          (·.map (·.record ((attachParents root).run.run s.heap).2)) := by
  rw [recordsOf, run_lint, heap_run_lint]
  rcases Options.resolve host options with e | ⟨c, notices⟩ <;> rfl

/-- If all names can be compared the records are those of the findings in the linked tree. -/
theorem recordsOf_run_lint_load {tree : Json} {host : Host} {options : Json} {c : Config} {notices : List Notice}
    (hc : Options.resolve host options = .ok (c, notices))
    (hr : ((Heap.load tree).get? [] "type").isSome)
    (hn : ∀ p, (Heap.load tree).shared.Reaches [] p → Comparable tree p) (progress : Progress) :
    recordsOf ((lint host options (valueOf [] tree)).run.run ⟨Heap.load tree, progress⟩) =
      ((linked tree).findings c [] ((linked tree).identifiers [])).map
        (·.map (·.record (linked tree))) := by
  rw [recordsOf_run_lint, hc, valueOf_root hr, run_attachParents_eq hr hn]
  dsimp only
  rw [pass_load_eq hr hn]

end IdentCase
