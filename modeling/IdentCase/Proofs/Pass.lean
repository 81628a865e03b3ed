import IdentCase.Check
import IdentCase.Proofs.Run
import IdentCase.Proofs.Tree.Staging

/-! A check as a function: what it finds depends on the configuration and the tree alone. -/
namespace IdentCase

open IdentCase.Tree

namespace Tree.Heap

def verdict (c : Config) (h : Heap) (p : Path) : Except Fault Bool :=
  match Naming.checkable? c (h.toJson ((h.get? p "name").getD (.str ""))) with
  | .error e => .error e
  | .ok name => if Naming.isException c name then .ok false else h.shouldReport c p (.str name)

/-- Only a node with a text for a name can be judged. No name counts as an empty one. -/
theorem verdict_eq (c : Config) (h : Heap) (p : Path) :
    h.verdict c p =
      match (h.get? p "name").getD (.str "") with
      | .str raw =>
        if Naming.isException c (Naming.checkable c raw) then .ok false
        else h.shouldReport c p (.str (Naming.checkable c raw))
      | _ => .error .notUsable := by
  unfold verdict
  cases (h.get? p "name").getD (.str "") <;> simp [toJson, unfold, Naming.checkable?]

theorem verdict_of_not_isAtom {c : Config} {h : Heap} {p : Path}
    (hn : ¬ (h.get p "name").isAtom) : h.verdict c p = .error .notUsable := by
  rw [verdict_eq]
  unfold get at hn
  cases hv : h.get? p "name" with
  | none => simp [hv, Value.isAtom] at hn
  | some v =>
    cases v with
    | list items => rfl
    | object q => rfl
    | _ => simp [hv, Value.isAtom] at hn

theorem isAtom_of_verdict {c : Config} {h : Heap} {p : Path} {b : Bool}
    (hv : h.verdict c p = .ok b) : (h.get p "name").isAtom := by
  by_contra hn
  rw [verdict_of_not_isAtom hn] at hv
  cases hv

/-- A name that is an atom is one still if no name counts as an empty one. -/
theorem isAtom_getD {h : Heap} {p : Path} (hn : (h.get p "name").isAtom) :
    ((h.get? p "name").getD (.str "")).isAtom := by
  unfold get at hn
  cases hv : h.get? p "name" with
  | none => rfl
  | some v => simpa [hv] using hn

def offends (c : Config) (h : Heap) (p : Path) : Bool :=
  match h.verdict c p with
  | .ok b => b
  | .error _ => false

/-- The violations of nodes in order, without those of marked nodes. -/
def findings (c : Config) (h : Heap) : (marked : List Path) → List Path → Except Fault (List Violation)
  | _, [] => .ok []
  | marked, p :: ps =>
    match h.verdict c p with
    | .error e => .error e
    | .ok b =>
      if b && !marked.contains p then
        match h.violation p with
        | .error e => .error e
        | .ok v => (h.findings c (p :: marked) ps).map (v :: ·)
      else h.findings c marked ps

/-- These nodes and no others break the convention. -/
theorem offends_iff {c : Config} {h : Heap} {p : Path} :
    h.offends c p ↔ ∃ name,
      Naming.checkable? c (h.toJson ((h.get? p "name").getD (.str ""))) = .ok name ∧
        Naming.isException c name = false ∧ h.shouldReport c p (.str name) = .ok true := by
  unfold offends verdict
  cases hn : Naming.checkable? c (h.toJson ((h.get? p "name").getD (.str ""))) with
  | error e => simp
  | ok name =>
    cases he : Naming.isException c name with
    | true => simp [he]
    | false => cases hs : h.shouldReport c p (.str name) <;> simp [he, hs]

end Tree.Heap

def Console.lines (c : Console) (ns : List Notice) : String :=
  String.join (ns.map fun n => c.debugLine n.text)

def Progress.noting (c : Config) (ns : List Notice) (s : Progress) : Progress :=
  { s with written := s.written ++ c.console.lines ns }

section
variable {c : Config} {h : Heap} {p : Path} {ps marked : List Path} {s : Progress}

@[simp] theorem Progress.sink_noting (ns : List Notice) : (s.noting c ns).sink = s.sink := rfl

theorem run_note (n : Notice) (s : Progress) : (note c n).run.run s = (.ok (), s.noting c [n]) := by
  have hline : c.console.lines [n] = c.console.debugLine n.text := String.empty_append
  rw [Progress.noting, hline]
  rfl

theorem run_notes (ns : List Notice) (s : Progress) :
    (ns.forM (note c)).run.run s = (.ok (), s.noting c ns) := by
  induction ns generalizing s with
  | nil =>
    have hnone : s.noting c [] = s := by rw [Progress.noting, Console.lines, List.map_nil, String.join_nil, String.append_empty]
    rw [run_forM_nil, hnone]
  | cons n ns ih =>
    have hsome : (s.noting c [n]).noting c ns = s.noting c (n :: ns) := by
      simp [Progress.noting, Console.lines, String.append_assoc]
    rw [run_forM_cons, run_note, andThen_ok, ih, hsome]

/-- The parts of a check that read no progress. -/
theorem run_report (s : Progress) :
    (report h p).run.run s =
      (((Sink.report h p).run.run s.sink).1, { s with sink := ((Sink.report h p).run.run s.sink).2 }) :=
  rfl

theorem run_sink_report (s : Sink) :
    (Sink.report h p).run.run s =
      if s.marked.contains p then (.ok false, s)
      else
        match h.violation p with
        | .error e => (.error e, { s with marked := p :: s.marked })
        | .ok v => (.ok true, { marked := p :: s.marked, violations := s.violations ++ [v] }) := by
  simp only [Sink.report, run_bind, run_get, andThen_ok]
  split
  · rfl
  · simp only [run_bind, run_modify, andThen_ok, run_liftM, run_pure]
    cases h.violation p <;> rfl

theorem run_visit (s : Progress) :
    (visit c h p).run.run s =
      match h.verdict c p with
      | .error e => (.error e, s)
      | .ok false => (.ok (), s)
      | .ok true => andThen ((report h p).run.run s) fun reported s =>
          if reported then (.ok (), s.noting c [.reported (h.toJson (h.get p "name"))])
          else (.ok (), s) := by
  simp only [visit, Heap.verdict, run_bind, run_liftM]
  cases Naming.checkable? c (h.toJson ((h.get? p "name").getD (.str ""))) with
  | error e => rfl
  | ok name =>
    simp only [andThen_ok]
    by_cases he : Naming.isException c name
    · simp only [he, if_true, run_pure]
    · simp only [he, Bool.false_eq_true, if_false, run_bind, run_liftM]
      rcases h.shouldReport c p (.str name) with e | b
      · rfl
      · cases b with
        | false => rfl
        | true =>
          simp only [andThen_ok, if_true, run_bind]
          congr 1
          funext reported s
          split
          · rw [run_note]
          · rfl

/-- The visits of nodes find what there is to find, and add it to the sink. -/
theorem run_visits (ps : List Path) (s : Progress) :
    ((ps.forM (visit c h)).run.run s).1.map
        (fun _ => ((ps.forM (visit c h)).run.run s).2.sink.violations) =
      (h.findings c s.sink.marked ps).map (s.sink.violations ++ ·) := by
  induction ps generalizing s with
  | nil =>
    rw [run_forM_nil]
    simp [Heap.findings, Except.map]
  | cons p ps ih =>
    rw [run_forM_cons, run_visit, Heap.findings]
    rcases hv : h.verdict c p with e | b
    · rfl
    · cases b with
      | false => exact ih s
      | true =>
        rw [run_report, run_sink_report]
        by_cases hm : s.sink.marked.contains p
        · simp only [hm]
          exact ih s
        · rw [if_neg hm]
          simp only [Bool.eq_false_iff.mpr hm]
          rcases hx : h.violation p with e | v
          · rfl
          · simp only [andThen_ok, if_true, ih, Progress.sink_noting]
            cases h.findings c (p :: s.sink.marked) ps <;> simp [Except.map]

theorem run_traverse_eq (root : Path) (s : Progress) :
    (traverse c h root).run.run s =
      if (h.get? root "type").isNone then (.error .untyped, s)
      else ((h.identifiers root).forM (visit c h)).run.run s := by
  rw [traverse, Heap.traverse_eq_forM]
  split
  · rfl
  · rfl

/-- What a check of all identifiers from a root on finds. -/
theorem run_traverse (root : Path) (s : Progress) :
    ((traverse c h root).run.run s).1.map
        (fun _ => ((traverse c h root).run.run s).2.sink.violations) =
      if (h.get? root "type").isNone then .error .untyped
      else (h.findings c s.sink.marked (h.identifiers root)).map (s.sink.violations ++ ·) := by
  rw [run_traverse_eq]
  split
  · rfl
  · exact run_visits _ s

end

/-- A check with a configuration: links the nodes to their parents, and then visits them. -/
def pass (c : Config) (root : Value) (h : Heap) : Except Fault (List Violation) :=
  match root with
  | .object p =>
    match (attachParents root).run.run h with
    | (.error e, _) => .error e
    | (.ok (), h) =>
      ((traverse c h p).run.run {}).1.map fun _ => ((traverse c h p).run.run {}).2.sink.violations
  | _ => .error .notObject

theorem run_doing {α : Type} (m : Checking α) (s : Session) :
    (Session.doing m).run.run s =
      ((m.run.run s.progress).1, { s with progress := (m.run.run s.progress).2 }) := rfl

/-- What a check has brought when it comes to the tree: remarks on the patterns, and notes on the options. -/
def Progress.begun (host : Host) (options : Json) (c : Config) (notices : List Notice) (s : Progress) :
    Progress :=
  { written := s.written ++ host.remarks (Options.compiled host options) ++ c.console.lines notices }

section
variable {host : Host} {options : Json} {c : Config} {notices : List Notice} {e : Fault}

theorem run_lint_of_resolve_eq_error (hr : Options.resolve host options = .error e) (root : Value)
    (s : Session) : (lint host options root).run.run s = (.error e, { s with
      progress.written := s.progress.written ++ host.remarks (Options.compiled host options) }) := by
  simp only [lint, run_bind, run_liftM, hr]
  rfl

/-- A check whose options can be resolved links the tree, and then visits it if it is an object. -/
theorem run_lint_of_resolve_eq_ok (hr : Options.resolve host options = .ok (c, notices)) (root : Value)
    (s : Session) : (lint host options root).run.run s =
      andThen (((attachParents root).run.run s.heap).1, {
          heap := ((attachParents root).run.run s.heap).2
          progress := s.progress.begun host options c notices }) fun _ s =>
        match root with
        | .object p =>
          andThen ((Session.doing (traverse c s.heap p)).run.run s) fun _ s =>
            (.ok s.progress.sink.violations, { s with
              progress := s.progress.noting c [.counted s.progress.sink.violations.length] })
        | _ => (.error .notObject, s) := by
  let remarked : Progress :=
    { s.progress with written := s.progress.written ++ host.remarks (Options.compiled host options) }
  have hwrite : (Session.doing (write (host.remarks (Options.compiled host options)))).run.run s =
      (.ok (), { s with progress := remarked }) := rfl
  have hnotes : (startRun >>= fun _ => notices.forM (note c)).run.run remarked =
      (.ok (), s.progress.begun host options c notices) := by
    rw [run_bind]
    exact run_notes notices _
  rw [lint, run_bind, hwrite, andThen_ok, run_bind, run_liftM, hr, andThen_ok]
  dsimp only
  rw [run_bind, run_doing, hnotes, andThen_ok, run_bind]
  congr 1
  funext _ t
  cases root with
  | object p =>
    rw [run_bind]
    congr 1
  | _ => rfl

end

/-- What a visit of all identifiers finds with a fresh sink, whatever is written before. -/
theorem violations_traverse (c : Config) (h : Heap) (p : Path) (written : String) :
    ((traverse c h p).run.run { written }).1.map
        (fun _ => ((traverse c h p).run.run { written }).2.sink.violations) =
      ((traverse c h p).run.run {}).1.map
        fun _ => ((traverse c h p).run.run {}).2.sink.violations :=
  (run_traverse p { written }).trans (run_traverse p {}).symm

/-- A check with raw options is a check with the configuration that they resolve to. -/
theorem run_lint (host : Host) (options : Json) (root : Value) (s : Session) :
    ((lint host options root).run.run s).1 =
      match Options.resolve host options with
      | .error e => .error e
      | .ok (c, _) => pass c root s.heap := by
  rcases hr : Options.resolve host options with e | ⟨c, notices⟩
  · rw [run_lint_of_resolve_eq_error hr]
  · rw [run_lint_of_resolve_eq_ok hr]
    cases root with
    | object p =>
      dsimp only
      rw [pass]
      rcases (attachParents (.object p)).run.run s.heap with ⟨e | u, h⟩
      · rfl
      · dsimp only
        rw [andThen_ok, ← violations_traverse c h p (s.progress.begun host options c notices).written,
          run_doing]
        dsimp only [Progress.begun]
        rcases (traverse c h p).run.run { written := _ } with ⟨e | u, t⟩ <;> rfl
    | _ => rfl

/-- A check leaves the tree linked, unless the options are at fault. -/
theorem heap_run_lint (host : Host) (options : Json) (root : Value) (s : Session) :
    ((lint host options root).run.run s).2.heap =
      match Options.resolve host options with
      | .error _ => s.heap
      | .ok _ => ((attachParents root).run.run s.heap).2 := by
  rcases hr : Options.resolve host options with e | ⟨c, notices⟩
  · rw [run_lint_of_resolve_eq_error hr]
  · rw [run_lint_of_resolve_eq_ok hr]
    cases root with
    | object p =>
      dsimp only
      rcases (attachParents (.object p)).run.run s.heap with ⟨e | u, h⟩
      · rfl
      · dsimp only
        rw [andThen_ok, run_doing]
        rcases (traverse c h p).run.run (s.progress.begun host options c notices) with ⟨e | u, t⟩ <;> rfl
    | _ => rfl

end IdentCase
