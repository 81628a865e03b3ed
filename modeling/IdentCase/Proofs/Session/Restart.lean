import IdentCase.Proofs.Session.Actions

/-! Runs within a session: after the start of a run nothing depends on the runs before it. -/
namespace IdentCase

open IdentCase.Tree

def Progress.behind (text : String) (s : Progress) : Progress :=
  { s with written := text ++ s.written }

def Session.behind (text : String) (s : Session) : Session :=
  { s with progress := s.progress.behind text }

/-- Whether a part of a check takes no notice of what has been written before it. -/
def Unaware {α : Type} (m : Checking α) : Prop :=
  ∀ text s, m.run.run (s.behind text) = ((m.run.run s).1, (m.run.run s).2.behind text)

section
variable {α β : Type} {c : Config} {h : Heap} {p : Path}

theorem unaware_report (h : Heap) (p : Path) : Unaware (report h p) := by
  intro text s
  rw [run_report, run_report]
  rfl

theorem unaware_startRun : Unaware startRun := fun _ _ => rfl

theorem unaware_visit (c : Config) (h : Heap) (p : Path) : Unaware (visit c h p) := by
  intro text s
  rw [run_visit, run_visit]
  rcases h.verdict c p with e | b
  · rfl
  · cases b with
    | false => rfl
    | true =>
      dsimp only
      rw [unaware_report h p text s]
      rcases (report h p).run.run s with ⟨e | first, t⟩
      · rfl
      · rw [andThen_ok, andThen_ok]
        split
        · rw [Progress.behind, Progress.noting, Progress.behind, Progress.noting, String.append_assoc]
        · rfl

theorem unaware_forM {f : α → Checking Unit} (hf : ∀ x, Unaware (f x)) (xs : List α) :
    Unaware (xs.forM f) := by
  intro text s
  induction xs generalizing s with
  | nil => rfl
  | cons x xs ih =>
    rw [run_forM_cons, run_forM_cons, hf x text s]
    rcases (f x).run.run s with ⟨e | u, t⟩
    · rfl
    · exact ih t

theorem unaware_traverse (c : Config) (h : Heap) (root : Path) : Unaware (traverse c h root) := by
  rw [traverse, Heap.traverse_eq_forM]
  split
  · exact fun _ _ => rfl
  · exact unaware_forM (unaware_visit c h) _

end

section
variable {α : Type} {c : Config} {text : String} {s : Session}

theorem Session.check_behind {m : Checking α} (hm : Unaware m) (answer : α → Answer) :
    (s.behind text).check m answer = ((s.check m answer).1, (s.check m answer).2.behind text) := by
  have hrun := hm text s.progress
  simp only [Session.check, Session.behind, hrun]

/-- An action does the same whatever has been written before. -/
theorem Action.run_behind (a : Action) :
    a.run c (s.behind text) = ((a.run c s).1, (a.run c s).2.behind text) := by
  cases a with
  | visit p => exact Session.check_behind (unaware_visit c s.heap p) _
  | traverse root => exact Session.check_behind (unaware_traverse c s.heap root) _
  | report p => exact Session.check_behind (unaware_report s.heap p) _
  | startRun => exact Session.check_behind unaware_startRun _
  | attach root => rfl
  | lint host options root =>
    unfold Action.run Session.behind Progress.behind
    simp only [String.append_assoc]
  | edit f => rfl

theorem Session.after_behind (as : List Action) :
    (s.behind text).after c as = (s.after c as).behind text := by
  induction as generalizing s with
  | nil => rfl
  | cons a as ih =>
    rw [Session.after, Action.run_behind, ih]
    rfl

theorem Session.trace_behind (as : List Action) : (s.behind text).trace c as = s.trace c as := by
  induction as generalizing s with
  | nil => rfl
  | cons a as ih =>
    rw [Session.trace, Action.run_behind, ih]
    rfl

/-- To start a run is to go on with a fresh sink, behind what the runs before have written. -/
theorem Action.run_startRun_eq :
    Action.startRun.run c s =
      (.ok .done, ({ heap := s.heap } : Session).behind s.progress.written) := by
  unfold Session.behind Progress.behind
  rw [String.append_empty]
  rfl

/--
What follows the start of a run is what follows with a fresh sink on the same heap, whatever was done
before. Only what was written before is kept.
-/
theorem trace_startRun (c : Config) (start : Session) (past future : List Action) :
    let s := start.after c past
    let fresh : Session := { heap := s.heap }
    start.trace c (past ++ .startRun :: future) =
        start.trace c past ++ (.ok .done, []) :: fresh.trace c future ∧
      start.after c (past ++ .startRun :: future) =
        (fresh.after c future).behind s.progress.written := by
  intro s fresh
  have hstart : Action.startRun.run c s = (.ok .done, fresh.behind s.progress.written) :=
    Action.run_startRun_eq
  constructor
  · rw [Session.trace_append, Session.trace, hstart, Session.trace_behind]
    rfl
  · rw [Session.after_append, Session.after, hstart, Session.after_behind]

end

end IdentCase
