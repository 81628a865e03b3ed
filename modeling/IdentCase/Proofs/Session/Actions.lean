import IdentCase.Proofs.Pass

/-! Sessions: what is done, one thing after the other, with a sink and with the tree it is about. -/
namespace IdentCase

open IdentCase.Tree

/-- What can be done in a session. A `lint` has a sink of its own, and an edit may do anything. -/
inductive Action
  | visit (p : Path)
  | traverse (root : Path)
  | report (p : Path)
  | startRun
  | attach (root : Value)
  | lint (host : Host) (options : Json) (root : Value)
  | edit (f : Heap → Heap)

/-- What an action answers unless it fails. -/
inductive Answer
  | done
  | reported (first : Bool)
  | found (violations : List Violation)

abbrev Session.sink (s : Session) : Sink := s.progress.sink

def Session.check {α : Type} (s : Session) (m : Checking α) (answer : α → Answer) :
    Except Fault Answer × Session :=
  ((m.run.run s.progress).1.map answer, { s with progress := (m.run.run s.progress).2 })

def Action.run (c : Config) (s : Session) : Action → Except Fault Answer × Session
  | visit p => s.check (IdentCase.visit c s.heap p) fun _ => .done
  | traverse root => s.check (IdentCase.traverse c s.heap root) fun _ => .done
  | report p => s.check (IdentCase.report s.heap p) .reported
  | startRun => s.check IdentCase.startRun fun _ => .done
  | attach root =>
    let t := (attachParents root).run.run s.heap
    (t.1.map fun _ => .done, { s with heap := t.2 })
  | lint host options root =>
    let t := (IdentCase.lint host options root).run.run { heap := s.heap }
    let written := s.progress.written ++ t.2.progress.written
    (t.1.map .found, { heap := t.2.heap, progress := { s.progress with written } })
  | edit f => (.ok .done, { s with heap := f s.heap })

def Session.after (c : Config) (s : Session) : List Action → Session
  | [] => s
  | a :: as => (a.run c s).2.after c as

/-- The answers to some actions, each with the violations that the sink holds then. -/
def Session.trace (c : Config) (s : Session) :
    List Action → List (Except Fault Answer × List Violation)
  | [] => []
  | a :: as => ((a.run c s).1, (a.run c s).2.sink.violations) :: (a.run c s).2.trace c as

section
variable {c : Config} {s : Session}

theorem Action.run_visit (p : Path) :
    (Action.visit p).run c s = s.check (IdentCase.visit c s.heap p) fun _ => .done := rfl

theorem Action.run_traverse (root : Path) :
    (Action.traverse root).run c s = s.check (IdentCase.traverse c s.heap root) fun _ => .done := rfl

/-- A report marks its node, unless it is marked, before it makes the violation. -/
theorem Action.run_report (p : Path) :
    (Action.report p).run c s =
      if s.sink.marked.contains p then (.ok (.reported false), s)
      else
        match s.heap.violation p with
        | .error e => (.error e, { s with progress.sink.marked := p :: s.sink.marked })
        | .ok v => (.ok (.reported true), { s with progress.sink :=
            { marked := p :: s.sink.marked, violations := s.sink.violations ++ [v] } }) := by
  show s.check (IdentCase.report s.heap p) Answer.reported = _
  rw [Session.check, IdentCase.run_report, run_sink_report]
  split
  · rfl
  · cases s.heap.violation p <;> rfl

theorem Session.after_append (past future : List Action) :
    s.after c (past ++ future) = (s.after c past).after c future := by
  induction past generalizing s with
  | nil => rfl
  | cons a past ih => exact ih

theorem Session.trace_append (past future : List Action) :
    s.trace c (past ++ future) = s.trace c past ++ (s.after c past).trace c future := by
  induction past generalizing s with
  | nil => rfl
  | cons a past ih => exact congrArg _ ih

end

end IdentCase
