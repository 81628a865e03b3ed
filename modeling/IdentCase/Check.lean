import IdentCase.Context
import IdentCase.Violation

/-! The check of the identifiers of a tree. -/
namespace IdentCase

open IdentCase.Tree

/-- What a check has brought so far: violations, and what it has written to the console. -/
structure Progress where
  sink : Sink := {}
  written : String := ""

/-- A part of a check that may fail, where what it brought before stays. -/
abbrev Checking := ExceptT Fault (StateM Progress)

def write (text : String) : Checking Unit := modify fun s => { s with written := s.written ++ text }

def note (c : Config) (n : Notice) : Checking Unit := write (c.console.debugLine n.text)

def report (h : Heap) (p : Path) : Checking Bool := fun s =>
  let (result, sink) := Sink.report h p s.sink
  (result, { s with sink })

def visit (c : Config) (h : Heap) (p : Path) : Checking Unit := do
  let raw := h.toJson ((h.get? p "name").getD (.str ""))
  let name ← Naming.checkable? c raw
  if Naming.isException c name then return
  if ← h.shouldReport c p (.str name) then
    if ← report h p then
      note c (.reported (h.toJson (h.get p "name")))

def traverse (c : Config) (h : Heap) (root : Path) : Checking Unit := h.traverse root (visit c h)

structure Session where
  heap : Heap
  progress : Progress := {}

def startRun : Checking Unit := modify fun s => { s with sink := {} }

def Session.doing {α : Type} (m : Checking α) : ExceptT Fault (StateM Session) α := fun s =>
  let (result, progress) := m s.progress
  (result, { s with progress })

/-- Checks a tree anew with raw options. The tree is not touched if the options are at fault. -/
def lint (host : Host) (options : Json) (root : Value) :
    ExceptT Fault (StateM Session) (List Violation) := do
  Session.doing (write (host.remarks (Options.compiled host options)))
  let (config, notices) ← Options.resolve host options
  Session.doing do
    startRun
    notices.forM (note config)
  fun s =>
    let (result, heap) := attachParents root s.heap
    (result, { s with heap })
  match root with
  | .object p => fun s => Session.doing (traverse config s.heap p) s
  | _ => throw .notObject
  let violations := (← get).progress.sink.violations
  Session.doing (note config (.counted violations.length))
  return violations

end IdentCase
