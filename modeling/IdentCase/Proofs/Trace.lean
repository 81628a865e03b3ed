import IdentCase.Proofs.Loosening
import IdentCase.Proofs.Options
import IdentCase.Proofs.Records

/-! What a check writes to its console. Its answer does not depend on that. -/
namespace IdentCase

open IdentCase.Tree

/-- Whether the names in violations are the given texts. -/
def namesOf (vs : List Violation) (names : List String) : Prop :=
  vs.map (·.name) = names.map .str

theorem namesOf_append {vs ws : List Violation} {names names' : List String}
    (h : namesOf vs names) (h' : namesOf ws names') : namesOf (vs ++ ws) (names ++ names') := by
  unfold namesOf at *
  rw [List.map_append, List.map_append, h, h']

theorem Console.lines_append (c : Console) (ns ms : List Notice) :
    c.lines (ns ++ ms) = c.lines ns ++ c.lines ms := by
  simp [lines]

def reports (names : List String) : List Notice := names.map fun name => .reported (.str name)

/-- Whether between two states of a check a line is written for each new violation, with its name. -/
def Progress.Tells (c : Config) (s s' : Progress) : Prop :=
  ∃ vs names, s'.sink.violations = s.sink.violations ++ vs ∧ namesOf vs names ∧
    s'.written = s.written ++ c.console.lines (reports names)

namespace Progress.Tells

variable {c : Config} {s s' s'' : Progress}

theorem trans (h : Tells c s s') (h' : Tells c s' s'') : Tells c s s'' := by
  obtain ⟨vs, names, hv, hnames, hw⟩ := h
  obtain ⟨vs', names', hv', hnames', hw'⟩ := h'
  refine ⟨vs ++ vs', names ++ names', ?_, namesOf_append hnames hnames', ?_⟩
  · rw [hv', hv, List.append_assoc]
  · rw [hw', hw, reports, reports, reports, List.map_append, Console.lines_append, String.append_assoc]

end Progress.Tells

section
variable {c : Config} {h : Heap} {p : Path} {v : Violation}

theorem Tree.Heap.name_of_violation (hv : h.violation p = .ok v) :
    v.name = (h.get? p "name").getD (.str "") := by
  obtain ⟨position, -, -, rfl⟩ := violation_eq_ok.mp hv
  rfl

theorem Tree.Heap.breaksStyle_of_shouldReport {name : String}
    (hs : h.shouldReport c p (.str name) = .ok true) : Naming.breaksStyle name := by
  rw [shouldReport_str] at hs
  cases hr : h.classify p with
  | error e =>
    rw [hr] at hs
    cases hs
  | ok role =>
    rw [hr] at hs
    by_contra hn
    simp only [bind, Except.bind, Bool.eq_false_iff.mpr hn, Bool.not_false, Bool.or_true, if_true] at hs
    cases hs

/-- Whatever is stripped of it, the empty name does not break the convention. -/
theorem Naming.breaksStyle_checkable_empty (c : Config) : ¬ breaksStyle (checkable c "") := by
  intro hb
  have htrimmed : (trimmed "").toList = [] := by decide
  have hempty := checkable_isInfix c ""
  rw [htrimmed, List.infix_nil] at hempty
  obtain ⟨hlow, -⟩ := breaksStyle_iff.mp hb
  rw [hempty] at hlow
  cases hlow

/-- A node that is reported has a name, which is a text. -/
theorem Tree.Heap.get?_name_of_verdict (hv : h.verdict c p = .ok true) :
    ∃ name, h.get? p "name" = some (.str name) := by
  rw [verdict_eq] at hv
  cases hn : h.get? p "name" with
  | none =>
    rw [hn] at hv
    simp only [Option.getD_none] at hv
    split at hv
    · cases hv
    · exact absurd (breaksStyle_of_shouldReport hv) (Naming.breaksStyle_checkable_empty c)
  | some v =>
    rw [hn] at hv
    cases v with
    | str name => exact ⟨name, rfl⟩
    | _ => cases hv

end

section
variable {host : Host} {options : Json} {root : Value} {vs : List Violation}

end

namespace Environment

def Dims (e : Environment) : Prop := e.terminal ∧ e.noColor = none

instance (e : Environment) : Decidable e.Dims := inferInstanceAs (Decidable (_ ∧ _))

def written (e : Environment) (line : String) : String :=
  let text := "[camellint] " ++ line
  (if e.Dims then "\x1b[2m" ++ text ++ "\x1b[0m" else text) ++ "\n"

end Environment

section
variable {e : Environment}

end

section
variable {host : Host} {options : Json} {root : Value} {s : Session}

def Host.at (host : Host) (e : Environment) : Host := { host with console := .setUp e }

end

end IdentCase
