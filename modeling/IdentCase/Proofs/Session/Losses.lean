import IdentCase.Proofs.Session.Marks
import Mathlib.Data.List.Induction

/-! Reports that fail. Their nodes stay marked without a violation until the next run starts. -/
namespace IdentCase

open IdentCase.Tree

/-- Whether the marked nodes are those with a violation. -/
def Sink.Complete (s : Sink) : Prop := ∀ p, p ∈ s.marked ↔ ∃ v ∈ s.violations, v.node = p

/-- Whether an action marks a node and then fails, as the violation of this node cannot be made. -/
structure Action.Loses (c : Config) (a : Action) (s : Session) (p : Path) : Prop where
  unmarked : p ∉ s.sink.marked
  marked : p ∈ (a.run c s).2.sink.marked
  fails : ∃ e, (a.run c s).1 = .error e ∧ s.heap.violation p = .error e

/-- To split a list that ends with `a` is to split off `a`, or to split what comes before it. -/
theorem forall_split_concat {α : Type} {l : List α} {a : α} {P : List α → α → List α → Prop} :
    (∀ before x rest, l ++ [a] = before ++ x :: rest → P before x rest) ↔
      P l a [] ∧ ∀ before x rest, l = before ++ x :: rest → P before x (rest ++ [a]) := by
  constructor
  · intro h
    refine ⟨h l a [] rfl, fun before x rest hl => h before x (rest ++ [a]) ?_⟩
    rw [hl, List.append_assoc, List.cons_append]
  · rintro ⟨hlast, hbefore⟩ before x rest hsplit
    rcases List.eq_nil_or_concat' rest with rfl | ⟨rest, b, rfl⟩
    · obtain ⟨rfl, hx⟩ := List.append_inj' hsplit rfl
      obtain rfl := (List.cons.inj hx).1
      exact hlast
    · rw [← List.cons_append, ← List.append_assoc] at hsplit
      obtain ⟨hl, hb⟩ := List.append_inj' hsplit rfl
      obtain rfl := (List.cons.inj hb).1
      exact hbefore before x rest hl

namespace Sink

variable {s s' : Sink} {vs : List Violation} {lost : List Path} {p : Path}

theorem complete_empty : Complete {} := by
  intro p
  simp

/-- Nodes that are marked without a violation stay so. -/
theorem Gains.not_violated (hg : s.Gains s' vs lost) (hp : p ∈ s.marked)
    (hv : ∀ v ∈ s.violations, v.node ≠ p) : ∀ v ∈ s'.violations, v.node ≠ p := by
  intro v hv' hn
  rw [hg.violations, List.mem_append] at hv'
  rcases hv' with hv' | hv'
  · exact hv v hv' hn
  · have hnew : v.node ∈ vs.map (·.node) ++ lost := List.mem_append_left _ (List.mem_map_of_mem hv')
    exact hg.fresh _ hnew (hn ▸ hp)

theorem Gains.complete_iff (hg : s.Gains s' vs lost) (hs : s.Valid) :
    s'.Complete ↔ s.Complete ∧ lost = [] := by
  constructor
  · intro hc
    have hold : s.Complete := by
      intro p
      constructor
      · intro hp
        by_contra hnone
        push Not at hnone
        obtain ⟨v, hv, hn⟩ := (hc p).mp ((hg.marked p).mpr (Or.inl hp))
        exact hg.not_violated hp hnone v hv hn
      · rintro ⟨v, hv, rfl⟩
        exact hs.marked v hv
    refine ⟨hold, List.eq_nil_iff_forall_not_mem.mpr fun p hp => ?_⟩
    have hnew : p ∈ vs.map (·.node) ++ lost := List.mem_append_right _ hp
    obtain ⟨v, hv, rfl⟩ := (hc p).mp ((hg.marked p).mpr (Or.inr hnew))
    rw [hg.violations, List.mem_append] at hv
    rcases hv with hv | hv
    · exact hg.fresh _ hnew (hs.marked v hv)
    · exact (List.nodup_append.mp hg.nodup).2.2 _ (List.mem_map_of_mem hv) _ hp rfl
  · rintro ⟨hold, rfl⟩ p
    rw [hg.marked, hold p, hg.violations, List.append_nil, List.mem_map]
    simp only [List.mem_append, or_and_right, exists_or]

end Sink

section
variable {c : Config} {s : Session} {a : Action} {p : Path}

theorem Action.of_run_report_eq_error {e : Fault} {t : Session}
    (hr : (Action.report p).run c s = (.error e, t)) :
    p ∉ s.sink.marked ∧ t.sink = { s.sink with marked := p :: s.sink.marked } := by
  rw [Action.run_report] at hr
  split at hr
  · cases hr
  · next hm =>
    cases hv : s.heap.violation p with
    | error e' =>
      rw [hv] at hr
      cases hr
      exact ⟨by simpa using hm, rfl⟩
    | ok v =>
      rw [hv] at hr
      cases hr

/-- An action keeps a sink complete unless it loses a node. -/
theorem Action.complete_iff (ha : a ≠ .startRun) (hs : s.sink.Valid) :
    (a.run c s).2.sink.Complete ↔ s.sink.Complete ∧ ∀ p, ¬ a.Loses c s p := by
  obtain ⟨vs, lost, hg, hvs, hlost⟩ := Action.reports (c := c) (s := s) ha
  have hloses : ∀ p, a.Loses c s p ↔ p ∈ lost := by
    intro p
    constructor
    · intro hp
      rcases (hg.marked p).mp hp.marked with hm | hm
      · exact absurd hm hp.unmarked
      · refine (List.mem_append.mp hm).resolve_left fun hv => ?_
        obtain ⟨v, hvm, rfl⟩ := List.mem_map.mp hv
        obtain ⟨e, -, he⟩ := hp.fails
        rw [hvs v hvm] at he
        cases he
    · intro hp
      have hnew : p ∈ vs.map (·.node) ++ lost := List.mem_append_right _ hp
      exact ⟨hg.fresh p hnew, (hg.marked p).mpr (Or.inr hnew), hlost p hp⟩
  rw [hg.complete_iff hs]
  simp only [hloses, List.eq_nil_iff_forall_not_mem]

theorem Action.not_loses_startRun : ¬ Action.startRun.Loses c s p := by
  rintro ⟨-, hm, -⟩
  rw [Action.run_startRun] at hm
  cases hm

/-- A sink is complete unless an action since the last start of a run has lost a node. -/
theorem Session.complete_after_iff (hv : s.sink.Valid) (hs : s.sink.Complete) (past : List Action) :
    (s.after c past).sink.Complete ↔ ∀ before a rest, past = before ++ a :: rest →
      .startRun ∉ rest → ∀ p, ¬ a.Loses c (s.after c before) p := by
  induction past using List.reverseRecOn with
  | nil => simpa [Session.after] using hs
  | append_singleton past a ih =>
    have hlast : s.after c (past ++ [a]) = (a.run c (s.after c past)).2 := by
      rw [Session.after_append]
      rfl
    rw [hlast]
    rw [forall_split_concat]
    by_cases ha : a = .startRun
    · subst ha
      refine iff_of_true Sink.complete_empty ⟨fun _ p => Action.not_loses_startRun, ?_⟩
      intro before b rest _ hrest
      exact absurd (List.mem_append_right _ List.mem_cons_self) hrest
    · rw [Action.complete_iff ha (Session.valid_after hv), ih, and_comm]
      have hrest : ∀ rest, .startRun ∉ rest ++ [a] ↔ .startRun ∉ rest := by
        intro rest
        simp [Ne.symm ha]
      simp only [hrest, List.not_mem_nil, not_false_eq_true, true_implies]

end

/--
A report that fails adds no violation, but marks its node, so that all reports of the node fail to
add one until the next run starts. The marked nodes are those with a violation only as long as no
report has failed.
-/
theorem report_error_marks (c : Config) (h : Heap) (written : String) (past : List Action) :
    let start : Session := { heap := h, progress := { written } }
    let s := start.after c past
    (∀ p e t, (Action.report p).run c s = (.error e, t) →
      p ∉ s.sink.marked ∧ t.sink = { s.sink with marked := p :: s.sink.marked } ∧
      ∀ future, .startRun ∉ future →
        (Action.report p).run c (t.after c future) = (.ok (.reported false), t.after c future) ∧
          ∀ v ∈ (t.after c future).sink.violations, v.node ≠ p) ∧
    (s.sink.Complete ↔ ∀ before a rest, past = before ++ a :: rest → .startRun ∉ rest →
      ∀ p, ¬ a.Loses c (start.after c before) p) := by
  intro start s
  have hstart : start.sink.Valid := Sink.valid_empty
  have hs : s.sink.Valid := Session.valid_after hstart
  refine ⟨fun p e t hr => ?_, Session.complete_after_iff hstart Sink.complete_empty past⟩
  obtain ⟨hp, ht⟩ := Action.of_run_report_eq_error hr
  refine ⟨hp, ht, fun future hf => ?_⟩
  have hmarked : p ∈ t.sink.marked := by
    rw [ht]
    exact List.mem_cons_self
  have hnone : ∀ v ∈ t.sink.violations, v.node ≠ p := by
    rw [ht]
    rintro v hv rfl
    exact hp (hs.marked v hv)
  obtain ⟨vs, lost, hg⟩ := Session.exists_gains (c := c) (s := t) hf
  have hlater : p ∈ (t.after c future).sink.marked := (hg.marked p).mpr (Or.inl hmarked)
  rw [Action.run_report, if_pos (List.contains_iff_mem.mpr hlater)]
  exact ⟨rfl, hg.not_violated hmarked hnone⟩

/-- An identifier with a number in the place of its location. -/
def misplacedIdentifier : Json :=
  .obj [("type", .str "Identifier"), ("name", .str "a_b"), ("loc", .int 5)]

/-- To report it again once its location is mended is of no use. -/
theorem report_error_marks_misplacedIdentifier :
    let mend : Action := .edit (·.set [] "loc" .null)
    let s : Session := { heap := Heap.load misplacedIdentifier }
    s.trace {} [.report [], mend, .report []] =
        [(.error .notObject, []), (.ok .done, []), (.ok (.reported false), [])] ∧
      (∀ v ∈ (s.after {} [.report [], mend]).sink.violations, v.node ≠ []) ∧
      ¬ (s.after {} [.report []]).sink.Complete := by
  intro mend s
  have hrun : (Action.report []).run {} s = (.error .notObject, s.after {} [.report []]) := rfl
  refine ⟨rfl, ?_, fun hc => ?_⟩
  · have hlost := (report_error_marks {} s.heap "" []).1 [] .notObject _ hrun
    exact (hlost.2.2 [mend] (by simp [mend])).2
  · have hloses : (Action.report []).Loses {} s [] :=
      ⟨List.not_mem_nil, List.mem_singleton_self [], .notObject, congrArg Prod.fst hrun, rfl⟩
    exact (report_error_marks {} s.heap "" [.report []]).2.mp hc [] _ [] rfl List.not_mem_nil [] hloses

end IdentCase
