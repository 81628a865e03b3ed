import IdentCase.Proofs.Records
import IdentCase.Proofs.Session.Actions
import Mathlib.Data.List.Perm.Basic

/-! The violations of a session: one for a node at most, added at the end and never changed. -/
namespace IdentCase

open IdentCase.Tree

namespace Sink

/-- How a sink has grown: by violations, and by marks on nodes that got none. -/
structure Gains (s s' : Sink) (vs : List Violation) (lost : List Path) : Prop where
  violations : s'.violations = s.violations ++ vs
  marked : ∀ p, p ∈ s'.marked ↔ p ∈ s.marked ∨ p ∈ vs.map (·.node) ++ lost
  nodup : (vs.map (·.node) ++ lost).Nodup
  fresh : ∀ p ∈ vs.map (·.node) ++ lost, p ∉ s.marked

/-- The violations in a sink are of different nodes, and these are marked. -/
structure Valid (s : Sink) : Prop where
  nodup : (s.violations.map (·.node)).Nodup
  marked : ∀ v ∈ s.violations, v.node ∈ s.marked

/-- What reports of nodes that end with `r` make of a sink. -/
def Reports {α : Type} (h : Heap) (r : Except Fault α) (s s' : Sink) : Prop :=
  ∃ vs lost, s.Gains s' vs lost ∧ (∀ v ∈ vs, h.violation v.node = .ok v) ∧
    ∀ p ∈ lost, ∃ e, r = .error e ∧ h.violation p = .error e

section
variable {s s' s'' : Sink} {vs ws : List Violation} {lost lost' : List Path}

theorem Gains.refl (s : Sink) : s.Gains s [] [] where
  violations := by simp
  marked := by simp
  nodup := by simp
  fresh := by simp

theorem Gains.trans (hg : s.Gains s' vs lost) (hg' : s'.Gains s'' ws lost') :
    s.Gains s'' (vs ++ ws) (lost ++ lost') := by
  have hperm : ((vs ++ ws).map (·.node) ++ (lost ++ lost')).Perm
      ((vs.map (·.node) ++ lost) ++ (ws.map (·.node) ++ lost')) := by
    rw [List.map_append, List.append_assoc, List.append_assoc]
    exact (List.perm_append_comm_assoc _ _ _).append_left _
  constructor
  · rw [hg'.violations, hg.violations, List.append_assoc]
  · intro p
    rw [hg'.marked, hg.marked, hperm.mem_iff, or_assoc, ← List.mem_append]
  · rw [hperm.nodup_iff, List.nodup_append]
    refine ⟨hg.nodup, hg'.nodup, fun p hp q hq he => ?_⟩
    have hmarked : p ∈ s'.marked := (hg.marked p).mpr (Or.inr hp)
    exact hg'.fresh q hq (he ▸ hmarked)
  · intro p hp
    rcases List.mem_append.mp (hperm.mem_iff.mp hp) with hp | hp
    · exact hg.fresh p hp
    · intro hs
      exact hg'.fresh p hp ((hg.marked p).mpr (Or.inl hs))

theorem Gains.valid (hg : s.Gains s' vs lost) (hs : s.Valid) : s'.Valid := by
  have hvs : ∀ v ∈ vs, v.node ∈ vs.map (·.node) ++ lost := fun v hv =>
    List.mem_append_left _ (List.mem_map_of_mem hv)
  constructor
  · rw [hg.violations, List.map_append, List.nodup_append]
    refine ⟨hs.nodup, (List.nodup_append.mp hg.nodup).1, fun p hp q hq he => ?_⟩
    obtain ⟨v, hv, rfl⟩ := List.mem_map.mp hp
    exact hg.fresh q (List.mem_append_left _ hq) (he ▸ hs.marked v hv)
  · intro v hv
    rw [hg.violations, List.mem_append] at hv
    rw [hg.marked]
    exact hv.imp (hs.marked v) (hvs v)

theorem valid_empty : Sink.Valid {} := ⟨by simp, by simp⟩

variable {α β : Type} {h : Heap}

theorem Reports.refl (h : Heap) (r : Except Fault α) (s : Sink) : Reports h r s s :=
  ⟨[], [], .refl s, by simp, by simp⟩

/-- Reports may go on only if none has failed. -/
theorem Reports.trans {a : α} {r : Except Fault β} (hr : Reports h (.ok a) s s')
    (hr' : Reports h r s' s'') : Reports h r s s'' := by
  obtain ⟨vs, lost, hg, hvs, hlost⟩ := hr
  obtain ⟨ws, lost', hg', hws, hlost'⟩ := hr'
  refine ⟨vs ++ ws, lost ++ lost', hg.trans hg', ?_, ?_⟩
  · intro v hv
    exact (List.mem_append.mp hv).elim (hvs v) (hws v)
  · intro p hp
    rcases List.mem_append.mp hp with hp | hp
    · obtain ⟨e, he, -⟩ := hlost p hp
      cases he
    · exact hlost' p hp

theorem Reports.map {r : Except Fault α} (hr : Reports h r s s') (f : α → β) :
    Reports h (r.map f) s s' := by
  obtain ⟨vs, lost, hg, hvs, hlost⟩ := hr
  refine ⟨vs, lost, hg, hvs, fun p hp => ?_⟩
  obtain ⟨e, rfl, he⟩ := hlost p hp
  exact ⟨e, rfl, he⟩

end

/-- A report marks its node, and adds its violation if this can be made. -/
theorem reports_report (h : Heap) (p : Path) (s : Sink) :
    Reports h ((Sink.report h p).run.run s).1 s ((Sink.report h p).run.run s).2 := by
  rw [run_sink_report]
  split
  · exact .refl h _ s
  · next hm =>
    have hp : p ∉ s.marked := by simpa using hm
    cases hv : h.violation p with
    | error e =>
      refine ⟨[], [p], ⟨by simp, ?_, by simp, by simpa using hp⟩, by simp, ?_⟩
      · simp [or_comm]
      · intro q hq
        obtain rfl := List.mem_singleton.mp hq
        exact ⟨e, rfl, hv⟩
    | ok v =>
      have hn := Heap.node_of_violation hv
      refine ⟨[v], [], ⟨by simp, ?_, by simp, by simpa [hn] using hp⟩, ?_, by simp⟩
      · simp [hn, or_comm]
      · intro w hw
        obtain rfl := List.mem_singleton.mp hw
        rw [hn, hv]

end Sink

section
variable {c : Config} {h : Heap} {p : Path} {e : Fault}

theorem reports_visit (c : Config) (h : Heap) (p : Path) (s : Progress) :
    Sink.Reports h ((visit c h p).run.run s).1 s.sink ((visit c h p).run.run s).2.sink := by
  rw [run_visit]
  rcases h.verdict c p with e | b
  · exact .refl h _ s.sink
  · cases b with
    | false => exact .refl h _ s.sink
    | true =>
      have hr := Sink.reports_report h p s.sink
      dsimp only
      rw [run_report]
      rcases hrun : (Sink.report h p).run.run s.sink with ⟨e | first, t⟩
      · rw [hrun] at hr
        exact hr.map fun _ => ()
      · rw [hrun] at hr
        rw [andThen_ok]
        split
        · exact hr.map fun _ => ()
        · exact hr.map fun _ => ()

theorem reports_visits (c : Config) (h : Heap) (ps : List Path) (s : Progress) :
    Sink.Reports h ((ps.forM (visit c h)).run.run s).1 s.sink
      ((ps.forM (visit c h)).run.run s).2.sink := by
  induction ps generalizing s with
  | nil => exact .refl h _ s.sink
  | cons p ps ih =>
    have hp := reports_visit c h p s
    rw [run_forM_cons]
    rcases hrun : (visit c h p).run.run s with ⟨e | u, t⟩
    · rw [hrun] at hp
      exact hp
    · rw [hrun] at hp
      exact hp.trans (ih t)

theorem reports_traverse (c : Config) (h : Heap) (root : Path) (s : Progress) :
    Sink.Reports h ((traverse c h root).run.run s).1 s.sink
      ((traverse c h root).run.run s).2.sink := by
  rw [run_traverse_eq]
  split
  · exact .refl h _ s.sink
  · exact reports_visits c h _ s

end

section
variable {c : Config} {s : Session} {a : Action} {p : Path} {e : Fault}

theorem Action.run_startRun : ((Action.startRun).run c s).2.sink = {} := rfl

/-- All that an action does to the sink, unless it starts a new run, is to report nodes. -/
theorem Action.reports (ha : a ≠ .startRun) :
    Sink.Reports s.heap (a.run c s).1 s.sink (a.run c s).2.sink := by
  cases a with
  | visit p => exact (reports_visit c s.heap p s.progress).map _
  | traverse root => exact (reports_traverse c s.heap root s.progress).map _
  | report p => exact (Sink.reports_report s.heap p s.sink).map _
  | startRun => exact absurd rfl ha
  | attach root => exact .refl _ _ _
  | lint host options root => exact .refl _ _ _
  | edit f => exact .refl _ _ _

/-- Until the next run starts a sink only grows. -/
theorem Session.exists_gains {as : List Action} (has : .startRun ∉ as) :
    ∃ vs lost, s.sink.Gains (s.after c as).sink vs lost := by
  induction as generalizing s with
  | nil => exact ⟨[], [], .refl _⟩
  | cons a as ih =>
    rw [List.mem_cons, not_or] at has
    obtain ⟨vs, lost, hg, -, -⟩ := Action.reports (c := c) (s := s) (Ne.symm has.1)
    obtain ⟨ws, lost', hg'⟩ := ih (s := (a.run c s).2) has.2
    exact ⟨vs ++ ws, lost ++ lost', hg.trans hg'⟩

theorem Action.valid (hs : s.sink.Valid) : (a.run c s).2.sink.Valid := by
  by_cases ha : a = .startRun
  · subst ha
    exact Sink.valid_empty
  · obtain ⟨vs, lost, hg, -, -⟩ := Action.reports (c := c) (s := s) ha
    exact hg.valid hs

theorem Session.valid_after {as : List Action} (hs : s.sink.Valid) :
    (s.after c as).sink.Valid := by
  induction as generalizing s with
  | nil => exact hs
  | cons a as ih => exact ih (Action.valid hs)

/-- Visits that succeed leave what they leave one by one. -/
theorem Session.after_visits {ps : List Path} {t : Progress}
    (ht : (ps.forM (IdentCase.visit c s.heap)).run.run s.progress = (.ok (), t)) :
    s.after c (ps.map .visit) = { s with progress := t } ∧
      ∀ x ∈ s.trace c (ps.map .visit), x.1 = .ok .done := by
  induction ps generalizing s with
  | nil =>
    rw [run_forM_nil] at ht
    cases ht
    exact ⟨rfl, by simp [Session.trace]⟩
  | cons p ps ih =>
    rw [run_forM_cons, andThen_eq_ok] at ht
    obtain ⟨_, u, hp, ht⟩ := ht
    have hrun : (Action.visit p).run c s = (.ok .done, { s with progress := u }) := by
      rw [Action.run_visit, Session.check, hp]
      rfl
    obtain ⟨hafter, htrace⟩ := ih (s := { s with progress := u }) ht
    rw [List.map_cons, Session.after, Session.trace, hrun]
    exact ⟨hafter, List.forall_mem_cons.mpr ⟨rfl, htrace⟩⟩

theorem Action.run_traverse_of_ok {root : Path}
    (hr : ((Action.traverse root).run c s).1 = .ok .done) :
    ((Action.traverse root).run c s).2 = s.after c ((s.heap.identifiers root).map .visit) := by
  simp only [Action.run_traverse, Session.check, run_traverse_eq] at hr ⊢
  split at hr
  · cases hr
  · next ht =>
    rw [if_neg ht]
    rcases hrun : ((s.heap.identifiers root).forM (IdentCase.visit c s.heap)).run.run s.progress
      with ⟨e | _, t⟩
    · rw [hrun] at hr
      cases hr
    · exact (Session.after_visits hrun).1.symm

/-- A traversal that fails has visited some identifiers and failed at the next. -/
theorem Action.exists_of_run_traverse {root : Path}
    (hr : ((Action.traverse root).run c s).1 = .error e) :
    (s.heap.get? root "type").isNone ∧ ((Action.traverse root).run c s).2 = s ∨
      ∃ before p rest, s.heap.identifiers root = before ++ p :: rest ∧
        (∀ x ∈ s.trace c (before.map .visit), x.1 = .ok .done) ∧
        (Action.visit p).run c (s.after c (before.map .visit)) =
          (.error e, ((Action.traverse root).run c s).2) := by
  simp only [Action.run_traverse, Action.run_visit, Session.check, run_traverse_eq] at hr ⊢
  split at hr
  · next ht => exact Or.inl ⟨ht, by rw [if_pos ht]⟩
  · next ht =>
    rw [if_neg ht]
    rcases hrun : ((s.heap.identifiers root).forM (IdentCase.visit c s.heap)).run.run s.progress
      with ⟨e' | _, t⟩
    · rw [hrun] at hr
      obtain rfl : e' = e := by
        cases hr
        rfl
      obtain ⟨before, p, rest, u, hids, hbefore, hp⟩ := exists_of_run_forM_eq_error hrun
      obtain ⟨hafter, htrace⟩ := Session.after_visits hbefore
      refine Or.inr ⟨before, p, rest, hids, htrace, ?_⟩
      rw [hafter]
      dsimp only
      rw [hp]
      rfl
    · rw [hrun] at hr
      cases hr

theorem violations_of_visit_error {h : Heap} {t : Progress}
    (hr : ((visit c h p).run.run t).1 = .error e) :
    ((visit c h p).run.run t).2.sink.violations = t.sink.violations := by
  rw [run_visit] at hr ⊢
  rcases hv : h.verdict c p with e' | b
  · rfl
  · rw [hv] at hr
    cases b with
    | false => rfl
    | true =>
      dsimp only at hr ⊢
      rw [run_report, run_sink_report] at hr ⊢
      split
      · rfl
      · next hm =>
        rw [if_neg hm] at hr
        cases hx : h.violation p with
        | error e' => rfl
        | ok v =>
          rw [hx] at hr
          cases hr

end

/-- What holds of the violations of a session at any time. -/
structure Session.Accounts (c : Config) (s : Session) : Prop where
  /-- They are of different nodes, and these are marked. -/
  valid : s.sink.Valid
  /-- Until the next run starts they stay as they are, and others come after them. -/
  grows : ∀ future, .startRun ∉ future →
    s.sink.violations <+: (s.after c future).sink.violations
  /-- A report is the first of its node if and only if it adds a violation of it. -/
  first : ∀ p, ((Action.report p).run c s).1 = .ok (.reported true) ↔
    ∃ v, v.node = p ∧
      ((Action.report p).run c s).2.sink.violations = s.sink.violations ++ [v]
  /-- It adds a violation to an unmarked node if that can be made of what the node is now. -/
  made : ∀ p v, ((Action.report p).run c s).2.sink.violations = s.sink.violations ++ [v] ↔
    p ∉ s.sink.marked ∧ s.heap.violation p = .ok v
  /-- It is a later one if and only if the node is marked, and then it changes nothing. -/
  later : ∀ p, ((Action.report p).run c s).1 = .ok (.reported false) ↔ p ∈ s.sink.marked
  known : ∀ p ∈ s.sink.marked, ((Action.report p).run c s).2 = s
  /-- A report or a visit that fails adds no violation. -/
  report_error : ∀ p e, ((Action.report p).run c s).1 = .error e →
    ((Action.report p).run c s).2.sink.violations = s.sink.violations
  visit_error : ∀ p e, ((Action.visit p).run c s).1 = .error e →
    ((Action.visit p).run c s).2.sink.violations = s.sink.violations
  /-- A traversal that succeeds does what visits one by one do. -/
  traverse_ok : ∀ root, ((Action.traverse root).run c s).1 = .ok .done →
    ((Action.traverse root).run c s).2 = s.after c ((s.heap.identifiers root).map .visit)
  /-- A traversal that fails adds those of the visits before the one that fails. -/
  traverse_error : ∀ root e, ((Action.traverse root).run c s).1 = .error e →
    (s.heap.get? root "type").isNone ∧ ((Action.traverse root).run c s).2 = s ∨
      ∃ before p rest, s.heap.identifiers root = before ++ p :: rest ∧
        (∀ x ∈ s.trace c (before.map .visit), x.1 = .ok .done) ∧
        ((Action.visit p).run c (s.after c (before.map .visit))).1 = .error e ∧
        ((Action.traverse root).run c s).2.sink.violations =
          (s.after c (before.map .visit)).sink.violations

section
variable {c : Config} {s : Session}

theorem Session.accounts (hs : s.sink.Valid) : s.Accounts c where
  valid := hs
  grows future hf := by
    obtain ⟨vs, lost, hg⟩ := Session.exists_gains (c := c) (s := s) hf
    exact ⟨vs, hg.violations.symm⟩
  first p := by
    rw [Action.run_report]
    split
    · simp
    · cases hv : s.heap.violation p with
      | error e => simp
      | ok v => simpa using Heap.node_of_violation hv
  made p v := by
    rw [Action.run_report]
    split
    · next hm =>
      have hp : p ∈ s.sink.marked := by simpa using hm
      simp [hp]
    · next hm =>
      have hp : p ∉ s.sink.marked := by simpa using hm
      cases hv : s.heap.violation p with
      | error e => simp
      | ok w => simp [hp]
  later p := by
    rw [Action.run_report]
    split
    · next hm => simpa using hm
    · next hm => cases s.heap.violation p <;> simpa using hm
  known p hp := by
    rw [Action.run_report, if_pos (by simpa using hp)]
  report_error p e hr := by
    rw [Action.run_report] at hr ⊢
    split
    · rfl
    · next hm =>
      rw [if_neg hm] at hr
      cases hv : s.heap.violation p with
      | error e' => rfl
      | ok v =>
        rw [hv] at hr
        cases hr
  visit_error p e hr := by
    rw [Action.run_visit] at hr ⊢
    exact violations_of_visit_error (map_eq_error.mp hr)
  traverse_ok root hr := Action.run_traverse_of_ok hr
  traverse_error root e hr := by
    rcases Action.exists_of_run_traverse hr with hroot | ⟨before, p, rest, hids, hok, hp⟩
    · exact Or.inl hroot
    · have hlast : ((Action.visit p).run c (s.after c (before.map .visit))).1 = .error e := by
        rw [hp]
      refine Or.inr ⟨before, p, rest, hids, hok, hlast, ?_⟩
      have hkept := violations_of_visit_error (map_eq_error.mp hlast)
      have hend := congrArg (fun r => r.2.sink.violations) hp
      exact hend.symm.trans hkept

/-- Whatever is done in a session, its violations are accounted for. -/
theorem accounts_after (c : Config) (h : Heap) (written : String) (past : List Action) :
    (Session.after c { heap := h, progress := { written } } past).Accounts c := by
  apply Session.accounts
  apply Session.valid_after
  exact Sink.valid_empty

end

end IdentCase
