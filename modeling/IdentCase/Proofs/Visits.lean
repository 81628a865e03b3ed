import IdentCase.Proofs.Exceptions
import IdentCase.Proofs.Session.Marks

/-! Visits in any order, any number of times: they leave the same violations, one for a node. -/
namespace IdentCase

open IdentCase.Tree

/-- The first occurrences of elements stand in the order of their places. -/
theorem pairwise_idxOf_eraseDups {α : Type} [BEq α] [LawfulBEq α] (l : List α) :
    l.eraseDups.Pairwise fun a b => l.idxOf a < l.idxOf b := by
  induction l with
  | nil => exact .nil
  | cons a l ih =>
    have hne : ∀ b ∈ l.eraseDups.filter fun b => !b == a, a ≠ b := by
      intro b hb hab
      simp [hab] at hb
    rw [List.eraseDups_cons, eraseDups_filter, List.pairwise_cons]
    constructor
    · intro b hb
      rw [List.idxOf_cons_self, List.idxOf_cons_ne l (hne b hb)]
      exact Nat.succ_pos _
    · refine (ih.filter _).imp_of_mem fun {b b'} hb hb' hlt => ?_
      rw [List.idxOf_cons_ne l (hne b hb), List.idxOf_cons_ne l (hne b' hb')]
      exact Nat.succ_lt_succ hlt

/-- How visits of nodes by a fresh check end, and what it has brought then. -/
def visited (c : Config) (h : Heap) (ps : List Path) : Except Fault Unit × Progress :=
  (ps.forM (visit c h)).run.run {}

/-- Whether violations are of different nodes of a list, in the order in which these come first. -/
structure FollowsVisits (ps : List Path) (vs : List Violation) : Prop where
  visited : ∀ v ∈ vs, v.node ∈ ps
  order : vs.Pairwise fun v w => ps.idxOf v.node < ps.idxOf w.node

section
variable {c : Config} {h : Heap} {ps qs : List Path} {vs ws : List Violation} {v : Violation}

theorem findings_of_visited (hok : (visited c h ps).1 = .ok ()) :
    h.findings c [] ps = .ok (visited c h ps).2.sink.violations := by
  have hrun := run_visits (c := c) (h := h) ps {}
  change (visited c h ps).1.map (fun _ => (visited c h ps).2.sink.violations) = _ at hrun
  rw [hok] at hrun
  cases hf : h.findings c [] ps with
  | error e =>
    rw [hf] at hrun
    cases hrun
  | ok vs =>
    rw [hf] at hrun
    exact hrun.symm

theorem visited_of_findings (hf : h.findings c [] ps = .ok vs) :
    (visited c h ps).1 = .ok () ∧ (visited c h ps).2.sink.violations = vs := by
  have hrun := run_visits (c := c) (h := h) ps {}
  change (visited c h ps).1.map (fun _ => (visited c h ps).2.sink.violations) = _ at hrun
  rw [hf] at hrun
  obtain ⟨_, hok, hvs⟩ := map_eq_ok.mp hrun
  exact ⟨hok, hvs⟩

theorem nodup_findings (hf : h.findings c [] ps = .ok vs) : vs.Nodup := by
  refine List.Nodup.of_map (·.node) ?_
  rw [(Heap.of_findings hf).1]
  exact (nodup_eraseDups ps).filter _

/-- Which violations are found depends on which nodes there are. -/
theorem mem_findings_iff (hf : h.findings c [] ps = .ok vs) :
    v ∈ vs ↔ v.node ∈ ps ∧ h.offends c v.node ∧ h.violation v.node = .ok v := by
  obtain ⟨hnodes, hall⟩ := Heap.of_findings hf
  have hmem : ∀ p, p ∈ vs.map (·.node) ↔ p ∈ ps ∧ h.offends c p := by
    intro p
    rw [hnodes, List.mem_filter, List.mem_eraseDups]
  constructor
  · intro hv
    obtain ⟨hp, ho⟩ := (hmem v.node).mp (List.mem_map_of_mem hv)
    exact ⟨hp, ho, hall v hv⟩
  · rintro ⟨hp, ho, hx⟩
    obtain ⟨w, hw, hnode⟩ := List.mem_map.mp ((hmem v.node).mpr ⟨hp, ho⟩)
    have hx' := hall w hw
    rw [hnode, hx] at hx'
    cases hx'
    exact hw

theorem succeeds_findings_of_mem (hsub : ∀ p ∈ qs, p ∈ ps) (hf : h.findings c [] ps = .ok vs) :
    Succeeds (h.findings c [] qs) := by
  refine Heap.succeeds_findings (fun p hp => (Heap.findings_eq_ok.mp hf).1 p (hsub p hp))
    fun p hp hv => ?_
  obtain ⟨hnodes, hall⟩ := Heap.of_findings hf
  have hmem : p ∈ vs.map (·.node) := by
    rw [hnodes, List.mem_filter, List.mem_eraseDups]
    exact ⟨hsub p hp, Heap.offends_of_verdict hv⟩
  obtain ⟨v, hvs, rfl⟩ := List.mem_map.mp hmem
  exact ⟨v, hall v hvs⟩

theorem perm_findings (hset : ∀ p, p ∈ ps ↔ p ∈ qs) (hf : h.findings c [] ps = .ok vs)
    (hf' : h.findings c [] qs = .ok ws) : vs.Perm ws := by
  rw [List.perm_ext_iff_of_nodup (nodup_findings hf) (nodup_findings hf')]
  intro v
  rw [mem_findings_iff hf, mem_findings_iff hf', hset]

theorem followsVisits_findings (hf : h.findings c [] ps = .ok vs) : FollowsVisits ps vs where
  visited v hv := ((mem_findings_iff hf).mp hv).1
  order := by
    have hnodes : (vs.map (·.node)).Pairwise fun p q => ps.idxOf p < ps.idxOf q := by
      rw [(Heap.of_findings hf).1]
      exact (pairwise_idxOf_eraseDups ps).filter _
    rwa [List.pairwise_map] at hnodes

theorem FollowsVisits.append (hv : FollowsVisits ps vs) (qs : List Path) :
    FollowsVisits (ps ++ qs) vs where
  visited v hmem := List.mem_append_left _ (hv.visited v hmem)
  order := by
    refine hv.order.imp_of_mem fun {v w} hmem hmem' hlt => ?_
    rwa [List.idxOf_append_of_mem (hv.visited v hmem), List.idxOf_append_of_mem (hv.visited w hmem')]

/-- Visits that fail leave the violations of those before the one that fails. -/
theorem followsVisits_visited (c : Config) (h : Heap) (ps : List Path) :
    FollowsVisits ps (visited c h ps).2.sink.violations := by
  rcases hrun : visited c h ps with ⟨e | _, t⟩
  · obtain ⟨before, p, rest, u, rfl, hbefore, hp⟩ := exists_of_run_forM_eq_error hrun
    have hvisited : visited c h before = (.ok (), u) := hbefore
    have hfollows := followsVisits_findings (findings_of_visited (congrArg Prod.fst hvisited))
    have hkept := violations_of_visit_error (c := c) (h := h) (congrArg Prod.fst hp)
    rw [hp] at hkept
    rw [hvisited] at hfollows
    exact hkept ▸ hfollows.append (p :: rest)
  · have hfollows := followsVisits_findings (findings_of_visited (congrArg Prod.fst hrun))
    rwa [hrun] at hfollows

/--
If a fresh check can visit nodes it can visit them in any other order and any number of times, and
then it has the same violations: those of the nodes that break the convention. In each run, also in
one that fails, they are in the order of the first visits.
-/
theorem visits_in_any_order (c : Config) (h : Heap) (ps qs : List Path)
    (hset : ∀ p, p ∈ ps ↔ p ∈ qs) :
    ((visited c h ps).1 = .ok () → (visited c h qs).1 = .ok () ∧
      (visited c h ps).2.sink.violations.Perm (visited c h qs).2.sink.violations ∧
      ∀ v, v ∈ (visited c h ps).2.sink.violations ↔
        v.node ∈ ps ∧ h.offends c v.node ∧ h.violation v.node = .ok v) ∧
      ∀ rs, FollowsVisits rs (visited c h rs).2.sink.violations := by
  refine ⟨fun hok => ?_, followsVisits_visited c h⟩
  have hf := findings_of_visited hok
  obtain ⟨vs, hf'⟩ := succeeds_findings_of_mem (fun p hp => (hset p).mpr hp) hf
  obtain ⟨hok', hvs⟩ := visited_of_findings hf'
  exact ⟨hok', hvs ▸ perm_findings hset hf hf', fun v => mem_findings_iff hf⟩

/-- The first and the last identifier of a program, in this order and the other way round. -/
theorem visits_in_any_order_identifiersProgram :
    let first : Path := [.index 0, .key "body"]
    let last : Path := [.index 2, .key "body"]
    let run := visited {} (Heap.load identifiersProgram)
    (run [first, last, first]).1 = .ok () ∧ (run [last, first]).1 = .ok () ∧
      (run [first, last, first]).2.sink.violations.Perm (run [last, first]).2.sink.violations ∧
      (run [last, first]).2.sink.violations.map (·.node) = [last, first] := by
  intro first last run
  have hset : ∀ p, p ∈ [first, last, first] ↔ p ∈ [last, first] := by
    intro p
    simp only [List.mem_cons, List.not_mem_nil, or_false]
    tauto
  have hok : (run [first, last, first]).1 = .ok () := rfl
  obtain ⟨hok', hperm, -⟩ := (visits_in_any_order {} (Heap.load identifiersProgram) _ _ hset).1 hok
  exact ⟨hok, hok', hperm, rfl⟩

end

end IdentCase
