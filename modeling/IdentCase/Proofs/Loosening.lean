import IdentCase.Proofs.Naming
import IdentCase.Proofs.Reports

/-! Looser configurations: they find nothing that stricter ones do not find. -/
namespace IdentCase

open IdentCase.Tree

structure Config.Loosens (c c' : Config) : Prop where
  policy : c'.policy = c.policy ∨ c'.policy = .never
  names : (c'.prefixes = c.prefixes ∧ c'.suffixes = c.suffixes ∧
      ∀ m ∈ c.exceptions.getD [], m ∈ c'.exceptions.getD []) ∨
    (c.prefixes.getD [] = [] ∧ c.suffixes.getD [] = [] ∧ c.exceptions.getD [] = [])

section
variable {α β ε : Type} {f : α → Except ε β}

theorem mapM_sublist {l l' : List α} {out : List β} (hl : l'.Sublist l) (hm : l.mapM f = .ok out) :
    ∃ out', l'.mapM f = .ok out' ∧ out'.Sublist out := by
  induction hl generalizing out with
  | slnil => exact ⟨out, hm, .refl out⟩
  | cons x _ ih =>
    obtain ⟨y, ys, -, hys, rfl⟩ := mapM_cons_eq_ok.mp hm
    obtain ⟨out', ho, hsub⟩ := ih hys
    exact ⟨out', ho, hsub.cons y⟩
  | cons_cons x _ ih =>
    obtain ⟨y, ys, hy, hys, rfl⟩ := mapM_cons_eq_ok.mp hm
    obtain ⟨out', ho, hsub⟩ := ih hys
    exact ⟨y :: out', mapM_cons_eq_ok.mpr ⟨y, out', hy, ho, rfl⟩, hsub.cons_cons y⟩

end

namespace Tree.Heap

section
variable {c c' : Config} {h : Heap} {p : Path} {name name' : String} {b : Bool}

/-- Whether a node of a given role is reported if its name breaks the convention. -/
def reportedAs (h : Heap) (p : Path) : Role → Except Fault Bool
  | .memberProperty => h.isAssigned p
  | .objectKey => do return (← h.typed? (← h.effectiveParent p) "CallExpression").isNone
  | .patternKey | .callCallee => .ok false
  | .bare | .memberObject => .ok true

theorem shouldReport_str (h : Heap) (c : Config) (p : Path) (name : String) :
    h.shouldReport c p (.str name) = h.classify p >>= fun role =>
      if role.isProperty && c.policy = .never || !Naming.breaksStyle name then .ok false
      else h.reportedAs p role := by
  unfold shouldReport
  congr 1
  funext role
  cases role <;> cases hn : Naming.breaksStyle name <;> cases hp : c.policy <;>
    simp [Role.isProperty, Naming.breaksStyle?, reportedAs, hn, bind, Except.bind, pure, Except.pure]

/-- A name with fewer characters and a looser policy do not get a node reported. -/
theorem shouldReport_mono (hpolicy : c'.policy = c.policy ∨ c'.policy = .never)
    (hname : Naming.breaksStyle name' → Naming.breaksStyle name)
    (hs : h.shouldReport c p (.str name) = .ok b) :
    ∃ b', h.shouldReport c' p (.str name') = .ok b' ∧ (b' → b) := by
  rw [shouldReport_str] at hs ⊢
  cases hr : h.classify p with
  | error e =>
    rw [hr] at hs
    cases hs
  | ok role =>
    rw [hr] at hs
    simp only [bind, Except.bind] at hs ⊢
    split
    · exact ⟨false, rfl, nofun⟩
    · next hc' =>
      have hc : ¬ (role.isProperty && decide (c.policy = .never) || !Naming.breaksStyle name) := by
        simp only [Bool.or_eq_true, Bool.and_eq_true, decide_eq_true_eq, Bool.not_eq_true', not_or,
          not_and, Bool.not_eq_false] at hc' ⊢
        refine ⟨fun hprop hnever => hc'.1 hprop ?_, hname hc'.2⟩
        rcases hpolicy with he | he
        · rw [he, hnever]
        · exact he
      rw [if_neg hc] at hs
      exact ⟨b, hs, id⟩

theorem isException_mono (he : ∀ m ∈ c.exceptions.getD [], m ∈ c'.exceptions.getD [])
    (h : Naming.isException c name) : Naming.isException c' name := by
  obtain ⟨m, hm, ha⟩ := List.any_eq_true.mp h
  exact List.any_eq_true.mpr ⟨m, he m hm, ha⟩

/-- Under a looser configuration a node is judged too, and reported at most if it was before. -/
theorem verdict_mono (hc : c.Loosens c') (hv : h.verdict c p = .ok b) :
    ∃ b', h.verdict c' p = .ok b' ∧ (b' → b) := by
  rw [verdict_eq] at hv ⊢
  cases hn : (h.get? p "name").getD (.str "") with
  | str raw =>
    rw [hn] at hv
    dsimp only at hv ⊢
    split
    · exact ⟨false, rfl, nofun⟩
    · next he' =>
      rcases hc.names with ⟨hp, hs, hexc⟩ | ⟨hp, hs, hexc⟩
      · have hsame : Naming.checkable c' raw = Naming.checkable c raw := by
          rw [Naming.checkable, Naming.checkable, hp, hs]
        have he : ¬ Naming.isException c (Naming.checkable c raw) := by
          rw [hsame] at he'
          exact fun he => he' (isException_mono hexc he)
        rw [if_neg he] at hv
        rw [hsame]
        exact shouldReport_mono hc.policy id hv
      · have he : ¬ Naming.isException c (Naming.checkable c raw) := by
          simp [Naming.isException, acceptedByAny, hexc]
        rw [if_neg he, Naming.checkable_of_no_affixes hp hs] at hv
        exact shouldReport_mono hc.policy
          (Naming.breaksStyle_of_sublist (Naming.checkable_isInfix c' raw).sublist) hv
  | _ =>
    rw [hn] at hv
    cases hv

theorem findings_mono (hc : c.Loosens c') {ps : List Path} {vs : List Violation}
    (hf : h.findings c [] ps = .ok vs) :
    ∃ vs', h.findings c' [] ps = .ok vs' ∧ vs'.Sublist vs := by
  rw [findings_eq_ok] at hf
  obtain ⟨hall, hmap⟩ := hf
  have hjudged : ∀ p ∈ ps, ∃ b, h.verdict c' p = .ok b ∧ (b → h.offends c p) := by
    intro p hp
    obtain ⟨b, hv⟩ := hall p hp
    obtain ⟨b', hv', hb⟩ := verdict_mono hc hv
    exact ⟨b', hv', offends_of_verdict hv ▸ hb⟩
  have hsub : (ps.eraseDups.filter (h.offends c')).Sublist (ps.eraseDups.filter (h.offends c)) := by
    have hboth : ps.eraseDups.filter (h.offends c') =
        (ps.eraseDups.filter (h.offends c)).filter (h.offends c') := by
      rw [List.filter_filter]
      refine List.filter_congr fun p hp => ?_
      obtain ⟨b, hv, hb⟩ := hjudged p (List.mem_eraseDups.mp hp)
      rw [offends_of_verdict hv]
      cases b with
      | false => rfl
      | true => simp [hb]
    rw [hboth]
    exact List.filter_sublist
  simp only [List.contains_nil, Bool.not_false, Bool.and_true] at hmap
  obtain ⟨vs', hmap', hvs⟩ := mapM_sublist hsub hmap
  refine ⟨vs', findings_eq_ok.mpr ⟨fun p hp => ?_, by simpa using hmap'⟩, hvs⟩
  obtain ⟨b, hv, -⟩ := hjudged p hp
  exact ⟨b, hv⟩

end

end Tree.Heap

/-- A looser configuration makes no check fail, and finds nothing new. -/
theorem pass_loosens (c c' : Config) (hc : c.Loosens c') (root : Value) (h : Heap)
    (vs : List Violation) (hp : pass c root h = .ok vs) :
    ∃ vs', pass c' root h = .ok vs' ∧ vs'.Sublist vs := by
  cases root with
  | object root =>
    obtain ⟨h', hrun, ht, hf⟩ := pass_eq_ok.mp hp
    obtain ⟨vs', hf', hsub⟩ := Heap.findings_mono hc hf
    exact ⟨vs', pass_eq_ok.mpr ⟨h', hrun, ht, hf'⟩, hsub⟩
  | _ => cases hp

theorem pass_loosens_shorthandProgram :
    ∃ vs, pass { policy := .never, exceptions := some [.literal "a_b"] } (.object [])
        (Heap.load shorthandProgram) = .ok vs ∧ vs.Sublist [shorthandViolation] :=
  pass_loosens {} { policy := .never, exceptions := some [.literal "a_b"] }
    ⟨Or.inr rfl, Or.inl ⟨rfl, rfl, by simp⟩⟩ _ _ _ rfl

end IdentCase
