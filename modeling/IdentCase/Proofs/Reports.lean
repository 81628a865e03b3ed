import IdentCase.Proofs.Pass
import IdentCase.Proofs.Tree.Links
import IdentCase.Proofs.Tree.Order

/-! The violations of a check: one for each identifier that breaks the convention, in order. -/
namespace IdentCase

open IdentCase.Tree

section
variable {α : Type} [BEq α] [LawfulBEq α]

theorem eraseDups_filter (f : α → Bool) :
    ∀ l : List α, (l.filter f).eraseDups = l.eraseDups.filter f
  | [] => rfl
  | a :: l => by
    have hlen : (l.filter fun b => !b == a).length < l.length + 1 :=
      Nat.lt_succ_of_le (List.length_filter_le _ _)
    have hrest := eraseDups_filter f (l.filter fun b => !b == a)
    rw [List.filter_filter] at hrest
    rw [List.eraseDups_cons, List.filter_cons, List.filter_cons]
    split
    · rw [List.eraseDups_cons, List.filter_filter, ← hrest]
      simp only [Bool.and_comm]
    · next ha =>
      rw [← hrest]
      congr 1
      refine List.filter_congr fun b _ => ?_
      by_cases hb : b = a
      · simp [hb, ha]
      · simp [hb]
termination_by l => l.length

/-- What a filter keeps of the first occurrences, element by element. -/
theorem filter_eraseDups_cons (f : α → Bool) (a : α) (l : List α) :
    (a :: l).eraseDups.filter f =
      if f a then a :: l.eraseDups.filter (fun b => f b && !b == a) else l.eraseDups.filter f := by
  rw [List.eraseDups_cons, eraseDups_filter, List.filter_cons, List.filter_filter]
  split
  · rfl
  · next ha =>
    refine List.filter_congr fun b _ => ?_
    by_cases hb : b = a
    · simp [hb, ha]
    · simp [hb]

theorem nodup_eraseDups (l : List α) : l.eraseDups.Nodup := by
  induction l with
  | nil => exact List.nodup_nil
  | cons a l ih =>
    rw [List.eraseDups_cons, eraseDups_filter, List.nodup_cons]
    exact ⟨by simp, ih.filter _⟩

end

namespace Tree.Heap

section
variable {c : Config} {h : Heap} {p : Path}

theorem offends_of_verdict {b : Bool} (hv : h.verdict c p = .ok b) : h.offends c p = b := by
  unfold offends
  rw [hv]

/-- The findings are the violations of the nodes that break the convention, each taken once. -/
theorem findings_eq_ok {marked ps : List Path} {vs : List Violation} :
    h.findings c marked ps = .ok vs ↔ (∀ p ∈ ps, ∃ b, h.verdict c p = .ok b) ∧
      (ps.eraseDups.filter fun p => h.offends c p && !marked.contains p).mapM h.violation =
        .ok vs := by
  induction ps generalizing marked vs with
  | nil => simp [findings, pure, Except.pure]
  | cons p ps ih =>
    rw [findings, filter_eraseDups_cons, List.forall_mem_cons]
    cases hv : h.verdict c p with
    | error e => simp
    | ok b =>
      have hb : ∃ b', (Except.ok b : Except Fault Bool) = .ok b' := ⟨b, rfl⟩
      rw [offends_of_verdict hv]
      simp only [hb, true_and]
      split
      · have hmarks : ∀ q, (h.offends c q && !marked.contains q && !q == p) =
            (h.offends c q && !(p :: marked).contains q) := by
          intro q
          rw [List.contains_cons, Bool.not_or, Bool.and_assoc, Bool.and_comm (!marked.contains q)]
        simp only [hmarks, List.mapM_cons]
        cases hx : h.violation p with
        | error e => simp [bind, Except.bind]
        | ok v =>
          have hmap : ∀ r : Except Fault (List Violation), r.map (v :: ·) = .ok vs ↔
              ∃ ws, r = .ok ws ∧ v :: ws = vs := by
            intro r
            cases r <;> simp [Except.map]
          rw [hmap]
          simp only [ih, and_assoc, exists_and_left, bind, Except.bind, pure, Except.pure]
          refine and_congr_right fun _ => ?_
          cases (ps.eraseDups.filter fun q => h.offends c q && !(p :: marked).contains q).mapM
            h.violation <;> simp
      · exact ih

/-- The findings are complete if each node can be judged and its violation can be made. -/
theorem succeeds_findings {marked ps : List Path}
    (hv : ∀ p ∈ ps, Succeeds (h.verdict c p))
    (hx : ∀ p ∈ ps, h.verdict c p = .ok true → Succeeds (h.violation p)) :
    Succeeds (h.findings c marked ps) := by
  induction ps generalizing marked with
  | nil => exact succeeds_ok []
  | cons p ps ih =>
    obtain ⟨hvp, hvs⟩ := List.forall_mem_cons.mp hv
    obtain ⟨hxp, hxs⟩ := List.forall_mem_cons.mp hx
    obtain ⟨b, hb⟩ := hvp
    unfold findings
    rw [hb]
    cases b with
    | false => exact ih hvs hxs
    | true =>
      obtain ⟨w, hw⟩ := hxp hb
      dsimp only
      split
      · rw [hw]
        exact (ih hvs hxs).map _
      · exact ih hvs hxs

end

end Tree.Heap

section
variable {c : Config} {tree : Json} {S : Set Path} {L : Path → Option Value}
  {vs : List Violation}

/-- Once the tree is linked a check comes down to the findings. -/
theorem pass_of_run {h h' : Heap} {root : Path}
    (hrun : (attachParents (.object root)).run.run h = (.ok (), h'))
    (hr : (h'.get? root "type").isSome) :
    pass c (.object root) h = h'.findings c [] (h'.identifiers root) := by
  have hnil : ∀ r : Except Fault (List Violation), r.map (([] : List Violation) ++ ·) = r := by
    intro r
    cases r <;> simp [Except.map]
  have hnone : (h'.get? root "type").isNone = false := by simpa using hr
  unfold pass
  dsimp only
  rw [hrun]
  simp only [run_traverse, hnil, hnone, Bool.false_eq_true, if_false]

/-- If all names can be compared a check comes down to the findings in the linked tree. -/
theorem pass_load_eq (hr : ((Heap.load tree).get? [] "type").isSome)
    (hn : ∀ p, (Heap.load tree).shared.Reaches [] p → Comparable tree p) :
    pass c (.object []) (Heap.load tree) =
      (linked tree).findings c [] ((linked tree).identifiers []) := by
  refine pass_of_run (run_attachParents_eq hr hn) ?_
  rwa [linked, get?_stage_of_ne (by decide) (by decide)]

theorem pass_of_untyped {h : Heap} {root : Path} (hr : (h.get? root "type").isNone) :
    pass c (.object root) h = .error .untyped := by
  unfold pass
  dsimp only
  rw [run_attachParents_object, if_pos hr]

theorem pass_eq_ok {h : Heap} {root : Path} :
    pass c (.object root) h = .ok vs ↔ ∃ h', (attachParents (.object root)).run.run h = (.ok (), h') ∧
      (h'.get? root "type").isSome ∧ h'.findings c [] (h'.identifiers root) = .ok vs := by
  constructor
  · intro hp
    rcases hrun : (attachParents (.object root)).run.run h with ⟨e | u, h'⟩
    · rw [pass, hrun] at hp
      cases hp
    · have hr : (h'.get? root "type").isSome := by
        rw [pass, hrun] at hp
        simp only [run_traverse] at hp
        split at hp
        · cases hp
        · next ht => simpa [Option.isSome_iff_ne_none] using ht
      exact ⟨h', rfl, hr, by rw [← pass_of_run hrun hr, hp]⟩
  · rintro ⟨h', hrun, hr, hf⟩
    rw [pass_of_run hrun hr, hf]

theorem atomicNames_of_findings (hf : (stage tree S L).findings c []
    ((stage tree S L).identifiers []) = .ok vs) : AtomicNames (stage tree S L) := by
  obtain ⟨order, ho, hids⟩ := exists_order_stage tree S L
  rw [hids, Heap.findings_eq_ok] at hf
  intro p hp ht
  have hmem : p ∈ order := ho.mem_iff.mpr ⟨[], List.mem_singleton_self _, hp⟩
  obtain ⟨b, hv⟩ := hf.1 p (List.mem_filter.mpr ⟨hmem, ht⟩)
  exact Heap.isAtom_of_verdict hv

/-- A check that succeeds has linked the tree, and goes on with the findings in the linked tree. -/
theorem pass_load_eq_ok (hr : ((Heap.load tree).get? [] "type").isSome) :
    pass c (.object []) (Heap.load tree) = .ok vs ↔
      (attachParents (.object [])).run.run (Heap.load tree) = (.ok (), linked tree) ∧
        (linked tree).findings c [] ((linked tree).identifiers []) = .ok vs := by
  rw [pass_eq_ok]
  constructor
  · rintro ⟨h', hrun, -, hf⟩
    obtain ⟨S, L, rfl, -, -⟩ := exists_stage_of_run_attachParents hr hrun
    obtain ⟨-, hl⟩ := run_attachParents_of_atomicNames hr hrun (atomicNames_of_findings hf)
    exact hl ▸ ⟨hrun, hf⟩
  · rintro ⟨hrun, hf⟩
    refine ⟨_, hrun, ?_, hf⟩
    rwa [linked, get?_stage_of_ne (by decide) (by decide)]

/--
A check that succeeds reports the identifiers that break the convention and no others, each once,
in the order in which they are met first.
-/
theorem lint_reports (host : Host) (tree options : Json) (hr : ((Heap.load tree).get? [] "type").isSome)
    (c : Config) (notices : List Notice) (hc : Options.resolve host options = .ok (c, notices))
    (progress : Progress) (vs : List Violation)
    (hl : ((lint host options (valueOf [] tree)).run.run ⟨Heap.load tree, progress⟩).1 = .ok vs) :
    ∃ h order, (attachParents (valueOf [] tree)).run.run (Heap.load tree) = (.ok (), h) ∧
      (Heap.load tree).shared.Preorder [[]] order ∧
      ((order.filter ((Heap.load tree).hasType · "Identifier")).eraseDups.filter
        (h.offends c)).mapM h.violation = .ok vs := by
  rw [run_lint, hc, valueOf_root hr] at hl
  obtain ⟨hrun, hf⟩ := (pass_load_eq_ok hr).mp hl
  obtain ⟨order, ho, hids⟩ := exists_order_linked tree
  rw [hids, Heap.findings_eq_ok] at hf
  refine ⟨linked tree, order, valueOf_root hr ▸ hrun, ho, ?_⟩
  simpa using hf.2

def shorthandViolation : Violation where
  id := "camelcase::?::a_b"
  name := .str "a_b"
  message := "Identifier 'a_b' is not in camel case."
  line := .null
  column := .null
  node := [.key "key", .index 0, .key "body"]

theorem lint_reports_shorthandProgram :
    ∃ h order, (attachParents (valueOf [] shorthandProgram)).run.run (Heap.load shorthandProgram) =
        (.ok (), h) ∧
      (Heap.load shorthandProgram).shared.Preorder [[]] order ∧
      ((order.filter ((Heap.load shorthandProgram).hasType · "Identifier")).eraseDups.filter
        (h.offends {})).mapM h.violation = .ok [shorthandViolation] :=
  lint_reports {} shorthandProgram .null (by decide) {} [] rfl {} _ ((run_lint {} .null _ _).trans rfl)

end

end IdentCase
