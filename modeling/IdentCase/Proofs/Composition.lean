import IdentCase.Proofs.Records
import IdentCase.Proofs.Transport
import IdentCase.Proofs.Tree.Agreement
import IdentCase.Proofs.Tree.Positions
import IdentCase.Proofs.Tree.Splitting

/-! Checks of programs, which come down to checks of their parts. -/
namespace IdentCase

open IdentCase.Tree

def Violation.rename (f : Path → Path) (v : Violation) : Violation :=
  { v with
    name := v.name.rename f
    line := v.line.rename f
    column := v.column.rename f
    node := f v.node }

theorem violation_rename_id (v : Violation) : v.rename id = v := by
  cases v
  simp only [Violation.rename, rename_id, id]

section
variable {ε α β γ : Type}

theorem bind_map_eq_ok {x : Except ε α} {y : Except ε β} {g : α → β → γ} {out : γ} :
    (x >>= fun a => y.map (g a)) = .ok out ↔ ∃ a b, x = .ok a ∧ y = .ok b ∧ out = g a b := by
  cases x <;> cases y <;> simp [bind, Except.bind, Except.map, eq_comm]

theorem bind_map_eq_error {x : Except ε α} {y : Except ε β} {g : α → β → γ} {e : ε} :
    (x >>= fun a => y.map (g a)) = .error e ↔ x = .error e ∨ (∃ a, x = .ok a) ∧ y = .error e := by
  cases x <;> cases y <;> simp [bind, Except.bind, Except.map]

end

namespace Tree

namespace Heap.Mirrors

variable {f : Path → Path} {D R : Set Path} {h h' : Heap} {p : Path} {v w : Value} {k : String}

theorem fieldOf (hm : Mirrors f D R h h') (hv : ∀ r, v = .object r → r ∈ D) (hp : k ≠ "parent")
    (hk : k ≠ "value") : h'.fieldOf (v.rename f) k = (h.fieldOf v k).map (·.rename f) := by
  by_cases hobj : ∃ r, v = .object r
  · obtain ⟨r, rfl⟩ := hobj
    simp only [Value.rename, Heap.fieldOf, hm.get (hv r rfl) hp hk, Except.map]
  · push Not at hobj
    rw [fieldOf_of_ne_object hobj, fieldOf_of_ne_object (rename_ne_object hobj), truthy_rename (h := h) hobj]
    cases h.truthy v <;> rfl

theorem mem_of_fieldOf (hm : Mirrors f D R h h') (hv : ∀ r, v = .object r → r ∈ D)
    (hp : k ≠ "parent") (hk : k ≠ "value") (hw : h.fieldOf v k = .ok w) :
    ∀ r, w = .object r → r ∈ D := by
  rintro r rfl
  cases v with
  | object q =>
    simp only [Heap.fieldOf, Except.ok.injEq] at hw
    exact hm.held q (hv q rfl) k r hp hk hw
  | _ =>
    simp only [Heap.fieldOf] at hw
    split at hw <;> cases hw

end Heap.Mirrors

section
variable {h h' : Heap} {f : Path → Path} {line column : Value}

/-- What is told of a position whose parts have the same JSON forms under other names. -/
theorem Heap.toldPosition_rename (hline : h'.toJson (line.rename f) = h.toJson line)
    (hcolumn : h'.toJson (column.rename f) = h.toJson column) :
    h'.toldPosition (line.rename f) (column.rename f) = h.toldPosition line column := by
  cases line <;> simp only [Value.rename] at hline ⊢ <;> simp only [toldPosition, hline, hcolumn]

theorem Heap.tellable_rename (hline : h'.toJson (line.rename f) = h.toJson line)
    (hcolumn : h'.toJson (column.rename f) = h.toJson column) :
    h'.tellable (line.rename f) (column.rename f) = h.tellable line column := by
  cases line <;> simp only [Value.rename] at hline ⊢ <;> simp only [tellable, hline, hcolumn]

end

section
variable {S S' : Set Path} {L L' : Path → Option Value} {f : Path → Path} {tree : Json}
  {body whole : List Json} {p : Path} {k : String}

theorem Part.toJson_start_field (hpart : Part f body whole) (hb : Finished (program body) S L)
    (hw : Finished (program whole) S' L') (hdb : (program body).Distinct)
    (hdw : (program whole).Distinct) (hp : p ∈ within body.length) {start w : Value}
    (hs : (stage (program body) S L).fieldOf ((stage (program body) S L).get p "loc") "start" =
      .ok start)
    (hv : (stage (program body) S L).fieldOf start k = .ok w) (hpar : k ≠ "parent")
    (hval : k ≠ "value") :
    (stage (program whole) S' L').toJson (w.rename f) = (stage (program body) S L).toJson w := by
  have hloc : .key "loc" :: p ∈ within body.length := cons_mem_within hp
  have hq : .key "start" :: .key "loc" :: p ∈ within body.length := cons_mem_within hloc
  have hfq : f (.key "start" :: .key "loc" :: p) = .key "start" :: .key "loc" :: f p := by
    rw [hpart.step _ hloc, hpart.step _ hp]
  rcases start_field hs hv with rfl | rfl
  · rw [Value.rename]
    exact toJson_of_isAtom rfl
  · rw [← (hpart.mirrors hb hw).get hq hpar hval, hb.toJson_get hdb (List.suffix_cons _ _),
      hw.toJson_get hdw (hfq ▸ List.suffix_cons _ _), ← hpart.step _ hq,
      hpart.value _ (cons_mem_within hq)]

/-- The violation of a node says the same wherever the node stands. -/
theorem Part.violation (hpart : Part f body whole) (hb : Finished (program body) S L)
    (hw : Finished (program whole) S' L') (hdb : (program body).Distinct)
    (hdw : (program whole).Distinct) (hp : p ∈ within body.length)
    (hname : ((stage (program body) S L).get p "name").isAtom) :
    (stage (program whole) S' L').violation (f p) =
      ((stage (program body) S L).violation p).map (·.rename f) := by
  have hm := hpart.mirrors hb hw
  have hget : ((stage (program whole) S' L').get? (f p) "name").getD (.str "") =
      (((stage (program body) S L).get? p "name").getD (.str "")).rename f := by
    rw [hm.get? p hp "name" (by decide) (by decide)]
    cases (stage (program body) S L).get? p "name" <;> rfl
  have hatom := Heap.isAtom_getD hname
  have hshown : (stage (program whole) S' L').toJson
      (((stage (program body) S L).get? p "name").getD (.str "")) =
        (stage (program body) S L).toJson
          (((stage (program body) S L).get? p "name").getD (.str "")) := toJson_of_isAtom hatom
  have hloc : ∀ r, (stage (program body) S L).get p "loc" = .object r → r ∈ within body.length :=
    fun r hr => hm.held p hp "loc" r (by decide) (by decide) hr
  have hposition : (stage (program whole) S' L').position (f p) =
      ((stage (program body) S L).position p).map fun (line, column) =>
        (line.rename f, column.rename f) := by
    unfold Heap.position
    rw [hm.get hp (by decide) (by decide), hm.fieldOf hloc (by decide) (by decide), map_bind, bind_map]
    refine bind_congr_ok fun start hs => ?_
    have hstart := hm.mem_of_fieldOf hloc (by decide) (by decide) hs
    rw [hm.fieldOf hstart (by decide) (by decide), hm.fieldOf hstart (by decide) (by decide), map_bind,
      bind_map]
    refine bind_congr_ok fun line _ => ?_
    rw [map_bind, bind_map]
    exact bind_congr_ok fun column _ => rfl
  rw [Heap.violation_eq, Heap.violation_eq, hposition, map_bind, bind_map]
  refine bind_congr_ok fun ⟨line, column⟩ hpos => ?_
  obtain ⟨start, hs, hl, hc⟩ := Heap.position_eq_ok.mp hpos
  have hline := hpart.toJson_start_field hb hw hdb hdw hp hs hl (by decide) (by decide)
  have hcolumn := hpart.toJson_start_field hb hw hdb hdw hp hs hc (by decide) (by decide)
  have htellable : (stage (program whole) S' L').tellableAt (f p) (line.rename f, column.rename f) =
      (stage (program body) S L).tellableAt p (line, column) := by
    unfold Heap.tellableAt
    rw [hget, rename_eq_self_of_isAtom hatom, hshown, Heap.tellable_rename hline hcolumn]
  dsimp only
  rw [htellable]
  split
  · unfold Heap.violationAt
    dsimp only
    rw [hget, rename_eq_self_of_isAtom hatom, hshown]
    simp only [Violation.rename, Except.map, Heap.toldPosition_rename hline hcolumn,
      rename_eq_self_of_isAtom hatom]
  · rfl

end

end Tree

namespace Tree.Heap

section
variable {f : Path → Path} {R : Set Path} {h h' : Heap} {c : Config}
  {marked marked' l l' : List Path}

/-- Only the marks of the nodes themselves bear on what is found. -/
theorem findings_congr (hm : ∀ p ∈ l, p ∈ marked ↔ p ∈ marked') :
    h.findings c marked l = h.findings c marked' l := by
  induction l generalizing marked marked' with
  | nil => rfl
  | cons p l ih =>
    have hp : marked.contains p = marked'.contains p := by
      rw [Bool.eq_iff_iff, List.contains_iff_mem, List.contains_iff_mem]
      exact hm p List.mem_cons_self
    have hrest : ∀ q ∈ l, q ∈ marked ↔ q ∈ marked' := fun q hq => hm q (List.mem_cons_of_mem _ hq)
    have hcons : h.findings c (p :: marked) l = h.findings c (p :: marked') l :=
      ih fun q hq => by rw [List.mem_cons, List.mem_cons, hrest q hq]
    rw [findings, findings, hp, ih hrest, hcons]

theorem findings_append (hl : ∀ p ∈ l', p ∉ marked ∧ p ∉ l) :
    h.findings c marked (l ++ l') =
      h.findings c marked l >>= fun vs => (h.findings c [] l').map (vs ++ ·) := by
  induction l generalizing marked with
  | nil =>
    have hfresh : h.findings c marked l' = h.findings c [] l' :=
      findings_congr fun p hp => by simp [(hl p hp).1]
    rw [List.nil_append, hfresh, findings]
    cases h.findings c [] l' <;> rfl
  | cons p l ih =>
    rw [List.cons_append, findings, findings]
    cases h.verdict c p with
    | error e => rfl
    | ok b =>
      dsimp only
      split
      · cases h.violation p with
        | error e => rfl
        | ok v =>
          have hmarked : ∀ q ∈ l', q ∉ p :: marked ∧ q ∉ l := fun q hq => by
            have hq := hl q hq
            simp only [List.mem_cons, not_or] at hq ⊢
            exact ⟨⟨hq.2.1, hq.1⟩, hq.2.2⟩
          dsimp only
          rw [ih hmarked]
          cases h.findings c (p :: marked) l with
          | error e => rfl
          | ok vs => cases h.findings c [] l' <;> rfl
      · refine ih fun q hq => ?_
        have hq := hl q hq
        rw [List.mem_cons, not_or] at hq
        exact ⟨hq.1, hq.2.2⟩

/-- The same is found for nodes that agree, up to the failure at a name that is not usable. -/
theorem findings_agrees (ha : Agrees f R h h' l l')
    (hinj : ∀ p ∈ R, ∀ q ∈ R, f p = f q → p = q) (hm : ∀ p ∈ marked, p ∈ R)
    (hv : ∀ p ∈ R, h'.verdict c (f p) = h.verdict c p)
    (hx : ∀ p ∈ R, (h.get p "name").isAtom →
      h'.violation (f p) = (h.violation p).map (·.rename f)) :
    h'.findings c (marked.map f) l' = (h.findings c marked l).map (·.map (·.rename f)) := by
  induction ha generalizing marked with
  | nil => rfl
  | stop hp hp' =>
    rw [findings, findings, verdict_of_not_isAtom hp.2, verdict_of_not_isAtom hp'.2]
    rfl
  | @cons p l l' hp _ ih =>
    have hmark : (marked.map f).contains (f p) = marked.contains p := by
      rw [Bool.eq_iff_iff, List.contains_iff_mem, List.contains_iff_mem, List.mem_map]
      constructor
      · rintro ⟨q, hq, he⟩
        exact hinj q (hm q hq) p hp he ▸ hq
      · exact fun hq => ⟨p, hq, rfl⟩
    rw [findings, findings, hv p hp, hmark]
    cases hb : h.verdict c p with
    | error e => rfl
    | ok b =>
      dsimp only
      split
      · have hih := ih (List.forall_mem_cons.mpr ⟨hp, hm⟩)
        rw [hx p hp (isAtom_of_verdict hb)]
        cases h.violation p with
        | error e => rfl
        | ok v =>
          rw [List.map_cons] at hih
          simp only [Except.map] at hih ⊢
          rw [hih]
          cases h.findings c (p :: marked) l <;> rfl
      · exact ih hm

end

end Tree.Heap

section
variable {S S₁ S₂ S' : Set Path} {L L₁ L₂ L' : Path → Option Value} {f : Path → Path}
  {first second body whole : List Json} {order order' : List Path} {p : Path} {c : Config}
  {vs : List Violation}

/-- Whether linking a tree succeeds. -/
def Linkable (tree : Json) : Prop :=
  ((attachParents (valueOf [] tree)).run.run (Heap.load tree)).1 = .ok ()

/-- A check of a program that can be linked comes down to the findings in it. -/
theorem Linkable.exists_finished (hl : Linkable (program body)) :
    ∃ S L, Finished (program body) S L ∧ ∀ c, pass c (.object []) (Heap.load (program body)) =
      (stage (program body) S L).findings c [] ((stage (program body) S L).identifiers []) := by
  unfold Linkable at hl
  rw [valueOf_root isSome_type_root] at hl
  rcases hrun : (attachParents (.object [])).run.run (Heap.load (program body)) with ⟨r, h⟩
  rw [hrun] at hl
  obtain ⟨S, L, rfl, -, hf⟩ := exists_stage_of_run_attachParents isSome_type_root hrun
  refine ⟨S, L, hf hl, fun c => pass_of_run (hl ▸ hrun) ?_⟩
  rw [get?_stage_of_ne (by decide) (by decide)]
  exact isSome_type_root

theorem linkable_program : Linkable (program body) ↔ linking body = .ok () := by
  rw [Linkable, linking, valueOf_root isSome_type_root]

/-- A program can be linked if both its parts can. -/
theorem linkable_append (hd : Json.DistinctItems (first ++ second)) :
    Linkable (program (first ++ second)) ↔ Linkable (program first) ∧ Linkable (program second) := by
  rw [linkable_program, linkable_program, linkable_program, linking_append hd, bind_eq_ok]
  exact ⟨fun ⟨_, hs, hf⟩ => ⟨hf, hs⟩, fun ⟨hf, hs⟩ => ⟨(), hs, hf⟩⟩

theorem pass_of_linking_eq_error {e : Fault} (hl : linking body = .error e) (c : Config) :
    pass c (.object []) (Heap.load (program body)) = .error e := by
  rw [linking] at hl
  rw [pass]
  rcases hrun : (attachParents (.object [])).run.run (Heap.load (program body)) with ⟨r, h⟩
  rw [hrun] at hl
  obtain rfl : r = .error e := hl
  rfl

theorem linking_eq_ok_of_pass (hp : pass c (.object []) (Heap.load (program body)) = .ok vs) :
    linking body = .ok () := by
  cases hl : linking body with
  | error e =>
    rw [pass_of_linking_eq_error hl] at hp
    cases hp
  | ok u => rfl

theorem identifiers_program (hs : Staged (program body) S L)
    (hl : (stage (program body) S L).Preorder ((Heap.load (program body)).children []) order) :
    (stage (program body) S L).identifiers [] =
      order.filter ((stage (program body) S L).hasType · "Identifier") := by
  have hroot : (stage (program body) S L).Preorder [[]] ([] :: order ++ []) :=
    .cons (by rwa [children_stage_root hs]) .nil
  have htype : (stage (program body) S L).hasType [] "Identifier" = false := by
    rw [hasType_stage, hasType_root (by decide)]
  rw [Heap.identifiers_eq (ranked_stage []) le_rfl hroot, List.append_nil,
    List.filter_cons, htype, if_neg Bool.false_ne_true]

theorem Tree.Part.mem_keptBoth_root (hpart : Part f body whole) (hb : Finished (program body) S L)
    (hw : Finished (program whole) S' L') :
    ∀ p ∈ (Heap.load (program body)).children [], p ∈ keptBoth f (within body.length)
      (stage (program body) S L) (stage (program whole) S' L') := by
  intro p hp
  have hpw := mem_within_of_mem_children_root hp
  refine ⟨hpw, .single ?_, .single ?_⟩
  · rwa [children_stage_root hb.staged]
  · rw [children_stage_root hw.staged]
    exact (hpart.root p hpw).mpr hp

/-- The findings in a part are found in the whole too. -/
theorem Tree.Part.findings (hpart : Part f body whole) (hb : Finished (program body) S L)
    (hw : Finished (program whole) S' L') (hdb : (program body).Distinct)
    (hdw : (program whole).Distinct)
    (hl : (stage (program body) S L).Preorder ((Heap.load (program body)).children []) order)
    (hl' : (stage (program whole) S' L').Preorder
      (((Heap.load (program body)).children []).map f) order') (c : Config) :
    (stage (program whole) S' L').findings c []
        (order'.filter ((stage (program whole) S' L').hasType · "Identifier")) =
      ((stage (program body) S L).findings c [] ((stage (program body) S L).identifiers [])).map
        (·.map (·.rename f)) := by
  have hm := hpart.mirrors hb hw
  have hroot : Agrees f (keptBoth f (within body.length) (stage (program body) S L)
      (stage (program whole) S' L')) (stage (program body) S L) (stage (program whole) S' L')
      ((Heap.load (program body)).children []) (((Heap.load (program body)).children []).map f) :=
    .of_map (hpart.mem_keptBoth_root hb hw)
  have horder := hroot.preorder (fun p hp => hpart.agrees_children hb hw hp) hl hl'
  have hmarks : ∀ p ∈ ([] : List Path), p ∈ keptBoth f (within body.length)
      (stage (program body) S L) (stage (program whole) S' L') := by simp
  rw [identifiers_program hb.staged hl]
  exact Heap.findings_agrees (horder.filter fun p hp => hm.hasType hp.1 "Identifier")
    (fun p hp q hq => hpart.inj p hp.1 q hq.1) hmarks (fun p hp => hm.verdict hp c)
    fun p hp hname => hpart.violation hb hw hdb hdw hp.1 hname

/-- In two programs put together no node of the second part is walked as one of the first. -/
theorem not_mem_walk_first {w₁ w₂ : List Path}
    (hw₁ : (stage (program (first ++ second)) S L).Preorder
      ((Heap.load (program first)).children []) w₁)
    (hw₂ : (stage (program (first ++ second)) S L).Preorder
      (((Heap.load (program second)).children []).map (shift first.length)) w₂)
    (hp : p ∈ w₂) : p ∉ w₁ := by
  intro hp'
  obtain ⟨q, hq, hqp⟩ := hw₂.mem_iff.mp hp
  obtain ⟨r, hr, hrp⟩ := hw₁.mem_iff.mp hp'
  obtain ⟨d, hd, rfl⟩ := List.mem_map.mp hq
  have hfirst : p ∈ within first.length :=
    mem_within_of_suffix (mem_within_of_mem_children_root hr) (suffix_of_reaches hrp)
  exact not_mem_within_of_shift (mem_within_of_mem_children_root hd) (suffix_of_reaches hqp) hfirst

theorem findings_program_append (hd : Json.DistinctItems (first ++ second))
    (hf₁ : Finished (program first) S₁ L₁) (hf₂ : Finished (program second) S₂ L₂)
    (hw : Finished (program (first ++ second)) S L) :
    (stage (program (first ++ second)) S L).findings c []
        ((stage (program (first ++ second)) S L).identifiers []) =
      (stage (program first) S₁ L₁).findings c []
          ((stage (program first) S₁ L₁).identifiers []) >>= fun vs₁ =>
        ((stage (program second) S₂ L₂).findings c []
            ((stage (program second) S₂ L₂).identifiers [])).map fun vs₂ =>
          vs₁ ++ vs₂.map (·.rename (shift first.length)) := by
  obtain ⟨hd₁, hd₂⟩ := Json.distinctItems_append.mp hd
  have hdw := distinct_program.mpr hd
  obtain ⟨l₁, hl₁⟩ := exists_preorder_stage (program first) S₁ L₁
    ((Heap.load (program first)).children [])
  obtain ⟨l₂, hl₂⟩ := exists_preorder_stage (program second) S₂ L₂
    ((Heap.load (program second)).children [])
  obtain ⟨w₁, hw₁⟩ := exists_preorder_stage (program (first ++ second)) S L
    (((Heap.load (program first)).children []).map id)
  obtain ⟨w₂, hw₂⟩ := exists_preorder_stage (program (first ++ second)) S L
    (((Heap.load (program second)).children []).map (shift first.length))
  have hwhole := hw₁.append hw₂
  rw [List.map_id, ← children_root_append] at hwhole
  have hfirst := (part_first first second).findings hf₁ hw (distinct_program.mpr hd₁) hdw hl₁ hw₁ c
  have hsecond := (part_second first second).findings hf₂ hw (distinct_program.mpr hd₂) hdw hl₂ hw₂ c
  have hid : (fun vs : List Violation => vs.map (·.rename id)) = id := by
    funext vs
    simp only [violation_rename_id, List.map_id', id]
  rw [hid, Except.map_id, id] at hfirst
  have hapart : ∀ p ∈ w₂.filter ((stage (program (first ++ second)) S L).hasType · "Identifier"),
      p ∉ ([] : List Path) ∧
        p ∉ w₁.filter ((stage (program (first ++ second)) S L).hasType · "Identifier") := by
    intro p hp
    rw [List.map_id] at hw₁
    have hnot : p ∉ w₁ := not_mem_walk_first hw₁ hw₂ (List.mem_of_mem_filter hp)
    exact ⟨List.not_mem_nil, fun hp' => hnot (List.mem_of_mem_filter hp')⟩
  rw [identifiers_program hw.staged hwhole, List.filter_append, Heap.findings_append hapart, hfirst,
    hsecond]
  congr 1
  funext vs
  cases (stage (program second) S₂ L₂).findings c []
    ((stage (program second) S₂ L₂).identifiers []) <;> rfl

theorem pass_append (hd : Json.DistinctItems (first ++ second)) (hf : Linkable (program first))
    (hs : Linkable (program second)) (c : Config) :
    pass c (.object []) (Heap.load (program (first ++ second))) =
      pass c (.object []) (Heap.load (program first)) >>= fun vs₁ =>
        (pass c (.object []) (Heap.load (program second))).map fun vs₂ =>
          vs₁ ++ vs₂.map (·.rename (shift first.length)) := by
  obtain ⟨S₁, L₁, hf₁, hpass₁⟩ := hf.exists_finished
  obtain ⟨S₂, L₂, hf₂, hpass₂⟩ := hs.exists_finished
  obtain ⟨S, L, hfw, hpass⟩ := ((linkable_append hd).mpr ⟨hf, hs⟩).exists_finished
  rw [hpass, hpass₁, hpass₂]
  exact findings_program_append hd hf₁ hf₂ hfw

end

def lintProgram (host : Host) (options : Json) (body : List Json) : Except Fault (List Violation) :=
  ((lint host options (valueOf [] (program body))).run.run ⟨Heap.load (program body), {}⟩).1

theorem lintProgram_eq (host : Host) (options : Json) (body : List Json) :
    lintProgram host options body = Options.resolve host options >>= fun (c, _) =>
      pass c (.object []) (Heap.load (program body)) := by
  rw [lintProgram, run_lint, valueOf_root isSome_type_root]
  cases Options.resolve host options <;> rfl

/--
A check of statements finds what checks of two parts of them find, and fails if one of these fails. All
statements are linked before any is visited, the last first: if the second part cannot be linked the
check fails as one of that part does, and else as the first part that fails.
-/
theorem lint_append (host : Host) (options : Json) (first second : List Json)
    (hd : Json.DistinctItems (first ++ second)) :
    (∀ vs, lintProgram host options (first ++ second) = .ok vs ↔
      ∃ vs₁ vs₂, lintProgram host options first = .ok vs₁ ∧ lintProgram host options second = .ok vs₂ ∧
        vs = vs₁ ++ vs₂.map (·.rename (shift first.length))) ∧
    (Linkable (program (first ++ second)) ↔ Linkable (program first) ∧ Linkable (program second)) ∧
    (Linkable (program second) → ∀ e, lintProgram host options (first ++ second) = .error e ↔
      lintProgram host options first = .error e ∨
        (∃ vs, lintProgram host options first = .ok vs) ∧ lintProgram host options second = .error e) ∧
    (¬ Linkable (program second) → ∀ e, lintProgram host options (first ++ second) = .error e ↔
      lintProgram host options second = .error e) := by
  simp only [lintProgram_eq]
  rcases Options.resolve host options with e | ⟨c, notices⟩
  · have herror : ∀ k : Config × List Notice → Except Fault (List Violation),
        (Except.error e >>= k) = .error e := fun _ => rfl
    simp [herror, linkable_append hd]
  simp only [ok_bind]
  refine ⟨fun vs => ⟨fun hok => ?_, ?_⟩, linkable_append hd, fun hs e => ?_, fun hs e => ?_⟩
  · obtain ⟨hf, hs⟩ := (linkable_append hd).mp (linkable_program.mpr (linking_eq_ok_of_pass hok))
    rw [pass_append hd hf hs] at hok
    exact bind_map_eq_ok.mp hok
  · rintro ⟨vs₁, vs₂, h₁, h₂, hvs⟩
    rw [pass_append hd (linkable_program.mpr (linking_eq_ok_of_pass h₁))
      (linkable_program.mpr (linking_eq_ok_of_pass h₂))]
    exact bind_map_eq_ok.mpr ⟨vs₁, vs₂, h₁, h₂, hvs⟩
  · cases hf : linking first with
    | error e' =>
      have hwhole : linking (first ++ second) = .error e' := by
        rw [linking_append hd, linkable_program.mp hs, ok_bind, hf]
      rw [pass_of_linking_eq_error hwhole, pass_of_linking_eq_error hf]
      simp
    | ok u =>
      rw [pass_append hd (linkable_program.mpr hf) hs]
      exact bind_map_eq_error
  · cases hl : linking second with
    | error e' =>
      have hwhole : linking (first ++ second) = .error e' := by
        rw [linking_append hd, hl]
        rfl
      rw [pass_of_linking_eq_error hwhole, pass_of_linking_eq_error hl]
    | ok u => exact absurd (linkable_program.mpr hl) hs

/-- An identifier that breaks the convention. -/
def snakeIdentifier : Json := .obj [("type", .str "Identifier"), ("name", .str "a_b")]

/-- An identifier that cannot be judged. -/
def namelessIdentifier : Json := .obj [("type", .str "Identifier"), ("name", .null)]

/-- The violation of the former as the statement at an index. -/
def snakeViolation (i : Nat) : Violation where
  id := "camelcase::?::a_b"
  name := .str "a_b"
  message := "Identifier 'a_b' is not in camel case."
  line := .null
  column := .null
  node := [.index i, .key "body"]

/-- A shorthand property with names that hold each other once the property is linked. -/
def entangledProperty : Json :=
  let name (z : Int) : Json := .obj [("parent", .int z), ("type", .str "X")]
  let inner : Json := .obj [("type", .str "Property"), ("shorthand", .bool true),
    ("key", .obj [("type", .str "Identifier"), ("name", name 1)]),
    ("value", .obj [("type", .str "Identifier"), ("name", name 2)])]
  .obj [("type", .str "Property"), ("shorthand", .bool true),
    ("key", .obj [("type", .str "Identifier"), ("name", .str "a"), ("x", inner)]),
    ("value", .obj [("type", .str "Identifier"), ("name", .str "a")])]

/-- Whether a computation fails since a value holds itself. -/
def failsAsCyclic {α : Type} : Except Fault α → Bool
  | .error .cyclic => true
  | _ => false

theorem eq_of_failsAsCyclic {α : Type} {r : Except Fault α} (h : failsAsCyclic r) :
    r = .error .cyclic := by
  unfold failsAsCyclic at h
  split at h
  · rfl
  · cases h

theorem linking_entangledProperty : linking [entangledProperty] = .error .cyclic :=
  eq_of_failsAsCyclic (by decide +kernel)

theorem lint_append_snakeIdentifier :
    lintProgram {} .null ([snakeIdentifier] ++ [snakeIdentifier]) =
        .ok [snakeViolation 0, snakeViolation 1] ∧
      lintProgram {} .null ([snakeIdentifier] ++ [namelessIdentifier]) = .error .notUsable ∧
      lintProgram {} .null ([namelessIdentifier] ++ [entangledProperty]) = .error .cyclic := by
  refine ⟨?_, ?_, ?_⟩
  · refine ((lint_append {} .null [snakeIdentifier] [snakeIdentifier] ?_).1 _).mpr
      ⟨[snakeViolation 0], [snakeViolation 0], rfl, rfl, rfl⟩
    simp [snakeIdentifier, Json.DistinctItems, Json.Distinct, Json.DistinctFields]
  · refine ((lint_append {} .null [snakeIdentifier] [namelessIdentifier] ?_).2.2.1 rfl _).mpr
      (Or.inr ⟨⟨[snakeViolation 0], rfl⟩, rfl⟩)
    simp [snakeIdentifier, namelessIdentifier, Json.DistinctItems, Json.Distinct,
      Json.DistinctFields]
  · have hlink : ¬ Linkable (program [entangledProperty]) := by
      rw [linkable_program, linking_entangledProperty]
      intro h
      cases h
    have hlint : lintProgram {} .null [entangledProperty] = .error .cyclic := by
      have hr : Options.resolve {} .null = .ok ({}, []) := rfl
      rw [lintProgram_eq, hr, ok_bind]
      exact pass_of_linking_eq_error linking_entangledProperty {}
    refine ((lint_append {} .null [namelessIdentifier] [entangledProperty] ?_).2.2.2 hlink _).mpr hlint
    simp [namelessIdentifier, entangledProperty, Json.DistinctItems, Json.Distinct,
      Json.DistinctFields]

/-- In general a check need not fail as the first part that fails. -/
theorem not_lint_append_error : ¬ ∀ (options : Json) (first second : List Json),
    Json.DistinctItems (first ++ second) → ∀ e,
      lintProgram {} options (first ++ second) = .error e ↔
        lintProgram {} options first = .error e ∨
          (∃ vs, lintProgram {} options first = .ok vs) ∧ lintProgram {} options second = .error e := by
  intro h
  have hd : Json.DistinctItems ([namelessIdentifier] ++ [entangledProperty]) := by
    simp [namelessIdentifier, entangledProperty, Json.DistinctItems, Json.Distinct,
      Json.DistinctFields]
  have hfirst : lintProgram {} .null ([namelessIdentifier] ++ [entangledProperty]) =
      .error .notUsable := (h .null [namelessIdentifier] [entangledProperty] hd .notUsable).mpr
    (Or.inl rfl)
  have hcyclic : lintProgram {} .null ([namelessIdentifier] ++ [entangledProperty]) =
      .error .cyclic := eq_of_failsAsCyclic (by decide +kernel)
  rw [hfirst] at hcyclic
  cases hcyclic

end IdentCase
