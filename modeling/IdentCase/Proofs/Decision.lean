import IdentCase.Proofs.Neighbours
import IdentCase.Proofs.WellShaped

/-! When an identifier is to be reported: what its parent has to be, and what is around that. -/
namespace IdentCase

open IdentCase.Tree

namespace Tree.Heap

def IsTyped (h : Heap) (v : Value) (type : String) : Prop := ∃ p, v = .object p ∧ h.hasType p type

def NamesObject (h : Heap) (m p : Path) : Prop :=
  ∃ o, h.get m "object" = .object o ∧ h.hasType o "Identifier" ∧
    h.same (h.get o "name") (h.get p "name") = .ok true

/-- Whether a node is what a property of a pattern is called, and not what it is bound to too. -/
def NamesBinding (h : Heap) (q p : Path) : Prop :=
  h.IsTyped (h.get q "parent") "ObjectPattern" ∧ h.get q "key" = .object p ∧
    h.get q "value" ≠ .object p

/-- Whether an assignment is of something other than a member, or to a member with the name of a node. -/
def Assigns (h : Heap) (a p : Path) : Prop :=
  ¬ h.IsTyped (h.get a "right") "MemberExpression" ∨
    ∃ l name, h.get a "left" = .object l ∧ h.hasType l "MemberExpression" ∧
      h.fieldOf (h.get l "property") "name" = .ok name ∧ h.same name (h.get p "name") = .ok true

def assigns (h : Heap) (a p : Path) : Except Fault Bool := do
  if (← h.typed? (h.get a "right") "MemberExpression").isNone then return true
  let some l ← h.typed? (h.get a "left") "MemberExpression" | return false
  h.same (← h.fieldOf (h.get l "property") "name") (h.get p "name")

/-- The types of parents to which a node is more than a bare identifier. -/
def parentTypes : List String := ["MemberExpression", "Property", "CallExpression"]

/-- Whether a node has no parent, or one to which it is a bare identifier. -/
def StandsBare (h : Heap) (p : Path) : Prop :=
  h.truthy (h.get p "parent") = false ∨
    ∃ q, h.get p "parent" = .object q ∧ ∀ type ∈ parentTypes, ¬ h.hasType q type

/--
Where the names of identifiers are checked: where they stand bare and, unless the policy exempts
properties, in a property, in front of a member, and behind the point in a member that is assigned.
-/
inductive Checked (c : Config) (h : Heap) (p : Path) : Prop
  | bare (hp : h.StandsBare p)
  | property (q : Path) (hc : c.policy = .always) (hq : h.get p "parent" = .object q)
      (ht : h.hasType q "Property") (hn : ¬ h.NamesBinding q p)
  | memberObject (m : Path) (hc : c.policy = .always) (hm : h.get p "parent" = .object m)
      (ht : h.hasType m "MemberExpression") (hn : h.NamesObject m p)
  | memberProperty (m a : Path) (hc : c.policy = .always) (hm : h.get p "parent" = .object m)
      (ht : h.hasType m "MemberExpression") (hn : ¬ h.NamesObject m p)
      (ha : h.get m "parent" = .object a) (hat : h.hasType a "AssignmentExpression")
      (has : h.Assigns a p)

/-- What a node of some role has for a parent. -/
inductive HasRole (h : Heap) (p : Path) : Role → Prop
  | bare (hp : h.StandsBare p) : HasRole h p .bare
  | callCallee (q : Path) (hq : h.get p "parent" = .object q)
      (ht : h.hasType q "CallExpression") : HasRole h p .callCallee
  | patternKey (q : Path) (hq : h.get p "parent" = .object q) (ht : h.hasType q "Property")
      (hn : h.NamesBinding q p) : HasRole h p .patternKey
  | objectKey (q : Path) (hq : h.get p "parent" = .object q) (ht : h.hasType q "Property")
      (hn : ¬ h.NamesBinding q p) : HasRole h p .objectKey
  | memberObject (m : Path) (hm : h.get p "parent" = .object m)
      (ht : h.hasType m "MemberExpression") (hn : h.NamesObject m p) : HasRole h p .memberObject
  | memberProperty (m : Path) (hm : h.get p "parent" = .object m)
      (ht : h.hasType m "MemberExpression") (hn : ¬ h.NamesObject m p) :
      HasRole h p .memberProperty

section
variable {c : Config} {h : Heap} {p q m a : Path} {v : Value} {type type' : String} {role : Role}
  {b : Bool}

/-- If the type of a value can be asked for, this is what is found. -/
theorem isTyped_iff {o : Option Path} (ho : h.typed? v type = .ok o) :
    h.IsTyped v type ↔ o.isSome := by
  cases o with
  | some q =>
    obtain ⟨hv, ht⟩ := typed?_eq_some ho
    simp only [Option.isSome_some, iff_true]
    exact ⟨q, hv, ht⟩
  | none =>
    simp only [Option.isSome_none, Bool.false_eq_true, iff_false]
    rintro ⟨q, rfl, ht⟩
    simp [typed?, ht] at ho

/-- A value that is not of a type for which it can be asked counts as false or is an object. -/
theorem of_typed?_eq_none (ho : h.typed? v type = .ok none) :
    h.truthy v = false ∨ ∃ q, v = .object q := by
  by_cases hv : ∃ q, v = .object q
  · exact Or.inr hv
  · push Not at hv
    rw [typed?_of_ne_object hv] at ho
    split at ho
    · cases ho
    · next hf => exact Or.inl (by simpa using hf)

theorem effectiveParent_of_typed?_eq_none
    (hm : h.typed? (h.get p "parent") "MemberExpression" = .ok none) :
    h.effectiveParent p = .ok (h.get p "parent") := by
  unfold effectiveParent
  dsimp only
  rw [hm]
  rfl

theorem hasRole_of_member (hm : h.get p "parent" = .object m) (ht : h.hasType m "MemberExpression")
    (hr : h.classify p = .ok role) : h.HasRole p role := by
  unfold classify at hr
  dsimp only at hr
  simp only [typed?_of_hasType hm ht, ok_bind] at hr
  obtain ⟨o, ho, hr⟩ := bind_eq_ok.mp hr
  cases o with
  | none =>
    cases hr
    refine .memberProperty m hm ht ?_
    rintro ⟨o, hobject, hto, -⟩
    have hsome := (isTyped_iff ho).mp ⟨o, hobject, hto⟩
    cases hsome
  | some o =>
    obtain ⟨hobject, hto⟩ := typed?_eq_some ho
    obtain ⟨b, hb, hr⟩ := bind_eq_ok.mp hr
    cases b with
    | true =>
      cases hr
      exact .memberObject m hm ht ⟨o, hobject, hto, hb⟩
    | false =>
      cases hr
      refine .memberProperty m hm ht ?_
      rintro ⟨o', hobject', -, hb'⟩
      obtain rfl := Value.object.inj (hobject.symm.trans hobject')
      rw [hb] at hb'
      cases hb'

theorem hasRole_of_property (hq : h.get p "parent" = .object q) (ht : h.hasType q "Property")
    (hr : h.classify p = .ok role) : h.HasRole p role := by
  have hkeys : (isObject (h.get q "key") p && !isObject (h.get q "value") p) ↔
      h.get q "key" = .object p ∧ h.get q "value" ≠ .object p := by
    rw [Bool.and_eq_true, Bool.not_eq_true', ← Bool.not_eq_true, isObject_iff, isObject_iff]
  unfold classify at hr
  dsimp only at hr
  have hmember : h.typed? (h.get p "parent") "MemberExpression" = .ok none :=
    typed?_of_hasType_ne hq ht (by decide)
  simp only [hmember, typed?_of_hasType hq ht, ok_bind] at hr
  obtain ⟨o, ho, hr⟩ := bind_eq_ok.mp hr
  split at hr
  · next hsome =>
    have hpattern := (isTyped_iff ho).mpr hsome
    split at hr
    · next hk =>
      cases hr
      exact .patternKey q hq ht ⟨hpattern, hkeys.mp hk⟩
    · next hk =>
      cases hr
      exact .objectKey q hq ht fun hn => hk (hkeys.mpr hn.2)
  · next hnone =>
    cases hr
    exact .objectKey q hq ht fun hn => hnone ((isTyped_iff ho).mp hn.1)

theorem hasRole_of_neither (hm : h.typed? (h.get p "parent") "MemberExpression" = .ok none)
    (hq : h.typed? (h.get p "parent") "Property" = .ok none) (hr : h.classify p = .ok role) :
    h.HasRole p role := by
  unfold classify at hr
  dsimp only at hr
  simp only [hm, hq, effectiveParent_of_typed?_eq_none hm, ok_bind] at hr
  obtain ⟨o, ho, hr⟩ := bind_eq_ok.mp hr
  split at hr
  · next hsome =>
    cases hr
    obtain ⟨q, hparent, ht⟩ := (isTyped_iff ho).mpr hsome
    exact .callCallee q hparent ht
  · next hnone =>
    cases hr
    have hcall : h.typed? (h.get p "parent") "CallExpression" = .ok none := by
      rw [ho, Option.not_isSome_iff_eq_none.mp hnone]
    refine .bare ((of_typed?_eq_none hm).imp_right ?_)
    rintro ⟨r, hparent⟩
    have hnot : ∀ type, h.typed? (h.get p "parent") type = .ok none → ¬ h.hasType r type :=
      fun type ho ht => by simpa using (isTyped_iff ho).mp ⟨r, hparent, ht⟩
    refine ⟨r, hparent, fun type htype => ?_⟩
    rcases List.mem_cons.mp htype with rfl | htype
    · exact hnot _ hm
    rcases List.mem_cons.mp htype with rfl | htype
    · exact hnot _ hq
    · exact List.mem_singleton.mp htype ▸ hnot _ hcall

/-- The roles of nodes are told apart by their parents. -/
theorem hasRole_of_classify (hr : h.classify p = .ok role) : h.HasRole p role := by
  have hrest := hr
  unfold classify at hrest
  dsimp only at hrest
  obtain ⟨m, hm, hrest⟩ := bind_eq_ok.mp hrest
  cases m with
  | some m =>
    obtain ⟨hparent, ht⟩ := typed?_eq_some hm
    exact hasRole_of_member hparent ht hr
  | none =>
    obtain ⟨q, hq, -⟩ := bind_eq_ok.mp hrest
    cases q with
    | some q =>
      obtain ⟨hparent, ht⟩ := typed?_eq_some hq
      exact hasRole_of_property hparent ht hr
    | none => exact hasRole_of_neither hm hq hr

/-- The name of a property that is not there is null. -/
theorem isAssigned_of_member (hm : h.get p "parent" = .object m)
    (ht : h.hasType m "MemberExpression") : h.isAssigned p = (do
      let some a ← h.typed? (h.get m "parent") "AssignmentExpression" | return false
      h.assigns a p) := by
  unfold isAssigned assigns
  rw [effectiveParent_of_member hm ht, ok_bind]
  congr 1
  funext a
  cases a with
  | none => rfl
  | some a =>
    dsimp only
    congr 1
    funext r
    split
    · rfl
    · congr 1
      funext l
      cases l with
      | none => rfl
      | some l =>
        dsimp only
        generalize h.get l "property" = v
        cases v with
        | object q => rfl
        | _ =>
          unfold fieldOf
          dsimp only
          split
          · rfl
          · rfl

/-- An assignment of a member has to be to a member of the same name. -/
theorem assigns_iff_of_isTyped (hright : h.IsTyped (h.get a "right") "MemberExpression") :
    h.Assigns a p ↔ ∃ l name, h.get a "left" = .object l ∧ h.hasType l "MemberExpression" ∧
      h.fieldOf (h.get l "property") "name" = .ok name ∧ h.same name (h.get p "name") = .ok true := by
  refine or_iff_right ?_
  rw [not_not]
  exact hright

theorem assigns_iff (hs : h.assigns a p = .ok b) : b ↔ h.Assigns a p := by
  obtain ⟨r, hr, hs⟩ := bind_eq_ok.mp hs
  have hright := isTyped_iff hr
  cases r with
  | none =>
    cases hs
    refine iff_of_true rfl (Or.inl ?_)
    rw [hright]
    exact Bool.false_ne_true
  | some r =>
    rw [assigns_iff_of_isTyped (hright.mpr rfl)]
    obtain ⟨l, hl, hs⟩ := bind_eq_ok.mp hs
    cases l with
    | none =>
      cases hs
      refine iff_of_false Bool.false_ne_true ?_
      rintro ⟨l, -, hleft, hlt, -⟩
      have hsome := (isTyped_iff hl).mp ⟨l, hleft, hlt⟩
      cases hsome
    | some l =>
      obtain ⟨hleft, hlt⟩ := typed?_eq_some hl
      obtain ⟨name, hname, hb⟩ := bind_eq_ok.mp hs
      constructor
      · rintro rfl
        exact ⟨l, name, hleft, hlt, hname, hb⟩
      · rintro ⟨l', name', hleft', -, hname', hb'⟩
        obtain rfl := Value.object.inj (hleft.symm.trans hleft')
        obtain rfl := Except.ok.inj (hname.symm.trans hname')
        exact Except.ok.inj (hb.symm.trans hb')

/-- What it takes for a member to be assigned. -/
theorem isAssigned_iff (hm : h.get p "parent" = .object m) (ht : h.hasType m "MemberExpression")
    (hs : h.isAssigned p = .ok b) :
    b ↔ ∃ a, h.get m "parent" = .object a ∧ h.hasType a "AssignmentExpression" ∧ h.Assigns a p := by
  rw [isAssigned_of_member hm ht] at hs
  obtain ⟨o, ho, hs⟩ := bind_eq_ok.mp hs
  cases o with
  | none =>
    cases hs
    refine iff_of_false Bool.false_ne_true ?_
    rintro ⟨a, ha, hat, -⟩
    have hsome := (isTyped_iff ho).mp ⟨a, ha, hat⟩
    cases hsome
  | some a =>
    obtain ⟨ha, hat⟩ := typed?_eq_some ho
    rw [assigns_iff hs]
    constructor
    · exact fun has => ⟨a, ha, hat, has⟩
    · rintro ⟨a', ha', -, has⟩
      exact Value.object.inj (ha.symm.trans ha') ▸ has

end

section
variable {c : Config} {h : Heap} {p q m : Path} {type : String} {role : Role} {name : String}
  {b : Bool}

theorem not_standsBare (hq : h.get p "parent" = .object q) (ht : h.hasType q type)
    (htype : type ∈ parentTypes) : ¬ h.StandsBare p := by
  rintro (hf | ⟨q', hq', hn⟩)
  · rw [hq] at hf
    have hsome := isSome_get?_type ht
    have hnode : h.node q = [] := by simpa [truthy] using hf
    simp [get?, hnode] at hsome
  · obtain rfl := Value.object.inj (hq.symm.trans hq')
    exact hn type htype ht

theorem checked_property_iff (hq : h.get p "parent" = .object q) (ht : h.hasType q "Property") :
    h.Checked c p ↔ c.policy = .always ∧ ¬ h.NamesBinding q p := by
  constructor
  · intro hc
    cases hc with
    | bare hp => exact absurd hp (not_standsBare hq ht (by decide))
    | property q' hc hq' _ hn =>
      obtain rfl := Value.object.inj (hq.symm.trans hq')
      exact ⟨hc, hn⟩
    | memberObject m _ hm hmt _ | memberProperty m _ _ hm hmt _ _ _ _ =>
      obtain rfl := Value.object.inj (hq.symm.trans hm)
      exact absurd (hasType_unique ht hmt) (by decide)
  · rintro ⟨hc, hn⟩
    exact .property q hc hq ht hn

theorem checked_member_iff (hm : h.get p "parent" = .object m)
    (ht : h.hasType m "MemberExpression") :
    h.Checked c p ↔ c.policy = .always ∧ (h.NamesObject m p ∨
      ∃ a, h.get m "parent" = .object a ∧ h.hasType a "AssignmentExpression" ∧ h.Assigns a p) := by
  constructor
  · intro hc
    cases hc with
    | bare hp => exact absurd hp (not_standsBare hm ht (by decide))
    | property q _ hq hqt _ =>
      obtain rfl := Value.object.inj (hm.symm.trans hq)
      exact absurd (hasType_unique ht hqt) (by decide)
    | memberObject m' hc hm' _ hn =>
      obtain rfl := Value.object.inj (hm.symm.trans hm')
      exact ⟨hc, Or.inl hn⟩
    | memberProperty m' a hc hm' _ _ ha hat has =>
      obtain rfl := Value.object.inj (hm.symm.trans hm')
      exact ⟨hc, Or.inr ⟨a, ha, hat, has⟩⟩
  · rintro ⟨hc, hrest⟩
    by_cases hn : h.NamesObject m p
    · exact .memberObject m hc hm ht hn
    · obtain ⟨a, ha, hat, has⟩ := hrest.resolve_left hn
      exact .memberProperty m a hc hm ht hn ha hat has

theorem not_checked_of_call (hq : h.get p "parent" = .object q)
    (ht : h.hasType q "CallExpression") : ¬ h.Checked c p := by
  intro hc
  cases hc with
  | bare hp => exact not_standsBare hq ht (by decide) hp
  | property q' _ hq' hqt _ | memberObject q' _ hq' hqt _ | memberProperty q' _ _ hq' hqt _ _ _ _ =>
    obtain rfl := Value.object.inj (hq.symm.trans hq')
    exact absurd (hasType_unique ht hqt) (by decide)

/-- The names of properties are checked under one policy only. -/
theorem policy_of_checked (hr : h.HasRole p role) (hc : h.Checked c p) (hp : role.isProperty) :
    c.policy = .always := by
  cases hr with
  | bare | callCallee => cases hp
  | patternKey q hq ht _ | objectKey q hq ht _ => exact ((checked_property_iff hq ht).mp hc).1
  | memberObject m hm ht _ | memberProperty m hm ht _ => exact ((checked_member_iff hm ht).mp hc).1

/-- What is around a property is no call. -/
theorem callee_of_property (hq : h.get p "parent" = .object q) (ht : h.hasType q "Property") :
    (h.effectiveParent p >>= fun v => h.typed? v "CallExpression") = .ok none := by
  have hmember : h.typed? (h.get p "parent") "MemberExpression" = .ok none :=
    typed?_of_hasType_ne hq ht (by decide)
  rw [effectiveParent_of_typed?_eq_none hmember, ok_bind]
  exact typed?_of_hasType_ne hq ht (by decide)

theorem checked_iff (hr : h.HasRole p role) (hp : role.isProperty → c.policy = .always)
    (hs : h.reportedAs p role = .ok b) : b ↔ h.Checked c p := by
  cases hr with
  | bare hbare =>
    cases hs
    exact iff_of_true rfl (.bare hbare)
  | callCallee q hq ht =>
    cases hs
    exact iff_of_false Bool.false_ne_true (not_checked_of_call hq ht)
  | patternKey q hq ht hn =>
    cases hs
    rw [checked_property_iff hq ht]
    exact iff_of_false Bool.false_ne_true fun hc => hc.2 hn
  | objectKey q hq ht hn =>
    obtain ⟨v, hv, hcall⟩ := bind_eq_ok.mp (callee_of_property hq ht)
    simp only [reportedAs, hv, hcall, ok_bind] at hs
    cases hs
    rw [checked_property_iff hq ht]
    exact iff_of_true rfl ⟨hp rfl, hn⟩
  | memberObject m hm ht hn =>
    cases hs
    rw [checked_member_iff hm ht]
    exact iff_of_true rfl ⟨hp rfl, Or.inl hn⟩
  | memberProperty m hm ht hn =>
    rw [checked_member_iff hm ht, isAssigned_iff hm ht hs, or_iff_right hn, and_iff_right (hp rfl)]

/-- A node is reported if its name breaks the convention and is checked where it stands. -/
theorem reported_iff (hs : h.shouldReport c p (.str name) = .ok b) :
    b ↔ Naming.breaksStyle name ∧ h.Checked c p := by
  rw [shouldReport_str] at hs
  obtain ⟨role, hclassify, hs⟩ := bind_eq_ok.mp hs
  have hr := hasRole_of_classify hclassify
  split at hs
  · next hskip =>
    cases hs
    refine iff_of_false Bool.false_ne_true fun ⟨hbreaks, hc⟩ => ?_
    rcases Bool.or_eq_true_iff.mp hskip with hpolicy | hkeeps
    · obtain ⟨hp, hnever⟩ := Bool.and_eq_true_iff.mp hpolicy
      rw [policy_of_checked hr hc hp] at hnever
      cases hnever
    · simp [hbreaks] at hkeeps
  · next hgoes =>
    rw [Bool.or_eq_true, not_or, Bool.and_eq_true, not_and] at hgoes
    obtain ⟨hpolicy, hbreaks⟩ := hgoes
    have hp : role.isProperty → c.policy = .always := by
      intro hp
      cases hc : c.policy with
      | always => rfl
      | never => exact absurd (by simp [hc]) (hpolicy hp)
    rw [checked_iff hr hp hs, and_iff_right (by simpa using hbreaks)]

/-- Under the policy that exempts properties a node that is reported is bare. -/
theorem classify_of_never (hc : c.policy = .never)
    (hs : h.shouldReport c p (.str name) = .ok true) : h.classify p = .ok .bare := by
  obtain ⟨-, hchecked⟩ := (reported_iff hs).mp rfl
  rw [shouldReport_str] at hs
  obtain ⟨role, hclassify, -⟩ := bind_eq_ok.mp hs
  have hr := hasRole_of_classify hclassify
  have hnot : ¬ role.isProperty := by
    intro hp
    rw [policy_of_checked hr hchecked hp] at hc
    cases hc
  cases hr with
  | bare => exact hclassify
  | callCallee q hq ht => exact absurd hchecked (not_checked_of_call hq ht)
  | _ => exact absurd rfl hnot

end

end Tree.Heap

/--
An identifier is reported if and only if its name breaks the convention and is checked where the
identifier stands. What is around a property is never a call, so to look for one there excludes
nothing, and under the policy that exempts properties only bare identifiers are reported.
-/
theorem shouldReport_iff (h : Heap) (c : Config) (p : Path) (name : String) (b : Bool)
    (hs : h.shouldReport c p (.str name) = .ok b) :
    (b ↔ Naming.breaksStyle name ∧ h.Checked c p) ∧
      (h.classify p = .ok .objectKey →
        (h.effectiveParent p >>= fun v => h.typed? v "CallExpression") = .ok none) ∧
      (c.policy = .never → b → h.classify p = .ok .bare) := by
  refine ⟨Heap.reported_iff hs, fun hkey => ?_, fun hc hb => ?_⟩
  · cases Heap.hasRole_of_classify hkey with
    | objectKey q hq ht hn => exact Heap.callee_of_property hq ht
  · subst hb
    exact Heap.classify_of_never hc hs

/-- An assignment of a member, where the member and its property have what holds them as parents. -/
def assignedMember : Heap :=
  ((Heap.load assignmentTree).set [.key "left"] "parent" (.object [])).set
    [.key "property", .key "left"] "parent" (.object [.key "left"])

theorem shouldReport_iff_assignedMember :
    assignedMember.shouldReport {} [.key "property", .key "left"] (.str "a_b") = .ok true ∧
      assignedMember.Checked {} [.key "property", .key "left"] := by
  have hs : assignedMember.shouldReport {} [.key "property", .key "left"] (.str "a_b") =
      .ok true := rfl
  obtain ⟨hreported, -, -⟩ :=
    shouldReport_iff assignedMember {} [.key "property", .key "left"] "a_b" true hs
  exact ⟨hs, (hreported.mp rfl).2⟩

end IdentCase
