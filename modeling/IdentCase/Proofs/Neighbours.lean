import IdentCase.Proofs.Loosening
import IdentCase.Proofs.Tree.Renaming

/-! What is found for a node depends on its neighbours alone, whatever else two heaps hold. -/
namespace IdentCase

open IdentCase.Tree

namespace Tree

theorem typed?_of_ne_object {h : Heap} {v : Value} (hv : ∀ r, v ≠ .object r) (type : String) :
    h.typed? v type = if h.truthy v then .error .notObject else .ok none := by
  cases v with
  | object r => exact absurd rfl (hv r)
  | _ => rfl

theorem typed?_eq_some {h : Heap} {v : Value} {p : Path} {type : String}
    (ht : h.typed? v type = .ok (some p)) : v = .object p ∧ h.hasType p type := by
  cases v with
  | object q =>
    simp only [Heap.typed?, Except.ok.injEq, Option.ite_none_right_eq_some, Option.some.injEq] at ht
    exact ⟨congrArg Value.object ht.2, ht.2 ▸ ht.1⟩
  | _ =>
    simp only [Heap.typed?] at ht
    split at ht <;> cases ht

theorem rename_ne_object {f : Path → Path} {v : Value} (hv : ∀ r, v ≠ .object r) :
    ∀ r, v.rename f ≠ .object r := by
  intro r hr
  obtain ⟨q, hq, -⟩ := rename_eq_object.mp hr
  exact hv q hq

theorem truthy_rename {h h' : Heap} {f : Path → Path} {v : Value} (hv : ∀ r, v ≠ .object r) :
    h'.truthy (v.rename f) = h.truthy v := by
  cases v with
  | object r => exact absurd rfl (hv r)
  | list items => simp [Value.rename, Heap.truthy, renameItems_eq_map]
  | _ => rfl

/-- The types of nodes that make a difference to the nodes near them. -/
def contextTypes : List String :=
  ["MemberExpression", "Identifier", "Property", "ObjectPattern", "CallExpression",
    "AssignmentExpression"]

namespace Heap

/-- Whether a value is another renamed, and of the same type as far as that makes a difference. -/
structure Corresponds (f : Path → Path) (h h' : Heap) (v v' : Value) : Prop where
  eq : v' = v.rename f
  hasType : ∀ q, v = .object q → ∀ type ∈ contextTypes, h'.hasType (f q) type = h.hasType q type

/-- Whether the neighbours of a node correspond to those of the renamed node in another heap. -/
structure Resembles (f : Path → Path) (h h' : Heap) (p : Path) : Prop where
  name : h'.get? (f p) "name" = (h.get? p "name").map (·.rename f)
  parent : Corresponds f h h' (h.get p "parent") (h'.get (f p) "parent")
  member : ∀ m, h.get p "parent" = .object m → h.hasType m "MemberExpression" →
    Corresponds f h h' (h.get m "parent") (h'.get (f m) "parent") ∧
      Corresponds f h h' (h.get m "object") (h'.get (f m) "object")
  object : ∀ m o, h.get p "parent" = .object m → h.hasType m "MemberExpression" →
    h.get m "object" = .object o → h'.get (f o) "name" = (h.get o "name").rename f
  property : ∀ q, h.get p "parent" = .object q → h.hasType q "Property" →
    Corresponds f h h' (h.get q "parent") (h'.get (f q) "parent") ∧
      (isObject (h'.get (f q) "key") (f p) && !isObject (h'.get (f q) "value") (f p)) =
        (isObject (h.get q "key") p && !isObject (h.get q "value") p)
  assignment : ∀ a, h.effectiveParent p = .ok (.object a) → h.hasType a "AssignmentExpression" →
    Corresponds f h h' (h.get a "right") (h'.get (f a) "right") ∧
      Corresponds f h h' (h.get a "left") (h'.get (f a) "left")
  assigned : ∀ a l, h.effectiveParent p = .ok (.object a) → h.hasType a "AssignmentExpression" →
    h.get a "left" = .object l → h.hasType l "MemberExpression" →
    h'.get (f l) "property" = (h.get l "property").rename f ∧
      ∀ q, h.get l "property" = .object q → h'.get (f q) "name" = (h.get q "name").rename f

/--
Whether what the context of a node is found by corresponds to what that of the renamed node is found
by in another heap. Names have to compare in the same way.
-/
structure SeenAlike (f : Path → Path) (h h' : Heap) (p : Path) : Prop where
  parent : Corresponds f h h' (h.get p "parent") (h'.get (f p) "parent")
  member : ∀ m, h.get p "parent" = .object m → h.hasType m "MemberExpression" →
    Corresponds f h h' (h.get m "parent") (h'.get (f m) "parent") ∧
      Corresponds f h h' (h.get m "object") (h'.get (f m) "object")
  object : ∀ m o, h.get p "parent" = .object m → h.hasType m "MemberExpression" →
    h.get m "object" = .object o →
      h'.same (h'.get (f o) "name") (h'.get (f p) "name") = h.same (h.get o "name") (h.get p "name")
  property : ∀ q, h.get p "parent" = .object q → h.hasType q "Property" →
    Corresponds f h h' (h.get q "parent") (h'.get (f q) "parent") ∧
      (isObject (h'.get (f q) "key") (f p) && !isObject (h'.get (f q) "value") (f p)) =
        (isObject (h.get q "key") p && !isObject (h.get q "value") p)
  assignment : ∀ m a, h.get p "parent" = .object m → h.hasType m "MemberExpression" →
    h.get m "parent" = .object a → h.hasType a "AssignmentExpression" →
      Corresponds f h h' (h.get a "right") (h'.get (f a) "right") ∧
        Corresponds f h h' (h.get a "left") (h'.get (f a) "left")
  assigned : ∀ m a l, h.get p "parent" = .object m → h.hasType m "MemberExpression" →
    h.get m "parent" = .object a → h.hasType a "AssignmentExpression" →
      h.get a "left" = .object l → h.hasType l "MemberExpression" →
        h'.get (f l) "property" = (h.get l "property").rename f ∧
          ∀ q, h.get l "property" = .object q →
            h'.same (h'.get (f q) "name") (h'.get (f p) "name") =
              h.same (h.get q "name") (h.get p "name")
  unnamed : h'.same .null (h'.get (f p) "name") = h.same .null (h.get p "name")

variable {f : Path → Path} {h h' : Heap} {p q m : Path} {v v' : Value} {type type' : String}

theorem hasType_unique (ht : h.hasType q type) (ht' : h.hasType q type') : type = type' := by
  unfold hasType at ht ht'
  split at ht
  · next s hs =>
    rw [hs] at ht'
    rw [← eq_of_beq ht, ← eq_of_beq ht']
  · cases ht

theorem not_hasType (ht : h.hasType q type) (hne : type ≠ type') : h.hasType q type' = false := by
  by_contra hn
  exact hne (hasType_unique ht (by simpa using hn))

theorem typed?_of_hasType (hv : v = .object q) (ht : h.hasType q type) :
    h.typed? v type = .ok (some q) := by
  simp [hv, typed?, ht]

theorem typed?_of_hasType_ne (hv : v = .object q) (ht : h.hasType q type) (hne : type ≠ type') :
    h.typed? v type' = .ok none := by
  simp [hv, typed?, not_hasType ht hne]

theorem effectiveParent_of_member (hm : h.get p "parent" = .object m)
    (ht : h.hasType m "MemberExpression") : h.effectiveParent p = .ok (h.get m "parent") := by
  unfold effectiveParent
  dsimp only
  rw [typed?_of_hasType hm ht]
  rfl

/-- Only what stands in a member access is a member. -/
theorem exists_member_of_classify (hr : h.classify p = .ok .memberProperty) :
    ∃ m, h.get p "parent" = .object m ∧ h.hasType m "MemberExpression" := by
  unfold classify at hr
  dsimp only at hr
  obtain ⟨m, hm, hr⟩ := bind_eq_ok.mp hr
  cases m with
  | some m => exact ⟨m, typed?_eq_some hm⟩
  | none =>
    obtain ⟨q, -, hr⟩ := bind_eq_ok.mp hr
    cases q with
    | some q =>
      obtain ⟨o, -, hr⟩ := bind_eq_ok.mp hr
      split_ifs at hr <;> cases hr
    | none =>
      obtain ⟨v, -, hr⟩ := bind_eq_ok.mp hr
      obtain ⟨o, -, hr⟩ := bind_eq_ok.mp hr
      split_ifs at hr <;> cases hr

theorem Corresponds.typed? (hc : Corresponds f h h' v v') (ht : type ∈ contextTypes) :
    h'.typed? v' type = (h.typed? v type).map (Option.map f) := by
  obtain ⟨rfl, htype⟩ := hc
  by_cases hobj : ∃ r, v = .object r
  · obtain ⟨r, rfl⟩ := hobj
    simp only [Value.rename, Heap.typed?, htype r rfl type ht]
    split <;> rfl
  · push Not at hobj
    rw [typed?_of_ne_object hobj, typed?_of_ne_object (rename_ne_object hobj),
      truthy_rename (h := h) hobj]
    cases h.truthy v <;> rfl

/-- Names compare as the renamed ones do, if one of them is an atom. -/
theorem same_rename {w w' : Value} (hw : w.isAtom) (hv : v' = v.rename f) (hw' : w' = w.rename f) :
    h'.same v' w' = h.same v w := by
  rw [hv, hw', same_of_isAtom (Or.inr hw), same_of_isAtom (Or.inr ((isAtom_rename _).trans hw)),
    sameAtom_rename]

namespace SeenAlike

theorem effectiveParent (hs : SeenAlike f h h' p) :
    h'.effectiveParent (f p) = (h.effectiveParent p).map (·.rename f) := by
  unfold Heap.effectiveParent
  dsimp only
  rw [hs.parent.typed? (by decide)]
  cases hm : h.typed? (h.get p "parent") "MemberExpression" with
  | error e => rfl
  | ok m =>
    cases m with
    | none => exact congrArg Except.ok hs.parent.eq
    | some m =>
      obtain ⟨hparent, htype⟩ := typed?_eq_some hm
      exact congrArg Except.ok (hs.member m hparent htype).1.eq

theorem corresponds_effectiveParent (hs : SeenAlike f h h' p) (hv : h.effectiveParent p = .ok v) :
    Corresponds f h h' v (v.rename f) := by
  unfold Heap.effectiveParent at hv
  dsimp only at hv
  cases hm : h.typed? (h.get p "parent") "MemberExpression" with
  | error e =>
    rw [hm] at hv
    cases hv
  | ok m =>
    rw [hm] at hv
    cases m with
    | none =>
      cases hv
      exact ⟨rfl, hs.parent.hasType⟩
    | some m =>
      obtain ⟨hparent, htype⟩ := typed?_eq_some hm
      cases hv
      exact ⟨rfl, (hs.member m hparent htype).1.hasType⟩

/-- A node has the role of a node with the same neighbours. -/
theorem classify (hs : SeenAlike f h h' p) : h'.classify (f p) = h.classify p := by
  unfold Heap.classify
  dsimp only
  rw [hs.parent.typed? (by decide), map_bind]
  refine bind_congr_ok fun m hm => ?_
  cases m with
  | some m =>
    obtain ⟨hparent, htype⟩ := typed?_eq_some hm
    dsimp only [Option.map_some]
    rw [(hs.member m hparent htype).2.typed? (by decide), map_bind]
    refine bind_congr_ok fun o ho => ?_
    cases o with
    | none => rfl
    | some o =>
      dsimp only [Option.map_some]
      rw [hs.object m o hparent htype (typed?_eq_some ho).1]
  | none =>
    dsimp only [Option.map_none]
    rw [hs.parent.typed? (by decide), map_bind]
    refine bind_congr_ok fun q hq => ?_
    cases q with
    | some q =>
      obtain ⟨hparent, htype⟩ := typed?_eq_some hq
      obtain ⟨habove, hkey⟩ := hs.property q hparent htype
      dsimp only [Option.map_some]
      rw [habove.typed? (by decide), map_bind, hkey]
      simp only [Option.isSome_map]
    | none =>
      dsimp only [Option.map_none]
      rw [hs.effectiveParent, map_bind]
      refine bind_congr_ok fun v hv => ?_
      rw [(hs.corresponds_effectiveParent hv).typed? (by decide), map_bind]
      simp only [Option.isSome_map]

/-- The sides of an assignment are read for members only. -/
theorem isAssigned (hs : SeenAlike f h h' p) (hm : h.get p "parent" = .object m)
    (ht : h.hasType m "MemberExpression") : h'.isAssigned (f p) = h.isAssigned p := by
  have hparent := effectiveParent_of_member hm ht
  unfold Heap.isAssigned
  rw [hs.effectiveParent, map_bind]
  refine bind_congr_ok fun v hv => ?_
  obtain rfl := Except.ok.inj (hparent.symm.trans hv)
  rw [(hs.corresponds_effectiveParent hv).typed? (by decide), map_bind]
  refine bind_congr_ok fun a ha => ?_
  cases a with
  | none => rfl
  | some a =>
    obtain ⟨habove, htype⟩ := typed?_eq_some ha
    obtain ⟨hright, hleft⟩ := hs.assignment m a hm ht habove htype
    dsimp only [Option.map_some]
    rw [hright.typed? (by decide), map_bind]
    refine bind_congr_ok fun r _ => ?_
    rw [hleft.typed? (by decide), Option.isNone_map, map_bind]
    split
    · rfl
    · refine bind_congr_ok fun l hl => ?_
      cases l with
      | none => rfl
      | some l =>
        obtain ⟨hvalue, hmember⟩ := typed?_eq_some hl
        obtain ⟨hproperty, hnamed⟩ := hs.assigned m a l hm ht habove htype hvalue hmember
        dsimp only [Option.map_some]
        rw [hproperty]
        cases hq : h.get l "property" with
        | object q =>
          simp only [Value.rename]
          exact hnamed q hq
        | _ =>
          have htruthy : h'.truthy ((h.get l "property").rename f) = h.truthy (h.get l "property") :=
            truthy_rename (by simp [hq])
          rw [hq] at htruthy
          simp only [Value.rename] at htruthy ⊢
          rw [htruthy, hs.unnamed]

/-- A node is reported if a node with the same neighbours is, and that fails if this does. -/
theorem shouldReport (hs : SeenAlike f h h' p) (c : Config) (name : Json) :
    h'.shouldReport c (f p) name = h.shouldReport c p name := by
  unfold Heap.shouldReport
  rw [hs.classify]
  refine bind_congr_ok fun role hr => ?_
  split_ifs
  · rfl
  · rfl
  refine bind_congr_ok fun b _ => ?_
  cases b with
  | false => rfl
  | true =>
    cases role with
    | memberProperty =>
      obtain ⟨m, hm, ht⟩ := exists_member_of_classify hr
      exact hs.isAssigned hm ht
    | objectKey =>
      dsimp only
      rw [hs.effectiveParent, map_bind]
      refine bind_congr_ok fun v hv => ?_
      rw [(hs.corresponds_effectiveParent hv).typed? (by decide), map_bind]
      simp only [Option.isNone_map]
    | _ => rfl

end SeenAlike

namespace Resembles

theorem get_name (hr : Resembles f h h' p) : h'.get (f p) "name" = (h.get p "name").rename f := by
  rw [Heap.get, Heap.get, hr.name]
  cases h.get? p "name" <;> rfl

theorem seenAlike (hr : Resembles f h h' p) (hname : (h.get p "name").isAtom) :
    SeenAlike f h h' p where
  parent := hr.parent
  member := hr.member
  object m o hm ht ho := same_rename hname (hr.object m o hm ht ho) hr.get_name
  property := hr.property
  assignment m a hm ht ha hat := by
    have hparent := effectiveParent_of_member hm ht
    exact hr.assignment a (ha ▸ hparent) hat
  assigned m a l hm ht ha hat hl hlt := by
    have hparent := effectiveParent_of_member hm ht
    obtain ⟨hproperty, hnamed⟩ := hr.assigned a l (ha ▸ hparent) hat hl hlt
    exact ⟨hproperty, fun q hq => same_rename hname (hnamed q hq) hr.get_name⟩
  unnamed := same_rename hname rfl hr.get_name

/-- A node is judged as a node with the same neighbours is. -/
theorem verdict (hr : Resembles f h h' p) (c : Config) : h'.verdict c (f p) = h.verdict c p := by
  rw [verdict_eq, verdict_eq, hr.name]
  cases hn : h.get? p "name" with
  | none =>
    have hname : (h.get p "name").isAtom := by
      rw [Heap.get, hn]
      rfl
    simp only [Option.map_none, Option.getD_none, (hr.seenAlike hname).shouldReport]
  | some v =>
    cases v with
    | str raw =>
      have hname : (h.get p "name").isAtom := by
        rw [Heap.get, hn]
        rfl
      simp only [Option.map_some, Option.getD_some, Value.rename,
        (hr.seenAlike hname).shouldReport]
    | _ => rfl

end Resembles

end Heap

end Tree

end IdentCase
