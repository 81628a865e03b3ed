import IdentCase.Proofs.Neighbours
import IdentCase.Proofs.Records
import IdentCase.Proofs.Tree.Legible
import IdentCase.Proofs.Tree.Positions
import IdentCase.Proofs.Tree.Relinking

/-! Well-shaped trees: whatever a check asks of the values in them it gets, so that it cannot fail. -/
namespace IdentCase

open IdentCase.Tree

namespace Tree

def Value.isText : Value → Bool
  | .str _ => true
  | _ => false

/-- Whether fields can be asked of a value: it is an object, or it counts as false. -/
def Heap.askable (h : Heap) : Value → Bool
  | .object _ => true
  | v => !h.truthy v

/-- A tree of the shape that a check relies on. All fields that are not named may hold any values that
are read. -/
structure WellShaped (tree : Json) : Prop where
  legible : tree.legible
  root : ((Heap.load tree).get? [] "type").isSome
  top : (Heap.load tree).get [] "parent" = .null
  name : ∀ p, (Heap.load tree).shared.Reaches [] p → (Heap.load tree).hasType p "Identifier" →
    ((Heap.load tree).get? p "name").all Value.isText
  position : ∀ p, (Heap.load tree).shared.Reaches [] p → (Heap.load tree).hasType p "Identifier" →
    (Heap.load tree).askable ((Heap.load tree).get p "loc") ∧
      (Heap.load tree).askable ((Heap.load tree).get (.key "loc" :: p) "start")
  member : ∀ p, (Heap.load tree).shared.Reaches [] p →
    (Heap.load tree).hasType p "MemberExpression" → ∀ k ∈ ["object", "property"],
      (Heap.load tree).askable ((Heap.load tree).get p k)
  assignment : ∀ p, (Heap.load tree).shared.Reaches [] p →
    (Heap.load tree).hasType p "AssignmentExpression" → ∀ k ∈ ["left", "right"],
      (Heap.load tree).askable ((Heap.load tree).get p k)

namespace Heap

section
variable {h h' : Heap} {v : Value} {p : Path} {type : String}

theorem askable_congr (ha : h.askable v) : h'.askable v := by
  cases v with
  | object p => rfl
  | _ => exact ha

theorem truthy_of_askable (ha : h.askable v) (hv : ∀ p, v ≠ .object p) : h.truthy v = false := by
  cases v with
  | object p => exact absurd rfl (hv p)
  | _ => simpa only [askable, Bool.not_eq_true'] using ha

/-- A value that is askable and no object has no type and no fields. -/
theorem typed?_of_askable (ha : h.askable v) (hv : ∀ p, v ≠ .object p) (type : String) :
    h.typed? v type = .ok none := by
  rw [typed?_of_ne_object hv, truthy_of_askable ha hv, if_neg Bool.false_ne_true]

theorem fieldOf_of_askable (ha : h.askable v) (hv : ∀ p, v ≠ .object p) (key : String) :
    h.fieldOf v key = .ok .null := by
  rw [fieldOf_of_ne_object hv, truthy_of_askable ha hv, if_neg Bool.false_ne_true]

theorem succeeds_typed? (ha : h.askable v) (type : String) : Succeeds (h.typed? v type) := by
  cases v with
  | object p => exact succeeds_ok _
  | _ =>
    rw [typed?_of_askable ha nofun]
    exact succeeds_ok _

theorem succeeds_fieldOf (ha : h.askable v) (key : String) : Succeeds (h.fieldOf v key) := by
  cases v with
  | object p => exact succeeds_ok _
  | _ =>
    rw [fieldOf_of_askable ha nofun]
    exact succeeds_ok _

/-- Whether a value is null or a node that can be reached from the root. -/
def Rooted (h : Heap) (v : Value) : Prop := v = .null ∨ ∃ p, v = .object p ∧ h.Reaches [] p

theorem Rooted.askable (hv : h.Rooted v) : h.askable v := by
  rcases hv with rfl | ⟨p, rfl, -⟩
  · rfl
  · rfl

theorem Rooted.reaches_of_typed? (hv : h.Rooted v) (ht : h.typed? v type = .ok (some p)) :
    h.Reaches [] p ∧ h.hasType p type := by
  obtain ⟨rfl, htype⟩ := typed?_eq_some ht
  rcases hv with he | ⟨q, he, hq⟩
  · cases he
  · cases he
    exact ⟨hq, htype⟩

end

end Heap

namespace Heap.FromLegible

variable {h : Heap} {p : Path} {place : Value × Value}

theorem position (hh : h.FromLegible) (hp : h.position p = .ok place) :
    place.1.FromLegible ∧ place.2.FromLegible := by
  obtain ⟨start, -, hl, hc⟩ := position_eq_ok.mp hp
  exact ⟨hh.fieldOf hl, hh.fieldOf hc⟩

/-- What a legible heap tells of a node can be written. -/
theorem tellableAt (hh : h.FromLegible) (hp : h.position p = .ok place) :
    h.tellableAt p place := by
  obtain ⟨hline, hcolumn⟩ := hh.position hp
  have hname : ((h.get? p "name").getD (.str "")).FromLegible := by
    cases hn : h.get? p "name" with
    | none => exact ⟨[], .str "", rfl, rfl⟩
    | some v => exact hh p _ (mem_of_lookup_eq_some hn)
  unfold Heap.tellableAt tellable
  rw [hh.toJson hname, Bool.and_true]
  split
  · rfl
  · rw [hh.toJson hline, hh.toJson hcolumn, Bool.and_self]

end Heap.FromLegible

namespace WellShaped

variable {tree : Json} {p q : Path} {v : Value} {k : String}

theorem atomicNames (ht : WellShaped tree) : AtomicNames (Heap.load tree).shared := by
  intro p hp hi
  rw [shared_eq_stage, hasType_stage] at hi
  have hname := ht.name p hp hi
  rw [shared_eq_stage, get_stage_of_ne (by decide) (by decide), Heap.get]
  cases hn : (Heap.load tree).get? p "name" with
  | none => rfl
  | some v =>
    rw [hn] at hname
    cases v with
    | str s => rfl
    | _ => cases hname

theorem comparable (ht : WellShaped tree) (hp : (Heap.load tree).shared.Reaches [] p) :
    Comparable tree p := comparable_of_reaches_shared ht.atomicNames hp

theorem rooted_parent (ht : WellShaped tree) (hp : (linked tree).Reaches [] p) :
    (linked tree).Rooted ((linked tree).get p "parent") := by
  by_cases hne : p = []
  · refine Or.inl ?_
    have htop := ht.top
    rw [Heap.get] at htop
    rw [hne, Heap.get, get?_root_parent_linked ht.root, htop]
    rfl
  · obtain ⟨q, hparent, hq, -, -⟩ := parent_linked ht.root hp hne
    refine Or.inr ⟨q, ?_, hq⟩
    rw [Heap.get, hparent]
    rfl

theorem askable_linked {keys : List String} (hkeys : ∀ k ∈ keys, k ≠ "parent" ∧ k ≠ "value")
    (hk : k ∈ keys) (ha : (Heap.load tree).askable ((Heap.load tree).get p k)) :
    (linked tree).askable ((linked tree).get p k) := by
  obtain ⟨hp, hv⟩ := hkeys k hk
  rw [linked, get_stage_of_ne hp hv]
  exact Heap.askable_congr ha

theorem askable_member (ht : WellShaped tree) (hp : (linked tree).Reaches [] p)
    (hm : (linked tree).hasType p "MemberExpression") (hk : k ∈ ["object", "property"]) :
    (linked tree).askable ((linked tree).get p k) := by
  rw [linked, hasType_stage] at hm
  exact askable_linked (by decide) hk (ht.member p (reaches_linked.mp hp) hm k hk)

theorem askable_assignment (ht : WellShaped tree) (hp : (linked tree).Reaches [] p)
    (hm : (linked tree).hasType p "AssignmentExpression") (hk : k ∈ ["left", "right"]) :
    (linked tree).askable ((linked tree).get p k) := by
  rw [linked, hasType_stage] at hm
  exact askable_linked (by decide) hk (ht.assignment p (reaches_linked.mp hp) hm k hk)

/-- The left side of an assignment that can be reached can be reached too. -/
theorem reaches_left (hp : (linked tree).Reaches [] p) (hq : (linked tree).get p "left" = .object q)
    (ht : (linked tree).hasType q "MemberExpression") : (linked tree).Reaches [] q := by
  rw [linked, get_stage_of_ne (by decide) (by decide)] at hq
  obtain rfl := Heap.get_load_eq_object hq
  rw [linked, hasType_stage] at ht
  obtain ⟨type, htype⟩ := Option.isSome_iff_exists.mp (Heap.isSome_get?_type ht)
  exact hp.tail (mem_children_stage_of_key (by decide) (by decide) htype)

theorem effectiveParent (ht : WellShaped tree) (hp : (linked tree).Reaches [] p) :
    ∃ v, (linked tree).effectiveParent p = .ok v ∧ (linked tree).Rooted v := by
  have hparent := ht.rooted_parent hp
  obtain ⟨m, hm⟩ := Heap.succeeds_typed? hparent.askable "MemberExpression"
  unfold Heap.effectiveParent
  dsimp only
  rw [hm]
  cases m with
  | none => exact ⟨_, rfl, hparent⟩
  | some m => exact ⟨_, rfl, ht.rooted_parent (hparent.reaches_of_typed? hm).1⟩

theorem succeeds_same (hn : v.isAtom) (w : Value) : Succeeds ((linked tree).same w v) := by
  rw [same_of_isAtom (Or.inr hn)]
  exact succeeds_ok _

theorem classify (ht : WellShaped tree) (hp : (linked tree).Reaches [] p)
    (hn : ((linked tree).get p "name").isAtom) : Succeeds ((linked tree).classify p) := by
  have hparent := ht.rooted_parent hp
  unfold Heap.classify
  dsimp only
  refine (Heap.succeeds_typed? hparent.askable _).bind fun m hm => ?_
  cases m with
  | some m =>
    obtain ⟨hmr, hmt⟩ := hparent.reaches_of_typed? hm
    have hobject := ht.askable_member hmr hmt (k := "object") (by decide)
    refine (Heap.succeeds_typed? hobject _).bind fun o _ => ?_
    cases o with
    | none => exact succeeds_ok _
    | some o =>
      refine (succeeds_same hn _).bind fun b _ => ?_
      cases b <;> exact succeeds_ok _
  | none =>
    refine (Heap.succeeds_typed? hparent.askable _).bind fun q hq => ?_
    cases q with
    | some q =>
      have habove := ht.rooted_parent (hparent.reaches_of_typed? hq).1
      refine (Heap.succeeds_typed? habove.askable _).bind fun o _ => ?_
      split
      · split <;> exact succeeds_ok _
      · exact succeeds_ok _
    | none =>
      obtain ⟨v, hv, hrooted⟩ := ht.effectiveParent hp
      rw [hv]
      refine (Heap.succeeds_typed? hrooted.askable _).bind fun o _ => ?_
      split <;> exact succeeds_ok _

theorem isAssigned (ht : WellShaped tree) (hp : (linked tree).Reaches [] p)
    (hn : ((linked tree).get p "name").isAtom) : Succeeds ((linked tree).isAssigned p) := by
  obtain ⟨v, hv, hrooted⟩ := ht.effectiveParent hp
  unfold Heap.isAssigned
  rw [hv]
  refine (Heap.succeeds_typed? hrooted.askable _).bind fun a ha => ?_
  cases a with
  | none => exact succeeds_ok _
  | some a =>
    obtain ⟨har, hat⟩ := hrooted.reaches_of_typed? ha
    have hright := ht.askable_assignment har hat (k := "right") (by decide)
    have hleft := ht.askable_assignment har hat (k := "left") (by decide)
    refine (Heap.succeeds_typed? hright _).bind fun r _ => ?_
    split
    · exact succeeds_ok _
    · refine (Heap.succeeds_typed? hleft _).bind fun l hl => ?_
      cases l with
      | none => exact succeeds_ok _
      | some l =>
        obtain ⟨hvalue, hlt⟩ := typed?_eq_some hl
        have hlr := reaches_left har hvalue hlt
        have hproperty := ht.askable_member hlr hlt (k := "property") (by decide)
        dsimp only
        split
        · exact succeeds_same hn _
        · next hne =>
          rw [Heap.truthy_of_askable hproperty hne, if_neg Bool.false_ne_true]
          exact succeeds_same hn _

theorem reportedAs (ht : WellShaped tree) (hp : (linked tree).Reaches [] p)
    (hn : ((linked tree).get p "name").isAtom) (role : Role) :
    Succeeds ((linked tree).reportedAs p role) := by
  cases role with
  | memberProperty => exact ht.isAssigned hp hn
  | objectKey =>
    obtain ⟨v, hv, hrooted⟩ := ht.effectiveParent hp
    unfold Heap.reportedAs
    rw [hv]
    exact (Heap.succeeds_typed? hrooted.askable _).bind fun o _ => succeeds_ok _
  | _ => exact succeeds_ok _

/-- Every identifier of a well-shaped tree can be judged. -/
theorem verdict (ht : WellShaped tree) (hp : (linked tree).Reaches [] p)
    (hi : (Heap.load tree).hasType p "Identifier") (c : Config) :
    Succeeds ((linked tree).verdict c p) := by
  have hname := ht.name p (reaches_linked.mp hp) hi
  have hget : (linked tree).get? p "name" = (Heap.load tree).get? p "name" :=
    get?_stage_of_ne (by decide) (by decide)
  rw [← hget] at hname
  have hjudged : ∀ name, ((linked tree).get p "name").isAtom →
      Succeeds (if Naming.isException c name then .ok false
        else (linked tree).shouldReport c p (.str name)) := by
    intro name hatom
    split
    · exact succeeds_ok _
    · rw [Heap.shouldReport_str]
      refine (ht.classify hp hatom).bind fun role _ => ?_
      split
      · exact succeeds_ok _
      · exact ht.reportedAs hp hatom role
  rw [Heap.verdict_eq]
  rw [Heap.get] at hjudged
  cases hn : (linked tree).get? p "name" with
  | none =>
    rw [hn] at hjudged
    exact hjudged _ rfl
  | some v =>
    rw [hn] at hname hjudged
    cases v with
    | str raw => exact hjudged _ rfl
    | _ => cases hname

/-- The violation of every identifier of a well-shaped tree can be made. -/
theorem violation (ht : WellShaped tree) (hp : (linked tree).Reaches [] p)
    (hi : (Heap.load tree).hasType p "Identifier") : Succeeds ((linked tree).violation p) := by
  obtain ⟨hloc, hstart⟩ := ht.position p (reaches_linked.mp hp) hi
  have hloc' := askable_linked (by decide) (List.mem_singleton_self "loc") hloc
  have hstart' := askable_linked (by decide) (List.mem_singleton_self "start") hstart
  have hposition : Succeeds ((linked tree).position p) := by
    unfold Heap.position
    refine (Heap.succeeds_fieldOf hloc' _).bind fun start hs => ?_
    have hstart : (linked tree).askable start := by
      by_cases hobject : ∃ q, (linked tree).get p "loc" = .object q
      · obtain ⟨q, hq⟩ := hobject
        rw [hq] at hs
        rw [linked, get_stage_of_ne (by decide) (by decide)] at hq
        obtain rfl := Heap.get_load_eq_object hq
        cases hs
        exact hstart'
      · push Not at hobject
        rw [Heap.fieldOf_of_askable hloc' hobject] at hs
        cases hs
        rfl
    refine (Heap.succeeds_fieldOf hstart _).bind fun line _ => ?_
    exact (Heap.succeeds_fieldOf hstart _).bind fun column _ => succeeds_ok _
  obtain ⟨position, hpos⟩ := hposition
  exact ⟨_, Heap.violation_eq_ok.mpr
    ⟨position, hpos, (fromLegible_linked ht.legible).tellableAt hpos, rfl⟩⟩

end WellShaped

end Tree

/-- A check of a well-shaped tree does not fail, whatever the options, if they can be resolved. -/
theorem lint_wellShaped (tree : Json) (ht : WellShaped tree) (host : Host) (options : Json) (c : Config)
    (notices : List Notice) (hc : Options.resolve host options = .ok (c, notices))
    (progress : Progress) :
    ∃ vs, ((lint host options (valueOf [] tree)).run.run ⟨Heap.load tree, progress⟩).1 = .ok vs := by
  rw [run_lint, hc, valueOf_root ht.root]
  dsimp only
  rw [pass_load_eq ht.root fun _ => ht.comparable]
  refine Heap.succeeds_findings (fun p hp => ?_) fun p hp _ => ?_
  · obtain ⟨hreach, htype⟩ := mem_identifiers_linked.mp hp
    exact ht.verdict hreach htype c
  · obtain ⟨hreach, htype⟩ := mem_identifiers_linked.mp hp
    exact ht.violation hreach htype

def assignmentTree : Json :=
  .obj [("type", .str "AssignmentExpression"),
    ("left", .obj [("type", .str "MemberExpression"),
      ("object", .obj [("type", .str "Identifier"), ("name", .str "x")]),
      ("property", .obj [("type", .str "Identifier"), ("name", .str "a_b"),
        ("loc", .obj [("start", .obj [("line", .int 1), ("column", .int 2)])])])]),
    ("right", .obj [("type", .str "MemberExpression"), ("object", .int 0),
      ("property", .obj [("type", .str "Identifier"), ("name", .str "a_b"), ("loc", .str "")])])]

theorem lint_wellShaped_assignmentTree :
    ∃ vs, ((lint {} .null (valueOf [] assignmentTree)).run.run ⟨Heap.load assignmentTree, {}⟩).1 =
      .ok vs := by
  let reached : List Path := [[], [.key "left"], [.key "object", .key "left"],
    [.key "property", .key "left"], [.key "right"], [.key "property", .key "right"]]
  have hreached : ∀ p, (Heap.load assignmentTree).shared.Reaches [] p → p ∈ reached :=
    fun p hp => Heap.mem_of_reaches (by decide) (by decide +kernel) hp
  have ht : WellShaped assignmentTree := by
    constructor
    · simp [assignmentTree, Json.legible.eq_def (.obj _), Json.legible.eq_def (.str _),
        Json.legibleFields, Json.legible_int_of_lt_ten]
    · decide
    · rfl
    all_goals
      intro p hp
      replace hp := hreached p hp
      revert p
      decide +kernel
  exact lint_wellShaped assignmentTree ht {} .null {} [] rfl {}

end IdentCase
