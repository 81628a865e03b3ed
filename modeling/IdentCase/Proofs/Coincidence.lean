import IdentCase.Proofs.Neighbours
import IdentCase.Proofs.Records
import IdentCase.Proofs.Tree.Alike
import IdentCase.Proofs.Tree.Positions

/-! What a check finds in heaps that coincide, such as those of alike trees once they are linked. -/
namespace IdentCase.Tree

/-- The record of a node is the same in heaps that tell the same of its name and its position. -/
theorem Heap.map_violation_congr {h h' : Heap} {p : Path} (hget : h'.get? p "name" = h.get? p "name")
    (hposition : h'.position p = h.position p) (hname : (h.get p "name").isAtom)
    (hjson : ∀ line column, h.position p = .ok (line, column) →
      h'.toJson line = h.toJson line ∧ h'.toJson column = h.toJson column) :
    (h'.violation p).map (·.record h') = (h.violation p).map (·.record h) := by
  rw [violation_eq, violation_eq, hposition]
  cases hpos : h.position p with
  | error e => rfl
  | ok position =>
    obtain ⟨hline, hcolumn⟩ := hjson position.1 position.2 hpos
    have hshown : h'.toJson ((h.get? p "name").getD (.str "")) =
        h.toJson ((h.get? p "name").getD (.str "")) := toJson_of_isAtom (isAtom_getD hname)
    have htellable : h'.tellableAt p position = h.tellableAt p position := by
      unfold tellableAt
      rw [hget, hshown, tellable_congr (congrArg _ hline) (congrArg _ hcolumn)]
    have hrecord : (h'.violationAt p position).record h' =
        (h.violationAt p position).record h := by
      unfold violationAt Violation.record
      dsimp only
      rw [hget, hshown, toldPosition_congr hline hcolumn, hline, hcolumn]
    rw [ok_bind, ok_bind, htellable]
    split
    · exact congrArg Except.ok hrecord
    · rfl

namespace Heap.Coincides

variable {E : Set Path} {h h' : Heap} {p q : Path} {v w : Value} {k : String}

theorem get (hc : Coincides E h h') (hp : p ∈ E) (hk : k ≠ "range") :
    h'.get p k = h.get p k := by
  rw [Heap.get, Heap.get, hc.get? p hp k hk]

theorem hasType (hc : Coincides E h h') (hp : p ∈ E) (type : String) :
    h'.hasType p type = h.hasType p type := by
  rw [Heap.hasType, Heap.hasType, hc.get? p hp "type" (by decide)]

theorem corresponds (hc : Coincides E h h') (hp : p ∈ E) (hk : k ≠ "range") :
    Corresponds id h h' (h.get p k) (h'.get p k) where
  eq := by rw [hc.get hp hk, rename_id]
  hasType q hq type _ := hc.hasType (hc.held p hp k hk q hq) type

theorem mem_of_effectiveParent (hc : Coincides E h h') (hp : p ∈ E)
    (hv : h.effectiveParent p = .ok (.object q)) : q ∈ E := by
  unfold effectiveParent at hv
  dsimp only at hv
  cases hm : h.typed? (h.get p "parent") "MemberExpression" with
  | error e =>
    rw [hm] at hv
    cases hv
  | ok m =>
    rw [hm] at hv
    cases m with
    | none => exact hc.held p hp "parent" (by decide) q (Except.ok.inj hv)
    | some m =>
      have hmE := hc.held p hp "parent" (by decide) m (typed?_eq_some hm).1
      exact hc.held m hmE "parent" (by decide) q (Except.ok.inj hv)

theorem resembles (hc : Coincides E h h') (hp : p ∈ E) : Resembles id h h' p where
  name := by
    rw [id, hc.get? p hp "name" (by decide)]
    cases h.get? p "name" with
    | none => rfl
    | some v => exact congrArg some (rename_id v).symm
  parent := hc.corresponds hp (by decide)
  member m hm _ := by
    have hmE := hc.held p hp "parent" (by decide) m hm
    exact ⟨hc.corresponds hmE (by decide), hc.corresponds hmE (by decide)⟩
  object m o hm _ ho := by
    have hmE := hc.held p hp "parent" (by decide) m hm
    exact (hc.corresponds (hc.held m hmE "object" (by decide) o ho) (by decide)).eq
  property q hq _ := by
    have hqE := hc.held p hp "parent" (by decide) q hq
    refine ⟨hc.corresponds hqE (by decide), ?_⟩
    rw [id, id, hc.get hqE (by decide), hc.get hqE (by decide)]
  assignment a ha _ := by
    have haE := hc.mem_of_effectiveParent hp ha
    exact ⟨hc.corresponds haE (by decide), hc.corresponds haE (by decide)⟩
  assigned a l ha _ hl _ := by
    have hlE := hc.held a (hc.mem_of_effectiveParent hp ha) "left" (by decide) l hl
    refine ⟨(hc.corresponds hlE (by decide)).eq, fun q hq => ?_⟩
    exact (hc.corresponds (hc.held l hlE "property" (by decide) q hq) (by decide)).eq

theorem verdict (hc : Coincides E h h') (hp : p ∈ E) (c : Config) :
    h'.verdict c p = h.verdict c p := (hc.resembles hp).verdict c

theorem fieldOf (hc : Coincides E h h') (hv : ∀ r, v = .object r → r ∈ E) (hk : k ≠ "range") :
    h'.fieldOf v k = h.fieldOf v k := by
  cases v with
  | object r => exact congrArg Except.ok (hc.get (hv r rfl) hk)
  | _ => rfl

theorem mem_of_fieldOf (hc : Coincides E h h') (hv : ∀ r, v = .object r → r ∈ E)
    (hk : k ≠ "range") (hw : h.fieldOf v k = .ok w) : ∀ r, w = .object r → r ∈ E := by
  rintro r rfl
  cases v with
  | object q => exact hc.held q (hv q rfl) k hk r (Except.ok.inj hw)
  | _ =>
    simp only [Heap.fieldOf] at hw
    split at hw <;> cases hw

theorem position (hc : Coincides E h h') (hp : p ∈ E) : h'.position p = h.position p := by
  have hloc : ∀ r, h.get p "loc" = .object r → r ∈ E := hc.held p hp "loc" (by decide)
  unfold Heap.position
  rw [hc.get hp (by decide), hc.fieldOf hloc (by decide)]
  refine bind_congr_ok fun start hs => ?_
  have hstart := hc.mem_of_fieldOf hloc (by decide) hs
  rw [hc.fieldOf hstart (by decide), hc.fieldOf hstart (by decide)]

end Heap.Coincides

namespace Alike

variable {D : Set Path} {tree tree' : Json} {p : Path} {line column : Value}
  (ha : Alike D tree tree') (hr : ((Heap.load tree).get? [] "type").isSome)
  (hn : ∀ p, (Heap.load tree).shared.Reaches [] p → Comparable tree p)

include ha

theorem isSome_type_root (hr : ((Heap.load tree).get? [] "type").isSome) :
    ((Heap.load tree').get? [] "type").isSome := by
  rw [ha.isSome_type ha.root]
  exact hr

theorem mem_inSight (hp : (linked tree).Reaches [] p) : p ∈ inSight D tree :=
  ⟨ha.mem_of_shared_reaches (reaches_linked.mp hp), Or.inl hp⟩

theorem start_mem_inSight (hp : (linked tree).Reaches [] p) :
    .key "start" :: .key "loc" :: p ∈ inSight D tree := by
  have hloc := ha.key p (ha.mem_inSight hp).1 "loc" (by decide) (by decide)
  refine ⟨ha.key _ hloc "start" (by decide) (by decide), Or.inr fun hreach => ?_⟩
  rw [← stage_nothing] at hreach
  have hstep := step_of_reaches ha.distinct staged_nothing hreach (List.suffix_cons _ _)
  exact hstep.1 (by decide)

theorem mem_identifiers (hn : ∀ p, (Heap.load tree).shared.Reaches [] p → Comparable tree p) :
    p ∈ (linked tree').identifiers [] ↔ p ∈ (linked tree).identifiers [] := by
  rw [mem_identifiers_linked, mem_identifiers_linked, ha.linked_reaches hn]
  refine and_congr_right fun hp => ?_
  rw [ha.hasType (ha.mem_inSight hp).1]

/-- If children have their order in both trees the identifiers are met in the same order. -/
theorem identifiers_eq (hn : ∀ p, (Heap.load tree).shared.Reaches [] p → Comparable tree p)
    (hch : ∀ p ∈ D, (Heap.load tree').children p = (Heap.load tree).children p) :
    (linked tree').identifiers [] = (linked tree).identifiers [] := by
  obtain ⟨order, ho, hids⟩ := exists_order_linked tree
  have hreach : ∀ p ∈ order, (Heap.load tree).shared.Reaches [] p := by
    intro p hp
    obtain ⟨root, hroot, hr⟩ := ho.mem_iff.mp hp
    exact List.mem_singleton.mp hroot ▸ hr
  have ho' : (linked tree').Preorder [[]] order := by
    refine ho.congr fun p hp => ?_
    have hpD := ha.mem_of_shared_reaches (hreach p hp)
    rw [children_linked ((ha.shared_reaches hn).mpr (hreach p hp)),
      ha.children_shared hpD (hn p (hreach p hp)) (hch p hpD)]
  have hids' : (linked tree').identifiers [] =
      order.filter ((linked tree').hasType · "Identifier") :=
    Heap.identifiers_eq (ranked_stage []) le_rfl ho'
  rw [hids, hids']
  refine List.filter_congr fun p hp => ?_
  rw [linked, hasType_stage, ha.hasType (ha.mem_of_shared_reaches (hreach p hp))]

include hr hn

theorem verdict (hp : (linked tree).Reaches [] p) (c : Config) :
    (linked tree').verdict c p = (linked tree).verdict c p :=
  (ha.coincides hr hn).verdict (ha.mem_inSight hp) c

theorem offends (hp : (linked tree).Reaches [] p) (c : Config) :
    (linked tree').offends c p = (linked tree).offends c p := by
  rw [Heap.offends, Heap.offends, ha.verdict hr hn hp]

theorem position (hp : (linked tree).Reaches [] p) :
    (linked tree').position p = (linked tree).position p :=
  (ha.coincides hr hn).position (ha.mem_inSight hp)

theorem get?_name (hp : (linked tree).Reaches [] p) :
    (linked tree').get? p "name" = (linked tree).get? p "name" :=
  (ha.coincides hr hn).get? p (ha.mem_inSight hp) "name" (by decide)

/-- A position in linked trees has JSON forms that are related as those are that were read. -/
theorem toJson_position {Q : Json → Json → Prop} (hp : (linked tree).Reaches [] p)
    (hnull : Q .null .null)
    (hread : ∀ k ∈ ["line", "column"],
      Q ((valueAt? tree (.key k :: .key "start" :: .key "loc" :: p)).getD .null)
        ((valueAt? tree' (.key k :: .key "start" :: .key "loc" :: p)).getD .null))
    (hpos : (linked tree).position p = .ok (line, column)) :
    Q ((linked tree).toJson line) ((linked tree').toJson line) ∧
      Q ((linked tree).toJson column) ((linked tree').toJson column) := by
  have hr' := ha.isSome_type_root hr
  have hn' := ha.comparable_of_shared_reaches hn
  have hsight := ha.start_mem_inSight hp
  have hfield : ∀ start w k, k ∈ ["line", "column"] → k ≠ "range" →
      (linked tree).fieldOf ((linked tree).get p "loc") "start" = .ok start →
      (linked tree).fieldOf start k = .ok w →
      Q ((linked tree).toJson w) ((linked tree').toJson w) := by
    intro start w k hk hne hs hw
    rcases start_field hs hw with rfl | hget
    · exact hnull
    · have hget' := (ha.coincides hr hn).get hsight hne
      have hjson : (linked tree).toJson w =
          (valueAt? tree (.key k :: .key "start" :: .key "loc" :: p)).getD .null := by
        rw [hget]
        exact toJson_get_linked ha.distinct hr hn (List.suffix_cons _ _) k
      have hjson' : (linked tree').toJson w =
          (valueAt? tree' (.key k :: .key "start" :: .key "loc" :: p)).getD .null := by
        rw [hget]
        show (linked tree').toJson ((linked tree).get _ k) = _
        rw [← hget']
        exact toJson_get_linked ha.distinct' hr' hn' (List.suffix_cons _ _) k
      rw [hjson, hjson']
      exact hread k hk
  obtain ⟨start, hs, hl, hc⟩ := Heap.position_eq_ok.mp hpos
  exact ⟨hfield start line "line" (by decide) (by decide) hs hl,
    hfield start column "column" (by decide) (by decide) hs hc⟩

/-- What can be found in one of two trees can be found in the other, if positions can be written alike. -/
theorem succeeds_findings {c : Config} {vs : List Violation}
    (hread : ∀ p, ∀ k ∈ ["line", "column"],
      ((valueAt? tree' (.key k :: .key "start" :: .key "loc" :: p)).getD .null).legible =
        ((valueAt? tree (.key k :: .key "start" :: .key "loc" :: p)).getD .null).legible)
    (hf : (linked tree).findings c [] ((linked tree).identifiers []) = .ok vs) :
    Succeeds ((linked tree').findings c [] ((linked tree').identifiers [])) := by
  obtain ⟨hnodes, hall⟩ := Heap.of_findings hf
  refine Heap.succeeds_findings (fun p hp => ?_) fun p hp hv => ?_
  · have hp' := (ha.mem_identifiers hn).mp hp
    rw [ha.verdict hr hn (mem_identifiers_linked.mp hp').1]
    exact (Heap.findings_eq_ok.mp hf).1 p hp'
  · have hp' := (ha.mem_identifiers hn).mp hp
    have hreach := (mem_identifiers_linked.mp hp').1
    rw [ha.verdict hr hn hreach] at hv
    have hmem : p ∈ vs.map (·.node) := by
      rw [hnodes, List.mem_filter, List.mem_eraseDups]
      exact ⟨hp', Heap.offends_of_verdict hv⟩
    obtain ⟨v, hvs, rfl⟩ := List.mem_map.mp hmem
    obtain ⟨⟨line, column⟩, hpos, htellable, -⟩ := Heap.violation_eq_ok.mp (hall v hvs)
    obtain ⟨hline, hcolumn⟩ :=
      ha.toJson_position (Q := fun v w => w.legible = v.legible) hr hn hreach rfl (hread v.node) hpos
    obtain ⟨b, hb⟩ := (Heap.findings_eq_ok.mp hf).1 v.node hp'
    have hshown : (linked tree').toJson (((linked tree).get? v.node "name").getD (.str "")) =
        (linked tree).toJson (((linked tree).get? v.node "name").getD (.str "")) :=
      toJson_of_isAtom (Heap.isAtom_getD (Heap.isAtom_of_verdict hb))
    refine ⟨_, Heap.violation_eq_ok.mpr ⟨(line, column), ?_, ?_, rfl⟩⟩
    · rw [ha.position hr hn hreach, hpos]
    · unfold Heap.tellableAt at htellable ⊢
      rwa [ha.get?_name hr hn hreach, hshown, Heap.tellable_congr hline hcolumn]

/-- The same nodes are found in both trees. -/
theorem perm_nodes {c : Config} {vs vs' : List Violation}
    (hf : (linked tree).findings c [] ((linked tree).identifiers []) = .ok vs)
    (hf' : (linked tree').findings c [] ((linked tree').identifiers []) = .ok vs') :
    (vs'.map (·.node)).Perm (vs.map (·.node)) := by
  have hnodup : ∀ (h : Heap) (l : List Path), (l.eraseDups.filter (h.offends c)).Nodup :=
    fun h l => (nodup_eraseDups l).filter _
  rw [(Heap.of_findings hf).1, (Heap.of_findings hf').1,
    List.perm_ext_iff_of_nodup (hnodup _ _) (hnodup _ _)]
  intro p
  rw [List.mem_filter, List.mem_filter, List.mem_eraseDups, List.mem_eraseDups,
    ha.mem_identifiers hn]
  refine and_congr_right fun hp => ?_
  rw [ha.offends hr hn (mem_identifiers_linked.mp hp).1]

/-- The violations of a node in both trees tell of one name and of related positions. -/
theorem record_violation {Q : Json → Json → Prop} {v v' : Violation} (hp : (linked tree).Reaches [] p)
    (hname : ((linked tree).get p "name").isAtom) (hnull : Q .null .null)
    (hread : ∀ k ∈ ["line", "column"],
      Q ((valueAt? tree (.key k :: .key "start" :: .key "loc" :: p)).getD .null)
        ((valueAt? tree' (.key k :: .key "start" :: .key "loc" :: p)).getD .null))
    (hv : (linked tree).violation p = .ok v) (hv' : (linked tree').violation p = .ok v') :
    (v'.record (linked tree')).name = (v.record (linked tree)).name ∧
      Q (v.record (linked tree)).line (v'.record (linked tree')).line ∧
      Q (v.record (linked tree)).column (v'.record (linked tree')).column := by
  obtain ⟨⟨line, column⟩, hpos, -, rfl⟩ := Heap.violation_eq_ok.mp hv
  obtain ⟨position', hpos', -, rfl⟩ := Heap.violation_eq_ok.mp hv'
  rw [ha.position hr hn hp, hpos, Except.ok.injEq] at hpos'
  subst hpos'
  refine ⟨?_, ha.toJson_position hr hn hp hnull hread hpos⟩
  dsimp only [Violation.record, Heap.violationAt]
  rw [ha.get?_name hr hn hp]
  exact toJson_of_isAtom (Heap.isAtom_getD hname)

/-- The record of a node is the same if its position was. -/
theorem map_violation_record (hp : (linked tree).Reaches [] p)
    (hname : ((linked tree).get p "name").isAtom)
    (hread : ∀ k ∈ ["line", "column"],
      valueAt? tree' (.key k :: .key "start" :: .key "loc" :: p) =
        valueAt? tree (.key k :: .key "start" :: .key "loc" :: p)) :
    ((linked tree').violation p).map (·.record (linked tree')) =
      ((linked tree).violation p).map (·.record (linked tree)) := by
  have hread' : ∀ k ∈ ["line", "column"],
      (valueAt? tree (.key k :: .key "start" :: .key "loc" :: p)).getD .null =
        (valueAt? tree' (.key k :: .key "start" :: .key "loc" :: p)).getD .null :=
    fun k hk => by rw [hread k hk]
  refine Heap.map_violation_congr (ha.get?_name hr hn hp) (ha.position hr hn hp) hname
    fun line column hpos => ?_
  obtain ⟨hline, hcolumn⟩ := ha.toJson_position (Q := Eq) hr hn hp rfl hread' hpos
  exact ⟨hline.symm, hcolumn.symm⟩

end Alike

end IdentCase.Tree
