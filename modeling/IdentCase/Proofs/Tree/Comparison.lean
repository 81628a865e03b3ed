import IdentCase.Proofs.Tree.Renaming
import Mathlib.Data.List.ProdSigma
import Mathlib.Data.List.Perm.Subperm

/-! Comparisons of values: they read the objects within the values, and no others. -/
namespace IdentCase.Tree

namespace Value

/-- Lists are made of values of which something holds already. -/
@[elab_as_elim]
theorem induction {motive : Value → Prop} (atom : ∀ v : Value, v.isAtom → motive v)
    (object : ∀ p, motive (.object p))
    (list : ∀ items, (∀ v ∈ items, motive v) → motive (.list items)) (v : Value) : motive v :=
  @Value.rec motive (fun items => ∀ v ∈ items, motive v) (atom _ rfl) (fun _ => atom _ rfl)
    (fun _ => atom _ rfl) (fun _ => atom _ rfl) (fun _ => atom _ rfl) list object
    (List.forall_mem_nil _) (fun _ _ hv hitems => List.forall_mem_cons.mpr ⟨hv, hitems⟩) v

/-- The objects that a value is or holds in lists. -/
inductive Leads : Value → Path → Prop
  | object (p : Path) : Leads (.object p) p
  | item {items : List Value} {v : Value} {q : Path} (hv : v ∈ items) (hq : Leads v q) :
    Leads (.list items) q

end Value

namespace Heap

/-- The objects within a value: it may be one, and there may be others in lists and in fields. -/
inductive Within (h : Heap) : Value → Path → Prop
  | self (p : Path) : Within h (.object p) p
  | item {items : List Value} {v : Value} {q : Path} (hv : v ∈ items) (hq : Within h v q) :
      Within h (.list items) q
  | field {p : Path} {key : String} {v : Value} {q : Path} (hv : (key, v) ∈ h.node p)
      (hq : Within h v q) : Within h (.object p) q

/-- Whether two values are one object, or one of them is neither a list nor an object. -/
def Immediate (v w : Value) : Prop := v.isAtom ∨ w.isAtom ∨ ∃ p, v = .object p ∧ w = .object p

/-- The objects of which a comparison of two values may read the fields. -/
inductive Compares (h : Heap) (v w : Value) : Path → Prop
  | left {q : Path} (hn : ¬ Immediate v w) (hq : Within h v q) : Compares h v w q
  | right {q : Path} (hn : ¬ Immediate v w) (hq : Within h w q) : Compares h v w q

/-- Whether two heaps have the same objects within values that are compared. -/
def ComparesAlike (h h' : Heap) (v w : Value) : Prop :=
  ∀ q, h.Compares v w q → h'.node q = h.node q

section
variable {α β : Type} {f g : α → Except Fault Bool} {xs : List α}

theorem allOf_congr (h : ∀ x ∈ xs, g x = f x) : allOf g xs = allOf f xs := by
  induction xs with
  | nil => rfl
  | cons x xs ih =>
    rw [List.forall_mem_cons] at h
    rw [allOf, allOf, h.1, ih h.2]

theorem allOf_map (k : β → α) (ys : List β) : allOf f (ys.map k) = allOf (fun y => f (k y)) ys := by
  induction ys with
  | nil => rfl
  | cons y ys ih => rw [List.map_cons, allOf, allOf, ih]

theorem exists_of_allOf_eq_error {e : Fault} (hf : allOf f xs = .error e) :
    ∃ x ∈ xs, f x = .error e := by
  induction xs with
  | nil => cases hf
  | cons x xs ih =>
    rw [allOf] at hf
    cases hx : f x with
    | error e' =>
      rw [hx] at hf
      cases hf
      exact ⟨x, List.mem_cons_self, hx⟩
    | ok a =>
      rw [hx] at hf
      cases a with
      | true =>
        obtain ⟨y, hy, hfail⟩ := ih hf
        exact ⟨y, List.mem_cons_of_mem x hy, hfail⟩
      | false => cases hf

end

section
variable {f g : Path → Path → Except Fault Bool} {v w : Value} {xs ys : List Value} {e : Fault}

theorem itemsSameBy_eq (h : xs.length = ys.length) : Value.itemsSameBy f xs ys =
    allOf (fun xy => xy.1.sameBy f xy.2) (xs.zip ys) := by
  induction xs generalizing ys with
  | nil => cases ys <;> rfl
  | cons x xs ih =>
    cases ys with
    | nil => cases h
    | cons y ys => rw [Value.itemsSameBy, ih (Nat.succ.inj h), List.zip_cons_cons, allOf]

theorem sameBy_list : (Value.list xs).sameBy f (.list ys) =
    if xs.length = ys.length then allOf (fun xy => xy.1.sameBy f xy.2) (xs.zip ys)
    else .ok false := by
  rw [Value.sameBy]
  split
  · next h => exact itemsSameBy_eq h
  · rfl

/-- Values compare as they do elsewhere if the objects that they lead to do. -/
theorem sameBy_rename {ρ : Path → Path}
    (h : ∀ p q, v.Leads p → w.Leads q → (ρ p = ρ q → p = q) ∧ (p ≠ q → g (ρ p) (ρ q) = f p q)) :
    (v.rename ρ).sameBy g (w.rename ρ) = v.sameBy f w := by
  induction v using Value.induction generalizing w with
  | atom v hv => cases v <;> cases w <;> first | rfl | cases hv
  | object p =>
    cases w with
    | object q =>
      obtain ⟨hinj, hobjects⟩ := h p q (.object p) (.object q)
      rw [Value.rename, Value.rename, Value.sameBy, Value.sameBy]
      by_cases hpq : p = q
      · rw [if_pos hpq, if_pos (congrArg ρ hpq)]
      · rw [if_neg hpq, if_neg (mt hinj hpq), hobjects hpq]
    | _ => rfl
  | list xs ih =>
    cases w with
    | list ys =>
      rw [Value.rename, Value.rename, sameBy_list, sameBy_list, renameItems_eq_map,
        renameItems_eq_map, List.length_map, List.length_map, List.zip_map, allOf_map]
      congr 1
      refine allOf_congr fun xy hxy => ?_
      obtain ⟨hx, hy⟩ := List.of_mem_zip (a := xy.1) (b := xy.2) hxy
      exact ih xy.1 hx fun p q hp hq => h p q (.item hx hp) (.item hy hq)
    | _ => rfl

theorem sameBy_congr (h : ∀ p q, v.Leads p → w.Leads q → p ≠ q → g p q = f p q) :
    v.sameBy g w = v.sameBy f w := by
  have hrename := sameBy_rename (ρ := id) fun p q hp hq => ⟨fun he => he, h p q hp hq⟩
  rwa [rename_id, rename_id] at hrename

/-- A comparison of values fails only where that of two objects does. -/
theorem exists_of_sameBy_eq_error (hs : v.sameBy f w = .error e) :
    ∃ p q, v.Leads p ∧ w.Leads q ∧ p ≠ q ∧ f p q = .error e := by
  induction v using Value.induction generalizing w with
  | atom v hv => cases v <;> cases w <;> first | cases hs | cases hv
  | object p =>
    cases w with
    | object q =>
      rw [Value.sameBy] at hs
      split at hs
      · cases hs
      · next hpq => exact ⟨p, q, .object p, .object q, hpq, hs⟩
    | _ => cases hs
  | list xs ih =>
    cases w with
    | list ys =>
      rw [sameBy_list] at hs
      split at hs
      · obtain ⟨xy, hxy, hfail⟩ := exists_of_allOf_eq_error hs
        obtain ⟨hx, hy⟩ := List.of_mem_zip (a := xy.1) (b := xy.2) hxy
        obtain ⟨p, q, hp, hq, hpq, hfail⟩ := ih xy.1 hx hfail
        exact ⟨p, q, .item hx hp, .item hy hq, hpq, hfail⟩
      · cases hs
    | _ => cases hs

end

section
variable {h h' : Heap} {v w : Value} {n m : Nat} {p q r : Path} {pairs : List (Path × Path)}
  {f g : Path → Path → Except Fault Bool} {field : String × Value} {e : Fault}

theorem sameObjects_succ : h.sameObjects (n + 1) pairs p q =
    if pairs.contains (p, q) then .error .cyclic
    else if (h.node p).length = (h.node q).length then
      allOf (h.hasField (h.sameObjects n ((p, q) :: pairs)) q) (h.node p)
    else .ok false := rfl

theorem hasField_congr (hfg : ∀ r s w, field.2.Leads r → h.get? q field.1 = some w → w.Leads s →
    r ≠ s → g r s = f r s) : h.hasField g q field = h.hasField f q field := by
  unfold hasField
  cases hw : h.get? q field.1 with
  | none => rfl
  | some w => exact sameBy_congr fun r s hr hs => hfg r s w hr hw hs

theorem exists_of_hasField_eq_error (hs : h.hasField f q field = .error e) :
    ∃ r s w, field.2.Leads r ∧ h.get? q field.1 = some w ∧ w.Leads s ∧ r ≠ s ∧
      f r s = .error e := by
  unfold hasField at hs
  split at hs
  · next w hw =>
    obtain ⟨r, s, hr, hs, hne, hfail⟩ := exists_of_sameBy_eq_error hs
    exact ⟨r, s, w, hr, hw, hs, hne, hfail⟩
  · cases hs

/-- The comparisons of objects within which another is made: each of two objects, and no two alike. -/
structure Pending (h : Heap) (pairs : List (Path × Path)) : Prop where
  nodup : pairs.Nodup
  isSome : ∀ pq ∈ pairs, (h.node? pq.1).isSome ∧ (h.node? pq.2).isSome

theorem pending_nil : Pending h [] := ⟨List.nodup_nil, List.forall_mem_nil _⟩

theorem isSome_of_node_ne_nil (hp : h.node p ≠ []) : (h.node? p).isSome := by
  cases hn : h.node? p with
  | none => simp [node, hn] at hp
  | some fields => rfl

/-- Only objects with fields are compared by what they hold. -/
theorem Pending.cons (hp : Pending h pairs) (hnot : ¬ pairs.contains (p, q))
    (hlen : (h.node p).length = (h.node q).length) (hfield : field ∈ h.node p) :
    Pending h ((p, q) :: pairs) where
  nodup := List.nodup_cons.mpr ⟨fun hmem => hnot (List.contains_iff_mem.mpr hmem), hp.nodup⟩
  isSome := by
    have hne : h.node p ≠ [] := List.ne_nil_of_mem hfield
    have hne' : h.node q ≠ [] := by
      rintro hq
      rw [hq, List.length_nil, List.length_eq_zero_iff] at hlen
      exact hne hlen
    exact List.forall_mem_cons.mpr ⟨⟨isSome_of_node_ne_nil hne, isSome_of_node_ne_nil hne'⟩, hp.isSome⟩

theorem Pending.length_le (hp : Pending h pairs) : pairs.length ≤ h.size * h.size := by
  obtain ⟨ps, hlength, hps⟩ := h.bounded
  have hsub : pairs ⊆ ps.product ps := by
    intro pq hpq
    obtain ⟨hleft, hright⟩ := hp.isSome pq hpq
    exact List.mem_product.mpr ⟨hps _ hleft, hps _ hright⟩
  calc
    _ ≤ (ps.product ps).length := (List.subperm_of_subset hp.nodup hsub).length_le
    _ = ps.length * ps.length := List.length_product ps ps
    _ ≤ h.size * h.size := Nat.mul_le_mul hlength hlength

/-- The bound on comparisons within one another is never reached: it might as well be any other. -/
theorem sameObjects_eq (hp : Pending h pairs) (hn : h.size * h.size < n + pairs.length)
    (hm : h.size * h.size < m + pairs.length) :
    h.sameObjects n pairs p q = h.sameObjects m pairs p q := by
  induction n generalizing m pairs p q with
  | zero => exact absurd hp.length_le (by omega)
  | succ n ih =>
    cases m with
    | zero => exact absurd hp.length_le (by omega)
    | succ m =>
      rw [sameObjects_succ, sameObjects_succ]
      split_ifs with hmem hlen
      · rfl
      · refine allOf_congr fun field hfield => hasField_congr fun r s w _ _ _ _ => ?_
        have hcons := hp.cons hmem hlen hfield
        exact ih hcons (by rw [List.length_cons]; omega) (by rw [List.length_cons]; omega)
      · rfl

theorem within_of_leads (hv : v.Leads p) (hr : h.Within (.object p) r) : h.Within v r := by
  induction hv with
  | object p => exact hr
  | item hv _ ih => exact .item hv (ih hr)

/-- Two heaps with the same objects within two objects compare these alike at any depth. -/
theorem sameObjects_congr (hp : ∀ r, h.Within (.object p) r → h'.node r = h.node r)
    (hq : ∀ r, h.Within (.object q) r → h'.node r = h.node r) :
    h'.sameObjects n pairs p q = h.sameObjects n pairs p q := by
  induction n generalizing pairs p q with
  | zero => rfl
  | succ n ih =>
    have hfields : allOf (h'.hasField (h'.sameObjects n ((p, q) :: pairs)) q) (h.node p) =
        allOf (h.hasField (h.sameObjects n ((p, q) :: pairs)) q) (h.node p) := by
      refine allOf_congr fun field hfield => ?_
      have hget : h'.get? q field.1 = h.get? q field.1 := by rw [get?, hq q (.self q), get?]
      have hsame : h'.hasField (h'.sameObjects n ((p, q) :: pairs)) q field =
          h.hasField (h'.sameObjects n ((p, q) :: pairs)) q field := by
        rw [hasField, hget, hasField]
      rw [hsame]
      refine hasField_congr fun r s w hr hw hs _ => ih (fun t ht => ?_) fun t ht => ?_
      · exact hp t (.field hfield (within_of_leads hr ht))
      · exact hq t (.field (mem_of_lookup_eq_some hw) (within_of_leads hs ht))
    rw [sameObjects_succ, sameObjects_succ, hp p (.self p), hq q (.self q), hfields]

/-- Two values that are no atoms are compared by what they hold, with any bound that is enough. -/
theorem same_eq_sameBy (hn : h.size * h.size < n) (hv : ¬ v.isAtom) :
    h.same v w = v.sameBy (h.sameObjects n []) w := by
  have hsame : h.same v w = v.sameBy (h.sameObjects (h.size * h.size + 1) []) w := by
    cases v <;> first | rfl | exact absurd rfl hv
  rw [hsame]
  exact sameBy_congr fun _ _ _ _ _ => sameObjects_eq pending_nil (Nat.lt_succ_self _) hn

/-- A comparison that reads no object comes out alike in all heaps. -/
theorem same_of_immediate (hi : Immediate v w) : ∃ b, ∀ h : Heap, h.same v w = .ok b := by
  rcases hi with hv | hw | ⟨p, rfl, rfl⟩
  · exact ⟨_, fun _ => same_of_isAtom (Or.inl hv)⟩
  · exact ⟨_, fun _ => same_of_isAtom (Or.inr hw)⟩
  · exact ⟨true, fun _ => if_pos rfl⟩

theorem not_compares_of_immediate (hi : Immediate v w) : ¬ h.Compares v w q := by
  intro hc
  cases hc with
  | left hn _ => exact hn hi
  | right hn _ => exact hn hi

theorem comparesAlike_of_immediate (hi : Immediate v w) : ComparesAlike h h' v w :=
  fun _ hq => absurd hq (not_compares_of_immediate hi)

/-- Whatever else the heaps hold, they compare values alike that have the same objects within. -/
theorem ComparesAlike.same_eq (hc : ComparesAlike h h' v w) : h'.same v w = h.same v w := by
  by_cases hi : Immediate v w
  · obtain ⟨b, hb⟩ := same_of_immediate hi
    rw [hb, hb]
  have hv : ¬ v.isAtom := fun ha => hi (Or.inl ha)
  have hn : h.size * h.size < max (h.size * h.size) (h'.size * h'.size) + 1 := by omega
  have hn' : h'.size * h'.size < max (h.size * h.size) (h'.size * h'.size) + 1 := by omega
  rw [same_eq_sameBy hn hv, same_eq_sameBy hn' hv]
  refine sameBy_congr fun p q hp hq _ => sameObjects_congr (fun r hr => ?_) fun r hr => ?_
  · exact hc r (.left hi (within_of_leads hp hr))
  · exact hc r (.right hi (within_of_leads hq hr))

end

end IdentCase.Tree.Heap
