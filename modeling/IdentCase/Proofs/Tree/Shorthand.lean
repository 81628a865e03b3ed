import IdentCase.Proofs.Run
import IdentCase.Proofs.Tree.Loading

/-! Shorthand properties, which come to hold one identifier as their key and as their value. -/
namespace IdentCase.Tree

namespace Heap

/-- A shorthand property holds two identifiers of one name, its key and its value. -/
structure Shares (h : Heap) (p key value : Path) : Prop where
  isProperty : h.hasType p "Property"
  isShorthand : h.truthy (h.get p "shorthand")
  key_eq : h.identifier? (h.get p "key") = some key
  value_eq : h.identifier? (h.get p "value") = some value
  ne : key ≠ value
  sameName : h.same (h.get key "name") (h.get value "name") = .ok true

/-- The key of a shorthand property that it is to have as its value too. -/
def sharedKey? (h : Heap) (p : Path) : Option Path :=
  if h.hasType p "Property" && h.truthy (h.get p "shorthand") then
    match h.identifier? (h.get p "key"), h.identifier? (h.get p "value") with
    | some key, some value =>
      if key = value then none
      else
        match h.same (h.get key "name") (h.get value "name") with
        | .ok true => some key
        | _ => none
    | _, _ => none
  else none

/-- The heap in which all shorthand properties have their keys as values. -/
def shared (h : Heap) : Heap where
  node? p := (h.node? p).map fun fields =>
    match h.sharedKey? p with
    | some key => setField "value" (.object key) fields
    | none => fields
  size := h.size
  bounded := by simpa only [Option.isSome_map] using h.bounded

theorem sharedKey?_eq_some {h : Heap} {p key : Path} :
    h.sharedKey? p = some key ↔ ∃ value, h.Shares p key value := by
  constructor
  · intro hs
    simp only [sharedKey?] at hs
    split at hs
    · next hp =>
      rw [Bool.and_eq_true] at hp
      split at hs
      · next k v hk hv =>
        split at hs
        · cases hs
        · next hne =>
          split at hs
          · next hn =>
            cases hs
            exact ⟨v, hp.1, hp.2, hk, hv, hne, hn⟩
          · cases hs
      · cases hs
    · cases hs
  · rintro ⟨value, hs⟩
    simp [sharedKey?, hs.isProperty, hs.isShorthand, hs.key_eq, hs.value_eq, hs.ne, hs.sameName]

end Heap

/-- What happens to a node before its children are listed. -/
def prepare (p : Path) : Edit Unit := do
  if (← get).hasType p "Property" then shareShorthand p

theorem run_prepare_of_shares {h : Heap} {p key value : Path} (hs : h.Shares p key value) :
    (prepare p).run.run h = (.ok (), h.set p "value" (.object key)) := by
  simp only [prepare, shareShorthand, run_bind, run_get, andThen_ok, hs.isProperty,
    hs.isShorthand, if_true, hs.key_eq, hs.value_eq, ne_eq, hs.ne, not_false_eq_true, run_liftM,
    hs.sameName, run_set]

/-- Without anything to share a node stays as it is, unless its names cannot be compared. -/
theorem run_prepare_of_not_shares {h : Heap} {p : Path} (hs : ∀ key value, ¬ h.Shares p key value) :
    (prepare p).run.run h = (.ok (), h) ∨
      ∃ key value e, h.hasType p "Property" ∧ h.truthy (h.get p "shorthand") ∧
        h.identifier? (h.get p "key") = some key ∧ h.identifier? (h.get p "value") = some value ∧
        key ≠ value ∧ h.same (h.get key "name") (h.get value "name") = .error e ∧
        (prepare p).run.run h = (.error e, h) := by
  simp only [prepare, shareShorthand, run_bind, run_get, andThen_ok]
  split
  · next hp =>
    simp only [run_bind, run_get, andThen_ok]
    split
    · next hsh =>
      split
      · next key hk =>
        split
        · next value hv =>
          split
          · next hne =>
            rw [run_bind, run_liftM]
            cases hn : h.same (h.get key "name") (h.get value "name") with
            | error e => exact Or.inr ⟨key, value, e, hp, hsh, hk, hv, hne, hn, rfl⟩
            | ok b =>
              cases b with
              | false => exact Or.inl rfl
              | true => exact absurd ⟨hp, hsh, hk, hv, hne, hn⟩ (hs key value)
          · exact Or.inl rfl
        · exact Or.inl rfl
      · exact Or.inl rfl
    · exact Or.inl rfl
  · exact Or.inl rfl

/-- A node is prepared, its children are linked to it, and so are the nodes below them in turn. -/
theorem linkBelow_succ (fuel : Nat) (p : Path) :
    linkBelow (fuel + 1) p = (do
      prepare p
      let children := (← get).children p
      children.forM fun c => modify (·.set c "parent" (.object p))
      children.reverse.forM (linkBelow fuel)) := by
  simp only [linkBelow, prepare, bind_assoc, forIn_eq_forM]
  refine bind_congr fun h => ?_
  split <;> simp

namespace Heap

variable {h : Heap} {p q : Path} {k k' : String} {v : Value}

theorem get?_set :
    (h.set p k v).get? q k' = if q = p ∧ k' = k then some v else h.get? q k' := by
  unfold get? node set
  dsimp only
  by_cases hq : q = p
  · subst hq
    rw [if_pos rfl, Option.getD_some, lookup_setField]
    simp [node]
  · simp [hq]

/-- The heap in which linking starts at a node: this has a parent, null unless it says otherwise. -/
def start (h : Heap) (p : Path) : Heap :=
  if (h.get? p "parent").isNone then h.set p "parent" .null else h

theorem get?_start_of_ne (hk : k ≠ "parent") : (h.start p).get? q k = h.get? q k := by
  unfold start
  split
  · rw [get?_set, if_neg fun he => hk he.2]
  · rfl

theorem size_set (hp : (h.node? p).isSome) : (h.set p k v).size = h.size := if_pos hp

theorem size_start (hp : (h.node? p).isSome) : (h.start p).size = h.size := by
  unfold start
  split
  · exact size_set hp
  · rfl

theorem isSome_node?_of_get? (hk : (h.get? p k).isSome) : (h.node? p).isSome := by
  unfold get? node at hk
  cases hn : h.node? p with
  | none => simp [hn] at hk
  | some fields => rfl

theorem start_start (h : Heap) (p : Path) : (h.start p).start p = h.start p := by
  have hsome : ¬ ((h.start p).get? p "parent").isNone := by
    unfold start
    split
    · simp [get?_set]
    · assumption
  rw [start, if_neg hsome]

end Heap

/-- Linking needs an object with a type. -/
theorem run_attachParents_object (h : Heap) (p : Path) :
    (attachParents (.object p)).run.run h =
      if (h.get? p "type").isNone then (.error .untyped, h.start p)
      else (linkBelow (h.size + 1) p).run.run (h.start p) := by
  have htype : (h.start p).get? p "type" = h.get? p "type" := Heap.get?_start_of_ne (by decide)
  have hstart : ∀ k : Edit Unit, (do
      if ((← get).get? p "parent").isNone then modify (·.set p "parent" .null)
      k : Edit Unit).run.run h = k.run.run (h.start p) := by
    intro k
    simp only [run_bind, run_get, andThen_ok]
    unfold Heap.start
    split
    · rw [run_bind, run_modify, andThen_ok]
    · rfl
  unfold attachParents
  dsimp only
  rw [hstart]
  simp only [run_bind, run_get, andThen_ok, htype]
  split
  · rw [run_bind, run_throw, andThen_error]
  · next htype =>
    have hsome := Option.isNone_eq_false_iff.mp (Bool.eq_false_iff.mpr htype)
    have hnode := Heap.isSome_node?_of_get? hsome
    simp only [run_bind, run_get, andThen_ok, Heap.size_start hnode]

theorem run_attachParents_of_ne_object {root : Value} (hr : ∀ p, root ≠ .object p) (h : Heap) :
    (attachParents root).run.run h = (.error .notObject, h) := by
  cases root with
  | object p => exact absurd rfl (hr p)
  | _ => rfl

/-- Whether an edit leaves a field of an object as it is, whatever the heap. -/
def Spares {α : Type} (m : Edit α) (p : Path) (k : String) : Prop :=
  ∀ h, (m.run.run h).2.get? p k = h.get? p k

section
variable {α β : Type} {m : Edit α} {p q : Path} {k k' : String}

theorem Spares.bind (hm : Spares m q k) {f : α → Edit β} (hf : ∀ a, Spares (f a) q k) :
    Spares (m >>= f) q k := by
  intro h
  have hfirst := hm h
  rw [run_bind]
  rcases hrun : m.run.run h with ⟨e | a, h'⟩
  · rw [hrun] at hfirst
    exact hfirst
  · rw [hrun] at hfirst
    exact (hf a h').trans hfirst

theorem spares_get : Spares (get : Edit Heap) q k := fun _ => rfl

theorem spares_set {v : Value} (hk : k ≠ k') : Spares (modify (·.set p k' v) : Edit Unit) q k := by
  intro h
  rw [run_modify, Heap.get?_set, if_neg fun he => hk he.2]

theorem spares_forM {f : α → Edit Unit} (hf : ∀ x, Spares (f x) q k) (xs : List α) :
    Spares (xs.forM f) q k := by
  induction xs with
  | nil => exact fun _ => rfl
  | cons x xs ih => exact (hf x).bind fun _ => ih

theorem spares_prepare (hv : k ≠ "value") : Spares (prepare p) q k := by
  intro h
  by_cases hs : ∃ key value, h.Shares p key value
  · obtain ⟨key, value, hs⟩ := hs
    rw [run_prepare_of_shares hs, Heap.get?_set, if_neg fun he => hv he.2]
  · push Not at hs
    rcases run_prepare_of_not_shares hs with hr | ⟨_, _, _, -, -, -, -, -, -, hr⟩
    · rw [hr]
    · rw [hr]

theorem spares_linkBelow (hp : k ≠ "parent") (hv : k ≠ "value") (fuel : Nat) (p : Path) :
    Spares (linkBelow fuel p) q k := by
  induction fuel generalizing p with
  | zero => exact fun _ => rfl
  | succ fuel ih =>
    rw [linkBelow_succ]
    apply (spares_prepare hv).bind
    intro _
    apply spares_get.bind
    intro h
    apply (spares_forM (fun c => spares_set hp) _).bind
    intro _
    exact spares_forM ih _

/-- Linking sets parents and values, and no other fields. -/
theorem spares_attachParents (hp : k ≠ "parent") (hv : k ≠ "value") (root : Value) :
    Spares (attachParents root) q k := by
  intro h
  by_cases hobject : ∃ p, root = .object p
  · obtain ⟨p, rfl⟩ := hobject
    rw [run_attachParents_object]
    split
    · exact Heap.get?_start_of_ne hp
    · exact (spares_linkBelow hp hv _ p _).trans (Heap.get?_start_of_ne hp)
  · push Not at hobject
    rw [run_attachParents_of_ne_object hobject]

end

end IdentCase.Tree
