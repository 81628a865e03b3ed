import IdentCase.Proofs.Tree.Linking
import IdentCase.Proofs.Tree.Siblings

/-! The tree with its links: what can be reached in it, and how it differs from what was read. -/
namespace IdentCase.Tree

section
variable {tree : Json} {S : Set Path} {L : Path → Option Value} {p q c : Path}

/-- What it takes for a property that was read to be a shorthand. -/
theorem mem_shorthands_iff :
    p ∈ shorthands tree ↔
      (Heap.load tree).hasType p "Property" ∧
      (Heap.load tree).truthy ((Heap.load tree).get p "shorthand") ∧
      (Heap.load tree).hasType (.key "key" :: p) "Identifier" ∧
      (Heap.load tree).hasType (.key "value" :: p) "Identifier" ∧
      (Heap.load tree).same ((Heap.load tree).get (.key "key" :: p) "name")
        ((Heap.load tree).get (.key "value" :: p) "name") = .ok true := by
  constructor
  · rintro ⟨key, value, hs⟩
    obtain ⟨rfl, hk⟩ := Heap.identifier?_load.mp hs.key_eq
    obtain ⟨rfl, hv⟩ := Heap.identifier?_load.mp hs.value_eq
    exact ⟨hs.isProperty, hs.isShorthand, hk, hv, hs.sameName⟩
  · rintro ⟨hp, hsh, hk, hv, hn⟩
    exact ⟨_, _, hp, hsh, Heap.identifier?_load.mpr ⟨rfl, hk⟩, Heap.identifier?_load.mpr ⟨rfl, hv⟩,
      by simp, hn⟩

theorem children_linked (hp : (Heap.load tree).shared.Reaches [] p) :
    (linked tree).children p = (Heap.load tree).shared.children p := by
  rw [shared_eq_stage]
  exact children_stage_congr ⟨fun h => h.2, fun h => ⟨hp, h⟩⟩

theorem reaches_linked : (linked tree).Reaches [] q ↔ (Heap.load tree).shared.Reaches [] q := by
  constructor
  · intro h
    induction h with
    | refl => exact .refl
    | tail _ hc ih => exact ih.tail (children_linked ih ▸ hc)
  · intro h
    induction h with
    | refl => exact .refl
    | tail hb hc ih => exact ih.tail ((children_linked hb).symm ▸ hc)

theorem mem_shorthandsFrom (hp : (linked tree).Reaches [] p) :
    p ∈ shorthandsFrom tree [] ↔ p ∈ shorthands tree :=
  ⟨fun h => h.2, fun h => ⟨reaches_linked.mp hp, h⟩⟩

theorem mem_below_iff : c ∈ below tree [] ↔ (linked tree).Reaches [] c ∧ c ≠ [] := by
  constructor
  · rintro ⟨q, hq, hc⟩
    refine ⟨reaches_linked.mpr (.tail hq hc), ?_⟩
    rw [shared_eq_stage] at hc
    exact (Heap.childPath_of_mem_children (children_stage_subset hc)).ne_nil
  · rintro ⟨hc, hne⟩
    rcases Relation.ReflTransGen.cases_tail hc with he | ⟨q, hq, hc⟩
    · exact absurd he hne
    · have hq := reaches_linked.mp hq
      exact ⟨q, hq, children_linked hq ▸ hc⟩

theorem staged_linked (hr : ((Heap.load tree).get? [] "type").isSome) :
    Staged tree (shorthandsFrom tree []) (linkTo (below tree []) (rootLink tree)) := by
  refine staged_linkTo ⟨?_, (staged_rootLink hr).typed⟩ fun _ => isSome_type_of_mem_below
  rintro q ⟨-, _, _, hq⟩
  exact hq.likely

/-- What was the value of a shorthand is no child of it any more, nor is anything within. -/
theorem not_mem_children_of_value (hd : tree.Distinct) (hs : Staged tree S L) (hp : p ∈ S)
    (hc : c ∈ (stage tree S L).children p) : ¬ .key "value" :: p <:+ c := by
  intro hsuffix
  have hvt := Heap.isSome_get?_type (hs.likely p hp).value
  rcases (Heap.suffix_child_iff (children_stage_subset hc) hvt).mp hsuffix with rfl | hsuffix
  · obtain ⟨before, after, hvalue, hkey⟩ := children_stage_of_mem hs hp
    have hnodup := nodup_children_load (p := p) hd
    rw [hvalue, List.nodup_middle, List.nodup_cons] at hnodup
    rw [hkey] at hc
    exact hnodup.1 (by simpa using hc)
  · exact absurd hsuffix.length_le (by simp)

/-- Nothing is reached through a field without children, nor through a value that was replaced. -/
theorem step_of_reaches (hd : tree.Distinct) (hs : Staged tree S L) {k : String}
    (h : (stage tree S L).Reaches [] q) (hk : .key k :: p <:+ q) :
    k ∉ skippedKeys ∧ ¬ (k = "value" ∧ p ∈ S) := by
  induction h with
  | refl => simp at hk
  | @tail b c hb hc ih =>
    have hpath := Heap.childPath_of_mem_children (children_stage_subset hc)
    by_cases hkb : .key k :: p <:+ b
    · exact ih hkb
    · have hhead : ∀ {k'}, .key k :: p <:+ .key k' :: b → k = k' ∧ p = b := by
        intro k' h
        rcases List.suffix_cons_iff.mp h with h | h
        · simpa using h
        · exact absurd h hkb
      have hvalue : p = b → ¬ (k = "value" ∧ p ∈ S) := by
        rintro rfl ⟨rfl, hp⟩
        exact not_mem_children_of_value hd hs hp hc hk
      cases hpath with
      | field hk' =>
        obtain ⟨rfl, rfl⟩ := hhead hk
        exact ⟨hk', hvalue rfl⟩
      | item i hk' =>
        obtain ⟨rfl, rfl⟩ := hhead ((List.suffix_cons_iff.mp hk).resolve_left (by simp))
        exact ⟨hk', hvalue rfl⟩

theorem rootLink_of_ne (hp : p ≠ []) : rootLink tree p = none := by
  unfold rootLink
  split
  · rw [Function.update_of_ne hp]
  · rfl

theorem linkTo_below_of_reaches (hp : (linked tree).Reaches [] p) (hne : p ≠ []) :
    linkTo (below tree []) (rootLink tree) p = some (.object (holder p)) :=
  if_pos (mem_below_iff.mpr ⟨hp, hne⟩)

theorem linkTo_below_nil : linkTo (below tree []) (rootLink tree) [] = rootLink tree [] :=
  if_neg fun h => (mem_below_iff.mp h).2 rfl

theorem node?_linked_of_not_reaches (hp : ¬ (linked tree).Reaches [] p) :
    (linked tree).node? p = (Heap.load tree).node? p := by
  have hne : p ≠ [] := by
    rintro rfl
    exact hp .refl
  have hS : p ∉ shorthandsFrom tree [] := fun h => hp (reaches_linked.mpr h.1)
  have hL : linkTo (below tree []) (rootLink tree) p = none := by
    rw [linkTo, if_neg fun h => hp (mem_below_iff.mp h).1, rootLink_of_ne hne]
  simp only [linked, stage, hL, if_neg hS, place, Option.map_id']

/-- The keys stay as they are, and the parent comes last if it is new. -/
theorem keys_linked (hr : ((Heap.load tree).get? [] "type").isSome)
    (hp : (linked tree).Reaches [] p) :
    ((linked tree).node p).map Prod.fst =
      if "parent" ∈ ((Heap.load tree).node p).map Prod.fst
      then ((Heap.load tree).node p).map Prod.fst
      else ((Heap.load tree).node p).map Prod.fst ++ ["parent"] := by
  rw [linked, keys_stage (staged_linked hr)]
  refine if_congr (or_iff_right_of_imp fun hnone => ?_) rfl rfl
  by_cases hne : p = []
  · subst hne
    rw [linkTo_below_nil, rootLink] at hnone
    split at hnone
    · simp at hnone
    · next hsome =>
      have hne : (Heap.load tree).get? [] "parent" ≠ none := by simpa using hsome
      obtain ⟨v, hv⟩ := Option.ne_none_iff_exists'.mp hne
      exact List.mem_map.mpr ⟨_, mem_of_lookup_eq_some hv, rfl⟩
  · simp [linkTo_below_of_reaches hp hne] at hnone

theorem get?_linked_value (hp : (linked tree).Reaches [] p) (hr : ((Heap.load tree).get? [] "type").isSome)
    (hsh : p ∈ shorthands tree) :
    (linked tree).get? p "value" = some (.object (.key "key" :: p)) :=
  get?_stage_value_of_mem (staged_linked hr) ((mem_shorthandsFrom hp).mpr hsh)

theorem get?_linked_key (hsh : p ∈ shorthands tree) :
    (linked tree).get? p "key" = some (.object (.key "key" :: p)) := by
  obtain ⟨-, -, hk, -⟩ := mem_shorthands_iff.mp hsh
  obtain ⟨type, ht⟩ := Option.isSome_iff_exists.mp (Heap.isSome_get?_type hk)
  have hv := Heap.get_load_of_get? ht
  rw [linked, get?_stage_of_ne (by decide) (by decide)]
  rw [Heap.get] at hv
  cases hg : (Heap.load tree).get? p "key" with
  | none => simp [hg] at hv
  | some w => simpa [hg] using hv

/-- The node that holds a node is its parent, and the only one to hold it. -/
theorem parent_linked (hr : ((Heap.load tree).get? [] "type").isSome)
    (hc : (linked tree).Reaches [] c) (hne : c ≠ []) :
    ∃ p, (linked tree).get? c "parent" = some (.object p) ∧ (linked tree).Reaches [] p ∧
      c ∈ (linked tree).children p ∧ ∀ q, c ∈ (linked tree).children q → q = p := by
  rcases Relation.ReflTransGen.cases_tail hc with he | ⟨p, hp, hcp⟩
  · exact absurd he hne
  · have hholder : ∀ q, c ∈ (linked tree).children q → holder c = q := fun q hq =>
      holder_of_mem_children hq
    refine ⟨p, ?_, hp, hcp, fun q hq => by rw [← hholder q hq, hholder p hcp]⟩
    rw [linked, get?_stage_parent (staged_linked hr), linkTo_below_of_reaches hc hne, hholder p hcp]
    rfl

theorem get?_root_parent_linked (hr : ((Heap.load tree).get? [] "type").isSome) :
    (linked tree).get? [] "parent" = some (((Heap.load tree).get? [] "parent").getD .null) := by
  rw [linked, get?_stage_parent (staged_linked hr), linkTo_below_nil, rootLink]
  cases (Heap.load tree).get? [] "parent" with
  | none => simp
  | some v => simp

theorem count_children_linked_key (hd : tree.Distinct)
    (hr : ((Heap.load tree).get? [] "type").isSome) (hp : (linked tree).Reaches [] p)
    (hsh : p ∈ shorthands tree) : ((linked tree).children p).count (.key "key" :: p) = 2 := by
  have hS : p ∈ shorthandsFrom tree [] := (mem_shorthandsFrom hp).mpr hsh
  have hs := staged_linked hr
  obtain ⟨before, after, -, hkey⟩ := children_stage_of_mem hs hS
  have hc : .key "key" :: p ∈ (linked tree).children p := by
    rw [linked, hkey]
    simp
  rw [linked, count_children_stage_of_mem hd hs hS hc, if_pos rfl]

theorem count_children_linked_of_ne (hd : tree.Distinct)
    (hr : ((Heap.load tree).get? [] "type").isSome)
    (hc : c ∈ (linked tree).children p) (hck : ¬ (p ∈ shorthands tree ∧ c = .key "key" :: p)) :
    ((linked tree).children p).count c = 1 := by
  by_cases hS : p ∈ shorthandsFrom tree []
  · have hne : c ≠ .key "key" :: p := fun he => hck ⟨hS.2, he⟩
    exact (count_children_stage_of_mem hd (staged_linked hr) hS hc).trans (if_neg hne)
  · exact count_children_stage_of_not_mem hd hS hc

/-- How a heap that links the nodes of a tree differs from the tree as it was read. -/
structure Links (tree : Json) (h : Heap) : Prop where
  /-- The value of a shorthand is the object that is its key. -/
  shared : ∀ p, h.Reaches [] p → p ∈ shorthands tree →
    ∃ key, h.get? p "key" = some (.object key) ∧ h.get? p "value" = some (.object key)
  /-- All other values are what they were. -/
  kept : ∀ p, h.Reaches [] p → p ∉ shorthands tree →
    h.get? p "value" = (Heap.load tree).get? p "value"
  /-- The parent of a node is the one node that holds it. -/
  parent : ∀ c, h.Reaches [] c → c ≠ [] → ∃ p, h.get? c "parent" = some (.object p) ∧
    h.Reaches [] p ∧ c ∈ h.children p ∧ ∀ q, h.Reaches [] q → c ∈ h.children q → q = p
  /-- Only the key of a shorthand is held twice. -/
  once : ∀ p c, h.Reaches [] p → c ∈ h.children p →
    ¬ (p ∈ shorthands tree ∧ c = .key "key" :: p) → (h.children p).count c = 1
  twice : ∀ p, h.Reaches [] p → p ∈ shorthands tree →
    (h.children p).count (.key "key" :: p) = 2
  /-- The root has no parent, unless it had one. -/
  root : h.get? [] "parent" = some (((Heap.load tree).get? [] "parent").getD .null)
  /-- The other fields are what they were, and keys keep their order, with a new parent last. -/
  fields : ∀ p k, k ≠ "parent" → k ≠ "value" → h.get? p k = (Heap.load tree).get? p k
  keys : ∀ p, h.Reaches [] p → (h.node p).map Prod.fst =
    if "parent" ∈ ((Heap.load tree).node p).map Prod.fst
    then ((Heap.load tree).node p).map Prod.fst
    else ((Heap.load tree).node p).map Prod.fst ++ ["parent"]
  /-- Objects that are not reached are what they were. -/
  untouched : ∀ p, ¬ h.Reaches [] p → h.node? p = (Heap.load tree).node? p
  /-- These are all within a parent that was read, a position or a range. -/
  skipped : ∀ p q k, k ∈ skippedKeys → .key k :: p <:+ q → ¬ h.Reaches [] q
  /-- They are also all that is within the values that were replaced. -/
  replaced : ∀ p q, h.Reaches [] p → p ∈ shorthands tree → .key "value" :: p <:+ q →
    ¬ h.Reaches [] q

theorem links_linked (hd : tree.Distinct) (hr : ((Heap.load tree).get? [] "type").isSome) :
    Links tree (linked tree) where
  shared p hp hsh := ⟨_, get?_linked_key hsh, get?_linked_value hp hr hsh⟩
  kept p _ hsh := get?_stage_value_of_not_mem fun h => hsh h.2
  parent c hc hne := by
    obtain ⟨p, hparent, hp, hcp, huniq⟩ := parent_linked hr hc hne
    exact ⟨p, hparent, hp, hcp, fun q _ hq => huniq q hq⟩
  once p c _ hc hck := count_children_linked_of_ne hd hr hc hck
  twice p hp hsh := count_children_linked_key hd hr hp hsh
  root := get?_root_parent_linked hr
  fields p k hpar hval := get?_stage_of_ne hpar hval
  keys p hp := keys_linked hr hp
  untouched p hp := node?_linked_of_not_reaches hp
  skipped p q k hk hq h := (step_of_reaches hd (staged_linked hr) h hq).1 hk
  replaced p q hp hsh hq h :=
    (step_of_reaches hd (staged_linked hr) h hq).2 ⟨rfl, (mem_shorthandsFrom hp).mpr hsh⟩

/-- The names of all identifiers that can be reached are neither lists nor objects. -/
def AtomicNames (h : Heap) : Prop :=
  ∀ p, h.Reaches [] p → h.hasType p "Identifier" → (h.get p "name").isAtom

theorem comparable_of_reaches (ha : AtomicNames (stage tree S L))
    (hp : (stage tree S L).Reaches [] p) : Comparable tree p := by
  intro _ _ hk _
  obtain ⟨type, ht⟩ := Option.isSome_iff_exists.mp (Heap.isSome_get?_type hk)
  have hc : .key "key" :: p ∈ (stage tree S L).children p :=
    mem_children_stage_of_key (by decide) (by decide) ht
  have hname := ha _ (hp.tail hc) (by rwa [hasType_stage])
  rw [get_stage_of_ne (by decide) (by decide)] at hname
  exact Or.inl hname

/-- What can be reached once all shorthands are shared can be reached before. -/
theorem reaches_of_shared (hs : Staged tree S L) (ha : AtomicNames (stage tree S L))
    (h : (Heap.load tree).shared.Reaches [] q) : (stage tree S L).Reaches [] q := by
  rw [shared_eq_stage] at h
  induction h with
  | refl => exact .refl
  | tail _ hc ih =>
    exact ih.tail (children_stage_anti (fun hb =>
      mem_shorthands_of_likely (hs.likely _ hb) (comparable_of_reaches ha ih)) hc)

/-- Linking a tree cannot fail if the names of the identifiers that are left are atoms. -/
theorem run_attachParents_of_atomicNames {r : Except Fault Unit} {h : Heap}
    (hr : ((Heap.load tree).get? [] "type").isSome)
    (hrun : (attachParents (.object [])).run.run (Heap.load tree) = (r, h))
    (ha : AtomicNames h) : r = .ok () ∧ h = linked tree := by
  obtain ⟨S, L, rfl, hs, -⟩ := exists_stage_of_run_attachParents hr hrun
  have hkeys : ∀ q, (Heap.load tree).shared.Reaches [] q → Comparable tree q :=
    fun q hq => comparable_of_reaches ha (reaches_of_shared hs ha hq)
  rw [run_attachParents_eq hr hkeys] at hrun
  obtain ⟨hok, hl⟩ := Prod.mk.inj hrun
  exact ⟨hok.symm, hl.symm⟩

theorem valueOf_root (hr : ((Heap.load tree).get? [] "type").isSome) :
    valueOf [] tree = .object [] := by
  obtain ⟨type, ht⟩ := Option.isSome_iff_exists.mp hr
  obtain ⟨fields, hf⟩ := Heap.exists_fields_of_get? ht
  obtain rfl : tree = .obj fields := Option.some.inj hf
  rw [valueOf]

theorem attachParents_links (tree : Json) (hd : tree.Distinct)
    (hr : ((Heap.load tree).get? [] "type").isSome) (r : Except Fault Unit) (h : Heap)
    (hrun : (attachParents (valueOf [] tree)).run.run (Heap.load tree) = (r, h))
    (ha : AtomicNames h) : r = .ok () ∧ Links tree h := by
  rw [valueOf_root hr] at hrun
  obtain ⟨rfl, rfl⟩ := run_attachParents_of_atomicNames hr hrun ha
  exact ⟨rfl, links_linked hd hr⟩

def shorthandProgram : Json :=
  .obj [("type", .str "Program"), ("body", .arr [
    .obj [("type", .str "Property"), ("shorthand", .bool true),
      ("key", .obj [("type", .str "Identifier"), ("name", .str "a_b")]),
      ("value", .obj [("type", .str "Identifier"), ("name", .str "a_b")])]])]

theorem attachParents_links_shorthandProgram :
    ((attachParents (valueOf [] shorthandProgram)).run.run (Heap.load shorthandProgram)).1 = .ok () ∧
      Links shorthandProgram
        ((attachParents (valueOf [] shorthandProgram)).run.run (Heap.load shorthandProgram)).2 := by
  let body : Path := [.index 0, .key "body"]
  let reached : List Path := [[], body, .key "key" :: body]
  refine attachParents_links shorthandProgram ?_ (by decide) _ _ rfl fun p hp => ?_
  · simp [shorthandProgram, Json.Distinct, Json.DistinctFields, Json.DistinctItems]
  · replace hp : p ∈ reached := Heap.mem_of_reaches (by decide) (by decide +kernel) hp
    revert p
    decide +kernel

end

end IdentCase.Tree
