import IdentCase.Proofs.Tree.Links

/-! The order of a walk: each node before its children, and those in the order of the keys. -/
namespace IdentCase.Tree

namespace Heap

/-- The nodes at and below some nodes, each node before its children. -/
inductive Preorder (h : Heap) : List Path → List Path → Prop
  | nil : h.Preorder [] []
  | cons {p : Path} {ps below rest : List Path} (hc : h.Preorder (h.children p) below)
      (hs : h.Preorder ps rest) : h.Preorder (p :: ps) (p :: below ++ rest)

section
variable {h h' : Heap} {p q : Path} {ps qs l k : List Path}

theorem Preorder.append (hl : h.Preorder ps l) (hk : h.Preorder qs k) :
    h.Preorder (ps ++ qs) (l ++ k) := by
  induction hl with
  | nil => exact hk
  | cons hc _ _ ih =>
    rw [List.append_assoc, List.cons_append]
    exact .cons hc ih

theorem Preorder.mem_iff (hl : h.Preorder ps l) : q ∈ l ↔ ∃ p ∈ ps, h.Reaches p q := by
  induction hl with
  | nil => simp
  | @cons p ps below rest _ _ ihc ihs =>
    rw [List.mem_append, List.mem_cons, ihc, ihs, List.exists_mem_cons_iff]
    refine or_congr_left ?_
    constructor
    · rintro (rfl | ⟨c, hc, hq⟩)
      · exact .refl
      · exact .head hc hq
    · intro hq
      rcases Relation.ReflTransGen.cases_head hq with rfl | ⟨c, hc, hq⟩
      · exact Or.inl rfl
      · exact Or.inr ⟨c, hc, hq⟩

/-- There is no more than one order. -/
theorem Preorder.unique (hl : h.Preorder ps l) (hk : h.Preorder ps k) : k = l := by
  induction hl generalizing k with
  | nil =>
    cases hk
    rfl
  | cons _ _ ihc ihs =>
    cases hk with
    | cons hc hs => rw [ihc hc, ihs hs]

/-- Only the children of the nodes that are met bear on the order. -/
theorem Preorder.congr (hl : h.Preorder ps l) (hc : ∀ p ∈ l, h'.children p = h.children p) :
    h'.Preorder ps l := by
  induction hl with
  | nil => exact .nil
  | @cons p ps below rest _ _ ihc ihs =>
    have hp : h'.children p = h.children p := hc p (by simp)
    refine .cons ?_ (ihs fun q hq => hc q (by simp [hq]))
    rw [hp]
    exact ihc fun q hq => hc q (by simp [hq])

/-- With enough fuel a walk takes the nodes in order. -/
theorem walk_append (hl : h.Preorder ps l) {fuel : Nat} (hf : l.length ≤ fuel) (stack : List Path) :
    h.walk fuel (ps ++ stack) = l ++ h.walk (fuel - l.length) stack := by
  induction hl generalizing fuel stack with
  | nil => simp
  | @cons p ps below rest _ _ ihc ihs =>
    simp only [List.length_append, List.length_cons] at hf
    obtain ⟨fuel, rfl⟩ : ∃ n, fuel = n + 1 := ⟨fuel - 1, by omega⟩
    have hbelow : below.length ≤ fuel := by omega
    have hrest : rest.length ≤ fuel - below.length := by omega
    have hlen : fuel + 1 - (p :: below ++ rest).length = fuel - below.length - rest.length := by
      simp only [List.length_append, List.length_cons]
      omega
    rw [hlen, List.cons_append, walk, ihc hbelow, ihs hrest]
    simp

theorem walk_nil (fuel : Nat) : h.walk fuel [] = [] := by
  cases fuel <;> rfl

theorem walk_eq (hl : h.Preorder ps l) {fuel : Nat} (hf : l.length ≤ fuel) :
    h.walk fuel ps = l := by
  have hw := walk_append hl hf []
  rwa [List.append_nil, walk_nil, List.append_nil] at hw

variable {rank : Path → Nat}

theorem exists_preorder_of_children (hc : ∀ p ∈ ps, ∃ l, h.Preorder (h.children p) l) :
    ∃ l, h.Preorder ps l := by
  induction ps with
  | nil => exact ⟨[], .nil⟩
  | cons p ps ih =>
    obtain ⟨below, hbelow⟩ := hc p List.mem_cons_self
    obtain ⟨rest, hrest⟩ := ih fun q hq => hc q (List.mem_cons_of_mem _ hq)
    exact ⟨_, .cons hbelow hrest⟩

/-- Whether children rank below their parents at all nodes that can be reached from a node. -/
def Ranked (h : Heap) (rank : Path → Nat) (p : Path) : Prop :=
  ∀ q, h.Reaches p q → ∀ c ∈ h.children q, rank c < rank q

theorem Ranked.child {c : Path} (hp : h.Ranked rank p) (hc : c ∈ h.children p) :
    h.Ranked rank c := fun q hq => hp q (.head hc hq)

/-- Where children rank below their parents, the nodes below some nodes have an order. -/
theorem exists_preorder (hrank : ∀ p ∈ ps, h.Ranked rank p) : ∃ l, h.Preorder ps l := by
  have hchildren : ∀ n p, rank p = n → h.Ranked rank p → ∃ l, h.Preorder (h.children p) l := by
    intro n
    induction n using Nat.strong_induction_on with
    | _ n ih =>
      intro p hp hr
      exact exists_preorder_of_children fun c hc =>
        ih (rank c) (hp ▸ hr p .refl c hc) c rfl (hr.child hc)
  exact exists_preorder_of_children fun p hp => hchildren (rank p) p rfl (hrank p hp)

/-- The number of visits is the length of the order, at least if the depth suffices. -/
theorem foldr_visits (hl : h.Preorder ps l) (hrank : ∀ p ∈ ps, h.Ranked rank p) (depth : Nat)
    (hd : ∀ p ∈ ps, rank p < depth) :
    ps.foldr (fun p n => h.visits depth p + n) 0 = l.length := by
  induction hl generalizing depth with
  | nil => rfl
  | @cons p ps below rest _ _ ihc ihs =>
    obtain ⟨hr, hrs⟩ := List.forall_mem_cons.mp hrank
    obtain ⟨hp, hps⟩ := List.forall_mem_cons.mp hd
    obtain ⟨depth, rfl⟩ : ∃ n, depth = n + 1 := ⟨depth - 1, by omega⟩
    have hbelow := ihc (fun c hc => hr.child hc) depth fun c hc => by
      have := hr p .refl c hc
      omega
    have hrest := ihs hrs (depth + 1) hps
    rw [List.foldr_cons, hrest, visits, hbelow, List.length_append, List.length_cons]
    omega

/-- The fuel of a walk is the length of the order. -/
theorem visits_eq_length {root : Path} (hl : h.Preorder [root] l) (hrank : h.Ranked rank root)
    (hroot : rank root ≤ h.size) : h.visits (h.size + 1) root = l.length := by
  have hv := foldr_visits hl (by simpa using hrank) (h.size + 1) (by simpa using by omega)
  rwa [List.foldr_cons, List.foldr_nil, Nat.add_zero] at hv

/-- The identifiers come in the order of the nodes. -/
theorem identifiers_eq {root : Path} (hrank : h.Ranked rank root) (hroot : rank root ≤ h.size)
    (hl : h.Preorder [root] l) :
    h.identifiers root = l.filter (h.hasType · "Identifier") := by
  rw [identifiers, walk_eq hl (visits_eq_length hl hrank hroot).ge]

end

end Heap

section
variable {tree : Json} {S : Set Path} {L : Path → Option Value}

theorem ranked_stage (p : Path) : (stage tree S L).Ranked (sizeAt tree) p :=
  fun _ _ _ hc => sizeAt_lt_of_mem_children (children_stage_subset hc)

theorem exists_preorder_stage (tree : Json) (S : Set Path) (L : Path → Option Value)
    (ps : List Path) : ∃ order, (stage tree S L).Preorder ps order :=
  Heap.exists_preorder fun p _ => ranked_stage p

/-- The identifiers of a stage are listed in the order of its nodes. -/
theorem exists_order_stage (tree : Json) (S : Set Path) (L : Path → Option Value) :
    ∃ order, (stage tree S L).Preorder [[]] order ∧
      (stage tree S L).identifiers [] = order.filter ((stage tree S L).hasType · "Identifier") := by
  obtain ⟨order, ho⟩ := exists_preorder_stage tree S L [[]]
  exact ⟨order, ho, Heap.identifiers_eq (ranked_stage []) le_rfl ho⟩

/-- The identifiers of the linked tree are listed in the order of the tree with its shorthands shared. -/
theorem exists_order_linked (tree : Json) :
    ∃ order, (Heap.load tree).shared.Preorder [[]] order ∧
      (linked tree).identifiers [] = order.filter ((Heap.load tree).hasType · "Identifier") := by
  obtain ⟨order, ho, hids⟩ := exists_order_stage tree (shorthandsFrom tree [])
    (linkTo (below tree []) (rootLink tree))
  refine ⟨order, ho.congr fun p hp => ?_, ?_⟩
  · obtain ⟨root, hroot, hr⟩ := ho.mem_iff.mp hp
    obtain rfl := List.mem_singleton.mp hroot
    exact (children_linked (reaches_linked.mp hr)).symm
  · simp only [hasType_stage] at hids
    exact hids

/-- The identifiers of the linked tree are those that can be reached in it. -/
theorem mem_identifiers_linked {p : Path} : p ∈ (linked tree).identifiers [] ↔
    (linked tree).Reaches [] p ∧ (Heap.load tree).hasType p "Identifier" := by
  obtain ⟨order, ho, hids⟩ := exists_order_linked tree
  rw [hids, List.mem_filter, ho.mem_iff, reaches_linked]
  simp

end

end IdentCase.Tree
