import IdentCase.Proofs.Tree.Links
import IdentCase.Proofs.Tree.Order
import IdentCase.Proofs.Tree.Renaming

/-! Programs of statements: each statement is linked and walked as if it stood alone. -/
namespace IdentCase.Tree

def program (body : List Json) : Json := .obj [("type", .str "Program"), ("body", .arr body)]

/-- Where a path leads if `n` statements are put before the others. -/
def shift (n : Nat) : Path → Path
  | [.index i, step] => [.index (i + n), step]
  | step :: p => step :: shift n p
  | [] => []

def statement (i : Nat) : Path := [.index i, .key "body"]

/-- The paths within the first `m` statements. -/
def within (m : Nat) : Set Path := {p | ∃ i < m, statement i <:+ p}

section
variable {n m i j : Nat} {p q : Path} {k : String} {step : Step}

theorem shift_cons (h : statement i <:+ p) : shift n (step :: p) = step :: shift n p := by
  obtain ⟨s, rfl⟩ := h
  cases s with
  | nil => cases step <;> rfl
  | cons a s => cases step <;> cases s <;> rfl

theorem shift_append (s : Path) : shift n (s ++ statement i) = s ++ statement (i + n) := by
  induction s with
  | nil => rfl
  | cons step s ih =>
    rw [List.cons_append, shift_cons ⟨s, rfl⟩, ih, List.cons_append]

theorem shift_zero (p : Path) : shift 0 p = p := by
  fun_induction shift 0 p with
  | case1 i step => rfl
  | case2 step p _ ih => rw [ih]
  | case3 => rfl

theorem cons_mem_within (h : p ∈ within m) : step :: p ∈ within m := by
  obtain ⟨i, hi, hp⟩ := h
  exact ⟨i, hi, hp.trans (List.suffix_cons step p)⟩

theorem shift_cons_of_mem (h : p ∈ within m) : shift n (step :: p) = step :: shift n p := by
  obtain ⟨i, -, hp⟩ := h
  exact shift_cons hp

theorem ne_nil_of_mem_within (h : p ∈ within m) : p ≠ [] := by
  obtain ⟨i, -, s, rfl⟩ := h
  simp [statement]

theorem statement_inj {s s' : Path} (h : s ++ statement i = s' ++ statement j) : s = s' ∧ i = j := by
  obtain ⟨hs, hst⟩ := List.append_inj' h rfl
  simpa [statement] using And.intro hs hst

theorem shift_inj (hp : p ∈ within m) (hq : q ∈ within m) (h : shift n p = shift n q) : p = q := by
  obtain ⟨i, -, s, rfl⟩ := hp
  obtain ⟨j, -, s', rfl⟩ := hq
  rw [shift_append, shift_append] at h
  obtain ⟨rfl, hij⟩ := statement_inj h
  obtain rfl : i = j := by omega
  rfl

theorem mem_within_of_suffix (hp : p ∈ within m) (h : p <:+ q) : q ∈ within m := by
  obtain ⟨i, hi, hp⟩ := hp
  exact ⟨i, hi, hp.trans h⟩

/-- The statements that are put before the others stay apart from them. -/
theorem not_mem_within_of_shift (hp : p ∈ within m) (h : shift n p <:+ q) : q ∉ within n := by
  rintro ⟨j, hj, s, rfl⟩
  obtain ⟨i, -, t, rfl⟩ := hp
  obtain ⟨u, hu⟩ := h
  rw [shift_append, ← List.append_assoc] at hu
  obtain ⟨-, hij⟩ := statement_inj hu
  omega

theorem holder_shift (hp : p ∈ within m) : holder (shift n p) = shift n (holder p) := by
  obtain ⟨i, -, s, rfl⟩ := hp
  rw [shift_append]
  cases s with
  | nil => rfl
  | cons a s =>
    cases a with
    | key name => exact (shift_append s).symm
    | index x =>
      cases s with
      | nil => rfl
      | cons b s => exact (shift_append s).symm

end

section
variable {before body after : List Json} {p q c r : Path} {k : String}

theorem valueAt?_shift (hp : p ∈ within body.length) :
    valueAt? (program (before ++ body ++ after)) (shift before.length p) =
      valueAt? (program body) p := by
  obtain ⟨i, hi, s, rfl⟩ := hp
  rw [shift_append]
  induction s with
  | nil =>
    have hstatement : ∀ (body : List Json) (i : Nat),
        valueAt? (program body) (statement i) = body[i]? := by
      intro body i
      simp [statement, valueAt?_index, valueAt?_key, program, Json.get?, lookup_cons_eq_ite]
    rw [List.nil_append, List.nil_append, hstatement, hstatement, List.append_assoc,
      List.getElem?_append_right (by omega), Nat.add_sub_cancel, List.getElem?_append_left hi]
  | cons step s ih =>
    cases step with
    | key k => rw [List.cons_append, List.cons_append, valueAt?_key, valueAt?_key, ih]
    | index x => rw [List.cons_append, List.cons_append, valueAt?_index, valueAt?_index, ih]

theorem valueOf_shift {v : Json} (hp : p ∈ within body.length) (n : Nat) :
    valueOf (shift n p) v = (valueOf p v).rename (shift n) := by
  obtain ⟨i, -, hp⟩ := hp
  exact valueOf_rename v p fun q step hq => shift_cons (hp.trans hq)

theorem hasType_root {type : String} (h : type ≠ "Program") :
    (Heap.load (program body)).hasType [] type = false := by
  have hroot : (Heap.load (program body)).get? [] "type" = some (.str "Program") := by
    rw [Heap.get?_load, valueAt?_key]
    simp [program, Json.get?, valueOf]
  rw [Heap.hasType, hroot]
  simpa using fun he : "Program" = type => h he.symm

theorem isSome_type_root : ((Heap.load (program body)).get? [] "type").isSome := by
  rw [Heap.get?_load, valueAt?_key]
  simp [program, Json.get?]

theorem distinct_program : (program body).Distinct ↔ Json.DistinctItems body := by
  simp [program, Json.Distinct, Json.DistinctFields]

theorem mem_within_of_holds {v : Json} (hp : p ∈ within body.length)
    (h : (valueOf (.key k :: p) v).Holds r) : r ∈ within body.length := by
  rcases holds_valueOf h with rfl | ⟨i, rfl⟩
  · exact cons_mem_within hp
  · exact cons_mem_within (cons_mem_within hp)

/-- A program holds the statements of another as they stand there. -/
theorem embeds_load (before body after : List Json) :
    (Heap.load (program body)).Embeds (shift before.length) (within body.length)
      (Heap.load (program (before ++ body ++ after))) where
  node? p hp := by
    rw [Heap.node?_load, Heap.node?_load, valueAt?_shift hp]
    cases valueAt? (program body) p with
    | none => rfl
    | some v =>
      cases v with
      | obj fields =>
        simp only [Option.bind_some, Option.map_some, Option.some.injEq, nodeOf, renameFields,
          List.map_map]
        refine List.map_congr_left fun field _ => ?_
        have hkey : .key field.1 :: p ∈ within body.length := cons_mem_within hp
        have hv := valueOf_shift (v := field.2) hkey before.length
        rw [shift_cons_of_mem hp] at hv
        simp [hv]
      | _ => rfl
  held p hp k v r hm hr := by
    obtain ⟨w, rfl⟩ := Heap.mem_node_load hm
    exact mem_within_of_holds hp hr
  root type h := ⟨hasType_root h, hasType_root h⟩
  root_eq := rfl

theorem children_root : (Heap.load (program body)).children [] =
    (itemsOf [.key "body"] 0 body).filterMap (Heap.load (program body)).syntaxNode? := by
  have hbody : "body" ∉ skippedKeys := by decide
  rw [Heap.children, Heap.node, Heap.node?_load, valueAt?_nil]
  simp only [program, Option.bind_some, Option.getD_some, nodeOf, List.map_cons, List.map_nil,
    List.flatMap_cons, List.flatMap_nil, valueOf, Heap.nodesIn, Heap.syntaxNode?]
  simp [hbody]

theorem mem_within_of_mem_itemsOf {w : Value} (hw : w ∈ itemsOf [.key "body"] 0 body)
    (hr : w = .object r) : r ∈ within body.length := by
  obtain ⟨j, v, -, hj, rfl⟩ := mem_itemsOf hw
  obtain ⟨rfl, -⟩ := valueOf_eq_object hr
  exact ⟨j, by omega, List.suffix_rfl⟩

theorem mem_within_of_mem_children_root (hc : c ∈ (Heap.load (program body)).children []) :
    c ∈ within body.length := by
  rw [children_root, List.mem_filterMap] at hc
  obtain ⟨w, hw, hc⟩ := hc
  exact mem_within_of_mem_itemsOf hw (Heap.syntaxNode?_eq_some.mp hc).1

theorem mem_within_of_mem_children (hp : p ∈ within body.length)
    (hc : c ∈ (Heap.load (program body)).children p) : c ∈ within body.length := by
  cases Heap.childPath_of_mem_children hc with
  | field => exact cons_mem_within hp
  | item => exact cons_mem_within (cons_mem_within hp)

theorem mem_within_of_reaches (hq : (Heap.load (program body)).Reaches [] q) :
    q = [] ∨ q ∈ within body.length := by
  induction hq with
  | refl => exact Or.inl rfl
  | tail _ hc ih =>
    right
    rcases ih with rfl | hb
    · exact mem_within_of_mem_children_root hc
    · exact mem_within_of_mem_children hb hc

theorem itemsOf_append (p : Path) (i : Nat) (xs ys : List Json) :
    itemsOf p i (xs ++ ys) = itemsOf p i xs ++ itemsOf p (i + xs.length) ys := by
  induction xs generalizing i with
  | nil => rfl
  | cons x xs ih =>
    rw [List.cons_append, itemsOf, ih, itemsOf, List.cons_append, List.length_cons,
      Nat.add_right_comm, Nat.add_assoc]

theorem itemsOf_shift (n i : Nat) (items : List Json) :
    itemsOf [.key "body"] (i + n) items =
      (itemsOf [.key "body"] i items).map (·.rename (shift n)) := by
  induction items generalizing i with
  | nil => rfl
  | cons v rest ih =>
    have hv := valueOf_rename v (statement i) fun q step hq => shift_cons (n := n) hq
    have hrest := ih (i + 1)
    rw [Nat.add_right_comm] at hrest
    rw [itemsOf, itemsOf, List.map_cons, ← hrest]
    congr 1

end

end IdentCase.Tree
