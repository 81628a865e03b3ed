import IdentCase.Proofs.Tree.Statements

/-! Programs that are parts of others. -/
namespace IdentCase.Tree

/-- Whether a program holds the statements of another, at renamed paths. -/
structure Part (f : Path → Path) (body whole : List Json) : Prop where
  embeds : (Heap.load (program body)).Embeds f (within body.length) (Heap.load (program whole))
  step : ∀ p ∈ within body.length, ∀ s, f (s :: p) = s :: f p
  value : ∀ p ∈ within body.length, valueAt? (program whole) (f p) = valueAt? (program body) p
  inj : ∀ p ∈ within body.length, ∀ q ∈ within body.length, f p = f q → p = q
  holder_eq : ∀ p ∈ within body.length, holder (f p) = f (holder p)
  ne_nil : ∀ p ∈ within body.length, f p ≠ []
  root : ∀ c ∈ within body.length,
    f c ∈ (Heap.load (program whole)).children [] ↔ c ∈ (Heap.load (program body)).children []

section
variable {f : Path → Path} {body whole first second : List Json} {p q c : Path}

theorem embeds_first (first second : List Json) :
    (Heap.load (program first)).Embeds id (within first.length)
      (Heap.load (program (first ++ second))) := by
  have he := embeds_load [] first second
  rwa [show shift ([] : List Json).length = id from funext shift_zero] at he

theorem embeds_second (first second : List Json) :
    (Heap.load (program second)).Embeds (shift first.length) (within second.length)
      (Heap.load (program (first ++ second))) := by
  have he := embeds_load first second []
  rwa [List.append_nil] at he

/-- The statements of a program are those of its parts, one after the other. -/
theorem children_root_append (first second : List Json) :
    (Heap.load (program (first ++ second))).children [] =
      (Heap.load (program first)).children [] ++
        ((Heap.load (program second)).children []).map (shift first.length) := by
  have hfirst : ∀ w ∈ itemsOf [.key "body"] 0 first,
      (Heap.load (program (first ++ second))).syntaxNode? w =
        (Heap.load (program first)).syntaxNode? w := by
    intro w hw
    have hnode := (embeds_first first second).syntaxNode? (v := w) fun _ =>
      mem_within_of_mem_itemsOf hw
    rwa [rename_id, Option.map_id, id] at hnode
  have hsecond : ∀ w ∈ itemsOf [.key "body"] 0 second,
      (Heap.load (program (first ++ second))).syntaxNode? (w.rename (shift first.length)) =
        ((Heap.load (program second)).syntaxNode? w).map (shift first.length) := fun w hw =>
    (embeds_second first second).syntaxNode? fun _ => mem_within_of_mem_itemsOf hw
  rw [children_root, children_root, children_root, itemsOf_append, itemsOf_shift,
    List.filterMap_append, List.filterMap_map, List.map_filterMap, List.filterMap_congr hfirst]
  congr 1
  exact List.filterMap_congr hsecond

theorem part_first (first second : List Json) : Part id first (first ++ second) where
  embeds := embeds_first first second
  step _ _ _ := rfl
  value p hp := by
    have hv : valueAt? (program ([] ++ first ++ second)) (shift ([] : List Json).length p) =
        valueAt? (program first) p := valueAt?_shift hp
    rwa [List.nil_append, List.length_nil, shift_zero] at hv
  inj _ _ _ _ h := h
  holder_eq _ _ := rfl
  ne_nil _ hp := ne_nil_of_mem_within hp
  root c hc := by
    rw [children_root_append, List.mem_append, List.mem_map]
    refine or_iff_left ?_
    rintro ⟨d, hd, rfl⟩
    exact not_mem_within_of_shift (mem_within_of_mem_children_root hd) List.suffix_rfl hc

theorem part_second (first second : List Json) :
    Part (shift first.length) second (first ++ second) where
  embeds := embeds_second first second
  step _ hp _ := shift_cons_of_mem hp
  value p hp := by
    have hv : valueAt? (program (first ++ second ++ [])) (shift first.length p) =
        valueAt? (program second) p := valueAt?_shift hp
    rwa [List.append_nil] at hv
  inj _ hp _ hq h := shift_inj hp hq h
  holder_eq _ hp := holder_shift hp
  ne_nil p hp := by
    obtain ⟨i, -, s, rfl⟩ := hp
    rw [shift_append]
    simp [statement]
  root c hc := by
    rw [children_root_append, List.mem_append, List.mem_map]
    constructor
    · rintro (hfirst | ⟨d, hd, he⟩)
      · exact absurd (mem_within_of_mem_children_root hfirst)
          (not_mem_within_of_shift hc List.suffix_rfl)
      · exact shift_inj (mem_within_of_mem_children_root hd) hc he ▸ hd
    · exact fun hc => Or.inr ⟨c, hc, rfl⟩

namespace Part

theorem step_key (hpart : Part f body whole) : ∀ p ∈ within body.length, ∀ k,
    .key k :: p ∈ within body.length ∧ f (.key k :: p) = .key k :: f p :=
  fun p hp _ => ⟨cons_mem_within hp, hpart.step p hp _⟩

theorem comparable_iff (hpart : Part f body whole) (hp : p ∈ within body.length) :
    Comparable (program whole) (f p) ↔ Comparable (program body) p :=
  hpart.embeds.comparable_iff hpart.step_key hp

end Part

end

end IdentCase.Tree
