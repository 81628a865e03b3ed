import IdentCase.Context
import IdentCase.Proofs.Tree.Parts

/-! Linked programs in linked programs: how far the nodes that both keep correspond. -/
namespace IdentCase.Tree

/-- Whether a heap holds the objects of another that are in `D`, renamed. Their parents correspond
in `R`, and so do their values in what an identifier there can tell of them. The root is apart. -/
structure Heap.Mirrors (f : Path → Path) (D R : Set Path) (h h' : Heap) : Prop where
  get? : ∀ p ∈ D, ∀ k, k ≠ "parent" → k ≠ "value" → h'.get? (f p) k = (h.get? p k).map (·.rename f)
  held : ∀ p ∈ D, ∀ k r, k ≠ "parent" → k ≠ "value" → h.get p k = .object r → r ∈ D
  inj : ∀ p ∈ D, ∀ q ∈ D, f p = f q → p = q
  subset : R ⊆ D
  parent : ∀ p ∈ R, h'.get (f p) "parent" = (h.get p "parent").rename f
  above : ∀ p ∈ R, ∀ r, h.get p "parent" = .object r → r ∈ R ∨ r = []
  value : ∀ p ∈ R, ∀ q ∈ R, (h.get p "name").isAtom → Heap.isObject (h.get q "key") p →
    Heap.isObject (h'.get (f q) "value") (f p) = Heap.isObject (h.get q "value") p
  root : ∀ type, type ≠ "Program" → h.hasType [] type = false ∧ h'.hasType [] type = false
  root_eq : f [] = []

section
variable {f : Path → Path} {D : Set Path} {p q c : Path} {v : Value}

theorem isObject_iff : Heap.isObject v p ↔ v = .object p := by
  cases v <;> simp [Heap.isObject]

theorem isObject_rename (hinj : ∀ p ∈ D, ∀ q ∈ D, f p = f q → p = q)
    (hv : ∀ r, v = .object r → r ∈ D) (hp : p ∈ D) :
    Heap.isObject (v.rename f) (f p) = Heap.isObject v p := by
  rw [Bool.eq_iff_iff, isObject_iff, isObject_iff, rename_eq_object]
  constructor
  · rintro ⟨r, hr, he⟩
    rw [hr, hinj r (hv r hr) p hp he]
  · exact fun h => ⟨p, h, rfl⟩

end

section
variable {tree : Json} {S S' : Set Path} {L L' : Path → Option Value} {f : Path → Path}
  {body whole : List Json} {p q c : Path}

namespace Finished

theorem links_of_reaches (hf : Finished tree S L) (hc : (stage tree S L).Reaches [] c)
    (hne : c ≠ []) :
    L c = some (.object (holder c)) ∧ (stage tree S L).Reaches [] (holder c) := by
  rcases Relation.ReflTransGen.cases_tail hc with he | ⟨q, hq, hcq⟩
  · exact absurd he hne
  · rw [holder_of_mem_children hcq]
    exact ⟨hf.linkedFrom.links q c hq hcq, hq⟩

theorem get_parent (hf : Finished tree S L) (hc : (stage tree S L).Reaches [] c) (hne : c ≠ []) :
    (stage tree S L).get c "parent" = .object (holder c) := by
  rw [Heap.get, get?_stage_parent hf.staged, (hf.links_of_reaches hc hne).1]
  rfl

theorem mem_iff (hf : Finished tree S L) (hp : (stage tree S L).Reaches [] p)
    (hc : Comparable tree p) : p ∈ S ↔ p ∈ shorthands tree :=
  mem_iff_mem_shorthands hf.staged hc (hf.linkedFrom.shared p hp hc)

/-- Sharing and linking leave alone what could not even be reached before. -/
theorem node?_of_not_reaches (hf : Finished tree S L) (hp : ¬ (Heap.load tree).Reaches [] p) :
    (stage tree S L).node? p = (Heap.load tree).node? p := by
  have hne : p ≠ [] := by
    rintro rfl
    exact hp .refl
  have hS : p ∉ S := fun hpS => (hf.grows.shared p hpS).elim (Set.notMem_empty p) hp
  have hL : L p = none := by
    rcases hf.grows.links p with he | ⟨hr, -⟩
    · rw [he, rootLink_of_ne hne]
    · exact absurd hr hp
  simp only [stage, hL, if_neg hS, place, Option.map_id']

end Finished

/-- The nodes of a part that are kept both there and in the whole. -/
def keptBoth (f : Path → Path) (D : Set Path) (h h' : Heap) : Set Path :=
  {p | p ∈ D ∧ h.Reaches [] p ∧ h'.Reaches [] (f p)}

theorem Part.mem_iff_mem (hpart : Part f body whole) (hb : Finished (program body) S L)
    (hw : Finished (program whole) S' L') (hc : Comparable (program body) p)
    (hp : p ∈ keptBoth f (within body.length) (stage (program body) S L)
      (stage (program whole) S' L')) : f p ∈ S' ↔ p ∈ S := by
  rw [hb.mem_iff hp.2.1 hc, hw.mem_iff hp.2.2 ((hpart.comparable_iff hp.1).mpr hc)]
  exact hpart.embeds.mem_shorthands_iff hpart.step_key hp.1 hc

/-- However the names in a part compare, its linked nodes correspond to those of the whole. -/
theorem Part.mirrors (hpart : Part f body whole) (hb : Finished (program body) S L)
    (hw : Finished (program whole) S' L') :
    (stage (program body) S L).Mirrors f (within body.length)
      (keptBoth f (within body.length) (stage (program body) S L) (stage (program whole) S' L'))
      (stage (program whole) S' L') where
  get? p hp k hk hv := by
    rw [get?_stage_of_ne hk hv, get?_stage_of_ne hk hv, hpart.embeds.get? hp]
  held p hp k r hk hv hr := by
    rw [get_stage_of_ne hk hv] at hr
    exact hpart.embeds.mem_of_get hp hr
  inj := hpart.inj
  subset _ hp := hp.1
  parent p hp := by
    rw [hw.get_parent hp.2.2 (hpart.ne_nil p hp.1), hb.get_parent hp.2.1 (ne_nil_of_mem_within hp.1),
      hpart.holder_eq p hp.1, Value.rename]
  above p hp r hr := by
    have hne := ne_nil_of_mem_within hp.1
    rw [hb.get_parent hp.2.1 hne] at hr
    obtain rfl : holder p = r := by simpa using hr
    have hbody := (hb.links_of_reaches hp.2.1 hne).2
    have hwhole := (hw.links_of_reaches hp.2.2 (hpart.ne_nil p hp.1)).2
    rw [hpart.holder_eq p hp.1] at hwhole
    rcases mem_within_of_reaches (reaches_load_of_stage hbody) with he | hmem
    · exact Or.inr he
    · exact Or.inl ⟨hmem, hbody, hwhole⟩
  value p hp q hq hname hkey := by
    have hkey' := isObject_iff.mp hkey
    rw [get_stage_of_ne (by decide) (by decide)] at hkey'
    obtain rfl := Heap.get_load_eq_object hkey'
    have hc : Comparable (program body) q := by
      rw [get_stage_of_ne (by decide) (by decide)] at hname
      exact fun _ _ _ _ => Or.inl hname
    have hS := hpart.mem_iff_mem hb hw hc hq
    have hfq := hpart.step q hq.1 (.key "key")
    by_cases hqS : q ∈ S
    · rw [Heap.get, Heap.get, get?_stage_value_of_mem hb.staged hqS,
        get?_stage_value_of_mem hw.staged (hS.mpr hqS), hfq]
      exact (isObject_iff.mpr rfl).trans (isObject_iff.mpr rfl).symm
    · rw [Heap.get, Heap.get, get?_stage_value_of_not_mem hqS,
        get?_stage_value_of_not_mem (mt hS.mp hqS), ← Heap.get, ← Heap.get, hpart.embeds.get hq.1]
      exact isObject_rename hpart.inj (fun _ => hpart.embeds.mem_of_get hq.1) hp.1
  root type h := by
    rw [hasType_stage, hasType_stage]
    exact hpart.embeds.root type h
  root_eq := hpart.embeds.root_eq

end

end IdentCase.Tree
