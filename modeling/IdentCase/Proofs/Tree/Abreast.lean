import IdentCase.Proofs.Tree.Attached
import IdentCase.Proofs.Tree.Parts

/-! A part of a program is linked in step with the whole: all names in it compare as they do there,
though comparisons go up through parents, and down again from the root through all statements. -/
namespace IdentCase.Tree

section
variable {body : List Json} {S : Set Path} {L : Path → Option Value} {m n : Nat} {c p q x y r : Path}
  {k : String} {v : Value} {pairs : List (Path × Path)} {above : List Path}

theorem holder_mem_within (hc : ChildPath p c) (h : c ∈ within m) : p = [] ∨ p ∈ within m := by
  obtain ⟨i, hi, hs⟩ := h
  cases hc with
  | field =>
    rcases List.suffix_cons_iff.mp hs with he | hs
    · cases he
    · exact Or.inr ⟨i, hi, hs⟩
  | item =>
    rcases List.suffix_cons_iff.mp hs with he | hs
    · cases he
      exact Or.inl rfl
    · rcases List.suffix_cons_iff.mp hs with he | hs
      · cases he
      · exact Or.inr ⟨i, hi, hs⟩

theorem level_pos_of_mem_within (h : p ∈ within m) : 0 < level p := by
  obtain ⟨i, -, s, rfl⟩ := h
  simp [level, statement]

/-- Where a side of a comparison has got to from the objects above it: to the root or a statement. Once
it has left what is attached it goes on down. -/
structure Stands (body : List Json) (L : Path → Option Value) (above : List Path) (x : Path) :
    Prop where
  mem : x = [] ∨ x ∈ within body.length
  above_mem : ∀ a ∈ above, a ∈ within body.length
  below : ∀ a ∈ above, a ∉ attached L →
    x ∉ attached L ∧ sizeAt (program body) x < sizeAt (program body) a

theorem Stands.step (h : Stands body L above x) (hd : (program body).Distinct)
    (hs : Staged (program body) S L) (hc : Climbs S L) (hx : x ∈ within body.length)
    (hg : (stage (program body) S L).get? x k = some v) (hr : v.Leads r) :
    Stands body L (x :: above) r where
  mem := by
    by_cases hup : k = "parent" ∧ x ∈ attached L
    · obtain ⟨rfl, hmem⟩ := hup
      have hne := ne_nil_of_mem_within hx
      rw [get?_stage_parent hs, hc.link_eq hmem hne] at hg
      cases hg
      cases hr
      exact holder_mem_within (hc.childPath hmem hne) hx
    · have hdown : k ≠ "parent" ∨ L x = none := by
        rw [or_iff_not_imp_left, not_not]
        exact fun hk => Option.not_isSome_iff_eq_none.mp fun hL => hup ⟨hk, Or.inr hL⟩
      exact Or.inr (mem_within_of_suffix hx (inField_of_leads hs hdown hg hr).suffix)
  above_mem := List.forall_mem_cons.mpr ⟨hx, h.above_mem⟩
  below := by
    have hsink := fun hmem => hc.sinks hd x hmem k v r (mem_node_of_get? hg) hr
    refine List.forall_mem_cons.mpr ⟨hsink, fun a ha hmem => ?_⟩
    obtain ⟨hx, hlt⟩ := h.below a ha hmem
    exact ⟨(hsink hx).1, (hsink hx).2.trans hlt⟩

/-- A statement that has been linked has the root for its parent, and the root has it in a list. -/
theorem rings_root (hs : Staged (program body) S L) (hc : Climbs S L)
    (hchild : c ∈ (Heap.load (program body)).children []) (hmem : c ∈ attached L) :
    (stage (program body) S L).Rings [] c "body" "parent" where
  down := by
    refine ⟨itemsOf [.key "body"] 0 body, ?_, ?_⟩
    · rw [get?_stage_of_ne (by decide) (by decide), Heap.get?_load, valueAt?_key, valueAt?_nil,
        program, Option.bind_some, Json.get?]
      rfl
    · rw [children_root, List.mem_filterMap] at hchild
      obtain ⟨w, hw, hnode⟩ := hchild
      exact (Heap.syntaxNode?_eq_some.mp hnode).1 ▸ hw
  up := by
    have hholder := (Heap.childPath_of_mem_children hchild).holder_eq
    rw [get?_stage_parent hs, hc.link_eq hmem (ne_nil_of_mem_within
      (mem_within_of_mem_children_root hchild)), hholder, Option.some_or]

section
variable (hd : (program body).Distinct) (hs : Staged (program body) S L) (hc : Climbs S L)
  (hchild : c ∈ (Heap.load (program body)).children []) (hmem : c ∈ attached L)
  (hp : (stage (program body) S L).Pending pairs)
  (hn : (program body).size * (program body).size < n + pairs.length)

include hd hs hc hchild hmem hp hn

/-- The root, once statements are linked, is not found equal to an object that is not attached. -/
theorem sameObjects_root_left (hy : y ∉ attached L) (habove : ∀ b ∈ pairs.map Prod.snd,
      b ∉ attached L → sizeAt (program body) y < sizeAt (program body) b) :
    (stage (program body) S L).sameObjects n pairs [] y = .ok false := by
  obtain ⟨b, hb⟩ := (hc.sinks hd).right.succeeds (p := []) hy hp hn
    fun ab hab => habove _ (List.mem_map_of_mem hab)
  cases b with
  | false => exact hb
  | true =>
    exact absurd hb ((hc.sinks hd).ne_true_right (rings_root hs hc hchild hmem)
      (not_not_intro (Or.inl rfl)) (not_not_intro hmem) hy)

theorem sameObjects_root_right (hx : x ∉ attached L) (habove : ∀ a ∈ pairs.map Prod.fst,
      a ∉ attached L → sizeAt (program body) x < sizeAt (program body) a) :
    (stage (program body) S L).sameObjects n pairs x [] = .ok false := by
  have hkeys : ∀ r ∈ (attached L)ᶜ, (((stage (program body) S L).node r).map Prod.fst).Nodup :=
    fun r hr => node_stage_of_not_attached hc hr ▸ nodup_keys_load hd r
  obtain ⟨b, hb⟩ := (hc.sinks hd).left.succeeds (q := []) hx hp hn
    fun ab hab => habove _ (List.mem_map_of_mem hab)
  cases b with
  | false => exact hb
  | true =>
    exact absurd hb ((hc.sinks hd).ne_true_left hkeys (rings_root hs hc hchild hmem)
      (not_not_intro (Or.inl rfl)) (not_not_intro hmem) hx)

end

end

/-- Whether a stage of a part and one of the whole have got equally far in the part. -/
structure Abreast (f : Path → Path) (body whole : List Json) (S : Set Path)
    (L : Path → Option Value) (S' : Set Path) (L' : Path → Option Value) : Prop where
  part : Part f body whole
  distinct : (program body).Distinct
  distinct' : (program whole).Distinct
  staged : Staged (program body) S L
  staged' : Staged (program whole) S' L'
  climbs : Climbs S L
  climbs' : Climbs S' L'
  shared : ∀ p ∈ within body.length, f p ∈ S' ↔ p ∈ S
  links : ∀ p ∈ within body.length, L' (f p) = (L p).map (·.rename f)
  rooted : ∃ c ∈ (Heap.load (program body)).children [], c ∈ attached L

theorem place_rename {f : Path → Path} (v : Option Value) (fields : Node) :
    place (v.map (·.rename f)) (renameFields f fields) = renameFields f (place v fields) := by
  cases v with
  | none => rfl
  | some v => exact setField_renameFields _ _ _

namespace Abreast

variable {f : Path → Path} {body whole : List Json} {S S' : Set Path} {L L' : Path → Option Value}
  {n : Nat} {p q x y r s : Path} {k : String} {v : Value} {pairs : List (Path × Path)}
  (ha : Abreast f body whole S L S' L')

include ha

theorem node? (hp : p ∈ within body.length) : (stage (program whole) S' L').node? (f p) =
    ((stage (program body) S L).node? p).map (renameFields f) := by
  simp only [stage, ha.part.embeds.node? p hp, Option.map_map, ha.links p hp]
  congr 1
  funext fields
  simp only [Function.comp_apply]
  rw [← place_rename]
  by_cases hpS : p ∈ S
  · have hrename : Value.object (.key "key" :: f p) =
        (Value.object (.key "key" :: p)).rename f := by
      rw [Value.rename, ha.part.step p hp]
    rw [if_pos hpS, if_pos ((ha.shared p hp).mpr hpS), hrename, setField_renameFields]
  · rw [if_neg hpS, if_neg (mt (ha.shared p hp).mp hpS)]

theorem node (hp : p ∈ within body.length) : (stage (program whole) S' L').node (f p) =
    renameFields f ((stage (program body) S L).node p) := by
  rw [Heap.node, Heap.node, ha.node? hp]
  cases (stage (program body) S L).node? p <;> rfl

theorem get? (hp : p ∈ within body.length) (k : String) : (stage (program whole) S' L').get? (f p) k =
    ((stage (program body) S L).get? p k).map (·.rename f) := by
  rw [Heap.get?, Heap.get?, ha.node hp, lookup_renameFields]

theorem mem_attached (hp : p ∈ within body.length) : f p ∈ attached L' ↔ p ∈ attached L := by
  simp [attached, ha.part.ne_nil p hp, ne_nil_of_mem_within hp, ha.links p hp]

theorem sizeAt_eq (hp : p ∈ within body.length) :
    sizeAt (program whole) (f p) = sizeAt (program body) p := by
  rw [sizeAt, sizeAt, ha.part.value p hp]

theorem eq_of_rename (hr : r = [] ∨ r ∈ within body.length) (hs : s = [] ∨ s ∈ within body.length)
    (h : f r = f s) : r = s := by
  rcases hr with rfl | hr
  · rcases hs with rfl | hs
    · rfl
    · exact absurd (h.symm.trans ha.part.embeds.root_eq) (ha.part.ne_nil s hs)
  · rcases hs with rfl | hs
    · exact absurd (h.trans ha.part.embeds.root_eq) (ha.part.ne_nil r hr)
    · exact ha.part.inj r hr s hs h

theorem below_rename {above : List Path} (hx : Stands body L above x) (hxw : x ∈ within body.length) :
    ∀ a ∈ above.map f, a ∉ attached L' →
      sizeAt (program whole) (f x) < sizeAt (program whole) a := by
  intro a hmem hnot
  obtain ⟨b, hb, rfl⟩ := List.mem_map.mp hmem
  have hbw := hx.above_mem b hb
  rw [ha.mem_attached hbw] at hnot
  rw [ha.sizeAt_eq hxw, ha.sizeAt_eq hbw]
  exact (hx.below b hb hnot).2

theorem contains_rename (hx : Stands body L (pairs.map Prod.fst) x)
    (hy : Stands body L (pairs.map Prod.snd) y) (hxw : x ∈ within body.length)
    (hyw : y ∈ within body.length) :
    (pairs.map (Prod.map f f)).contains (f x, f y) = pairs.contains (x, y) := by
  rw [Bool.eq_iff_iff, List.contains_iff_mem, List.contains_iff_mem, List.mem_map]
  constructor
  · rintro ⟨⟨a, b⟩, hab, he⟩
    obtain ⟨hax, hby⟩ := Prod.mk.inj he
    have haw := hx.above_mem a (List.mem_map_of_mem (f := Prod.fst) hab)
    have hbw := hy.above_mem b (List.mem_map_of_mem (f := Prod.snd) hab)
    rwa [ha.part.inj a haw x hxw hax, ha.part.inj b hbw y hyw hby] at hab
  · exact fun h => ⟨(x, y), h, rfl⟩

/-- The comparisons made in the part are made in the whole too. -/
theorem pending_cons (hx : Stands body L (pairs.map Prod.fst) x)
    (hy : Stands body L (pairs.map Prod.snd) y) (hxw : x ∈ within body.length)
    (hyw : y ∈ within body.length)
    (hp : (stage (program whole) S' L').Pending (pairs.map (Prod.map f f)))
    (hseen : ¬ pairs.contains (x, y))
    (hlen : ((stage (program body) S L).node x).length = ((stage (program body) S L).node y).length)
    (hv : (k, v) ∈ (stage (program body) S L).node x) :
    (stage (program whole) S' L').Pending (((x, y) :: pairs).map (Prod.map f f)) := by
  have hfield : (k, v.rename f) ∈ (stage (program whole) S' L').node (f x) := by
    rw [ha.node hxw]
    exact List.mem_map.mpr ⟨_, hv, rfl⟩
  refine hp.cons ?_ ?_ hfield
  · rwa [ha.contains_rename hx hy hxw hyw]
  · simpa only [ha.node hxw, ha.node hyw, renameFields, List.length_map] using hlen

section
variable (hp : (stage (program body) S L).Pending pairs)
  (hp' : (stage (program whole) S' L').Pending (pairs.map (Prod.map f f)))
  (hn : (program body).size * (program body).size < n + pairs.length)
  (hn' : (program whole).size * (program whole).size < n + pairs.length)

include hp hp' hn hn'

theorem sameObjects_root_left (hy : Stands body L (pairs.map Prod.snd) y)
    (hyw : y ∈ within body.length) (hnot : y ∉ attached L) :
    (stage (program whole) S' L').sameObjects n (pairs.map (Prod.map f f)) [] (f y) =
      (stage (program body) S L).sameObjects n pairs [] y := by
  obtain ⟨c, hchild, hmem⟩ := ha.rooted
  have hcw := mem_within_of_mem_children_root hchild
  have hbelow := ha.below_rename hy hyw
  rw [List.map_map] at hbelow
  rw [Tree.sameObjects_root_left ha.distinct ha.staged ha.climbs hchild hmem hp hn hnot
      fun b hb hnot => (hy.below b hb hnot).2,
    Tree.sameObjects_root_left ha.distinct' ha.staged' ha.climbs' ((ha.part.root c hcw).mpr hchild)
      ((ha.mem_attached hcw).mpr hmem) hp' (by rwa [List.length_map])
      (mt (ha.mem_attached hyw).mp hnot) (by rwa [List.map_map])]

theorem sameObjects_root_right (hx : Stands body L (pairs.map Prod.fst) x)
    (hxw : x ∈ within body.length) (hnot : x ∉ attached L) :
    (stage (program whole) S' L').sameObjects n (pairs.map (Prod.map f f)) (f x) [] =
      (stage (program body) S L).sameObjects n pairs x [] := by
  obtain ⟨c, hchild, hmem⟩ := ha.rooted
  have hcw := mem_within_of_mem_children_root hchild
  have hbelow := ha.below_rename hx hxw
  rw [List.map_map] at hbelow
  rw [Tree.sameObjects_root_right ha.distinct ha.staged ha.climbs hchild hmem hp hn hnot
      fun a hb hnot => (hx.below a hb hnot).2,
    Tree.sameObjects_root_right ha.distinct' ha.staged' ha.climbs' ((ha.part.root c hcw).mpr hchild)
      ((ha.mem_attached hcw).mpr hmem) hp' (by rwa [List.length_map])
      (mt (ha.mem_attached hxw).mp hnot) (by rwa [List.map_map])]

end

/-- Objects of a part compare as they do in the whole. Sides that both are attached go up together, so
the root is only ever compared with what is not attached. -/
theorem sameObjects (hx : Stands body L (pairs.map Prod.fst) x)
    (hy : Stands body L (pairs.map Prod.snd) y) (hne : x ≠ y)
    (hlevel : x ∈ attached L → y ∈ attached L → level x = level y)
    (hp : (stage (program body) S L).Pending pairs)
    (hp' : (stage (program whole) S' L').Pending (pairs.map (Prod.map f f)))
    (hn : (program body).size * (program body).size < n + pairs.length)
    (hn' : (program whole).size * (program whole).size < n + pairs.length) :
    (stage (program whole) S' L').sameObjects n (pairs.map (Prod.map f f)) (f x) (f y) =
      (stage (program body) S L).sameObjects n pairs x y := by
  induction n generalizing pairs x y with
  -- Pending pairs are pairs of objects, so that their number bounds the depth.
  | zero => exact absurd hp.length_le (Nat.not_le_of_lt (by rwa [Nat.zero_add] at hn))
  | succ n ih =>
    rcases hx.mem with rfl | hxw
    · have hyw := hy.mem.resolve_left (Ne.symm hne)
      rw [ha.part.embeds.root_eq]
      exact ha.sameObjects_root_left hp hp' hn hn' hy hyw fun hmem =>
        (level_pos_of_mem_within hyw).ne (hlevel (Or.inl rfl) hmem)
    rcases hy.mem with rfl | hyw
    · rw [ha.part.embeds.root_eq]
      exact ha.sameObjects_root_right hp hp' hn hn' hx hxw fun hmem =>
        (level_pos_of_mem_within hxw).ne' (hlevel hmem (Or.inl rfl))
    rw [Heap.sameObjects_succ, Heap.sameObjects_succ, ha.contains_rename hx hy hxw hyw,
      ha.node hxw, ha.node hyw, renameFields, renameFields, List.length_map, List.length_map,
      Heap.allOf_map]
    split_ifs with hseen hlen
    · rfl
    · refine Heap.allOf_congr fun field hv => ?_
      obtain ⟨k, v⟩ := field
      have hget := get?_of_mem_node_stage ha.distinct ha.staged hv
      dsimp only
      rw [Heap.hasField, Heap.hasField, ha.get? hyw]
      cases hw : (stage (program body) S L).get? y k with
      | none => rfl
      | some w =>
        refine Heap.sameBy_rename fun r s hr hs => ?_
        have hxr : Stands body L (((x, y) :: pairs).map Prod.fst) r :=
          hx.step ha.distinct ha.staged ha.climbs hxw hget hr
        have hys : Stands body L (((x, y) :: pairs).map Prod.snd) s :=
          hy.step ha.distinct ha.staged ha.climbs hyw hw hs
        have hlevels : r ∈ attached L → s ∈ attached L → level r = level s :=
          ha.climbs.level_eq_of_leads ha.distinct ha.staged (ne_nil_of_mem_within hxw)
            (ne_nil_of_mem_within hyw) hlevel hget hr hw hs
        refine ⟨ha.eq_of_rename hxr.mem hys.mem, fun hrs => ih hxr hys hrs hlevels ?_ ?_ ?_ ?_⟩
        · exact hp.cons hseen hlen hv
        · exact ha.pending_cons hx hy hxw hyw hp' hseen hlen hv
        · rw [List.length_cons]
          omega
        · rw [List.length_cons]
          omega
    · rfl

end Abreast

end IdentCase.Tree
