import IdentCase.Proofs.Tree.Abreast

/-! Linking a program comes down to linking its parts, the last first: it fails as the first of them
that fails. -/
namespace IdentCase.Tree

/-- Where the name of an identifier in a field leads. -/
theorem stands_of_name {body : List Json} {L : Path → Option Value} {p r : Path} {k : String}
    (hp : p ∈ within body.length)
    (hr : ((Heap.load (program body)).get (.key k :: p) "name").Leads r) :
    Stands body L [] r ∧ level r = level p + 2 := by
  have hin : InField (.key k :: p) r := by
    rw [Heap.get] at hr
    cases hg : (Heap.load (program body)).get? (.key k :: p) "name" with
    | none =>
      rw [hg] at hr
      cases hr
    | some v =>
      rw [hg] at hr
      exact (leads_of_get?_load hg hr).1
  refine ⟨⟨Or.inr ?_, List.forall_mem_nil _, List.forall_mem_nil _⟩, ?_⟩
  · exact mem_within_of_suffix (cons_mem_within hp) hin.suffix
  · rw [hin.level_eq, level_key]

namespace Abreast

variable {f : Path → Path} {body whole : List Json} {S S' : Set Path} {L L' : Path → Option Value}
  {p : Path} (ha : Abreast f body whole S L S' L')

include ha

theorem written_iff (hp : p ∈ within body.length) :
    Written (program whole) (f p) ↔ Written (program body) p := by
  have hstep := ha.part.step_key
  have he := ha.part.embeds
  constructor
  · rintro ⟨hprop, hsh, hkey, hvalue⟩
    rw [he.hasType hp] at hprop
    rw [he.truthy_shorthand hp] at hsh
    rw [he.hasType_key hstep hp] at hkey hvalue
    exact ⟨hprop, hsh, hkey, hvalue⟩
  · rintro ⟨hprop, hsh, hkey, hvalue⟩
    rw [← he.hasType hp] at hprop
    rw [← he.truthy_shorthand hp] at hsh
    rw [← he.hasType_key hstep hp] at hkey hvalue
    exact ⟨hprop, hsh, hkey, hvalue⟩

/-- The names of a shorthand compare in a part as they do in the whole. -/
theorem sameNames (hp : p ∈ within body.length) :
    (stage (program whole) S' L').sameNames (program whole) (f p) =
      (stage (program body) S L).sameNames (program body) p := by
  have hstep := ha.part.step_key
  have he := ha.part.embeds
  rw [Heap.sameNames, Heap.sameNames, he.get_key_name hstep hp, he.get_key_name hstep hp]
  by_cases hatom : ((Heap.load (program body)).get (.key "key" :: p) "name").isAtom
  · rw [same_of_isAtom (Or.inl hatom), same_of_isAtom (Or.inl (by rwa [isAtom_rename])),
      sameAtom_rename]
  · have hatom' : ¬ (((Heap.load (program body)).get (.key "key" :: p) "name").rename f).isAtom := by
      rwa [isAtom_rename]
    -- One bound on the depth of both comparisons.
    let n := max ((program body).size * (program body).size)
      ((program whole).size * (program whole).size) + 1
    have hn : (program body).size * (program body).size < n := Nat.lt_succ_of_le (le_max_left _ _)
    have hn' : (program whole).size * (program whole).size < n :=
      Nat.lt_succ_of_le (le_max_right _ _)
    rw [Heap.same_eq_sameBy hn' hatom', Heap.same_eq_sameBy hn hatom]
    refine Heap.sameBy_rename fun r s hr hs => ?_
    obtain ⟨hr, hlr⟩ := stands_of_name (L := L) hp hr
    obtain ⟨hs, hls⟩ := stands_of_name (L := L) hp hs
    refine ⟨ha.eq_of_rename hr.mem hs.mem, fun hrs => ?_⟩
    have hr : Stands body L (([] : List (Path × Path)).map Prod.fst) r := hr
    have hs : Stands body L (([] : List (Path × Path)).map Prod.snd) s := hs
    exact ha.sameObjects hr hs hrs (fun _ _ => hlr.trans hls.symm) Heap.pending_nil Heap.pending_nil
      hn hn'

theorem insert (hp : p ∈ within body.length) (hmem : p ∈ attached L)
    (hl : Likely (program body) p) (hl' : Likely (program whole) (f p)) :
    Abreast f body whole (insert p S) L (insert (f p) S') L' where
  part := ha.part
  distinct := ha.distinct
  distinct' := ha.distinct'
  staged := staged_insert ha.staged hl
  staged' := staged_insert ha.staged' hl'
  climbs := ha.climbs.insert hmem
  climbs' := ha.climbs'.insert ((ha.mem_attached hp).mpr hmem)
  shared q hq := by
    rw [Set.mem_insert_iff, Set.mem_insert_iff, ha.shared q hq]
    exact or_congr_left ⟨ha.part.inj q hq p hp, congrArg f⟩
  links := ha.links
  rooted := ha.rooted

/-- Both stages prepare a node of the part in the same way. -/
theorem prepare (hp : p ∈ within body.length) (hmem : p ∈ attached L) :
    ∃ r S₁ S₁', (prepare p).run.run (stage (program body) S L) = (r, stage (program body) S₁ L) ∧
      (Tree.prepare (f p)).run.run (stage (program whole) S' L') = (r, stage (program whole) S₁' L') ∧
      Abreast f body whole S₁ L S₁' L' ∧ ∀ q ≠ f p, q ∈ S₁' ↔ q ∈ S' := by
  by_cases hw : p ∉ S ∧ Written (program body) p
  · obtain ⟨hpS, hw⟩ := hw
    have hpS' : f p ∉ S' := mt (ha.shared p hp).mp hpS
    have hw' := (ha.written_iff hp).mpr hw
    rw [run_prepare_of_written ha.staged hpS hw, run_prepare_of_written ha.staged' hpS' hw',
      ha.sameNames hp]
    rcases hn : (stage (program body) S L).sameNames (program body) p with e | _ | _
    · exact ⟨_, S, S', rfl, rfl, ha, fun _ _ => Iff.rfl⟩
    · exact ⟨_, S, S', rfl, rfl, ha, fun _ _ => Iff.rfl⟩
    · have hl := (shares_stage ha.staged (hw.shares ha.staged hpS hn)).2.2
      have hl' := (shares_stage ha.staged'
        (hw'.shares ha.staged' hpS' ((ha.sameNames hp).trans hn))).2.2
      exact ⟨_, _, _, rfl, rfl, ha.insert hp hmem hl hl', fun q hq => by simp [hq]⟩
  · have hw' : ¬ (f p ∉ S' ∧ Written (program whole) (f p)) := by
      rwa [ha.shared p hp, ha.written_iff hp]
    exact ⟨_, S, S', run_prepare_of_not_written ha.staged hw,
      run_prepare_of_not_written ha.staged' hw', ha, fun _ _ => Iff.rfl⟩

theorem children (hp : p ∈ within body.length) :
    (stage (program whole) S' L').children (f p) = ((stage (program body) S L).children p).map f :=
  ha.part.embeds.children_stage ha.part.step_key (fun q hq h => ha.part.inj q hq p hp h) hp
    (ha.shared p hp)

/-- Both stages link the children of a node of the part. -/
theorem link_children (hp : p ∈ within body.length) (hmem : p ∈ attached L) :
    Abreast f body whole S (linkTo {c | c ∈ (stage (program body) S L).children p} L)
      S' (linkTo {c | c ∈ (stage (program whole) S' L').children (f p)} L') where
  part := ha.part
  distinct := ha.distinct
  distinct' := ha.distinct'
  staged := staged_linkTo ha.staged fun _ => isSome_type_of_mem_children
  staged' := staged_linkTo ha.staged' fun _ => isSome_type_of_mem_children
  climbs := ha.climbs.linkTo hmem fun _ hc =>
    Heap.childPath_of_mem_children (children_stage_subset hc)
  climbs' := ha.climbs'.linkTo ((ha.mem_attached hp).mpr hmem) fun _ hc =>
    Heap.childPath_of_mem_children (children_stage_subset hc)
  shared := ha.shared
  links q hq := by
    have hmem : f q ∈ (stage (program whole) S' L').children (f p) ↔
        q ∈ (stage (program body) S L).children p := by
      rw [ha.children hp, List.mem_map]
      constructor
      · rintro ⟨c, hc, he⟩
        have hcw := mem_within_of_mem_children hp (children_stage_subset hc)
        exact ha.part.inj c hcw q hq he ▸ hc
      · exact fun hc => ⟨q, hc, rfl⟩
    simp only [linkTo, Set.mem_ofPred_eq]
    by_cases hc : q ∈ (stage (program body) S L).children p
    · rw [if_pos hc, if_pos (hmem.mpr hc), ha.part.holder_eq q hq, Option.map_some, Value.rename]
    · rw [if_neg hc, if_neg (mt hmem.mp hc), ha.links q hq]
  rooted := by
    obtain ⟨c, hc, hcm⟩ := ha.rooted
    exact ⟨c, hc, by rw [attached_linkTo]; exact Or.inr hcm⟩

end Abreast

/-- Whether an edit of a part and one of the whole end in the same way, keep the two abreast, and leave
all else in the whole alone, once certain nodes are attached. -/
def Marches (f : Path → Path) (body whole : List Json) (A : Set Path) (m m' : Edit Unit) : Prop :=
  ∀ S L S' L', Abreast f body whole S L S' L' → A ⊆ attached L →
    ∃ r S₁ L₁ S₁' L₁', m.run.run (stage (program body) S L) = (r, stage (program body) S₁ L₁) ∧
      m'.run.run (stage (program whole) S' L') = (r, stage (program whole) S₁' L₁') ∧
      Abreast f body whole S₁ L₁ S₁' L₁' ∧ attached L ⊆ attached L₁ ∧
      ∀ q ∉ f '' within body.length, (q ∈ S₁' ↔ q ∈ S') ∧ L₁' q = L' q

section
variable {f : Path → Path} {body whole : List Json} {p : Path}

theorem Marches.forM {cs : List Path} {g g' : Path → Edit Unit}
    (h : ∀ c ∈ cs, Marches f body whole {c} (g c) (g' (f c))) :
    Marches f body whole {c | c ∈ cs} (cs.forM g) ((cs.map f).forM g') := by
  induction cs with
  | nil =>
    intro S L S' L' ha _
    exact ⟨_, S, L, S', L', rfl, rfl, ha, le_rfl, fun _ _ => ⟨Iff.rfl, rfl⟩⟩
  | cons c cs ih =>
    intro S L S' L' ha hA
    rw [List.map_cons, run_forM_cons, run_forM_cons]
    obtain ⟨r, S₁, L₁, S₁', L₁', hr, hr', ha₁, hle₁, hkeep₁⟩ :=
      h c List.mem_cons_self _ _ _ _ ha (Set.singleton_subset_iff.mpr (hA List.mem_cons_self))
    rw [hr, hr']
    cases r with
    | error e => exact ⟨_, S₁, L₁, S₁', L₁', rfl, rfl, ha₁, hle₁, hkeep₁⟩
    | ok u =>
      have hrest : {c | c ∈ cs} ⊆ attached L₁ := fun d hd => hle₁ (hA (List.mem_cons_of_mem _ hd))
      obtain ⟨r, S₂, L₂, S₂', L₂', hr, hr', ha₂, hle₂, hkeep₂⟩ :=
        ih (fun d hd => h d (List.mem_cons_of_mem _ hd)) _ _ _ _ ha₁ hrest
      refine ⟨r, S₂, L₂, S₂', L₂', hr, hr', ha₂, hle₁.trans hle₂, fun q hq => ?_⟩
      exact ⟨(hkeep₂ q hq).1.trans (hkeep₁ q hq).1, (hkeep₂ q hq).2.trans (hkeep₁ q hq).2⟩

theorem marches_linkBelow {fuel fuel' : Nat} (hp : p ∈ within body.length)
    (hf : sizeAt (program body) p < fuel) (hf' : sizeAt (program body) p < fuel') :
    Marches f body whole {p} (linkBelow fuel p) (linkBelow fuel' (f p)) := by
  induction fuel generalizing fuel' p with
  | zero => exact absurd hf (Nat.not_lt_zero _)
  | succ fuel ih =>
    obtain ⟨fuel', rfl⟩ := Nat.exists_eq_succ_of_ne_zero (Nat.ne_zero_of_lt hf')
    intro S L S' L' ha hA
    have hmem := Set.singleton_subset_iff.mp hA
    obtain ⟨r, S₁, S₁', hr, hr', ha₁, hkeep₁⟩ := ha.prepare hp hmem
    have hout : ∀ q ∉ f '' within body.length, q ∈ S₁' ↔ q ∈ S' := fun q hq =>
      hkeep₁ q fun he => hq ⟨p, hp, he.symm⟩
    rw [linkBelow_succ, linkBelow_succ, run_bind, run_bind, hr, hr']
    cases r with
    | error e => exact ⟨_, S₁, L, S₁', L', rfl, rfl, ha₁, le_rfl, fun q hq => ⟨hout q hq, rfl⟩⟩
    | ok u =>
      have ha₂ := ha₁.link_children hp hmem
      have hchild : ∀ c ∈ ((stage (program body) S₁ L).children p).reverse,
          Marches f body whole {c} (linkBelow fuel c) (linkBelow fuel' (f c)) := by
        intro c hc
        have hload := children_stage_subset (List.mem_reverse.mp hc)
        have hlt := sizeAt_lt_of_mem_children hload
        exact ih (mem_within_of_mem_children hp hload) (by omega) (by omega)
      have hattached : {c | c ∈ ((stage (program body) S₁ L).children p).reverse} ⊆
          attached (linkTo {c | c ∈ (stage (program body) S₁ L).children p} L) := by
        rw [attached_linkTo]
        exact fun c hc => Or.inl (List.mem_reverse.mp hc)
      obtain ⟨r, S₂, L₂, S₂', L₂', hr, hr', ha₃, hle, hkeep⟩ := Marches.forM hchild _ _ _ _ ha₂ hattached
      simp only [andThen_ok, run_bind, run_get]
      rw [run_link_children _ _ (fun _ => holder_of_mem_children)
          (fun _ => isSome_type_of_mem_children),
        run_link_children _ _ (fun _ => holder_of_mem_children)
          (fun _ => isSome_type_of_mem_children), andThen_ok, andThen_ok]
      rw [List.map_reverse, ← ha₁.children hp] at hr'
      rw [attached_linkTo] at hle
      refine ⟨r, S₂, L₂, S₂', L₂', hr, hr', ha₃, Set.subset_union_right.trans hle, fun q hq => ?_⟩
      refine ⟨(hkeep q hq).1.trans (hout q hq), (hkeep q hq).2.trans (if_neg fun hc => hq ?_)⟩
      rw [Set.mem_ofPred_eq, ha₁.children hp, List.mem_map] at hc
      obtain ⟨c, hc, rfl⟩ := hc
      exact ⟨c, mem_within_of_mem_children hp (children_stage_subset hc), rfl⟩

end

/-- The parents in a program whose statements have been linked to it. -/
noncomputable def startLinks (body : List Json) : Path → Option Value :=
  linkTo {c | c ∈ (Heap.load (program body)).children []} (rootLink (program body))

def linking (body : List Json) : Except Fault Unit :=
  ((attachParents (.object [])).run.run (Heap.load (program body))).1

section
variable {f : Path → Path} {body whole first second : List Json} {S' : Set Path}
  {L' : Path → Option Value}

theorem staged_startLinks : Staged (program body) ∅ (startLinks body) :=
  staged_linkTo (staged_rootLink isSome_type_root) fun _ hc => by
    obtain ⟨-, -, -, -, -, ht⟩ := Heap.mem_children.mp hc
    exact ht

theorem climbs_startLinks : Climbs ∅ (startLinks body) := by
  have hroot : Climbs ∅ (rootLink (program body)) := by
    refine ⟨fun p v hne hv => ?_, Set.empty_subset _⟩
    rw [rootLink_of_ne hne] at hv
    cases hv
  exact hroot.linkTo (Or.inl rfl) fun _ hc => Heap.childPath_of_mem_children hc

/-- Linking a program comes down to linking its statements, from the last to the first. -/
theorem run_attachParents_program :
    (attachParents (.object [])).run.run (Heap.load (program body)) =
      (((Heap.load (program body)).children []).reverse.forM (linkBelow (program body).size)).run.run
        (stage (program body) ∅ (startLinks body)) := by
  have hroot : ¬ ([] ∉ (∅ : Set Path) ∧ Written (program body) []) := by
    rintro ⟨-, hw⟩
    have hprop := hw.isProperty
    rw [hasType_root (by decide)] at hprop
    cases hprop
  rw [run_attachParents isSome_type_root, linkBelow_succ, run_bind,
    run_prepare_of_not_written (staged_rootLink isSome_type_root) hroot, andThen_ok, run_bind, run_get,
    andThen_ok, run_bind, run_link_children _ _ (fun _ => holder_of_mem_children)
      (fun _ => isSome_type_of_mem_children), andThen_ok,
    children_stage_of_not_mem (Set.notMem_empty _)]
  rfl

theorem Part.startLinks (hpart : Part f body whole) {p : Path} (hp : p ∈ within body.length) :
    startLinks whole (f p) = (Tree.startLinks body p).map (·.rename f) := by
  simp only [Tree.startLinks, linkTo, Set.mem_ofPred_eq, hpart.root p hp,
    rootLink_of_ne (hpart.ne_nil p hp), rootLink_of_ne (ne_nil_of_mem_within hp)]
  split
  · rw [hpart.holder_eq p hp, Option.map_some, Value.rename]
  · rfl

/-- While a part has not been linked in the whole, linking it there ends as it does alone. -/
theorem Part.run_statements (hpart : Part f body whole) (hd : (program body).Distinct)
    (hd' : (program whole).Distinct) (hs' : Staged (program whole) S' L') (hc' : Climbs S' L')
    (hfresh : ∀ p ∈ within body.length, f p ∉ S' ∧ L' (f p) = Tree.startLinks whole (f p)) :
    ∃ S₁ L₁, ((((Heap.load (program body)).children []).reverse.map f).forM
          (linkBelow (program whole).size)).run.run (stage (program whole) S' L') =
        (linking body, stage (program whole) S₁ L₁) ∧
      Staged (program whole) S₁ L₁ ∧ Climbs S₁ L₁ ∧
      ∀ q ∉ f '' within body.length, (q ∈ S₁ ↔ q ∈ S') ∧ L₁ q = L' q := by
  unfold linking
  rw [run_attachParents_program]
  rcases hcs : (Heap.load (program body)).children [] with _ | ⟨c, cs⟩
  -- Without statements there is nothing to link, and the root is on no ring.
  · exact ⟨S', L', rfl, hs', hc', fun _ _ => ⟨Iff.rfl, rfl⟩⟩
  · have hc : c ∈ (Heap.load (program body)).children [] := hcs ▸ List.mem_cons_self
    have hattached : {c | c ∈ ((Heap.load (program body)).children []).reverse} ⊆
        attached (Tree.startLinks body) := by
      rw [Tree.startLinks, attached_linkTo]
      exact fun d hd => Or.inl (List.mem_reverse.mp hd)
    have ha : Abreast f body whole ∅ (Tree.startLinks body) S' L' :=
      { part := hpart
        distinct := hd
        distinct' := hd'
        staged := staged_startLinks
        staged' := hs'
        climbs := climbs_startLinks
        climbs' := hc'
        shared := fun p hp => iff_of_false (hfresh p hp).1 (Set.notMem_empty p)
        links := fun p hp => (hfresh p hp).2.trans (hpart.startLinks hp)
        rooted := ⟨c, hc, hattached (List.mem_reverse.mpr hc)⟩ }
    have hmarch : ∀ d ∈ ((Heap.load (program body)).children []).reverse,
        Marches f body whole {d} (linkBelow (program body).size d)
          (linkBelow (program whole).size (f d)) := by
      intro d hd
      rw [List.mem_reverse] at hd
      have hdw := mem_within_of_mem_children_root hd
      have hlt := sizeAt_lt_of_mem_children ((hpart.root d hdw).mpr hd)
      rw [ha.sizeAt_eq hdw] at hlt
      exact marches_linkBelow hdw (sizeAt_lt_of_mem_children hd) hlt
    obtain ⟨r, S₁, L₁, S₁', L₁', hr, hr', ha₁, -, hkeep⟩ := Marches.forM hmarch _ _ _ _ ha hattached
    rw [← hcs, hr]
    exact ⟨S₁', L₁', hr', ha₁.staged', ha₁.climbs', hkeep⟩

/-- A program is linked from its end: if it fails it fails as the last part that fails. -/
theorem linking_append (hd : Json.DistinctItems (first ++ second)) :
    linking (first ++ second) = linking second >>= fun _ => linking first := by
  obtain ⟨hd₁, hd₂⟩ := Json.distinctItems_append.mp hd
  rw [← distinct_program] at hd hd₁ hd₂
  obtain ⟨S₂, L₂, hrun₂, hs₂, hc₂, hkeep₂⟩ := (part_second first second).run_statements hd₂ hd
    staged_startLinks climbs_startLinks fun _ _ => ⟨Set.notMem_empty _, rfl⟩
  have hfresh : ∀ p ∈ within first.length, id p ∉ S₂ ∧ L₂ (id p) = startLinks (first ++ second) (id p) := by
    intro p hp
    have hout : p ∉ shift first.length '' within second.length := by
      rintro ⟨q, hq, rfl⟩
      exact not_mem_within_of_shift hq List.suffix_rfl hp
    exact ⟨mt (hkeep₂ p hout).1.mp (Set.notMem_empty p), (hkeep₂ p hout).2⟩
  obtain ⟨S₁, L₁, hrun₁, -⟩ := (part_first first second).run_statements hd₁ hd hs₂ hc₂ hfresh
  have hrun : (attachParents (.object [])).run.run (Heap.load (program (first ++ second))) =
      andThen (linking second, stage (program (first ++ second)) S₂ L₂) fun _ h =>
        ((((Heap.load (program first)).children []).reverse.map id).forM
          (linkBelow (program (first ++ second)).size)).run.run h := by
    rw [run_attachParents_program, children_root_append, List.reverse_append, ← List.map_reverse,
      run_forM_append, hrun₂, List.map_id]
  rw [linking, hrun]
  cases linking second with
  | error e => rfl
  | ok u => rw [andThen_ok, hrun₁, ok_bind]

end

end IdentCase.Tree
