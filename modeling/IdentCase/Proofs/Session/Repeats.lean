import IdentCase.Proofs.Reports
import IdentCase.Proofs.Session.Actions
import IdentCase.Proofs.Tree.Relinking

/-! Passes over one tree, one after the other: they do not disturb each other. -/
namespace IdentCase

open IdentCase.Tree

/-- Whether an action is a pass over a tree, from the value at one of the given paths. -/
def Action.PassFrom (tree : Json) (D : Set Path) : Action → Prop
  | .attach root | .lint _ _ root => ∃ p ∈ D, ∃ v, valueAt? tree p = some v ∧ root = valueOf p v
  | _ => False

section
variable {tree : Json} {D : Set Path} {c : Config} {s : Session} {h h' : Heap} {p : Path} {v : Json}

/-- What a check finds depends on the linked tree alone. -/
theorem pass_congr {root : Value}
    (hrun : (attachParents root).run.run h = (attachParents root).run.run h') :
    pass c root h = pass c root h' := by
  cases root with
  | object p =>
    unfold pass
    rw [hrun]
  | _ => rfl

theorem Action.heap_run_of_passFrom {a : Action} (ha : a.PassFrom tree D) :
    (a.run c s).2.heap = s.heap ∨ ∃ p ∈ D, ∃ v, valueAt? tree p = some v ∧
      (a.run c s).2.heap = ((attachParents (valueOf p v)).run.run s.heap).2 := by
  cases a with
  | attach root =>
    obtain ⟨p, hp, v, hv, rfl⟩ := ha
    exact Or.inr ⟨p, hp, v, hv, rfl⟩
  | lint host options root =>
    obtain ⟨p, hp, v, hv, rfl⟩ := ha
    have hheap := heap_run_lint host options (valueOf p v) { heap := s.heap }
    rcases hr : Options.resolve host options with e | config
    · rw [hr] at hheap
      exact Or.inl hheap
    · rw [hr] at hheap
      exact Or.inr ⟨p, hp, v, hv, hheap⟩
  | _ => exact ha.elim

/-- What linking from some nodes keeps holds after any passes from there. -/
theorem Session.heap_after_passes {P : Heap → Prop} {passes : List Action}
    (hstep : ∀ p ∈ D, ∀ v, valueAt? tree p = some v →
      ∀ h, P h → P ((attachParents (valueOf p v)).run.run h).2)
    (hs : P s.heap) (hp : ∀ a ∈ passes, a.PassFrom tree D) : P (s.after c passes).heap := by
  induction passes generalizing s with
  | nil => exact hs
  | cons a passes ih =>
    have hnext : P (a.run c s).2.heap := by
      rcases Action.heap_run_of_passFrom (c := c) (s := s) (hp a List.mem_cons_self) with
        he | ⟨p, hpD, v, hv, he⟩
      · rw [he]
        exact hs
      · rw [he]
        exact hstep p hpD v hv s.heap hs
    exact ih hnext fun b hb => hp b (List.mem_cons_of_mem _ hb)

theorem valueOf_of_type (ht : ((Heap.load tree).get? p "type").isSome)
    (hv : valueAt? tree p = some v) : valueOf p v = .object p := by
  obtain ⟨type, htype⟩ := Option.isSome_iff_exists.mp ht
  obtain ⟨fields, hf⟩ := Heap.exists_fields_of_get? htype
  obtain rfl : v = .obj fields := Option.some.inj (hv.symm.trans hf)
  rw [valueOf]

/-- After any passes over a tree it can be linked from the root, as if there had been none. -/
theorem run_attachParents_after_passes {passes : List Action} {progress : Progress}
    (hr : ((Heap.load tree).get? [] "type").isSome) (hn : AtomicNames (Heap.load tree).shared)
    (hp : ∀ a ∈ passes, a.PassFrom tree {p | (Heap.load tree).shared.Reaches [] p}) :
    (attachParents (.object [])).run.run
      (Session.after c ⟨Heap.load tree, progress⟩ passes).heap = (.ok (), linked tree) := by
  let P (h : Heap) : Prop := ∃ S L, h = stage tree S L ∧ LinkedInPart tree S L
  have hstart : P (Heap.load tree) := ⟨∅, _, stage_nothing.symm, .nothing tree⟩
  have hstep : ∀ p ∈ {p | (Heap.load tree).shared.Reaches [] p}, ∀ v, valueAt? tree p = some v →
      ∀ h, P h → P ((attachParents (valueOf p v)).run.run h).2 := by
    rintro p hreach v hv h ⟨S, L, rfl, hl⟩
    obtain ⟨S', L', hrun, hl'⟩ := hl.run_attachParents hr hn hreach
    rw [valueOf_of_type (isSome_type_of_reaches hr hreach) hv, hrun]
    exact ⟨S', L', rfl, hl'⟩
  have hend : P (Session.after c ⟨Heap.load tree, progress⟩ passes).heap :=
    Session.heap_after_passes hstep hstart hp
  obtain ⟨S, L, hheap, hl⟩ := hend
  rw [hheap]
  exact hl.run_attachParents_root hr hn

/-- A root without a type only gets a parent, if it has none, and that once. -/
theorem run_attachParents_twice (hr : ((Heap.load tree).get? [] "type").isNone) :
    (attachParents (valueOf [] tree)).run.run
        ((attachParents (valueOf [] tree)).run.run (Heap.load tree)).2 =
      (attachParents (valueOf [] tree)).run.run (Heap.load tree) := by
  by_cases hobject : ∃ p, valueOf [] tree = .object p
  · obtain ⟨p, ho⟩ := hobject
    obtain rfl := (valueOf_eq_object ho).1
    have hstart : (((Heap.load tree).start []).get? [] "type").isNone := by
      rwa [Heap.get?_start_of_ne (by decide)]
    rw [ho, run_attachParents_object (Heap.load tree), if_pos hr, run_attachParents_object,
      if_pos hstart, Heap.start_start]
  · push Not at hobject
    rw [run_attachParents_of_ne_object hobject, run_attachParents_of_ne_object hobject]

theorem run_attachParents_after_root_passes {passes : List Action} {progress : Progress}
    (hr : ((Heap.load tree).get? [] "type").isNone) (hp : ∀ a ∈ passes, a.PassFrom tree {[]}) :
    (attachParents (valueOf [] tree)).run.run
        (Session.after c ⟨Heap.load tree, progress⟩ passes).heap =
      (attachParents (valueOf [] tree)).run.run (Heap.load tree) := by
  let P (h : Heap) : Prop :=
    h = Heap.load tree ∨ h = ((attachParents (valueOf [] tree)).run.run (Heap.load tree)).2
  have hstep : ∀ p ∈ ({[]} : Set Path), ∀ v, valueAt? tree p = some v →
      ∀ h, P h → P ((attachParents (valueOf p v)).run.run h).2 := by
    rintro p rfl v hv h hh
    obtain rfl : tree = v := Option.some.inj hv
    rcases hh with rfl | rfl
    · exact Or.inr rfl
    · exact Or.inr (congrArg Prod.snd (run_attachParents_twice hr))
  have hend : P (Session.after c ⟨Heap.load tree, progress⟩ passes).heap :=
    Session.heap_after_passes hstep (Or.inl rfl) hp
  rcases hend with he | he
  · rw [he]
  · rw [he, run_attachParents_twice hr]

/-- A tree cannot be checked if its root has no type, whatever passes there were. -/
theorem pass_after_passes_of_untyped {passes : List Action} {progress : Progress}
    (hr : ((Heap.load tree).get? [] "type").isNone) (hp : ∀ a ∈ passes, a.PassFrom tree D)
    (config : Config) :
    pass config (valueOf [] tree) (Session.after c ⟨Heap.load tree, progress⟩ passes).heap =
      pass config (valueOf [] tree) (Heap.load tree) := by
  by_cases hobject : ∃ p, valueOf [] tree = .object p
  · obtain ⟨p, ho⟩ := hobject
    obtain rfl := (valueOf_eq_object ho).1
    let P (h : Heap) : Prop := (h.get? [] "type").isNone
    have hstep : ∀ p ∈ D, ∀ v, valueAt? tree p = some v →
        ∀ h, P h → P ((attachParents (valueOf p v)).run.run h).2 := by
      intro p _ v _ h hh
      have hkept := spares_attachParents (q := []) (k := "type") (by decide) (by decide)
        (valueOf p v) h
      show (((attachParents (valueOf p v)).run.run h).2.get? [] "type").isNone
      rw [hkept]
      exact hh
    have hend : P (Session.after c ⟨Heap.load tree, progress⟩ passes).heap :=
      Session.heap_after_passes hstep hr hp
    rw [ho, pass_of_untyped hr, pass_of_untyped hend]
  · cases hv : valueOf [] tree with
    | object p => exact absurd ⟨p, hv⟩ hobject
    | _ => rfl

end

/--
Passes over a tree do not disturb each other: to link it from the root in the end leaves what it
leaves without the passes, and a check from the root finds what it finds without them. If the root
has no type it cannot be linked from there, and all passes have to start from the root.
-/
theorem passes_again (tree : Json) (hn : AtomicNames (Heap.load tree).shared) (c : Config)
    (progress : Progress) (passes : List Action)
    (hp : ∀ a ∈ passes, a.PassFrom tree {p | (Heap.load tree).shared.Reaches [] p}) :
    let h := (Session.after c ⟨Heap.load tree, progress⟩ passes).heap
    (((Heap.load tree).get? [] "type").isSome ∨ (∀ a ∈ passes, a.PassFrom tree {[]}) →
      (attachParents (valueOf [] tree)).run.run h =
        (attachParents (valueOf [] tree)).run.run (Heap.load tree)) ∧
    ∀ host options progress,
      ((lint host options (valueOf [] tree)).run.run ⟨h, progress⟩).1 =
        ((lint host options (valueOf [] tree)).run.run ⟨Heap.load tree, {}⟩).1 := by
  intro h
  have hlint : (∀ config, pass config (valueOf [] tree) h =
        pass config (valueOf [] tree) (Heap.load tree)) → ∀ host options progress,
      ((lint host options (valueOf [] tree)).run.run ⟨h, progress⟩).1 =
        ((lint host options (valueOf [] tree)).run.run ⟨Heap.load tree, {}⟩).1 := by
    intro hpass host options progress
    rw [run_lint, run_lint]
    simp only [hpass]
  by_cases hr : ((Heap.load tree).get? [] "type").isSome
  · have hlink : (attachParents (valueOf [] tree)).run.run h =
        (attachParents (valueOf [] tree)).run.run (Heap.load tree) := by
      have hnever : ∀ a ∈ ([] : List Action),
          a.PassFrom tree {p | (Heap.load tree).shared.Reaches [] p} := by simp
      have honce : (attachParents (.object [])).run.run
          (Session.after c ⟨Heap.load tree, progress⟩ []).heap = (.ok (), linked tree) :=
        run_attachParents_after_passes hr hn hnever
      rw [valueOf_root hr, run_attachParents_after_passes hr hn hp]
      exact honce.symm
    exact ⟨fun _ => hlink, hlint fun _ => pass_congr hlink⟩
  · have hr' : ((Heap.load tree).get? [] "type").isNone := by simpa using hr
    refine ⟨fun hroot => ?_, hlint (pass_after_passes_of_untyped hr' hp)⟩
    exact run_attachParents_after_root_passes hr' (hroot.resolve_left hr)

theorem passes_again_shorthandProgram :
    let h := Heap.load shorthandProgram
    let property : Value := .object [.index 0, .key "body"]
    let passes : List Action := [.lint {} .null property, .attach (.object []), .lint {} .null property]
    let h' := (Session.after {} ⟨h, {}⟩ passes).heap
    (attachParents (.object [])).run.run h' = (attachParents (.object [])).run.run h ∧
      ((lint {} .null (.object [])).run.run ⟨h', {}⟩).1 = .ok [shorthandViolation] := by
  intro h property passes h'
  have hproperty : h.shared.Reaches [] [.index 0, .key "body"] := .single (by decide +kernel)
  have hp : ∀ a ∈ passes, a.PassFrom shorthandProgram {p | h.shared.Reaches [] p} := by
    intro a ha
    simp only [passes, List.mem_cons, List.not_mem_nil, or_false] at ha
    rcases ha with rfl | rfl | rfl
    · exact ⟨_, hproperty, _, rfl, rfl⟩
    · exact ⟨[], .refl, _, rfl, rfl⟩
    · exact ⟨_, hproperty, _, rfl, rfl⟩
  have hnames : shorthandProgram.Everywhere TextName := by
    simp [shorthandProgram, Json.Everywhere, Json.EverywhereFields, Json.EverywhereItems, TextName,
      lookup_cons_eq_ite]
  obtain ⟨hlink, hlint⟩ :=
    passes_again shorthandProgram (atomicNames_of_everywhere hnames) {} {} passes hp
  exact ⟨hlink (Or.inl (by decide)), (hlint {} .null {}).trans ((run_lint {} .null _ _).trans rfl)⟩

/-- A statement that is an identifier, in a field of a root that has no type. -/
def untypedTree : Json :=
  .obj [("a", .obj [("type", .str "ExpressionStatement"),
    ("expression", .obj [("type", .str "Identifier"), ("name", .str "y")])])]

/-- If the root has no type, linking from the root leaves out all below it, which may be linked before. -/
theorem not_passes_again_untypedTree : ¬ ∀ (tree : Json) (passes : List Action),
    tree.Everywhere TextName →
    (∀ a ∈ passes, a.PassFrom tree {p | (Heap.load tree).shared.Reaches [] p}) →
    (attachParents (valueOf [] tree)).run.run (Session.after {} ⟨Heap.load tree, {}⟩ passes).heap =
      (attachParents (valueOf [] tree)).run.run (Heap.load tree) := by
  intro h
  let link : Action := .attach (.object [.key "a"])
  have hnames : untypedTree.Everywhere TextName := by
    simp [untypedTree, Json.Everywhere, Json.EverywhereFields, TextName, lookup_cons_eq_ite]
  have hreach : (Heap.load untypedTree).shared.Reaches [] [.key "a"] :=
    .single (by decide +kernel)
  have hpass : ∀ a ∈ [link], a.PassFrom untypedTree
      {p | (Heap.load untypedTree).shared.Reaches [] p} := by
    intro a ha
    obtain rfl := List.mem_singleton.mp ha
    exact ⟨_, hreach, _, rfl, rfl⟩
  have hagain := h untypedTree [link] hnames hpass
  have hparent := congrArg (fun r => (r.2.get? [.key "a"] "parent").isSome) hagain
  revert hparent
  decide +kernel

end IdentCase
