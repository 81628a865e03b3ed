import IdentCase.Proofs.Naming
import IdentCase.Proofs.Pattern.Plain
import Mathlib.Data.List.DropRight

/-! The low lines at the edges of a name: the pattern for them finds the two outer runs and no others,
where a line feed at the end of the name is passed over. -/
namespace IdentCase.Naming

open Pattern

def isLowLine (c : Char) : Bool := c == '_'

def withoutEdges (text : List Char) : List Char :=
  (text.dropWhile isLowLine).rdropWhile isLowLine

/-- Whether nothing is left of a text but perhaps a line feed. -/
def AtEnd (rest : List Char) : Prop := rest = [] ∨ rest = ['\n']

instance (rest : List Char) : Decidable (AtEnd rest) := inferInstanceAs (Decidable (_ ∨ _))

/-- A text without the low lines at its end, or before the line feed at its end. -/
def trimEnd : List Char → List Char
  | [] => []
  | c :: rest =>
    if isLowLine c ∧ AtEnd (rest.dropWhile isLowLine) then rest.dropWhile isLowLine
    else c :: trimEnd rest

def lowLine : CharTest := .code .exact '_'.toNat

/-- What the pattern for the edges is read from. -/
theorem compile_edgeLowLines (host : Host) :
    Pattern.compile host "^_+|_+$" {} = .ok ⟨"^_+|_+$", {}, edgeLowLines⟩ := by
  have hgroups : '(' ∉ "^_+|_+$".toList := by decide
  rw [Pattern.compile_of_not_overflows (Pattern.not_overflows_of_not_mem hgroups)]
  rfl

section
variable {s : State} {k : Next} {c : Char} {rest text before : List Char}

theorem accepts_lowLine : lowLine.accepts = isLowLine := by
  funext c
  simp [lowLine, CharTest.accepts, CaseMode.agrees, CaseMode.isCased, isLowLine, Char.ext_iff,
    UInt32.ext_iff]

theorem run_anchor_caret :
    (Expr.anchor (.caret false)).run k s = if s.before = [] then k s else none := by
  simp [Expr.run, Anchor.holds]

theorem run_anchor_dollar :
    (Expr.anchor (.dollar false)).run k s = if AtEnd s.after then k s else none := by
  have hholds : (Anchor.dollar false).holds s ↔ AtEnd s.after := by simp [Anchor.holds, AtEnd]
  simp only [Expr.run, hholds]

theorem not_atEnd_of_lowLine (hc : isLowLine c) : ¬ AtEnd (c :: rest) := by
  rintro (h | h)
  · cases h
  · cases h
    cases hc

theorem run_edgeLowLines_eq (s : State) :
    edgeLowLines.run some s =
      ((Expr.anchor (.caret false)).run (lowLines.run some) s).orElse fun _ =>
        lowLines.run ((Expr.anchor (.dollar false)).run some) s := rfl

theorem lowLines_eq : lowLines = .loop .greedy 1 none (.one lowLine) := rfl

/-- At other characters the pattern for the edges does not match. -/
theorem run_edgeLowLines_of_not_lowLine (h : s.runLength lowLine = 0) :
    edgeLowLines.run some s = none := by
  have hnone : ∀ k, lowLines.run k s = none := by
    intro k
    rw [lowLines_eq, run_loop_one, h]
    rfl
  rw [run_edgeLowLines_eq, run_anchor_caret, hnone, hnone]
  split <;> rfl

/-- At a low line the pattern for the edges matches the whole run, at the start of a name or its end. -/
theorem run_edgeLowLines (h : 0 < s.runLength lowLine) :
    edgeLowLines.run some s =
      if s.before = [] ∨ AtEnd (s.after.dropWhile isLowLine) then some (s.skip (s.runLength lowLine))
      else none := by
  have hafter : (s.skip (s.runLength lowLine)).after = s.after.dropWhile isLowLine := by
    rw [State.after_skip_runLength, accepts_lowLine]
  have hstart : lowLines.run some s = some (s.skip (s.runLength lowLine)) :=
    run_loop_one_of_longest h (Or.inl rfl)
  have hend : lowLines.run ((Expr.anchor (.dollar false)).run some) s =
      if AtEnd (s.after.dropWhile isLowLine) then some (s.skip (s.runLength lowLine)) else none := by
    rw [lowLines_eq, run_loop_one_of_longest h, run_anchor_dollar, hafter]
    -- Within the run there are low lines left, so the name does not end there.
    refine Or.inr fun j _ hj => ?_
    obtain ⟨d, l, hd, haccept⟩ := State.after_skip_of_lt hj
    rw [accepts_lowLine] at haccept
    rw [run_anchor_dollar, hd, if_neg (not_atEnd_of_lowLine haccept)]
  rw [run_edgeLowLines_eq, run_anchor_caret, hstart, hend]
  by_cases hb : s.before = []
  · simp [hb]
  · simp [hb]

theorem runLength_lowLine_pos (h : s.after = c :: rest) :
    0 < s.runLength lowLine ↔ isLowLine c := by
  rw [State.runLength_cons h, accepts_lowLine]
  split <;> simp_all

theorem findFrom_edgeLowLines_nil (pos : Nat) : edgeLowLines.findFrom pos before [] = none := by
  rw [Expr.findFrom, run_edgeLowLines_of_not_lowLine (State.runLength_nil rfl), Option.map_none]

/-- Past the start of a name the first match is of the low lines at its end, if there are any. -/
theorem findFrom_edgeLowLines (pos : Nat) (text : List Char) (hb : before ≠ []) :
    edgeLowLines.findFrom pos before text = none ∧ trimEnd text = text ∨
      ∃ f, edgeLowLines.findFrom pos before text = some f ∧
        trimEnd text = f.skipped ++ f.stop.after ∧ pos + f.skipped.length < f.stop.pos ∧
        AtEnd f.stop.after := by
  induction text generalizing pos before with
  | nil => exact Or.inl ⟨findFrom_edgeLowLines_nil pos, rfl⟩
  | cons c rest ih =>
    let s : State := ⟨pos, before, c :: rest, [], []⟩
    have hlow : 0 < s.runLength lowLine ↔ isLowLine c := runLength_lowLine_pos rfl
    by_cases hm : isLowLine c ∧ AtEnd (rest.dropWhile isLowLine)
    · have hpos := hlow.mpr hm.1
      have hdrop : s.after.dropWhile isLowLine = rest.dropWhile isLowLine :=
        List.dropWhile_cons_of_pos hm.1
      have hafter : (s.skip (s.runLength lowLine)).after = rest.dropWhile isLowLine := by
        rw [State.after_skip_runLength, accepts_lowLine, hdrop]
      have hrun : edgeLowLines.run some s = some (s.skip (s.runLength lowLine)) := by
        rw [run_edgeLowLines hpos, hdrop, if_pos (Or.inr hm.2)]
      refine Or.inr ⟨⟨[], s.skip (s.runLength lowLine)⟩, ?_, ?_, ?_, ?_⟩
      · exact findFrom_cons_of_some hrun
      · rw [trimEnd, if_pos hm, List.nil_append, hafter]
      · exact Nat.lt_add_of_pos_right hpos
      · rw [hafter]
        exact hm.2
    · have hrun : edgeLowLines.run some s = none := by
        by_cases hc : isLowLine c
        · have hend : ¬ AtEnd (rest.dropWhile isLowLine) := fun he => hm ⟨hc, he⟩
          rw [run_edgeLowLines (hlow.mpr hc), List.dropWhile_cons_of_pos hc,
            if_neg (not_or.mpr ⟨hb, hend⟩)]
        · refine run_edgeLowLines_of_not_lowLine (Nat.eq_zero_of_not_pos ?_)
          rwa [hlow]
      rw [trimEnd, if_neg hm, findFrom_cons_of_none hrun]
      rcases ih (pos + 1) (List.cons_ne_nil c before) with ⟨hf, ht⟩ | ⟨f, hf, ht, hpos, he⟩
      · exact Or.inl ⟨by rw [hf, Option.map_none], by rw [ht]⟩
      · refine Or.inr ⟨⟨c :: f.skipped, f.stop⟩, by rw [hf, Option.map_some], ?_, ?_, he⟩
        · rw [ht, List.cons_append]
        · dsimp only
          rw [List.length_cons]
          omega

theorem findFrom_edgeLowLines_of_atEnd {pos : Nat} (h : AtEnd text) :
    edgeLowLines.findFrom pos before text = none := by
  rcases h with rfl | rfl
  · exact findFrom_edgeLowLines_nil pos
  · have hzero : State.runLength ⟨pos, before, ['\n'], [], []⟩ lowLine = 0 := rfl
    rw [findFrom_cons_of_none (run_edgeLowLines_of_not_lowLine hzero), findFrom_edgeLowLines_nil,
      Option.map_none]

theorem removeFrom_of_none {e : Expr} (fuel : Nat) (h : e.findFrom s.pos s.before s.after = none) :
    e.removeFrom fuel s = s.after := by
  cases fuel with
  | zero => rfl
  | succ fuel => rw [Expr.removeFrom, h]

theorem removeFrom_of_some {e : Expr} {f : Found} (fuel : Nat)
    (h : e.findFrom s.pos s.before s.after = some f) (hpos : s.pos + f.skipped.length < f.stop.pos) :
    e.removeFrom (fuel + 1) s = f.skipped ++ e.removeFrom fuel f.stop := by
  rw [Expr.removeFrom, h]
  dsimp only
  rw [if_neg (Nat.ne_of_gt hpos)]

theorem removeFrom_edgeLowLines (fuel : Nat) (hb : s.before ≠ []) :
    edgeLowLines.removeFrom (fuel + 1) s = trimEnd s.after := by
  rcases findFrom_edgeLowLines s.pos s.after hb with ⟨hf, ht⟩ | ⟨f, hf, ht, hpos, he⟩
  · rw [removeFrom_of_none _ hf, ht]
  · rw [removeFrom_of_some _ hf hpos, ht,
      removeFrom_of_none _ (findFrom_edgeLowLines_of_atEnd he)]

/-- What is removed are the low lines at the start of a text and those at its end. -/
theorem removeAll_edgeLowLines (text : List Char) :
    edgeLowLines.removeAll text = trimEnd (text.dropWhile isLowLine) := by
  cases text with
  | nil => exact removeFrom_of_none _ (findFrom_edgeLowLines_nil 0)
  | cons c rest =>
    let s : State := .ofText (c :: rest)
    have hlow : 0 < s.runLength lowLine ↔ isLowLine c := runLength_lowLine_pos rfl
    have hall : edgeLowLines.removeAll (c :: rest) = edgeLowLines.removeFrom (rest.length + 1 + 1) s := rfl
    rw [hall]
    by_cases hc : isLowLine c
    · have hpos := hlow.mpr hc
      have hrun : edgeLowLines.run some s = some (s.skip (s.runLength lowLine)) := by
        have hstart : s.before = [] := rfl
        rw [run_edgeLowLines hpos, if_pos (Or.inl hstart)]
      have hfind : edgeLowLines.findFrom s.pos s.before s.after =
          some ⟨[], s.skip (s.runLength lowLine)⟩ := findFrom_cons_of_some hrun
      rw [removeFrom_of_some _ hfind (Nat.lt_add_of_pos_right hpos),
        removeFrom_edgeLowLines _ (State.before_skip_ne_nil hpos), State.after_skip_runLength,
        accepts_lowLine, List.nil_append]
      rfl
    · have hzero : s.runLength lowLine = 0 := Nat.eq_zero_of_not_pos (by rwa [hlow])
      have hrun := run_edgeLowLines_of_not_lowLine hzero
      have hfind : edgeLowLines.findFrom s.pos s.before s.after =
          (edgeLowLines.findFrom 1 [c] rest).map fun f => ⟨c :: f.skipped, f.stop⟩ :=
        findFrom_cons_of_none hrun
      rw [List.dropWhile_cons_of_neg hc, trimEnd, if_neg fun h => hc h.1]
      rcases findFrom_edgeLowLines 1 rest (List.cons_ne_nil c []) with
        ⟨hf, ht⟩ | ⟨f, hf, ht, hpos, he⟩
      · rw [hf, Option.map_none] at hfind
        rw [removeFrom_of_none _ hfind, ht]
        rfl
      · rw [hf, Option.map_some] at hfind
        have hlt : s.pos + (c :: f.skipped).length < f.stop.pos := by
          rwa [List.length_cons, Nat.add_comm, Nat.add_comm f.skipped.length]
        rw [removeFrom_of_some _ hfind hlt, ht,
          removeFrom_of_none _ (findFrom_edgeLowLines_of_atEnd he), List.cons_append]

theorem rdropWhile_cons_of_not_all {p : Char → Bool} (h : ¬ ∀ d ∈ c :: rest, p d) :
    (c :: rest).rdropWhile p = c :: rest.rdropWhile p := by
  rw [List.rdropWhile, List.reverse_cons, List.dropWhile_append]
  by_cases hrest : ∀ d ∈ rest, p d
  · have hc : ¬ p c := fun hc => h (List.forall_mem_cons.mpr ⟨hc, hrest⟩)
    have hnil : rest.reverse.dropWhile p = [] := by simpa using hrest
    have hkept : rest.rdropWhile p = [] := List.rdropWhile_eq_nil_iff.mpr hrest
    rw [hnil, List.isEmpty_nil, if_pos rfl, hkept, List.dropWhile_cons_of_neg hc]
    rfl
  · have hsome : ¬ (rest.reverse.dropWhile p).isEmpty := by simpa using hrest
    rw [if_neg hsome, List.reverse_append]
    rfl

/-- A text is trimmed before its end, if that cannot come sooner than after its last other character. -/
theorem trimEnd_append {tail : List Char} (htail : AtEnd tail)
    (hend : ∀ rest, rest <:+ text → AtEnd ((rest ++ tail).dropWhile isLowLine) →
      rest.dropWhile isLowLine = []) :
    trimEnd (text ++ tail) = text.rdropWhile isLowLine ++ tail := by
  have hkept : tail.dropWhile isLowLine = tail ∧ trimEnd tail = tail := by
    rcases htail with rfl | rfl <;> exact ⟨rfl, rfl⟩
  induction text with
  | nil => exact hkept.2
  | cons c rest ih =>
    rw [List.cons_append, trimEnd]
    by_cases hall : ∀ d ∈ c :: rest, isLowLine d
    · obtain ⟨hc, hrest⟩ := List.forall_mem_cons.mp hall
      rw [List.dropWhile_append_of_pos hrest, hkept.1, if_pos ⟨hc, htail⟩,
        List.rdropWhile_eq_nil_iff.mpr hall, List.nil_append]
    · have hcut : ¬ (isLowLine c ∧ AtEnd ((rest ++ tail).dropWhile isLowLine)) := by
        rintro ⟨hc, he⟩
        have hrest := List.dropWhile_eq_nil_iff.mp (hend rest (List.suffix_cons c rest) he)
        exact hall (List.forall_mem_cons.mpr ⟨hc, hrest⟩)
      rw [if_neg hcut, ih fun l hl => hend l (hl.trans (List.suffix_cons c rest)),
        rdropWhile_cons_of_not_all hall, List.cons_append]

/-- Without a line feed at its end a text is trimmed at its end. -/
theorem trimEnd_eq_rdropWhile (h : ¬ ['\n'] <:+ text) : trimEnd text = text.rdropWhile isLowLine := by
  have happend : trimEnd (text ++ []) = text.rdropWhile isLowLine ++ [] := by
    refine trimEnd_append (Or.inl rfl) fun rest hrest hend => ?_
    rw [List.append_nil] at hend
    exact hend.resolve_right fun he => h ((he ▸ List.dropWhile_suffix isLowLine).trans hrest)
  rwa [List.append_nil, List.append_nil] at happend

theorem dropWhile_append_lineFeed (text : List Char) :
    (text ++ ['\n']).dropWhile isLowLine = text.dropWhile isLowLine ++ ['\n'] := by
  rw [List.dropWhile_append]
  split
  · next h =>
    rw [List.isEmpty_iff.mp h]
    rfl
  · rfl

/-- A line feed at the end of a text stays, and what is before it is trimmed at its end. -/
theorem trimEnd_append_lineFeed (text : List Char) :
    trimEnd (text ++ ['\n']) = text.rdropWhile isLowLine ++ ['\n'] := by
  refine trimEnd_append (Or.inr rfl) fun rest _ hend => ?_
  rw [dropWhile_append_lineFeed] at hend
  simpa [AtEnd] using hend

theorem toList_trimmed (name : String) :
    (trimmed name).toList = trimEnd (name.toList.dropWhile isLowLine) := by
  rw [trimmed, removeAll_edgeLowLines, String.toList_ofList]

theorem trimEnd_sublist (text : List Char) : (trimEnd text).Sublist text := by
  induction text with
  | nil => exact .refl _
  | cons c rest ih =>
    rw [trimEnd]
    split
    · exact (List.dropWhile_sublist _).cons c
    · exact ih.cons_cons c

theorem trimmed_sublist (name : String) : (trimmed name).toList.Sublist name.toList := by
  rw [toList_trimmed]
  exact (trimEnd_sublist _).trans (List.dropWhile_sublist _)

theorem toList_trimmed_of_not_lineFeed {name : String} (h : ¬ ['\n'] <:+ name.toList) :
    (trimmed name).toList = withoutEdges name.toList := by
  have hrest : ¬ ['\n'] <:+ name.toList.dropWhile isLowLine := fun hs =>
    h (hs.trans (List.dropWhile_suffix isLowLine))
  rw [toList_trimmed, trimEnd_eq_rdropWhile hrest, withoutEdges]

theorem toList_trimmed_of_lineFeed {name : String} (h : name.toList = text ++ ['\n']) :
    (trimmed name).toList = withoutEdges text ++ ['\n'] := by
  rw [toList_trimmed, h, dropWhile_append_lineFeed, trimEnd_append_lineFeed, withoutEdges]

theorem head?_dropWhile_isLowLine (text : List Char) :
    (text.dropWhile isLowLine).head? ≠ some '_' := by
  intro h
  have hnot := List.head?_dropWhile_not isLowLine text
  rw [h] at hnot
  cases hnot

/-- All that a text has lost without its edges are runs of low lines, and these it has lost as a whole. -/
theorem exists_withoutEdges (text : List Char) :
    ∃ u v, text = u ++ withoutEdges text ++ v ∧ (∀ c ∈ u, c = '_') ∧ (∀ c ∈ v, c = '_') ∧
      (withoutEdges text).head? ≠ some '_' ∧ (withoutEdges text).getLast? ≠ some '_' := by
  have heq : ∀ {c : Char}, isLowLine c = true → c = '_' := beq_iff_eq.mp
  let rest := text.dropWhile isLowLine
  refine ⟨text.takeWhile isLowLine, rest.rtakeWhile isLowLine, ?_, fun c hc => ?_, fun c hc => ?_,
    ?_, ?_⟩
  · rw [withoutEdges, List.append_assoc, List.rdropWhile_append_rtakeWhile,
      List.takeWhile_append_dropWhile]
  · have htest := List.mem_takeWhile_imp hc
    exact heq htest
  · have htest := List.mem_rtakeWhile_imp hc
    exact heq htest
  · intro hhead
    obtain ⟨tail, htail⟩ : withoutEdges text <+: rest := List.rdropWhile_prefix isLowLine rest
    have hfirst : rest.head? = some '_' := by
      rw [← htail, List.head?_append, hhead, Option.some_or]
    exact head?_dropWhile_isLowLine text hfirst
  · rw [withoutEdges, List.rdropWhile, List.getLast?_reverse]
    exact head?_dropWhile_isLowLine rest.reverse

theorem withoutEdges_eq_self_iff :
    withoutEdges text = text ↔ text.head? ≠ some '_' ∧ text.getLast? ≠ some '_' := by
  obtain ⟨u, v, htext, hu, hv, hhead, hlast⟩ := exists_withoutEdges text
  constructor
  · intro h
    rw [h] at hhead hlast
    exact ⟨hhead, hlast⟩
  · rintro ⟨hnotHead, hnotLast⟩
    have hu' : u = [] := by
      cases u with
      | nil => rfl
      | cons a u =>
        cases hu a List.mem_cons_self
        rw [htext] at hnotHead
        exact absurd rfl hnotHead
    have hv' : v = [] := by
      rcases List.eq_nil_or_concat v with rfl | ⟨v, a, rfl⟩
      · rfl
      · cases hv a (by simp)
        rw [htext, List.concat_eq_append, ← List.append_assoc, List.getLast?_concat] at hnotLast
        exact absurd rfl hnotLast
    rw [hu', hv', List.nil_append, List.append_nil] at htext
    exact htext.symm

/-- Without a line feed at its end, a name is left alone if no low line stands at an edge of it. -/
theorem trimmed_eq_self_iff {name : String} (h : ¬ ['\n'] <:+ name.toList) :
    trimmed name = name ↔ name.toList.head? ≠ some '_' ∧ name.toList.getLast? ≠ some '_' := by
  rw [← withoutEdges_eq_self_iff, ← toList_trimmed_of_not_lineFeed h, String.toList_inj]

/--
Without affixes the checkable part of a name is the name without its outer low lines, where a line feed
at its end stays and counts for its edge. All other characters are kept.
-/
theorem checkable_trims (c : Config) (hp : c.prefixes.getD [] = []) (hs : c.suffixes.getD [] = [])
    (name : String) :
    (∀ text, name.toList = text ++ ['\n'] →
        (checkable c name).toList = withoutEdges text ++ ['\n']) ∧
      (¬ ['\n'] <:+ name.toList → (checkable c name).toList = withoutEdges name.toList) ∧
      ∀ text, ∃ u v, text = u ++ withoutEdges text ++ v ∧ (∀ a ∈ u, a = '_') ∧ (∀ a ∈ v, a = '_') ∧
        (withoutEdges text).head? ≠ some '_' ∧ (withoutEdges text).getLast? ≠ some '_' := by
  rw [checkable_of_no_affixes hp hs]
  exact ⟨fun _ => toList_trimmed_of_lineFeed, toList_trimmed_of_not_lineFeed, exists_withoutEdges⟩

/-- The low lines at an inner line feed are kept, those at the one at the end are not. -/
theorem checkable_trims_lineFeeds :
    checkable {} "__a_\n_b_\n" = "a_\n_b\n" ∧ checkable {} "_a_\n_b_" = "a_\n_b" ∧
      checkable {} "___" = "" := by
  obtain ⟨hlineFeed, -, -⟩ := checkable_trims {} rfl rfl "__a_\n_b_\n"
  obtain ⟨-, hinner, -⟩ := checkable_trims {} rfl rfl "_a_\n_b_"
  obtain ⟨-, hall, -⟩ := checkable_trims {} rfl rfl "___"
  refine ⟨String.toList_inj.mp ?_, String.toList_inj.mp ?_, String.toList_inj.mp ?_⟩
  · rw [hlineFeed "__a_\n_b_".toList (by decide)]
    decide
  · rw [hinner (by decide)]
    decide
  · rw [hall (by decide)]
    decide

end

end IdentCase.Naming
