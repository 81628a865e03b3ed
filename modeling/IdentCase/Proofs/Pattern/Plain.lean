import IdentCase.Pattern.Compile
import IdentCase.Proofs.Pattern.Repetition
import IdentCase.Proofs.Pattern.Spans
import IdentCase.Proofs.Run
import Mathlib.Data.List.Infix

/-! Patterns of characters that stand for themselves. Such a pattern is read as these characters one
after the other, and it finds the first place where its text stands. -/
namespace IdentCase.Pattern

/-- The characters that stand for something else than themselves, outside of sets and counts. -/
def metacharacters : List Char := ['\\', '^', '$', '.', '|', '?', '*', '+', '(', ')', '[', '\x7b']

def IsPlain (text : List Char) : Prop := ∀ c ∈ text, c ∉ metacharacters

instance (text : List Char) : Decidable (IsPlain text) :=
  List.decidableBAll (· ∉ metacharacters) text

def Expr.ofText (text : List Char) : Expr := .ofList (text.map fun c => .one (.code .exact c.toNat))

/-- Where a text stands first in another: what comes before it there, and what after it. -/
structure Leftmost (text whole before after : List Char) : Prop where
  whole_eq : whole = before ++ text ++ after
  le_length : ∀ before' after', whole = before' ++ text ++ after' → before.length ≤ before'.length

def Draft.pass (d : Draft) (n : Nat) : Draft := { d with rest := d.rest.drop n, pos := d.pos + n }

section
variable {c : Char} {rest text : List Char} {d : Draft} {flags : Flags} {items : List Item}
  {leading : Bool} {fuel : Nat}

theorem Draft.pass_pass (d : Draft) (m n : Nat) : (d.pass m).pass n = d.pass (m + n) := by
  simp [pass, Nat.add_assoc]

theorem run_checkEscape (h : d.rest ≠ ['\\']) : checkEscape.run d = .ok ((), d) := by
  unfold checkEscape
  rw [StateT.run_bind, StateT.run_get, pure_bind, if_neg h]
  rfl

theorem run_skip {n : Nat} (h : d.rest.drop n ≠ ['\\']) : (skip n).run d = .ok ((), d.pass n) := by
  have hcheck : checkEscape.run (d.pass n) = .ok ((), d.pass n) := run_checkEscape h
  unfold skip
  rw [StateT.run_bind, StateT.run_modify, pure_bind]
  exact hcheck

theorem token?_of_ne (h : c ≠ '\\') : token? (c :: rest) = some (.plain c) := by
  unfold token?
  split <;> simp_all

theorem run_peek_of_ne (hd : d.rest = c :: rest) (h : c ≠ '\\') :
    peek.run d = .ok (some (.plain c), d) := by
  have htoken : token? d.rest = some (.plain c) := hd ▸ token?_of_ne h
  rw [← htoken]
  rfl

theorem ne_of_not_metacharacter (h : c ∉ metacharacters) : c ≠ '\\' := by
  rintro rfl
  exact h (by decide)

/-- A character that stands for itself joins the sequence. -/
theorem run_readSequence_cons (hd : d.rest = c :: rest) (hc : c ∉ metacharacters)
    (hrest : rest ≠ ['\\']) (hv : flags.verbose = false) :
    (readSequence (fuel + 1) flags leading items).run d =
      (readSequence fuel flags leading (.single (.one (.code flags.caseMode c.toNat)) :: items)).run
        (d.pass 1) := by
  have htoken : peek.run d = .ok (some (.plain c), d) := run_peek_of_ne hd (ne_of_not_metacharacter hc)
  have hskip : (skip 1).run d = .ok ((), d.pass 1) := run_skip (by rwa [hd])
  simp only [metacharacters, List.mem_cons, List.not_mem_nil, or_false, not_or] at hc
  obtain ⟨-, hcaret, hdollar, hdot, hbar, hquery, hstar, hplus, hopen, hclose, hset, hbrace⟩ := hc
  simp only [readSequence, StateT.run_bind, StateT.run_get, htoken, pure_bind]
  change StateT.run _ d = _
  split
  · next h => cases h
  · next h => cases h; exact absurd rfl hbar
  · next h => cases h; exact absurd rfl hclose
  · next h => cases h
  · next h =>
    cases h
    rw [StateT.run_bind, hskip]
    simp [bind, Except.bind, *]

theorem run_readSequence_nil (hd : d.rest = []) :
    (readSequence (fuel + 1) flags leading items).run d =
      .ok (items.reverse.flatMap Item.exprs, d) := by
  have hpeek : peek.run d = .ok (none, d) := by
    rw [show (none : Option Token) = token? d.rest by rw [hd]; rfl]
    rfl
  simp only [readSequence, StateT.run_bind, StateT.run_get, hpeek, pure_bind]
  rfl

def plainItems (mode : CaseMode) (text : List Char) : List Item :=
  text.map fun c => .single (.one (.code mode c.toNat))

theorem IsPlain.append_ne (ht : IsPlain text) (hrest : rest ≠ ['\\']) : text ++ rest ≠ ['\\'] := by
  cases text with
  | nil => exact hrest
  | cons c text =>
    intro h
    obtain ⟨rfl, -⟩ := List.cons.inj h
    exact ht '\\' List.mem_cons_self (by decide)

theorem run_readSequence_append (ht : IsPlain text) (hd : d.rest = text ++ rest)
    (hrest : rest ≠ ['\\']) (hv : flags.verbose = false) :
    (readSequence (fuel + text.length) flags leading items).run d =
      (readSequence fuel flags leading ((plainItems flags.caseMode text).reverse ++ items)).run
        (d.pass text.length) := by
  induction text generalizing d items with
  | nil => simp [plainItems, Draft.pass]
  | cons c text ih =>
    have hplain : IsPlain text := fun x hx => ht x (List.mem_cons_of_mem c hx)
    have hpass : (d.pass 1).rest = text ++ rest := by simp [Draft.pass, hd]
    rw [List.length_cons, ← Nat.add_assoc, run_readSequence_cons hd (ht c List.mem_cons_self)
      (hplain.append_ne hrest) hv, ih hplain hpass, Draft.pass_pass, Nat.add_comm 1]
    simp [plainItems]

theorem run_readBranches_nil (hd : d.rest = []) :
    (readBranches (fuel + 1) flags true).run d = .ok ([], d) := by
  have hpeek : peek.run d = .ok (none, d) := by
    rw [show (none : Option Token) = token? d.rest by rw [hd]; rfl]
    rfl
  simp only [readBranches, accept, StateT.run_bind, hpeek]
  rfl

theorem flatMap_plainItems (mode : CaseMode) (text : List Char) :
    (plainItems mode text).flatMap Item.exprs = text.map fun c => .one (.code mode c.toNat) := by
  rw [plainItems, List.flatMap_map, List.map_eq_flatMap]
  rfl

theorem run_readAlternatives_plain (ht : IsPlain d.rest) (hv : flags.verbose = false)
    (hf : d.rest.length + 2 ≤ fuel) :
    (readAlternatives fuel flags true).run d =
      .ok (d.rest.map fun c => .one (.code flags.caseMode c.toNat), d.pass d.rest.length) := by
  obtain ⟨n, rfl⟩ : ∃ n, fuel = n + 1 + d.rest.length + 1 := ⟨fuel - d.rest.length - 2, by omega⟩
  have hnil : (d.pass d.rest.length).rest = [] := by simp [Draft.pass]
  have hsequence : (readSequence (n + 1 + d.rest.length) flags true []).run d =
      .ok (d.rest.map fun c => .one (.code flags.caseMode c.toNat), d.pass d.rest.length) := by
    rw [run_readSequence_append ht (List.append_nil _).symm nofun hv, run_readSequence_nil hnil,
      List.append_nil, List.reverse_reverse, flatMap_plainItems]
  have hbranches : (readBranches (n + 1 + d.rest.length) flags true).run (d.pass d.rest.length) =
      .ok ([], d.pass d.rest.length) := by
    rw [Nat.add_right_comm]
    exact run_readBranches_nil hnil
  simp only [readAlternatives, StateT.run_bind, hsequence, ok_bind, hbranches]
  rfl

theorem defect?_ofList {template : Bool} {es : List Expr} (h : ∀ e ∈ es, e.defect? template = none) :
    (Expr.ofList es).defect? template = none := by
  induction es with
  | nil => rfl
  | cons e es ih =>
    rw [List.forall_mem_cons] at h
    cases es with
    | nil => exact h.1
    | cons e' es => simp [Expr.ofList, Expr.defect?, h.1, ih h.2]

/-- What a pattern comes to if its alternatives have been read to its end. -/
theorem run_readPattern {d' : Draft} {es : List Expr} (hescape : d.rest ≠ ['\\'])
    (hread : (readAlternatives (4 * d.rest.length + 8) d.flags true).run d = .ok (es, d'))
    (htypes : (d'.flags.ascii && d'.flags.unicode) = false) (hrest : d'.rest = [])
    (hconditions : d'.conditions = []) (hdefect : (Expr.ofList es).defect? d'.flags.template = none) :
    readPattern.run d = .ok (.ofList es, d') := by
  simp only [readPattern, StateT.run_bind, run_checkEscape hescape, ok_bind, StateT.run_get,
    pure_bind, hread, htypes, hrest, hconditions, hdefect]
  rfl

def draftFor (host : Host) (source : String) (flags : Flags) : Draft :=
  { named? := host.named?, rest := source.toList, flags }

theorem compile_of_overflows {host : Host} {source : String} (h : host.overflows source flags) :
    compile host source flags = .error (.limit .tooDeep) := by
  rw [compile, if_pos h]
  rfl

theorem compile_of_not_overflows {host : Host} {source : String} (h : ¬ host.overflows source flags) :
    compile host source flags =
      (readPattern.run (draftFor host source flags)).map fun r => ⟨source, r.2.flags, r.1⟩ := by
  rw [compile, if_neg h]
  rfl

/-- There is room for a text without groups. -/
theorem not_overflows_of_not_mem {host : Host} {source : String} (h : '(' ∉ source.toList) :
    ¬ host.overflows source flags := by
  intro hover
  have hcount := host.overflows_room source flags hover
  rw [List.count_eq_zero.mpr h] at hcount
  exact absurd hcount (Nat.not_lt_zero _)

theorem compile_plain {host : Host} {text : String} (h : IsPlain text.toList) :
    compile host text {} = .ok ⟨text, {}, .ofText text.toList⟩ := by
  let d : Draft := draftFor host text {}
  have hescape : d.rest ≠ ['\\'] := by
    have happend : text.toList ++ [] ≠ ['\\'] := h.append_ne nofun
    rwa [List.append_nil] at happend
  have hread : (readAlternatives (4 * d.rest.length + 8) d.flags true).run d =
      .ok (text.toList.map fun c => .one (.code .exact c.toNat), d.pass d.rest.length) :=
    run_readAlternatives_plain h rfl (by omega)
  have hpattern : readPattern.run d = .ok (.ofText text.toList, d.pass d.rest.length) := by
    refine run_readPattern hescape hread rfl ?_ rfl (defect?_ofList ?_)
    · simp [Draft.pass]
    · simp [Expr.defect?]
  have hgroups : '(' ∉ text.toList := fun hc => h _ hc (by decide)
  rw [compile_of_not_overflows (not_overflows_of_not_mem hgroups), hpattern]
  rfl

end

section
variable {text whole before after before' after' : List Char} {k : Next} {s : State} {f : Found}
  {pos : Nat} {passed : List Char}

theorem Leftmost.unique (h : Leftmost text whole before after)
    (h' : Leftmost text whole before' after') : before = before' ∧ after = after' := by
  have hle := h.le_length before' after' h'.whole_eq
  have hge := h'.le_length before after h.whole_eq
  have heq := h.whole_eq.symm.trans h'.whole_eq
  rw [List.append_assoc, List.append_assoc] at heq
  obtain ⟨hbefore, hrest⟩ := List.append_inj heq (Nat.le_antisymm hle hge)
  exact ⟨hbefore, List.append_cancel_left hrest⟩

theorem Leftmost.of_isPrefix (h : text <+: whole) : Leftmost text whole [] (whole.drop text.length) :=
  ⟨List.prefix_append_drop h, fun _ _ _ => Nat.zero_le _⟩

theorem Leftmost.cons {c : Char} (h : Leftmost text whole before after)
    (hne : ¬ text <+: c :: whole) : Leftmost text (c :: whole) (c :: before) after := by
  refine ⟨by rw [h.whole_eq]; rfl, fun before' after' heq => ?_⟩
  cases before' with
  | nil => exact absurd ⟨after', heq.symm⟩ hne
  | cons x before' =>
    obtain ⟨-, heq⟩ := List.cons.inj heq
    exact Nat.succ_le_succ (h.le_length before' after' heq)

theorem run_ofList_cons (e : Expr) (es : List Expr) :
    (Expr.ofList (e :: es)).run k s = e.run ((Expr.ofList es).run k) s := by
  cases es <;> rfl

theorem accepts_code_exact (c x : Char) : (CharTest.code .exact c.toNat).accepts x = (x == c) := by
  rw [Bool.eq_iff_iff]
  simp [CharTest.accepts, CaseMode.agrees, CaseMode.isCased, Char.toNat_inj]

/-- A text matches where it comes next, and leaves off at its end. -/
theorem run_ofText :
    (Expr.ofText text).run k s = if text <+: s.after then k (s.skip text.length) else none := by
  induction text generalizing s with
  | nil => simp [Expr.ofText, Expr.ofList, Expr.run]
  | cons c text ih =>
    have hrun : (Expr.ofText (c :: text)).run k s =
        (Expr.one (.code .exact c.toNat)).run ((Expr.ofText text).run k) s := run_ofList_cons _ _
    rw [hrun]
    cases hs : s.after with
    | nil => simp [run_one_nil hs]
    | cons x rest =>
      rw [run_one_cons hs, ih, accepts_code_exact, List.length_cons, ← State.skip_step hs]
      by_cases hx : x = c
      · have hstep : text <+: (s.step x rest).after ↔ c :: text <+: x :: rest := by
          rw [hx, List.cons_prefix_cons]
          simp [State.step]
        rw [if_pos (beq_iff_eq.mpr hx), if_congr hstep rfl rfl]
      · have hne : ¬ c :: text <+: x :: rest := fun h => hx (List.cons_prefix_cons.mp h).1.symm
        simp [hx, hne]

/-- What is found is the first occurrence of the text, if there is one. -/
theorem findFrom_ofText (text whole : List Char) (pos : Nat) (passed : List Char) :
    (∃ f, (Expr.ofText text).findFrom pos passed whole = some f ∧
        Leftmost text whole f.skipped f.stop.after) ∨
      (Expr.ofText text).findFrom pos passed whole = none ∧ ¬ text <:+: whole := by
  induction whole generalizing pos passed with
  | nil =>
    let s : State := ⟨pos, passed, [], [], []⟩
    by_cases hp : text <+: []
    · have hrun : (Expr.ofText text).run some s = some (s.skip text.length) := by
        rw [run_ofText, if_pos hp]
      exact Or.inl ⟨_, by rw [Expr.findFrom, hrun]; rfl, .of_isPrefix hp⟩
    · have hrun : (Expr.ofText text).run some s = none := by rw [run_ofText, if_neg hp]
      have hnil : ¬ text <:+: [] := fun h => hp (List.infix_nil.mp h ▸ List.nil_prefix)
      exact Or.inr ⟨by rw [Expr.findFrom, hrun]; rfl, hnil⟩
  | cons c whole ih =>
    let s : State := ⟨pos, passed, c :: whole, [], []⟩
    by_cases hp : text <+: c :: whole
    · have hrun : (Expr.ofText text).run some s = some (s.skip text.length) := by
        rw [run_ofText, if_pos hp]
      exact Or.inl ⟨_, findFrom_cons_of_some hrun, .of_isPrefix hp⟩
    · have hrun : (Expr.ofText text).run some s = none := by rw [run_ofText, if_neg hp]
      rcases ih (pos + 1) (c :: passed) with ⟨f, hf, hl⟩ | ⟨hf, hno⟩
      · exact Or.inl ⟨_, by rw [findFrom_cons_of_none hrun, hf]; rfl, hl.cons hp⟩
      · refine Or.inr ⟨by rw [findFrom_cons_of_none hrun, hf]; rfl, fun hi => ?_⟩
        exact (List.infix_cons_iff.mp hi).elim hp hno

theorem find?_ofText_iff :
    (∃ stop, (Expr.ofText text).find? whole = some ⟨before, stop⟩ ∧ stop.after = after) ↔
      Leftmost text whole before after := by
  rcases findFrom_ofText text whole 0 [] with ⟨f, hf, hl⟩ | ⟨hf, hno⟩
  · rw [Expr.find?, hf]
    constructor
    · rintro ⟨stop, h, rfl⟩
      cases h
      exact hl
    · intro h
      obtain ⟨rfl, rfl⟩ := h.unique hl
      exact ⟨f.stop, rfl, rfl⟩
  · rw [Expr.find?, hf]
    constructor
    · rintro ⟨stop, h, -⟩
      cases h
    · intro h
      exact absurd ⟨before, after, h.whole_eq.symm⟩ hno

theorem isSome_find?_ofText : ((Expr.ofText text).find? whole).isSome ↔ text <:+: whole := by
  rcases findFrom_ofText text whole 0 [] with ⟨f, hf, hl⟩ | ⟨hf, hno⟩
  · have hi : text <:+: whole := ⟨_, _, hl.whole_eq.symm⟩
    simp [Expr.find?, hf, hi]
  · simp [Expr.find?, hf, hno]
end

end IdentCase.Pattern
