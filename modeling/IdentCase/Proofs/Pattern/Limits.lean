import IdentCase.Proofs.Pattern.Pieces

/-! The limits of patterns. The rounds of reading suffice for every text, so a limit is broken only where
the text holds what breaks it: a count, a large code point, flags in parentheses, or groups beyond the room
that the host has for them. -/
namespace IdentCase.Pattern

/-- How the readers that call one another end when that many rounds are left. From one character that is
passed over to the next, at most four of them call one another, so each needs four rounds for every
character and some more for its own place among them. A reader of a group has passed over the opening
parenthesis. -/
structure Bounded (text : List Char) (fuel : Nat) : Prop where
  alternatives {d : Draft} {flags : Flags} {top : Bool} (hd : Inside text d)
    (hf : 4 * d.rest.length + 2 ≤ fuel) :
    Ends text (readAlternatives fuel flags top) d fun _ d' => Follows text 0 d d'
  branches {d : Draft} {flags : Flags} {top : Bool} (hd : Inside text d)
    (hf : 4 * d.rest.length + 1 ≤ fuel) :
    Ends text (readBranches fuel flags top) d fun _ d' => Follows text 0 d d'
  sequence {d : Draft} {flags : Flags} {leading : Bool} {items : List Item} (hd : Inside text d)
    (hf : 4 * d.rest.length + 1 ≤ fuel) :
    Ends text (readSequence fuel flags leading items) d fun _ d' => Follows text 0 d d'
  body {d : Draft} {flags : Flags} {start : Nat} (hd : Inside text d)
    (hf : 4 * d.rest.length + 3 ≤ fuel) :
    Ends text (readBody fuel flags start) d fun _ d' => Follows text 0 d d'
  group {d : Draft} {flags : Flags} {leading : Bool} {start : Nat} (hd : Inside text d)
    (hopen : '(' :: d.rest <:+ text) (hf : 4 * d.rest.length + 4 ≤ fuel) :
    Ends text (readGroup fuel flags leading start) d fun _ d' => Follows text 0 d d'
  look {d : Draft} {flags : Flags} {start : Nat} {ahead negated : Bool} (hd : Inside text d)
    (hf : 4 * d.rest.length + 4 ≤ fuel) :
    Ends text (readLook fuel flags start ahead negated) d fun _ d' => Follows text 0 d d'

section
variable {text : List Char} {d : Draft} {flags : Flags} {fuel start : Nat}

namespace Bounded

theorem alternatives_succ (ih : Bounded text fuel) {top : Bool} (hd : Inside text d)
    (hf : 4 * d.rest.length + 2 ≤ fuel + 1) :
    Ends text (readAlternatives (fuel + 1) flags top) d fun _ d' => Follows text 0 d d' := by
  unfold readAlternatives
  refine (ih.sequence hd (by omega)).bind fun first d₁ hd₁ => ?_
  have hlen := hd₁.length
  refine ((ih.branches (hd.follows hd₁) (by omega)).follows hd₁).bind fun bs d₂ hd₂ => ?_
  exact ends_pure hd₂

theorem branches_succ (ih : Bounded text fuel) {top : Bool} (hd : Inside text d)
    (hf : 4 * d.rest.length + 1 ≤ fuel + 1) :
    Ends text (readBranches (fuel + 1) flags top) d fun _ d' => Follows text 0 d d' := by
  unfold readBranches
  refine ends_accept.bind fun b d₁ hb => ends_ite (fun ht => ?_) fun ht => ?_
  · have hd₁ := (hb.1 ht).2
    have hlen := hd₁.length
    refine ends_get_bind ((ih.sequence (hd.follows hd₁) (by omega)).bind fun branch d₂ hd₂ => ?_)
    have hfollows := hd₁.trans hd₂
    have hlen' := hfollows.length
    refine ((ih.branches (hd.follows hfollows) (by omega)).follows hfollows).bind fun bs d₃ hd₃ => ?_
    exact ends_pure hd₃
  · rw [hb.2 (by simpa using ht)]
    exact ends_pure (.refl d)

theorem body_succ (ih : Bounded text fuel) (hd : Inside text d)
    (hf : 4 * d.rest.length + 3 ≤ fuel + 1) :
    Ends text (readBody (fuel + 1) flags start) d fun _ d' => Follows text 0 d d' := by
  unfold readBody
  refine (ih.alternatives hd (by omega)).bind fun es d₁ hd₁ => ?_
  exact (ends_closeParenthesis start).bind fun _ d₂ hd₂ => ends_pure (hd₁.trans hd₂)

theorem look_succ (ih : Bounded text fuel) {ahead negated : Bool} (hd : Inside text d)
    (hf : 4 * d.rest.length + 4 ≤ fuel + 1) :
    Ends text (readLook (fuel + 1) flags start ahead negated) d fun _ d' => Follows text 0 d d' := by
  -- What is read within a look behind is read from a draft that says so.
  have hbody (d₀ : Draft) (h₀ : Follows text 0 d d₀) : Ends text (do
      let body := Expr.ofList (← readBody fuel flags start)
      modify fun e => { e with lookbehind := d.lookbehind }
      let e ← get
      let side := if ahead then .ahead else .behind (body.width e.groupWidth)
      return Outcome.item (.single (.look side negated body))) d₀ fun _ d' => Follows text 0 d d' := by
    have hlen := h₀.length
    refine ((ih.body (hd.follows h₀) (by omega)).follows h₀).bind fun es d₁ hd₁ => ?_
    have hleft : Follows text 0 d { d₁ with lookbehind := d.lookbehind } :=
      ⟨hd₁.suffix, hd₁.length, hd₁.ascii⟩
    exact ends_modify_bind (ends_get_bind (ends_pure hleft))
  unfold readLook
  refine ends_get_bind (ends_ite (fun _ => hbody d (.refl d)) fun _ => ends_set_bind (hbody _ ?_))
  exact ⟨List.suffix_rfl, Nat.le_refl _, Or.inl⟩

theorem sequence_succ (ih : Bounded text fuel) {leading : Bool} {items : List Item}
    (hd : Inside text d) (hf : 4 * d.rest.length + 1 ≤ fuel + 1) :
    Ends text (readSequence (fuel + 1) flags leading items) d fun _ d' => Follows text 0 d d' := by
  have hgo (flags' : Flags) (items' : List Item) (d₁ : Draft) (hd₁ : Follows text 1 d d₁) :
      Ends text (readSequence fuel flags' leading items') d₁ fun _ d' => Follows text 0 d d' := by
    have hlen := hd₁.length
    exact (ih.sequence (hd.follows hd₁) (by omega)).follows hd₁
  unfold readSequence
  refine ends_get_bind (ends_peek.bind ?_)
  rintro t d ⟨rfl, rfl⟩
  dsimp only
  split
  · exact ends_pure (.refl d)
  · exact ends_pure (.refl d)
  · exact ends_pure (.refl d)
  · next c ht =>
    obtain ⟨hrest, hd₁⟩ := follows_of_token? text ht
    refine ends_skip.bind ?_
    rintro - d₁ rfl
    refine (ends_readEscape fun hc => hd.isInfix (hc ▸ hrest)).bind fun e d₂ hd₂ => ?_
    exact hgo flags _ d₂ ((hd₁.trans hd₂).mono (Token.chars_length_pos (.escaped c)))
  · next c _ _ ht =>
    obtain ⟨hrest, hd₁⟩ := follows_of_token? text ht
    refine ends_skip.bind ?_
    rintro - d₁ rfl
    refine ends_ite (fun _ => hgo flags items _ hd₁) fun _ => ?_
    refine ends_ite (fun _ => ends_get_bind ?_) fun _ => ?_
    · refine (ends_skipLine (Nat.lt_succ_self _)).bind fun _ d₂ hd₂ => ?_
      exact hgo flags items d₂ (hd₁.trans hd₂)
    refine ends_ite (fun _ => ?_) fun _ => ?_
    · refine (ends_readSet (hd.follows hd₁)).bind fun test d₂ hd₂ => ?_
      exact hgo flags _ d₂ (hd₁.trans hd₂)
    refine ends_ite (fun _ => hgo flags _ _ hd₁) fun _ => ?_
    refine ends_ite (fun _ => hgo flags _ _ hd₁) fun _ => ?_
    refine ends_ite (fun _ => hgo flags _ _ hd₁) fun _ => ?_
    refine ends_ite (fun hc => ?_) fun _ => ends_ite (fun hc => ?_) fun _ => hgo flags _ _ hd₁
    · subst hc
      have hopen : d.rest = '(' :: (d.pass 1).rest := hrest
      have hlen : (d.pass 1).rest.length + 1 ≤ d.rest.length := hd₁.length
      have hopened : Inside text (d.pass 1) := hd.follows hd₁
      have htext : '(' :: (d.pass 1).rest <:+ text := by rwa [Inside, hopen] at hd
      refine (ih.group hopened htext (by omega)).bind fun o d₂ hd₂ => ?_
      have hfollows := hd₁.trans hd₂
      split
      · exact hgo flags _ d₂ hfollows
      · exact hgo flags items d₂ hfollows
      · exact ends_get_bind (hgo _ items d₂ hfollows)
    · have hbrace : c ≠ '*' → c ≠ '+' → c ≠ '?' → '\x7b' ∈ text := by
        intro hstar hplus hquery
        have hc' : c = '\x7b' := by simpa [hstar, hplus, hquery] using hc
        exact (hd.isInfix hrest).subset (hc' ▸ List.mem_singleton_self _)
      refine (ends_readCounts? hbrace).bind fun counts d₂ hd₂ => ?_
      have hfollows := hd₁.trans hd₂
      split
      · refine ends_readLoop.bind fun items' d₃ hd₃ => ?_
        exact hgo flags items' d₃ (hfollows.trans hd₃)
      · exact hgo flags _ d₂ hfollows

/-- The content of a group, which becomes its next number. -/
theorem capture (ih : Bounded text fuel) (name : Option (List Char)) (hd : Inside text d)
    (hf : 4 * d.rest.length + 3 ≤ fuel) : Ends text (do
      let index ← openGroup name
      let body := Expr.ofList (← readBody fuel flags start)
      closeGroup index body
      return Outcome.item (.single (.group (some index) body))) d fun _ d' => Follows text 0 d d' := by
  refine (ends_openGroup name).bind fun index d₁ hd₁ => ?_
  have hlen := hd₁.length
  refine ((ih.body (hd.follows hd₁) (by omega)).follows hd₁).bind fun es d₂ hd₂ => ?_
  refine (ends_closeGroup index _).bind fun _ d₃ hd₃ => ?_
  exact ends_pure (hd₂.trans hd₃)

/-- A group or a reference to one, by its name. -/
theorem named (ih : Bounded text fuel) (mode : CaseMode) (hd : Inside text d)
    (hf : 4 * d.rest.length + 3 ≤ fuel) : Ends text (do
      if ← accept '<' then
        let index ← openGroup (some (← readGroupName '>'))
        let body := Expr.ofList (← readBody fuel flags start)
        closeGroup index body
        return Outcome.item (.single (.group (some index) body))
      else if ← accept '=' then
        let name ← readGroupName ')'
        let index ← groupNamed name
        unless (← get).isClosed index do fail .openGroup (name.length + 1)
        checkLookbehind index
        return Outcome.item (.single (.backref index mode))
      else
        let some u ← next | fail .unexpectedEnd
        fail (.unknownExtension ("P" ++ u.text)) (u.chars.length + 2)) d
      fun _ d' => Follows text 0 d d' := by
  refine ends_accept_follows.bind fun b d₁ hd₁ => ends_ite (fun _ => ?_) fun _ => ?_
  · refine (ends_readGroupName '>').bind fun name d₂ hd₂ => ?_
    have hname := hd₁.trans hd₂
    have hlen := hname.length
    exact (ih.capture (some name) (hd.follows hname) (by omega)).follows hname
  refine ends_accept_follows.bind fun b' d₂ hd₂ => ends_ite (fun _ => ?_) fun _ => ?_
  · refine (ends_readGroupName ')').bind fun name d₃ hd₃ => ?_
    refine (ends_groupNamed name).bind ?_
    rintro index d₄ rfl
    refine ends_get_bind (ends_ite (fun _ => ?_) fun _ => trivial)
    refine (ends_checkLookbehind index).bind ?_
    rintro - d₅ rfl
    exact ends_pure ((hd₁.trans hd₂).trans hd₃)
  · exact ends_next_bind trivial fun _ _ _ _ => trivial

/-- A condition with its one or two branches. -/
theorem choice (ih : Bounded text fuel) (hd : Inside text d)
    (hf : 4 * d.rest.length + 1 ≤ fuel) : Ends text (do
      let index ← readCondition
      let yes ← readSequence fuel flags false []
      let no ←
        if ← accept '|' then do
          let no ← readSequence fuel flags false []
          if (← peek) = some (.plain '|') then fail .thirdBranch
          pure no
        else pure []
      closeParenthesis start
      return Outcome.item (.single (.choice index (.ofList yes) (.ofList no)))) d
      fun _ d' => Follows text 0 d d' := by
  have hsequence (d₀ : Draft) (h₀ : Follows text 0 d d₀) :
      Ends text (readSequence fuel flags false []) d₀ fun _ d' => Follows text 0 d d' := by
    have hlen := h₀.length
    exact (ih.sequence (hd.follows h₀) (by omega)).follows h₀
  have hclose (o : Outcome) (d₀ : Draft) (h₀ : Follows text 0 d d₀) :
      Ends text (closeParenthesis start >>= fun _ => pure o) d₀ fun _ d' => Follows text 0 d d' :=
    (ends_closeParenthesis start).bind fun _ d₁ hd₁ => ends_pure (h₀.trans hd₁)
  refine ends_readCondition.bind fun index d₁ hd₁ => (hsequence d₁ hd₁).bind fun yes d₂ hd₂ => ?_
  refine ends_accept_follows.bind fun b d₃ hd₃ => ends_ite (fun _ => ?_) fun _ => ends_pure_bind ?_
  · refine (hsequence d₃ (hd₂.trans hd₃)).bind fun no d₄ hd₄ => ends_peek.bind ?_
    rintro t d₅ ⟨-, rfl⟩
    exact ends_ite (fun _ => trivial) fun _ => ends_pure_bind (hclose _ d₅ hd₄)
  · exact hclose _ d₃ (hd₂.trans hd₃)

theorem group_succ (ih : Bounded text fuel) {leading : Bool} (hd : Inside text d)
    (hopen : '(' :: d.rest <:+ text) (hf : 4 * d.rest.length + 4 ≤ fuel + 1) :
    Ends text (readGroup (fuel + 1) flags leading start) d fun _ d' => Follows text 0 d d' := by
  unfold readGroup
  refine ends_accept.bind fun b d₁ hb => ?_
  dsimp only
  refine ends_ite (fun hquery => ?_) fun hplain => ?_
  case refine_2 =>
    rw [hb.2 (by simpa using hplain)]
    exact ih.capture none hd (by omega)
  obtain ⟨hrest₁, hd₁⟩ := hb.1 hquery
  have hflags : ['(', '?'] <:+: text := infix_of_append_suffix (hrest₁ ▸ hopen)
  refine ends_next_bind trivial fun t d₂ _ hd₂ => ?_
  have h₂ : Follows text 0 d d₂ := (hd₁.trans hd₂).mono (Nat.zero_le _)
  have hinside := hd.follows h₂
  have hlen : d₂.rest.length + 2 ≤ d.rest.length := (hd₁.trans hd₂).length
  have hbody (flags' : Flags) (d₃ : Draft) (h₃ : Follows text 0 d d₃) (k : List Expr → Outcome) :
      Ends text (readBody fuel flags' start >>= fun es => pure (k es)) d₃
        fun _ d' => Follows text 0 d d' := by
    have hlen' := h₃.length
    exact ((ih.body (hd.follows h₃) (by omega)).follows h₃).bind fun es d₄ hd₄ => ends_pure hd₄
  dsimp only
  split
  · exact (ih.named flags.caseMode hinside (by omega)).follows h₂
  · exact hbody flags d₂ h₂ _
  · exact hbody flags d₂ h₂ _
  · refine ends_get_bind ((ends_skipComment (Nat.lt_succ_self _)).bind fun _ d₃ hd₃ => ?_)
    exact ends_pure (h₂.trans hd₃)
  · exact (ih.look hinside (by omega)).follows h₂
  · exact (ih.look hinside (by omega)).follows h₂
  · refine ends_next_bind trivial fun u d₃ _ hd₃ => ?_
    have hlen' := hd₃.length
    have hlook (negated : Bool) : Ends text (readLook fuel flags start false negated) d₃
        fun _ d' => Follows text 0 d d' :=
      (ih.look (hinside.follows hd₃) (by omega)).follows (h₂.trans hd₃)
    dsimp only
    split
    · exact hlook false
    · exact hlook true
    · trivial
  · exact (ih.choice hinside (by omega)).follows h₂
  · refine ends_ite (fun _ => ?_) fun _ => trivial
    refine (ends_readFlags hflags).bind fun changes d₃ hd₃ => ?_
    split
    · exact ends_ite (fun _ => ends_pure (h₂.trans hd₃)) fun _ => trivial
    · exact hbody _ d₃ (h₂.trans hd₃) _
  · trivial

end Bounded

theorem bounded (text : List Char) (fuel : Nat) : Bounded text fuel := by
  induction fuel with
  | zero =>
    constructor
    all_goals
      intros
      omega
  | succ fuel ih =>
    exact ⟨ih.alternatives_succ, ih.branches_succ, ih.sequence_succ, ih.body_succ, ih.group_succ,
      ih.look_succ⟩

theorem ends_readPattern (hd : d.rest = text) (hflags : d.flags.ascii = false) :
    Ends text readPattern d fun _ _ => True := by
  have hinside : Inside text d := hd ▸ List.suffix_rfl
  unfold readPattern
  refine ends_checkEscape.bind ?_
  rintro - d rfl
  refine ends_get_bind (((bounded text _).alternatives hinside (by omega)).bind fun es d' hd' => ?_)
  refine ends_get_bind (ends_ite (fun htypes => ends_limit_bind fun _ => ?_) fun _ => ?_)
  · rw [Bool.and_eq_true] at htypes
    exact (hd'.ascii htypes.1).resolve_left (by simp [hflags])
  refine ends_ite (fun _ => ?_) fun _ => trivial
  dsimp only
  split
  · trivial
  split
  · trivial
  · exact ends_pure trivial

/-- A text that breaks a limit holds what breaks it. -/
theorem Limit.needs_of_compile {host : Host} {source : String} {flags : Flags} {what : Limit}
    (hflags : flags.ascii = false) (h : compile host source flags = .error (.limit what)) :
    what.Needs host.room source.toList := by
  by_cases hover : host.overflows source flags
  · rw [compile_of_overflows hover] at h
    cases h
    exact host.overflows_room source flags hover
  · rw [compile_of_not_overflows hover] at h
    have hends : Ends source.toList readPattern (draftFor host source flags) fun _ _ => True :=
      ends_readPattern rfl hflags
    unfold Ends at hends
    rw [map_eq_error.mp h] at hends
    exact hends host.room

end

/-! Counts that are too large or too long, behind plain characters. -/

/-- The limit that a count in these digits breaks, if it breaks one. -/
def countBreach? (digits : List Char) : Option Limit :=
  if Text.maxDigits < digits.length then some .numberTooLong
  else if countLimit ≤ readNumber 10 digits then some .numberTooLarge
  else none

/-- A text whose last character is repeated as often as the digits say. -/
def counted (text digits : List Char) : List Char := text ++ '\x7b' :: (digits ++ ['\x7d'])

section
variable {text digits : List Char} {d : Draft} {flags : Flags} {what : Limit}

theorem ne_nil_of_countBreach? (h : countBreach? digits = some what) : digits ≠ [] := by
  rintro rfl
  cases h

theorem run_readCount? (h : countBreach? digits = some what) :
    (readCount? digits).run d = .error (.limit what) := by
  have hne : digits.isEmpty = false := List.isEmpty_eq_false_iff.mpr (ne_nil_of_countBreach? h)
  unfold countBreach? at h
  unfold readCount?
  rw [hne]
  split at h
  · next hlong =>
    cases h
    rw [if_neg nofun, if_pos hlong]
    rfl
  · next hshort =>
    split at h
    · next hlarge =>
      cases h
      rw [if_neg nofun, if_neg hshort]
      dsimp only
      rw [if_pos hlarge]
      rfl
    · cases h

theorem append_closed_ne : digits ++ ['\x7d'] ≠ ['\\'] := by
  simp [List.append_eq_singleton_iff]

theorem run_takeUpTo_digits {n : Nat} (hdigits : ∀ c ∈ digits, c.isDigit)
    (hd : d.rest = digits ++ ['\x7d']) (hn : digits.length ≤ n) :
    (takeUpTo Char.isDigit n).run d = .ok (digits, d.pass digits.length) := by
  induction digits generalizing d n with
  | nil =>
    cases n with
    | zero => rfl
    | succ n =>
      have hpeek : peek.run d = .ok (some (.plain '\x7d'), d) := run_peek_of_ne hd (by decide)
      simp only [takeUpTo, StateT.run_bind, hpeek]
      rfl
  | cons c digits ih =>
    rw [List.forall_mem_cons] at hdigits
    obtain ⟨n, rfl⟩ : ∃ m, n = m + 1 := ⟨n - 1, by simp at hn; omega⟩
    have hc : c ≠ '\\' := by
      rintro rfl
      exact absurd hdigits.1 (by decide)
    have hpeek : peek.run d = .ok (some (.plain c), d) := run_peek_of_ne hd hc
    have hpass : (d.pass 1).rest = digits ++ ['\x7d'] := by simp [Draft.pass, hd]
    have hskip : (skip 1).run d = .ok ((), d.pass 1) := by
      refine run_skip ?_
      rw [hd]
      exact append_closed_ne
    have hrest := ih hdigits.2 hpass (Nat.le_of_succ_le_succ hn)
    simp only [takeUpTo, StateT.run_bind, hpeek, ok_bind, hdigits.1, if_true, hskip, hrest]
    rw [Draft.pass_pass, Nat.add_comm 1]
    rfl

theorem run_accept {c : Char} {rest : List Char} (hd : d.rest = c :: rest) (hc : c ≠ '\\')
    (hrest : rest ≠ ['\\']) : (accept c).run d = .ok (true, d.pass 1) := by
  have hskip : (skip 1).run d = .ok ((), d.pass 1) := run_skip (by rwa [hd])
  simp only [accept, StateT.run_bind, run_peek_of_ne hd hc, ok_bind, if_true, hskip]
  rfl

theorem run_accept_of_ne {c x : Char} {rest : List Char} (hd : d.rest = c :: rest) (hc : c ≠ '\\')
    (hne : c ≠ x) : (accept x).run d = .ok (false, d) := by
  have hif : some (Token.plain c) ≠ some (.plain x) := by
    rintro ⟨⟩
    exact hne rfl
  simp only [accept, StateT.run_bind, run_peek_of_ne hd hc, ok_bind, if_neg hif]
  rfl

theorem run_readBraces? (h : countBreach? digits = some what) (hdigits : ∀ c ∈ digits, c.isDigit)
    (hd : d.rest = digits ++ ['\x7d']) : readBraces?.run d = .error (.limit what) := by
  obtain ⟨c, more, rfl⟩ := List.exists_cons_of_ne_nil (ne_nil_of_countBreach? h)
  have hc := (List.forall_mem_cons.mp hdigits).1
  have hne (x : Char) (hx : x.isDigit = false) : c ≠ x := by
    rintro rfl
    rw [hx] at hc
    cases hc
  have hpeek : peek.run d = .ok (some (.plain c), d) := run_peek_of_ne hd (hne '\\' (by decide))
  have hopen : some (Token.plain c) ≠ some (.plain '\x7d') := by
    rintro ⟨⟩
    exact hne '\x7d' (by decide) rfl
  have hlow : (takeAll Char.isDigit).run d = .ok (c :: more, d.pass (c :: more).length) := by
    simp only [takeAll, StateT.run_bind, StateT.run_get, pure_bind]
    exact run_takeUpTo_digits hdigits hd (by rw [hd, List.length_append]; omega)
  have hpass : (d.pass (c :: more).length).rest = ['\x7d'] := by simp [Draft.pass, hd]
  have hcomma : (accept ',').run (d.pass (c :: more).length) = .ok (false, _) :=
    run_accept_of_ne hpass (by decide) (by decide)
  have hclose : (accept '\x7d').run (d.pass (c :: more).length) = .ok (true, _) :=
    run_accept hpass (by decide) (by decide)
  simp only [readBraces?, StateT.run_bind, hpeek, ok_bind, if_neg hopen, StateT.run_get, pure_bind,
    hlow, hcomma, Bool.false_eq_true, if_false, hclose, if_true, run_readCount? h]
  rfl

/-- A count that breaks a limit ends the sequence that it stands in. -/
theorem run_readSequence_count {leading : Bool} {fuel : Nat} {items : List Item}
    (h : countBreach? digits = some what) (hdigits : ∀ c ∈ digits, c.isDigit)
    (hv : flags.verbose = false) (hd : d.rest = '\x7b' :: (digits ++ ['\x7d'])) :
    (readSequence (fuel + 1) flags leading items).run d = .error (.limit what) := by
  have hpeek : peek.run d = .ok (some (.plain '\x7b'), d) := run_peek_of_ne hd (by decide)
  have hskip : (skip 1).run d = .ok ((), d.pass 1) := by
    refine run_skip ?_
    rw [hd]
    exact append_closed_ne
  have hcount : (readCounts? '\x7b').run (d.pass 1) = .error (.limit what) :=
    run_readBraces? h hdigits (by simp [Draft.pass, hd])
  simp only [readSequence, StateT.run_bind, StateT.run_get, hpeek, pure_bind, ok_bind]
  split
  · next h => cases h
  · next h => exact absurd h (by decide)
  · next h => exact absurd h (by decide)
  · next h => cases h
  · next h =>
    cases h
    simp only [StateT.run_bind, hskip, ok_bind, hv, Bool.false_and, Bool.false_eq_true, if_false,
      Char.reduceEq, decide_false, decide_true, Bool.or_true, if_true, hcount]
    rfl

theorem run_readPattern_counted (h : countBreach? digits = some what) (ht : IsPlain text)
    (hdigits : ∀ c ∈ digits, c.isDigit) (hd : d.rest = counted text digits)
    (hv : d.flags.verbose = false) : readPattern.run d = .error (.limit what) := by
  have htail : '\x7b' :: (digits ++ ['\x7d']) ≠ ['\\'] := by simp
  have hescape : checkEscape.run d = .ok ((), d) := run_checkEscape (hd ▸ ht.append_ne htail)
  have hpass : (d.pass text.length).rest = '\x7b' :: (digits ++ ['\x7d']) := by
    simp [Draft.pass, hd, counted]
  have hsequence (fuel : Nat) (hf : text.length < fuel) :
      (readSequence fuel d.flags true []).run d = .error (.limit what) := by
    obtain ⟨n, rfl⟩ : ∃ n, fuel = n + 1 + text.length := ⟨fuel - text.length - 1, by omega⟩
    rw [run_readSequence_append ht hd htail hv]
    exact run_readSequence_count h hdigits hv hpass
  have hread : (readAlternatives (4 * d.rest.length + 8) d.flags true).run d =
      .error (.limit what) := by
    have hlen : text.length < 4 * d.rest.length + 7 := by
      rw [hd, counted, List.length_append]
      omega
    simp only [readAlternatives, StateT.run_bind, hsequence _ hlen]
    rfl
  simp only [readPattern, StateT.run_bind, hescape, ok_bind, StateT.run_get, pure_bind, hread]
  rfl

theorem not_mem_counted (ht : IsPlain text) (hdigits : ∀ c ∈ digits, c.isDigit) :
    '(' ∉ counted text digits := by
  have htext : '(' ∉ text := fun hc => ht _ hc (by decide)
  have hdigit : '(' ∉ digits := fun hc => absurd (hdigits _ hc) (by decide)
  simp [counted, htext, hdigit]

theorem compile_counted {host : Host} (h : countBreach? digits = some what) (ht : IsPlain text)
    (hdigits : ∀ c ∈ digits, c.isDigit) (hv : flags.verbose = false) :
    compile host (.ofList (counted text digits)) flags = .error (.limit what) := by
  have hgroups : '(' ∉ (String.ofList (counted text digits)).toList := by
    rw [String.toList_ofList]
    exact not_mem_counted ht hdigits
  have hread : readPattern.run (draftFor host (.ofList (counted text digits)) flags) =
      .error (.limit what) := run_readPattern_counted h ht hdigits String.toList_ofList hv
  rw [compile_of_not_overflows (not_overflows_of_not_mem hgroups), hread]
  rfl

end

end IdentCase.Pattern
