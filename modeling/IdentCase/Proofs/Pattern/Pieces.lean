import IdentCase.Proofs.Pattern.Endings

/-! How the reading of the pieces of a pattern can end: of sets, quantifiers, comments, flags, the names
of groups and their parentheses. -/
namespace IdentCase.Pattern

/-- A place within a text. -/
def Inside (text : List Char) (d : Draft) : Prop := d.rest <:+ text

section
variable {text : List Char} {d d' : Draft} {n : Nat} {c : Char}

theorem Inside.follows (h : Inside text d) (hd : Follows text n d d') : Inside text d' :=
  hd.suffix.trans h

theorem infix_of_append_suffix {before after : List Char} (h : before ++ after <:+ text) :
    before <:+: text :=
  (List.infix_append' [] before after).trans h.isInfix

theorem Inside.isInfix (h : Inside text d) {before after : List Char} (hd : d.rest = before ++ after) :
    before <:+: text := by
  rw [Inside, hd] at h
  exact infix_of_append_suffix h

theorem ends_readMember {ascii : Bool} {t : Token} (h : t = .escaped 'U' → ['\\', 'U'] <:+: text) :
    Ends text (readMember ascii t) d fun _ d' => Follows text 0 d d' := by
  unfold readMember
  split
  · exact ends_pure (.refl d)
  · exact ends_readClassEscape fun hc => h (by rw [hc])

theorem ends_readMembers {ascii : Bool} {start fuel : Nat} {members : List Member}
    (hd : Inside text d) (hf : d.rest.length < fuel) :
    Ends text (readMembers ascii start fuel members) d fun _ d' => Follows text 0 d d' := by
  induction fuel generalizing d members with
  | zero => exact absurd hf (Nat.not_lt_zero _)
  | succ fuel ih =>
    unfold readMembers
    refine ends_next_bind trivial fun t d₁ hrest hd₁ => ?_
    refine ends_ite (fun _ => ends_pure (hd₁.mono (Nat.zero_le _))) fun _ => ?_
    refine (ends_readMember fun ht => hd.isInfix (ht ▸ hrest)).bind fun first d₂ hd₂ => ?_
    have hfirst := hd₁.trans hd₂
    refine ends_accept.bind fun b d₃ hd₃ => ends_ite (fun hb => ?_) fun hb => ?_
    · have hdash := hfirst.trans (hd₃.1 hb).2
      refine ends_next_bind trivial fun u d₄ hrest' hd₄ => ?_
      have hinside := hd.follows hdash
      have hsecond := hdash.trans hd₄
      refine ends_ite (fun _ => ends_pure (hsecond.mono (Nat.zero_le _))) fun _ => ?_
      refine (ends_readMember fun hu => hinside.isInfix (hu ▸ hrest')).bind fun last d₅ hd₅ => ?_
      have hlast := hsecond.trans hd₅
      have hlen := hlast.length
      split
      · refine ends_ite (fun _ => trivial) fun _ => ?_
        exact (ih (hd.follows hlast) (by omega)).follows hlast
      · trivial
    · obtain rfl := hd₃.2 (by simpa using hb)
      have hlen := hfirst.length
      exact (ih (hd.follows hfirst) (by omega)).follows hfirst

theorem ends_readSet {flags : Flags} {start : Nat} (hd : Inside text d) :
    Ends text (readSet flags start) d fun _ d' => Follows text 0 d d' := by
  unfold readSet
  refine ends_accept_follows.bind fun negated d₁ hd₁ => ends_get_bind ?_
  refine (ends_readMembers (hd.follows hd₁) (Nat.lt_succ_self _)).bind fun members d₂ hd₂ => ?_
  have hfollows := hd₁.trans hd₂
  split <;> exact ends_pure hfollows

theorem ends_readCount? {digits : List Char} (h : '\x7b' ∈ text) :
    Ends text (readCount? digits) d fun _ d' => d' = d := by
  unfold readCount?
  refine ends_ite (fun _ => ends_pure rfl) fun _ => ends_ite (fun _ => ends_limit_bind fun _ => h) fun _ => ?_
  exact ends_ite (fun _ => ends_limit_bind fun _ => Or.inl h) fun _ => ends_pure rfl

theorem ends_readBraces? (h : '\x7b' ∈ text) :
    Ends text readBraces? d fun _ d' => Follows text 0 d d' := by
  unfold readBraces?
  refine ends_peek.bind ?_
  rintro t d ⟨rfl, rfl⟩
  refine ends_ite (fun _ => ends_pure (.refl d)) fun _ => ends_get_bind ?_
  refine (ends_takeAll Char.isDigit).bind fun low d₁ hd₁ => ?_
  refine ends_accept_follows.bind fun b d₂ hd₂ => ?_
  have hhigh : Ends text (if b = true then takeAll Char.isDigit else pure low) d₂
      fun _ d' => Follows text 0 d₂ d' :=
    ends_ite (fun _ => ends_takeAll _) fun _ => ends_pure (.refl d₂)
  refine ends_ite_bind hhigh fun high d₃ hd₃ => ?_
  refine ends_accept_follows.bind fun b' d₄ hd₄ => ?_
  have hfollows := ((hd₁.trans hd₂).trans hd₃).trans hd₄
  refine ends_ite (fun _ => ?_) fun _ => ends_set_bind (ends_pure (.refl d))
  refine (ends_readCount? h).bind ?_
  rintro least d₅ rfl
  refine (ends_readCount? h).bind ?_
  rintro most d₆ rfl
  exact ends_ite (fun _ => trivial) fun _ => ends_pure hfollows

theorem ends_readCounts? (h : c ≠ '*' → c ≠ '+' → c ≠ '?' → '\x7b' ∈ text) :
    Ends text (readCounts? c) d fun _ d' => Follows text 0 d d' := by
  unfold readCounts?
  split
  · exact ends_pure (.refl d)
  · exact ends_pure (.refl d)
  · exact ends_pure (.refl d)
  · next hstar hplus hquery => exact ends_readBraces? (h hstar hplus hquery)

theorem ends_readGreed : Ends text readGreed d fun _ d' => Follows text 0 d d' := by
  unfold readGreed
  refine ends_accept_follows.bind fun b d₁ hd₁ => ends_ite (fun _ => ends_pure hd₁) fun _ => ?_
  refine ends_accept_follows.bind fun b' d₂ hd₂ => ?_
  exact ends_ite (fun _ => ends_pure (hd₁.trans hd₂)) fun _ => ends_pure (hd₁.trans hd₂)

theorem ends_readLoop {start least : Nat} {most : Option Nat} {items : List Item} :
    Ends text (readLoop start least most items) d fun _ d' => Follows text 0 d d' := by
  unfold readLoop
  split
  · trivial
  split
  · trivial
  · trivial
  · exact ends_readGreed.bind fun greed d' hd' => ends_pure hd'

theorem ends_skipLine {fuel : Nat} (hf : d.rest.length < fuel) :
    Ends text (skipLine fuel) d fun _ d' => Follows text 0 d d' := by
  induction fuel generalizing d with
  | zero => exact absurd hf (Nat.not_lt_zero _)
  | succ fuel ih =>
    unfold skipLine
    refine ends_next_bind (ends_pure (.refl d)) fun t d₁ _ hd₁ => ?_
    have hlen := hd₁.length
    split
    · next h => cases h
    · exact ends_pure (hd₁.mono (Nat.zero_le _))
    · exact (ih (by omega)).follows hd₁

theorem ends_skipComment {start fuel : Nat} (hf : d.rest.length < fuel) :
    Ends text (skipComment start fuel) d fun _ d' => Follows text 0 d d' := by
  induction fuel generalizing d with
  | zero => exact absurd hf (Nat.not_lt_zero _)
  | succ fuel ih =>
    unfold skipComment
    refine ends_next_bind trivial fun t d₁ _ hd₁ => ?_
    have hlen := hd₁.length
    split
    · trivial
    · exact ends_pure (hd₁.mono (Nat.zero_le _))
    · exact (ih (by omega)).follows hd₁

theorem ends_readFlag (stops : List Char) (missing : Defect) :
    Ends text (readFlag stops missing) d fun _ d' => Follows text 1 d d' := by
  unfold readFlag
  refine ends_next_bind trivial fun t d₁ _ hd₁ => ?_
  cases t with
  | plain c => exact ends_ite (fun _ => ends_pure hd₁) fun _ => trivial
  | escaped c => trivial

theorem ends_readAdded {fuel : Nat} {add : List Char} (hf : d.rest.length < fuel) :
    Ends text (readAdded c fuel add) d fun _ d' => Follows text 0 d d' := by
  induction fuel generalizing d c add with
  | zero => exact absurd hf (Nat.not_lt_zero _)
  | succ fuel ih =>
    unfold readAdded
    refine ends_ite (fun _ => trivial) fun _ => ends_ite (fun _ => trivial) fun _ => ?_
    refine (ends_readFlag _ _).bind fun e d₁ hd₁ => ends_ite (fun _ => ?_) fun _ => ?_
    · have hlen := hd₁.length
      exact (ih (by omega)).follows hd₁
    · exact ends_pure (hd₁.mono (Nat.zero_le _))

theorem ends_readRemoved {fuel : Nat} {remove : List Char} (hf : d.rest.length < fuel) :
    Ends text (readRemoved c fuel remove) d fun _ d' => Follows text 0 d d' := by
  induction fuel generalizing d c remove with
  | zero => exact absurd hf (Nat.not_lt_zero _)
  | succ fuel ih =>
    unfold readRemoved
    refine ends_ite (fun _ => trivial) fun _ => ?_
    refine (ends_readFlag _ _).bind fun e d₁ hd₁ => ends_ite (fun _ => ?_) fun _ => ?_
    · exact ends_pure (hd₁.mono (Nat.zero_le _))
    · have hlen := hd₁.length
      exact (ih (by omega)).follows hd₁

/-- Flags for the whole pattern are set within parentheses. -/
theorem ends_readFlags (h : ['(', '?'] <:+: text) :
    Ends text (readFlags c) d fun _ d' => Follows text 0 d d' := by
  unfold readFlags
  refine ends_get_bind ?_
  have hadded : Ends text (if c = '-' then pure ([], '-') else readAdded c (d.rest.length + 1) []) d
      fun _ d' => Follows text 0 d d' :=
    ends_ite (fun _ => ends_pure (.refl d)) fun _ => ends_readAdded (Nat.lt_succ_self _)
  refine ends_ite_bind hadded ?_
  rintro ⟨add, stop⟩ d₁ hd₁
  refine ends_ite (fun _ => ?_) fun _ => ends_ite (fun _ => trivial) fun _ => ?_
  · exact ends_modify_bind (ends_pure ⟨hd₁.suffix, hd₁.length, fun _ => Or.inr h⟩)
  refine ends_ite (fun _ => ?_) fun _ => ends_pure_bind ?_
  · refine (ends_readFlag _ _).bind fun e d₂ hd₂ => ?_
    have hlen := (hd₁.trans hd₂).length
    refine (ends_readRemoved (by omega)).bind fun remove d₃ hd₃ => ?_
    refine ends_ite (fun _ => trivial) fun _ => ends_ite (fun _ => trivial) fun _ => ends_pure ?_
    exact ((hd₁.trans hd₂).trans hd₃).mono (Nat.zero_le _)
  · exact ends_ite (fun _ => trivial) fun _ => ends_ite (fun _ => trivial) fun _ => ends_pure hd₁

theorem ends_readGroupName (terminator : Char) :
    Ends text (readGroupName terminator) d fun _ d' => Follows text 0 d d' := by
  unfold readGroupName
  refine (ends_takeName _ _).bind fun name d₁ hd₁ => ?_
  exact ends_ite (fun _ => ends_pure hd₁) fun _ => trivial

theorem ends_groupNamed (name : List Char) :
    Ends text (groupNamed name) d fun _ d' => d' = d := by
  unfold groupNamed
  refine ends_get_bind ?_
  split
  · exact ends_pure rfl
  · trivial

theorem ends_readCondition : Ends text readCondition d fun _ d' => Follows text 0 d d' := by
  unfold readCondition
  refine (ends_takeName _ _).bind fun name d₁ hd₁ => ?_
  have hcheck (index : Nat) (e : Draft) (he : Follows text 0 d e) :
      Ends text (checkLookbehind index >>= fun _ => pure index) e fun _ d' => Follows text 0 d d' := by
    refine (ends_checkLookbehind index).bind ?_
    rintro - d' rfl
    exact ends_pure he
  refine ends_ite (fun _ => ?_) fun _ => ?_
  · refine (ends_groupNamed name).bind ?_
    rintro index d' rfl
    exact hcheck index d' hd₁
  · dsimp only
    split
    · refine ends_ite (fun _ => trivial) fun _ => ends_ite (fun _ => trivial) fun _ => ?_
      refine ends_modify_bind (hcheck _ _ ?_)
      split
      · exact hd₁
      · exact ⟨hd₁.suffix, hd₁.length, hd₁.ascii⟩
    · trivial

theorem ends_openGroup (name : Option (List Char)) :
    Ends text (openGroup name) d fun _ d' => Follows text 0 d d' := by
  unfold openGroup
  refine ends_get_bind (ends_set_bind ?_)
  have hopened : Follows text 0 d { d with widths := d.widths ++ [none] } :=
    ⟨List.suffix_rfl, Nat.le_refl _, Or.inl⟩
  split
  · dsimp only
    split
    · trivial
    · exact ends_modify_bind (ends_pure ⟨List.suffix_rfl, Nat.le_refl _, Or.inl⟩)
  · exact ends_pure hopened

theorem ends_closeGroup (index : Nat) (body : Expr) :
    Ends text (closeGroup index body) d fun _ d' => Follows text 0 d d' :=
  ⟨List.suffix_rfl, Nat.le_refl _, Or.inl⟩

theorem ends_closeParenthesis (start : Nat) :
    Ends text (closeParenthesis start) d fun _ d' => Follows text 0 d d' := by
  unfold closeParenthesis
  refine ends_accept_follows.bind fun b d₁ hd₁ => ?_
  exact ends_ite (fun _ => ends_pure hd₁) fun _ => trivial

end

end IdentCase.Pattern
