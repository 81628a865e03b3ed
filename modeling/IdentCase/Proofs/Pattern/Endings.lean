import IdentCase.Pattern.Compile
import IdentCase.Proofs.Pattern.Plain

/-! How the reading of a pattern can end. Beside values and defects there are limits, and for each of
them the text has to hold something that can break it. -/
namespace IdentCase.Pattern

/-- What a text holds if it breaks a limit where so many groups can be open. -/
def Limit.Needs (room : Nat) (text : List Char) : Limit → Prop
  | .numberTooLarge => '\x7b' ∈ text ∨ ['\\', 'U'] <:+: text
  | .numberTooLong => '\x7b' ∈ text
  | .incompatibleTypes => ['(', '?'] <:+: text
  | .tooDeep => room < text.count '('

/-- Whether a step ends in one of the given ways, or with a defect, or breaks a limit as the text allows.
However little room there is, a step alone does not run out of it. -/
def Ends {α : Type} (text : List Char) (m : Reading α) (d : Draft) (q : α → Draft → Prop) : Prop :=
  match m.run d with
  | .ok (a, d') => q a d'
  | .error (.defect ..) => True
  | .error (.limit what) => ∀ room, what.Needs room text

/-- What a step leaves of a draft, from which at least `n` characters are taken. -/
structure Follows (text : List Char) (n : Nat) (d d' : Draft) : Prop where
  suffix : d'.rest <:+ d.rest
  length : d'.rest.length + n ≤ d.rest.length
  /-- Only flags within parentheses confine a pattern to ASCII. -/
  ascii : d'.flags.ascii = true → d.flags.ascii = true ∨ ['(', '?'] <:+: text

section
variable {α β : Type} {text : List Char} {m : Reading α} {k : α → Reading β} {d d' d'' : Draft}
  {q q' : α → Draft → Prop} {r : β → Draft → Prop} {n n' : Nat} {c : Char}

theorem Ends.bind (hm : Ends text m d q) (hk : ∀ a d', q a d' → Ends text (k a) d' r) :
    Ends text (m >>= k) d r := by
  unfold Ends at hm ⊢
  rw [StateT.run_bind]
  cases hrun : m.run d with
  | ok x =>
    rw [hrun] at hm
    exact hk x.1 x.2 hm
  | error refusal =>
    rw [hrun] at hm
    cases refusal with
    | defect what pos => trivial
    | limit what => exact hm

theorem Ends.mono (hm : Ends text m d q) (h : ∀ a d', q a d' → q' a d') : Ends text m d q' := by
  unfold Ends at hm ⊢
  cases hrun : m.run d with
  | ok x =>
    rw [hrun] at hm
    exact h x.1 x.2 hm
  | error refusal =>
    rw [hrun] at hm
    cases refusal with
    | defect what pos => trivial
    | limit what => exact hm

theorem ends_pure {a : α} (h : q a d) : Ends text (pure a) d q := h

theorem ends_pure_bind {a : α} (h : Ends text (k a) d r) : Ends text (pure a >>= k) d r := h

theorem ends_get_bind {k : Draft → Reading β} (h : Ends text (k d) d r) :
    Ends text (get >>= k) d r := h

theorem ends_set_bind {k : PUnit → Reading β} (h : Ends text (k ⟨⟩) d' r) :
    Ends text (set d' >>= k) d r := h

theorem ends_modify_bind {f : Draft → Draft} {k : PUnit → Reading β} (h : Ends text (k ⟨⟩) (f d) r) :
    Ends text (modify f >>= k) d r := h

theorem ends_fail (what : Defect) (back : Nat) : Ends text (fail what back) d q := trivial

theorem ends_limit_bind {what : Limit} (h : ∀ room, what.Needs room text) :
    Ends text (throw (.limit what) >>= k) d r := h

theorem ends_ite {p : Prop} [Decidable p] {m m' : Reading α} (h : p → Ends text m d q)
    (h' : ¬ p → Ends text m' d q) : Ends text (if p then m else m') d q := by
  split
  · next hp => exact h hp
  · next hp => exact h' hp

/-- Two branches that go on in the same way. -/
theorem ends_ite_bind {p : Prop} [Decidable p] {m m' : Reading α}
    (h : Ends text (if p then m else m') d q) (hk : ∀ a d', q a d' → Ends text (k a) d' r) :
    Ends text (if p then m >>= k else m' >>= k) d r := by
  split
  · next hp => exact (if_pos hp ▸ h).bind hk
  · next hp => exact (if_neg hp ▸ h).bind hk

theorem Follows.refl (d : Draft) : Follows text 0 d d := ⟨List.suffix_rfl, Nat.le_refl _, Or.inl⟩

theorem Follows.trans (h : Follows text n d d') (h' : Follows text n' d' d'') :
    Follows text (n + n') d d'' where
  suffix := h'.suffix.trans h.suffix
  length := by
    have hle := h.length
    have hle' := h'.length
    omega
  ascii hascii := (h'.ascii hascii).elim h.ascii Or.inr

theorem Follows.mono (h : Follows text n d d') (hn : n' ≤ n) : Follows text n' d d' :=
  ⟨h.suffix, Nat.le_trans (Nat.add_le_add_left hn _) h.length, h.ascii⟩

/-- What follows a place that follows another. -/
theorem Ends.follows (hm : Ends text m d' fun _ e => Follows text 0 d' e) (h : Follows text n d d') :
    Ends text m d' fun _ e => Follows text 0 d e :=
  hm.mono fun _ _ he => (h.trans he).mono (Nat.zero_le _)

theorem follows_pass (h : n ≤ d.rest.length) : Follows text n d (d.pass n) := by
  refine ⟨List.drop_suffix _ _, ?_, Or.inl⟩
  rw [Draft.pass, List.length_drop]
  omega

theorem ends_checkEscape : Ends text checkEscape d fun _ d' => d' = d := by
  unfold checkEscape
  refine ends_get_bind (ends_ite (fun _ => ends_fail _ _) fun _ => ends_pure rfl)

theorem ends_skip : Ends text (skip n) d fun _ d' => d' = d.pass n := by
  unfold skip
  exact ends_modify_bind ends_checkEscape

theorem token?_eq_some {l : List Char} {t : Token} (h : token? l = some t) :
    l = t.chars ++ l.drop t.chars.length := by
  unfold token? at h
  split at h <;> cases h <;> rfl

theorem Token.chars_length_pos (t : Token) : 0 < t.chars.length := by
  cases t <;> exact Nat.succ_pos _

/-- What comes of a token at the head of a draft. -/
theorem follows_of_token? (text : List Char) {t : Token} (h : token? d.rest = some t) :
    d.rest = t.chars ++ (d.pass t.chars.length).rest ∧
      Follows text t.chars.length d (d.pass t.chars.length) := by
  have hrest := token?_eq_some h
  refine ⟨hrest, follows_pass ?_⟩
  rw [hrest, List.length_append]
  exact Nat.le_add_right _ _

theorem ends_peek : Ends text peek d fun t d' => t = token? d.rest ∧ d' = d := ⟨rfl, rfl⟩

theorem ends_next : Ends text next d fun t d' =>
    (t = none → d' = d) ∧ ∀ u, t = some u → d.rest = u.chars ++ d'.rest ∧ Follows text 1 d d' := by
  unfold next
  refine ends_peek.bind ?_
  rintro t d' ⟨rfl, rfl⟩
  split
  · exact ends_pure ⟨fun _ => rfl, nofun⟩
  · next t ht =>
    refine ends_skip.bind ?_
    rintro - d'' rfl
    refine ends_pure ⟨nofun, ?_⟩
    rintro u ⟨⟩
    obtain ⟨hrest, hd⟩ := follows_of_token? text ht
    exact ⟨hrest, hd.mono t.chars_length_pos⟩

/-- What is done with the next token, or at the end. -/
theorem ends_next_bind {k : Option Token → Reading β} (hend : Ends text (k none) d r)
    (htoken : ∀ t d', d.rest = t.chars ++ d'.rest → Follows text 1 d d' → Ends text (k (some t)) d' r) :
    Ends text (next >>= k) d r := by
  refine ends_next.bind fun t d' ht => ?_
  cases t with
  | none =>
    rw [ht.1 rfl]
    exact hend
  | some t =>
    obtain ⟨hrest, hd'⟩ := ht.2 t rfl
    exact htoken t d' hrest hd'

theorem ends_accept : Ends text (accept c) d fun b d' =>
    (b = true → d.rest = c :: d'.rest ∧ Follows text 1 d d') ∧ (b = false → d' = d) := by
  unfold accept
  refine ends_peek.bind ?_
  rintro t d' ⟨rfl, rfl⟩
  refine ends_ite (fun ht => ?_) fun _ => ends_pure ⟨nofun, fun _ => rfl⟩
  refine ends_skip.bind ?_
  rintro - d'' rfl
  exact ends_pure ⟨fun _ => follows_of_token? _ ht, nofun⟩

/-- Whether or not the character comes next. -/
theorem ends_accept_follows : Ends text (accept c) d fun _ d' => Follows text 0 d d' := by
  refine ends_accept.mono ?_
  rintro (_ | _) d' ⟨htrue, hfalse⟩
  · rw [hfalse rfl]
    exact .refl d
  · exact (htrue rfl).2.mono (Nat.zero_le _)

theorem ends_takeUpTo (p : Char → Bool) (n : Nat) : Ends text (takeUpTo p n) d fun l d' =>
    Follows text 0 d d' ∧ l.length ≤ n ∧ ∀ c ∈ l, p c := by
  induction n generalizing d with
  | zero => exact ends_pure ⟨.refl d, Nat.le_refl _, nofun⟩
  | succ n ih =>
    unfold takeUpTo
    refine ends_peek.bind ?_
    rintro t d' ⟨rfl, rfl⟩
    split
    · next c ht =>
      refine ends_ite (fun hc => ?_) fun _ => ends_pure ⟨.refl d', Nat.zero_le _, nofun⟩
      refine ends_skip.bind ?_
      rintro - d'' rfl
      have hfirst : Follows text 1 d' (d'.pass 1) := (follows_of_token? _ ht).2
      refine ih.bind ?_
      rintro l d'' ⟨hrest, hlen, hall⟩
      exact ends_pure ⟨(hfirst.trans hrest).mono (Nat.zero_le _), Nat.succ_le_succ hlen,
        List.forall_mem_cons.mpr ⟨hc, hall⟩⟩
    · exact ends_pure ⟨.refl d', Nat.zero_le _, nofun⟩

theorem ends_takeAll (p : Char → Bool) : Ends text (takeAll p) d fun _ d' => Follows text 0 d d' := by
  unfold takeAll
  exact ends_get_bind ((ends_takeUpTo p _).mono fun _ _ h => h.1)

/-- A name ends before the text does, so a round for each character suffices. -/
theorem ends_takeName_go (kind : NameKind) (terminator : Char) {fuel : Nat} {name : List Char}
    (hf : d.rest.length < fuel) :
    Ends text (takeName.go kind terminator fuel name) d fun _ d' => Follows text 0 d d' := by
  induction fuel generalizing d name with
  | zero => exact absurd hf (Nat.not_lt_zero _)
  | succ fuel ih =>
    unfold takeName.go
    refine ends_next_bind (ends_ite (fun _ => ends_fail _ _) fun _ => ends_fail _ _) ?_
    intro t d' _ hd'
    refine ends_ite (fun _ => ?_) fun _ => ?_
    · exact ends_ite (fun _ => ends_fail _ _) fun _ => ends_pure (hd'.mono (Nat.zero_le _))
    · have hlen := hd'.length
      exact (ih (by omega)).follows hd'

theorem ends_takeName (kind : NameKind) (terminator : Char) :
    Ends text (takeName kind terminator) d fun _ d' => Follows text 0 d d' := by
  unfold takeName
  exact ends_get_bind (ends_takeName_go kind terminator (Nat.lt_succ_self _))

end

/-! Escapes. -/

section
variable {text : List Char} {d : Draft} {c : Char} {n : Nat}

theorem hexValue_lt (h : isHex c) : hexValue c < 16 := by
  have hdigit : c.isDigit ↔ 48 ≤ c.toNat ∧ c.toNat ≤ 57 := by
    simp [Char.isDigit, UInt32.le_iff_toNat_le]
  have hle (a b : Char) : a ≤ b ↔ a.toNat ≤ b.toNat := UInt32.le_iff_toNat_le
  simp only [isHex, Bool.or_eq_true, Bool.and_eq_true, decide_eq_true_eq, hdigit, hle,
    Char.reduceToNat] at h
  simp only [hexValue, hdigit, hle, Char.reduceToNat]
  split
  · omega
  · split <;> omega

/-- A number is bounded by the number of its digits. -/
theorem readNumber_lt {base : Nat} {digits : List Char} (h : ∀ c ∈ digits, hexValue c < base) :
    readNumber base digits < Nat.pow base digits.length := by
  have hfold (a : Nat) : digits.foldl (fun n d => n * base + hexValue d) a <
      (a + 1) * Nat.pow base digits.length := by
    induction digits generalizing a with
    | nil => exact Nat.lt_of_lt_of_eq (Nat.lt_succ_self a) (Nat.mul_one _).symm
    | cons c digits ih =>
      rw [List.forall_mem_cons] at h
      have hstep : a * base + hexValue c + 1 ≤ (a + 1) * base := by
        rw [Nat.add_mul, Nat.one_mul]
        exact Nat.add_le_add_left h.1 _
      calc
        _ < (a * base + hexValue c + 1) * Nat.pow base digits.length := ih h.2 _
        _ ≤ (a + 1) * base * Nat.pow base digits.length := Nat.mul_le_mul_right _ hstep
        _ = (a + 1) * (Nat.pow base digits.length * base) := by
          rw [Nat.mul_assoc, Nat.mul_comm base]
  simpa [readNumber] using hfold 0

/-- Only eight digits can be too large a number. -/
theorem ends_readHexEscape (letter : Char) (h : n ≤ 4 ∨ ['\\', 'U'] <:+: text) :
    Ends text (readHexEscape letter n) d fun _ d' => Follows text 0 d d' := by
  unfold readHexEscape
  refine (ends_takeUpTo isHex n).bind ?_
  rintro digits d' ⟨hd', hlen, hhex⟩
  refine ends_ite (fun _ => trivial) fun _ => ends_ite (fun hlarge => ?_) fun _ => ?_
  · refine ends_limit_bind fun _ => Or.inr (h.resolve_left fun hn => ?_)
    have hlt := readNumber_lt fun c hc => hexValue_lt (hhex c hc)
    have hpow : Nat.pow 16 digits.length ≤ Nat.pow 16 4 :=
      Nat.pow_le_pow_right (by decide) (by omega)
    have hlimit : Nat.pow 16 4 < 0x80000000 := by decide
    omega
  · exact ends_ite (fun _ => trivial) fun _ => ends_pure hd'

theorem ends_readNameEscape : Ends text readNameEscape d fun _ d' => Follows text 0 d d' := by
  unfold readNameEscape
  refine ends_accept_follows.bind fun b d' hd' => ?_
  refine ends_ite (fun _ => ?_) fun _ => trivial
  refine (ends_takeName _ _).bind fun name d'' hd'' => ends_get_bind ?_
  split
  · exact ends_pure (hd'.trans hd'')
  · trivial

theorem ends_octalCode (digits : List Char) : Ends text (octalCode digits) d fun _ d' => d' = d := by
  unfold octalCode
  exact ends_ite (fun _ => trivial) fun _ => ends_pure rfl

theorem ends_readCode (h : c = 'U' → ['\\', 'U'] <:+: text) :
    Ends text (readCode c) d fun _ d' => Follows text 0 d d' := by
  unfold readCode
  split
  · exact ends_readHexEscape _ (Or.inl (by decide))
  · exact ends_readHexEscape _ (Or.inl (by decide))
  · exact ends_readHexEscape _ (Or.inr (h rfl))
  · exact ends_readNameEscape
  · exact ends_ite (fun _ => trivial) fun _ => ends_pure (.refl d)

theorem ends_readClassEscape {ascii : Bool} (h : c = 'U' → ['\\', 'U'] <:+: text) :
    Ends text (readClassEscape ascii c) d fun _ d' => Follows text 0 d d' := by
  unfold readClassEscape
  split
  · exact ends_pure (.refl d)
  split
  · exact ends_pure (.refl d)
  refine ends_ite (fun _ => ?_) fun _ => ?_
  · refine (ends_takeUpTo isOctal 2).bind fun digits d' hd' => ?_
    refine (ends_octalCode _).bind ?_
    rintro code d'' rfl
    exact ends_pure hd'.1
  · exact (ends_readCode h).bind fun code d' hd' => ends_pure hd'

theorem ends_checkLookbehind (index : Nat) :
    Ends text (checkLookbehind index) d fun _ d' => d' = d := by
  unfold checkLookbehind
  refine ends_get_bind ?_
  split
  · refine ends_ite (fun _ => ?_) fun _ => trivial
    exact ends_ite (fun _ => trivial) fun _ => ends_pure rfl
  · exact ends_pure rfl

theorem ends_readBackref (mode : CaseMode) : Ends text (readBackref mode c) d fun _ d' =>
    Follows text 0 d d' := by
  unfold readBackref
  refine (ends_takeUpTo Char.isDigit 1).bind fun more d' hd' => ?_
  have htail (e : Draft) (he : Follows text 0 d e) : Ends text (do
      let d ← get
      if d.groups ≤ readNumber 10 (c :: more) then
        fail (.unknownGroupNumber (readNumber 10 (c :: more))) (more.length + 1)
      unless d.isClosed (readNumber 10 (c :: more)) do fail .openGroup (more.length + 2)
      checkLookbehind (readNumber 10 (c :: more))
      return Expr.backref (readNumber 10 (c :: more)) mode) e fun _ d' =>
        Follows text 0 d d' := by
    refine ends_get_bind (ends_ite (fun _ => trivial) fun _ => ends_ite (fun _ => ?_) fun _ => trivial)
    refine (ends_checkLookbehind _).bind ?_
    rintro - e' rfl
    exact ends_pure he
  refine ends_ite (fun _ => ?_) fun _ => htail d' hd'.1
  refine (ends_takeUpTo isOctal 1).bind fun last d'' hd'' => ?_
  split
  · refine (ends_octalCode _).bind ?_
    rintro code e rfl
    exact ends_pure (hd'.1.trans hd''.1)
  · exact htail d'' (hd'.1.trans hd''.1)

theorem ends_readEscape {flags : Flags} (h : c = 'U' → ['\\', 'U'] <:+: text) :
    Ends text (readEscape flags c) d fun _ d' => Follows text 0 d d' := by
  unfold readEscape
  dsimp only
  split
  · exact ends_pure (.refl d)
  split
  · exact ends_pure (.refl d)
  split
  · exact ends_pure (.refl d)
  refine ends_ite (fun _ => ?_) fun _ => ends_ite (fun _ => ends_readBackref _) fun _ => ?_
  · refine (ends_takeUpTo isOctal 2).bind fun digits d' hd' => ?_
    refine (ends_octalCode _).bind ?_
    rintro code d'' rfl
    exact ends_pure hd'.1
  · exact (ends_readCode h).bind fun code d' hd' => ends_pure hd'

end

end IdentCase.Pattern
