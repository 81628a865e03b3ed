import IdentCase.Options
import IdentCase.Proofs.Json.Reader
import IdentCase.Proofs.Run

/-! Elements of option lists: which are matchers, and why the others are refused. The tests of an
element are made in a fixed order, and the first that fails gives the reason. -/
namespace IdentCase.Options

def flagLetters : List Char := ['i', 'm', 's', 'u', 'g', 'y']

def flagsOf (letters : List Char) : Pattern.Flags :=
  { ignoreCase := letters.contains 'i'
    multiline := letters.contains 'm'
    dotAll := letters.contains 's' }

/-- The text of the pattern and the flag letters that an element gives. Null stands for no letters. -/
structure Describes (elt : Json) (source letters : String) : Prop where
  pattern : (patternSpec elt).get? "pattern" = some (.str source)
  flags : (patternSpec elt).get? "flags" = some (.str letters) ∨
    letters = "" ∧ ((patternSpec elt).get? "flags" = none ∨ (patternSpec elt).get? "flags" = some .null)

/-- The pattern that an element describes in letters that stand for flags and in a text that is accepted. -/
def IsPattern (host : Host) (elt : Json) (p : Pattern) : Prop :=
  ∃ source letters, Describes elt source letters ∧ (∀ c ∈ letters.toList, c ∈ flagLetters) ∧
    Pattern.compile host source (flagsOf letters.toList) = .ok p

/-- Why an element is no matcher: the first of its tests that fails, each with those before it passed. -/
inductive Refused (host : Host) (option : String) (elt : Json) : Fault → Prop
  | notMatcher (hstr : ∀ text, elt ≠ .str text) (hobj : ∀ fields, elt ≠ .obj fields) :
    Refused host option elt (host.refuse option elt .notMatcher)
  | patternNotText {fields : List (String × Json)} (hobj : elt = .obj fields)
      (hpattern : ∀ source, (patternSpec elt).get? "pattern" ≠ some (.str source)) :
    Refused host option elt
      (host.refuse option (((patternSpec elt).get? "pattern").getD .null) .patternNotText)
  | flagsNotText {source : String} {flags : Json}
      (hpattern : (patternSpec elt).get? "pattern" = some (.str source))
      (hflags : (patternSpec elt).get? "flags" = some flags) (hnull : flags ≠ .null)
      (hstr : ∀ letters, flags ≠ .str letters) :
    Refused host option elt (.badMatcher option (.str source) .flagsNotText)
  | unsupportedFlag {source letters : String} {before after : List Char} {c : Char}
      (hd : Describes elt source letters) (hsplit : letters.toList = before ++ c :: after)
      (hbefore : ∀ d ∈ before, d ∈ flagLetters) (hc : c ∉ flagLetters) :
    Refused host option elt (.badMatcher option (.str source) (.unsupportedFlag c))
  | defect {source letters : String} {what : Pattern.Defect} {pos : Option Nat}
      (hd : Describes elt source letters) (hletters : ∀ c ∈ letters.toList, c ∈ flagLetters)
      (hcompile : Pattern.compile host source (flagsOf letters.toList) = .error (.defect what pos)) :
    Refused host option elt (.badMatcher option (.str source) (.defect what pos))
  | limit {source letters : String} {what : Pattern.Limit}
      (hd : Describes elt source letters) (hletters : ∀ c ∈ letters.toList, c ∈ flagLetters)
      (hcompile : Pattern.compile host source (flagsOf letters.toList) = .error (.limit what)) :
    Refused host option elt (.limit what)

section
variable {flags : Pattern.Flags} {letters : List Char} {c : Char}

theorem addFlag?_eq_none_iff : addFlag? flags c = none ↔ c ∉ flagLetters := by
  unfold addFlag?
  split <;> simp_all [flagLetters]

theorem addFlag?_eq_some {flags' : Pattern.Flags} (h : addFlag? flags c = some flags') :
    flags' = { flags with
      ignoreCase := flags.ignoreCase || 'i' == c
      multiline := flags.multiline || 'm' == c
      dotAll := flags.dotAll || 's' == c } := by
  unfold addFlag? at h
  split at h <;> cases h <;> simp_all

/-- Adding letters one by one gives the flags of the letters as a set. -/
theorem addFlags_of_forall_mem (h : ∀ c ∈ letters, c ∈ flagLetters) :
    addFlags flags letters = .ok { flags with
      ignoreCase := flags.ignoreCase || letters.contains 'i'
      multiline := flags.multiline || letters.contains 'm'
      dotAll := flags.dotAll || letters.contains 's' } := by
  induction letters generalizing flags with
  | nil => simp [addFlags]
  | cons c letters ih =>
    rw [List.forall_mem_cons] at h
    cases hadd : addFlag? flags c with
    | none => exact absurd h.1 (addFlag?_eq_none_iff.mp hadd)
    | some flags' =>
      rw [addFlags, hadd]
      dsimp only
      rw [ih h.2, addFlag?_eq_some hadd]
      simp only [List.contains_cons, Bool.or_assoc]

theorem addFlags_append_cons {before after : List Char} (hbefore : ∀ d ∈ before, d ∈ flagLetters)
    (hc : c ∉ flagLetters) : addFlags flags (before ++ c :: after) = .error c := by
  induction before generalizing flags with
  | nil => rw [List.nil_append, addFlags, addFlag?_eq_none_iff.mpr hc]
  | cons d before ih =>
    rw [List.forall_mem_cons] at hbefore
    cases hadd : addFlag? flags d with
    | none => exact absurd hbefore.1 (addFlag?_eq_none_iff.mp hadd)
    | some flags' =>
      rw [List.cons_append, addFlags, hadd]
      exact ih hbefore.2

theorem exists_of_not_forall_mem (h : ¬ ∀ c ∈ letters, c ∈ flagLetters) :
    ∃ before c after, letters = before ++ c :: after ∧ (∀ d ∈ before, d ∈ flagLetters) ∧
      c ∉ flagLetters := by
  induction letters with
  | nil => exact absurd nofun h
  | cons c letters ih =>
    by_cases hc : c ∈ flagLetters
    · have hrest : ¬ ∀ c ∈ letters, c ∈ flagLetters := fun hall => h (List.forall_mem_cons.mpr ⟨hc, hall⟩)
      obtain ⟨before, d, after, rfl, hbefore, hd⟩ := ih hrest
      exact ⟨c :: before, d, after, rfl, List.forall_mem_cons.mpr ⟨hc, hbefore⟩, hd⟩
    · exact ⟨[], c, letters, rfl, nofun, hc⟩

end

section
variable {host : Host} {option source letters : String} {elt : Json} {e : Fault}

/-- The matcher of a described pattern, once all letters are known to stand for flags. -/
theorem compilePattern_of_forall_mem (h : ∀ c ∈ letters.toList, c ∈ flagLetters) :
    compilePattern host option source letters =
      match Pattern.compile host source (flagsOf letters.toList) with
      | .ok p => .ok p
      | .error (.defect what pos) => .error (.badMatcher option (.str source) (.defect what pos))
      | .error (.limit what) => .error (.limit what) := by
  have hadd : addFlags {} letters.toList = .ok (flagsOf letters.toList) := by
    rw [addFlags_of_forall_mem h]
    simp [flagsOf]
  unfold compilePattern
  split
  · next c h =>
    rw [hadd] at h
    cases h
  · next flags h =>
    rw [hadd] at h
    cases h
    rfl

theorem compileMatcher_of_describes (h : Describes elt source letters) :
    compileMatcher host option elt = (compilePattern host option source letters).map .pattern := by
  obtain ⟨hpattern, hflags⟩ := h
  cases elt with
  | obj fields =>
    unfold compileMatcher
    dsimp only
    rw [hpattern]
    rcases hflags with hflags | ⟨rfl, hflags | hflags⟩ <;> rw [hflags] <;> rfl
  | _ => cases hpattern

theorem compileMatcher_of_refused {e : Fault} (h : Refused host option elt e) :
    compileMatcher host option elt = .error e := by
  cases h with
  | notMatcher hstr hobj =>
    cases elt with
    | str text => exact absurd rfl (hstr text)
    | obj fields => exact absurd rfl (hobj fields)
    | _ => rfl
  | @patternNotText fields hobj hpattern =>
    subst hobj
    have hnot : ∀ source, ((patternSpec (.obj fields)).get? "pattern").getD .null ≠ .str source := by
      intro source h
      cases hget : (patternSpec (.obj fields)).get? "pattern" with
      | none =>
        rw [hget] at h
        cases h
      | some pattern =>
        rw [hget, Option.getD_some] at h
        exact hpattern source (h ▸ hget)
    unfold compileMatcher
    dsimp only
    split
    · next source h => exact absurd h (hnot source)
    · rfl
  | flagsNotText hpattern hflags hnull hstr =>
    cases elt with
    | obj fields =>
      unfold compileMatcher
      dsimp only
      rw [hpattern, hflags]
      dsimp only [Option.getD_some]
      split
      · exact absurd rfl hnull
      · exact absurd rfl (hstr _)
      · rfl
    | _ => cases hpattern
  | unsupportedFlag hd hsplit hbefore hc =>
    rw [compileMatcher_of_describes hd, compilePattern, hsplit, addFlags_append_cons hbefore hc]
    rfl
  | defect hd hletters hcompile =>
    rw [compileMatcher_of_describes hd, compilePattern_of_forall_mem hletters, hcompile]
    rfl
  | limit hd hletters hcompile =>
    rw [compileMatcher_of_describes hd, compilePattern_of_forall_mem hletters, hcompile]
    rfl

theorem isPattern_or_refused (host : Host) (option : String) (h : Describes elt source letters) :
    (∃ p, IsPattern host elt p) ∨ ∃ e, Refused host option elt e := by
  by_cases hletters : ∀ c ∈ letters.toList, c ∈ flagLetters
  · cases hcompile : Pattern.compile host source (flagsOf letters.toList) with
    | ok p => exact Or.inl ⟨p, source, letters, h, hletters, hcompile⟩
    | error refusal =>
      cases refusal with
      | defect what pos => exact Or.inr ⟨_, .defect h hletters hcompile⟩
      | limit what => exact Or.inr ⟨_, .limit h hletters hcompile⟩
  · obtain ⟨before, c, after, hsplit, hbefore, hc⟩ := exists_of_not_forall_mem hletters
    exact Or.inr ⟨_, .unsupportedFlag h hsplit hbefore hc⟩

theorem compileMatcher_of_isPattern {p : Pattern} (h : IsPattern host elt p) :
    compileMatcher host option elt = .ok (.pattern p) := by
  obtain ⟨source, letters, hd, hletters, hcompile⟩ := h
  rw [compileMatcher_of_describes hd, compilePattern_of_forall_mem hletters, hcompile]
  rfl

/-- The tests of an element leave nothing open. -/
theorem literal_or_isPattern_or_refused (host : Host) (option : String) (elt : Json) :
    (∃ text, elt = .str text) ∨ (∃ p, IsPattern host elt p) ∨ ∃ e, Refused host option elt e := by
  cases elt with
  | str text => exact Or.inl ⟨text, rfl⟩
  | obj fields =>
    refine Or.inr ?_
    by_cases hpattern : ∃ source, (patternSpec (.obj fields)).get? "pattern" = some (.str source)
    · obtain ⟨source, hpattern⟩ := hpattern
      cases hflags : (patternSpec (.obj fields)).get? "flags" with
      | none => exact isPattern_or_refused host option ⟨hpattern, Or.inr ⟨rfl, Or.inl hflags⟩⟩
      | some flags =>
        cases flags with
        | null => exact isPattern_or_refused host option ⟨hpattern, Or.inr ⟨rfl, Or.inr hflags⟩⟩
        | str letters => exact isPattern_or_refused host option ⟨hpattern, Or.inl hflags⟩
        | _ => exact Or.inr ⟨_, .flagsNotText hpattern hflags nofun nofun⟩
    · exact Or.inr ⟨_, .patternNotText rfl fun source h => hpattern ⟨source, h⟩⟩
  | _ => exact Or.inr (Or.inr ⟨_, .notMatcher nofun nofun⟩)

theorem compileMatcher_eq_error_iff {e : Fault} :
    compileMatcher host option elt = .error e ↔ Refused host option elt e := by
  refine ⟨fun h => ?_, compileMatcher_of_refused⟩
  rcases literal_or_isPattern_or_refused host option elt with ⟨text, rfl⟩ | ⟨p, hp⟩ | ⟨e', he⟩
  · cases h
  · rw [compileMatcher_of_isPattern hp] at h
    cases h
  · rw [compileMatcher_of_refused he] at h
    cases h
    exact he

theorem refuse_cases (host : Host) (option : String) (v : Json) (reason : Reason) :
    host.refuse option v reason = .badMatcher option v reason ∨
      ∃ what, host.refuse option v reason = .limit what ∧ host.unwritable? v = some what := by
  unfold Host.refuse
  cases host.unwritable? v with
  | none => exact Or.inl rfl
  | some what => exact Or.inr ⟨what, rfl, rfl⟩

theorem Refused.cases (h : Refused host option elt e) :
    (∃ pattern reason, e = .badMatcher option pattern reason) ∨
      (∃ what source letters, e = .limit what ∧ Describes elt source letters ∧
        (∀ c ∈ letters.toList, c ∈ flagLetters) ∧
        Pattern.compile host source (flagsOf letters.toList) = .error (.limit what)) ∨
      ∃ what v, e = .limit what ∧ host.unwritable? v = some what ∧
        (v = elt ∨ v = ((patternSpec elt).get? "pattern").getD .null) := by
  cases h with
  | limit hd hletters hcompile => exact Or.inr (Or.inl ⟨_, _, _, rfl, hd, hletters, hcompile⟩)
  | notMatcher =>
    rcases refuse_cases host option elt .notMatcher with he | ⟨what, he, hv⟩
    · exact Or.inl ⟨_, _, he⟩
    · exact Or.inr (Or.inr ⟨what, _, he, hv, Or.inl rfl⟩)
  | patternNotText =>
    rcases refuse_cases host option (((patternSpec elt).get? "pattern").getD .null) .patternNotText with
      he | ⟨what, he, hv⟩
    · exact Or.inl ⟨_, _, he⟩
    · exact Or.inr (Or.inr ⟨what, _, he, hv, Or.inr rfl⟩)
  | _ => exact Or.inl ⟨_, _, rfl⟩

end

end IdentCase.Options
