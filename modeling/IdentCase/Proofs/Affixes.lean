import IdentCase.Proofs.Trimming
import Mathlib.Data.List.Infix

/-! The parts of a name: its checkable part, one affix at each side of it, and low lines outside of them. -/
namespace IdentCase

/-- What is left of a name by the first matcher that strips something from it, be it nothing. -/
inductive FirstStrip (strip? : Matcher → String → Option String) (name : String) :
    List Matcher → String → Prop
  | untouched {ms : List Matcher} (h : ∀ m ∈ ms, strip? m name = none) :
      FirstStrip strip? name ms name
  | first {before after : List Matcher} {m : Matcher} {rest : String}
      (hbefore : ∀ m' ∈ before, strip? m' name = none) (h : strip? m name = some rest) :
      FirstStrip strip? name (before ++ m :: after) rest

section
variable {strip? : Matcher → String → Option String} {ms : List Matcher} {name rest : String}

theorem firstStrip_iff :
    FirstStrip strip? name ms rest ↔ (ms.findSome? fun m => strip? m name).getD name = rest := by
  constructor
  · rintro (h | @⟨before, after, m, _, hbefore, h⟩)
    · rw [List.findSome?_eq_none_iff.mpr h, Option.getD_none]
    · have hsome : (before ++ m :: after).findSome? (fun m => strip? m name) = some rest :=
        List.findSome?_eq_some_iff.mpr ⟨before, m, after, rfl, h, hbefore⟩
      rw [hsome, Option.getD_some]
  · rintro rfl
    cases hf : ms.findSome? fun m => strip? m name with
    | none => exact .untouched (List.findSome?_eq_none_iff.mp hf)
    | some rest =>
      obtain ⟨before, m, after, rfl, h, hbefore⟩ := List.findSome?_eq_some_iff.mp hf
      exact .first hbefore h

theorem stripFirstPrefix_eq_iff :
    stripFirstPrefix ms name = rest ↔ FirstStrip Matcher.stripPrefix? name ms rest :=
  firstStrip_iff.symm

theorem stripFirstSuffix_eq_iff :
    stripFirstSuffix ms name = rest ↔ FirstStrip Matcher.stripSuffix? name ms rest :=
  firstStrip_iff.symm

/-- What no matcher of the list leaves is what there was. -/
theorem FirstStrip.eq_of_forall_ne (h : FirstStrip strip? name ms rest)
    (hne : ∀ m ∈ ms, strip? m name ≠ some rest) : name = rest := by
  cases h with
  | untouched => rfl
  | first _ h => exact absurd h (hne _ (by simp))

end

namespace Matcher

section
variable {text name rest : String}

theorem stripPrefix?_literal_iff :
    (literal text).stripPrefix? name = some rest ↔ name = text ++ rest ∧ rest ≠ "" := by
  have happend : name = text ++ rest ↔ name.toList = text.toList ++ rest.toList := by
    rw [← String.toList_append, String.toList_inj]
  rw [happend]
  simp only [stripPrefix?, Option.ite_none_right_eq_some, Bool.and_eq_true, decide_eq_true_eq,
    List.isPrefixOf_iff_prefix, Option.some.injEq, ← String.length_toList]
  constructor
  · rintro ⟨⟨hlen, hstart⟩, rfl⟩
    rw [String.toList_ofList]
    refine ⟨List.prefix_append_drop hstart, fun he => ?_⟩
    have hnil : name.toList.drop text.toList.length = [] := by simpa using he
    exact absurd (List.drop_eq_nil_iff.mp hnil) (Nat.not_le.mpr hlen)
  · rintro ⟨heq, hne⟩
    have hpos : 0 < rest.toList.length := by
      rw [List.length_pos_iff]
      simpa using hne
    rw [heq, List.drop_left, String.ofList_toList, List.length_append]
    exact ⟨⟨by omega, List.prefix_append _ _⟩, rfl⟩

theorem stripSuffix?_literal_iff :
    (literal text).stripSuffix? name = some rest ↔ name = rest ++ text ∧ rest ≠ "" := by
  have happend : name = rest ++ text ↔ name.toList = rest.toList ++ text.toList := by
    rw [← String.toList_append, String.toList_inj]
  rw [happend]
  simp only [stripSuffix?, Option.ite_none_right_eq_some, Bool.and_eq_true, decide_eq_true_eq,
    List.isSuffixOf_iff_suffix, Option.some.injEq, ← String.length_toList]
  constructor
  · rintro ⟨⟨hlen, l, hl⟩, rfl⟩
    have htake : name.toList.take (name.toList.length - text.toList.length) = l := by
      rw [← hl, List.length_append, Nat.add_sub_cancel, List.take_left]
    rw [htake, String.toList_ofList]
    refine ⟨hl.symm, fun he => ?_⟩
    have hnil : l = [] := by simpa using he
    rw [← hl, hnil] at hlen
    exact absurd hlen (Nat.lt_irrefl _)
  · rintro ⟨heq, hne⟩
    have hpos : 0 < rest.toList.length := by
      rw [List.length_pos_iff]
      simpa using hne
    rw [heq, List.length_append, Nat.add_sub_cancel, List.take_left, String.ofList_toList]
    exact ⟨⟨by omega, List.suffix_append _ _⟩, rfl⟩

theorem stripPrefix?_literal_ne : (literal text).stripPrefix? name ≠ some "" :=
  fun h => (stripPrefix?_literal_iff.mp h).2 rfl

theorem stripSuffix?_literal_ne : (literal text).stripSuffix? name ≠ some "" :=
  fun h => (stripSuffix?_literal_iff.mp h).2 rfl

end

end Matcher

namespace Naming

/-- How a name is made up of its checkable part and what stands before and after that. -/
structure Parts (c : Config) (raw before pre post after : String) : Prop where
  raw_eq : raw = before ++ (pre ++ checkable c raw ++ post) ++ after
  before_lowLines : ∀ a ∈ before.toList, a = '_'
  after_lowLines : ∀ a ∈ after.toList, a = '_'
  head_ne : (pre ++ checkable c raw ++ post).toList.head? ≠ some '_'
  last_ne : (pre ++ checkable c raw ++ post).toList.getLast? ≠ some '_'
  /-- The prefix is what the first matcher for prefixes strips from all that is between low lines. -/
  prefix_first : FirstStrip Matcher.stripPrefix? (pre ++ checkable c raw ++ post)
    (c.prefixes.getD []) (checkable c raw ++ post)
  /-- The suffix is what the first matcher for suffixes strips once the prefix is gone. -/
  suffix_first : FirstStrip Matcher.stripSuffix? (checkable c raw ++ post)
    (c.suffixes.getD []) (checkable c raw)

section
variable {c : Config} {raw before pre post after : String}

theorem exists_append_of_suffix {part name : String} (h : part.toList <:+ name.toList) :
    ∃ pre, pre ++ part = name := by
  obtain ⟨l, hl⟩ := h
  refine ⟨String.ofList l, String.toList_inj.mp ?_⟩
  rw [String.toList_append, String.toList_ofList, hl]

theorem exists_append_of_isPrefix {part name : String} (h : part.toList <+: name.toList) :
    ∃ post, part ++ post = name := by
  obtain ⟨l, hl⟩ := h
  refine ⟨String.ofList l, String.toList_inj.mp ?_⟩
  rw [String.toList_append, String.toList_ofList, hl]

theorem exists_parts (c : Config) (h : ¬ ['\n'] <:+ raw.toList) :
    ∃ before pre post after, Parts c raw before pre post after := by
  let rest := stripFirstPrefix (c.prefixes.getD []) (trimmed raw)
  obtain ⟨u, v, hraw, hu, hv, hhead, hlast⟩ := exists_withoutEdges raw.toList
  obtain ⟨pre, hpre⟩ : ∃ pre, pre ++ rest = trimmed raw :=
    exists_append_of_suffix (stripFirstPrefix_isSuffix _ _)
  obtain ⟨post, hpost⟩ : ∃ post, checkable c raw ++ post = rest :=
    exists_append_of_isPrefix (stripFirstSuffix_isPrefix _ rest)
  have htrimmed : pre ++ checkable c raw ++ post = trimmed raw := by
    rw [String.append_assoc, hpost, hpre]
  have hlist : (trimmed raw).toList = withoutEdges raw.toList := toList_trimmed_of_not_lineFeed h
  refine ⟨.ofList u, pre, post, .ofList v, ?_, ?_, ?_, ?_, ?_, ?_, ?_⟩
  · refine String.toList_inj.mp ?_
    rw [htrimmed, String.toList_append, String.toList_append, String.toList_ofList,
      String.toList_ofList, hlist]
    exact hraw
  · rwa [String.toList_ofList]
  · rwa [String.toList_ofList]
  · rwa [htrimmed, hlist]
  · rwa [htrimmed, hlist]
  · rw [htrimmed, hpost]
    exact stripFirstPrefix_eq_iff.mp rfl
  · rw [hpost]
    exact stripFirstSuffix_eq_iff.mp rfl

/-- If all affixes are literal, nothing is left of a name only if there was nothing but low lines. -/
theorem Parts.eq_empty (h : Parts c raw before pre post after)
    (hliteral : ∀ m ∈ c.prefixes.getD [] ++ c.suffixes.getD [], ∃ text, m = .literal text)
    (he : checkable c raw = "") : pre ++ checkable c raw ++ post = "" := by
  have hsuf : checkable c raw ++ post = checkable c raw := by
    refine h.suffix_first.eq_of_forall_ne fun m hm => ?_
    obtain ⟨text, rfl⟩ := hliteral m (List.mem_append_right _ hm)
    rw [he]
    exact Matcher.stripSuffix?_literal_ne
  have hpre : pre ++ checkable c raw ++ post = checkable c raw ++ post := by
    refine h.prefix_first.eq_of_forall_ne fun m hm => ?_
    obtain ⟨text, rfl⟩ := hliteral m (List.mem_append_left _ hm)
    rw [hsuf, he]
    exact Matcher.stripPrefix?_literal_ne
  rw [hpre, hsuf, he]

theorem Parts.isInfix (h : Parts c raw before pre post after) :
    (checkable c raw).toList <:+: raw.toList := by
  have hraw := congrArg String.toList h.raw_eq
  rw [String.toList_append, String.toList_append, String.toList_append, String.toList_append] at hraw
  rw [hraw]
  exact (List.infix_append _ _ _).trans (List.infix_append _ _ _)

/--
A name without a line feed at its end is its checkable part with one affix at each side, and low lines
outside of these. If the affixes are literal, the checkable part is empty only for a name of low lines.
-/
theorem checkable_parts (c : Config) (raw : String) (h : ¬ ['\n'] <:+ raw.toList) :
    ∃ before pre post after, Parts c raw before pre post after ∧
      (checkable c raw).toList <:+: raw.toList ∧
      ((∀ m ∈ c.prefixes.getD [] ++ c.suffixes.getD [], ∃ text, m = .literal text) →
        checkable c raw = "" → pre ++ checkable c raw ++ post = "") := by
  obtain ⟨before, pre, post, after, hparts⟩ := exists_parts c h
  exact ⟨before, pre, post, after, hparts, hparts.isInfix, hparts.eq_empty⟩

/-- Affixes of which the second prefix is a part of the first. -/
def literalAffixes : Config :=
  { prefixes := some [.literal "opt_", .literal "o"], suffixes := some [.literal "_ms"] }

theorem checkable_parts_literalAffixes :
    checkable literalAffixes "_opt_delay_ms__" = "delay" ∧
      (∃ before pre post after, Parts literalAffixes "_opt_delay_ms__" before pre post after ∧
        (checkable literalAffixes "_opt_delay_ms__").toList <:+: "_opt_delay_ms__".toList) ∧
      ∃ before pre post after, Parts literalAffixes "___" before pre post after ∧
        pre ++ checkable literalAffixes "___" ++ post = "" := by
  have hliteral : ∀ m ∈ literalAffixes.prefixes.getD [] ++ literalAffixes.suffixes.getD [],
      ∃ text, m = .literal text := by simp [literalAffixes]
  have hdelay : checkable literalAffixes "_opt_delay_ms__" = "delay" := by decide +kernel
  have hempty : checkable literalAffixes "___" = "" := by decide +kernel
  obtain ⟨before, pre, post, after, hparts, hinfix, -⟩ :=
    checkable_parts literalAffixes "_opt_delay_ms__" (by decide)
  refine ⟨hdelay, ⟨before, pre, post, after, hparts, hinfix⟩, ?_⟩
  obtain ⟨before, pre, post, after, hparts, -, heq⟩ := checkable_parts literalAffixes "___" (by decide)
  exact ⟨before, pre, post, after, hparts, heq hliteral hempty⟩

end

end Naming

end IdentCase
