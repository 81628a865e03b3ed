import IdentCase.Naming
import IdentCase.Proofs.Pattern.Spans

/-! Names and parts of names: what is stripped from a name does not make it break the convention. -/
namespace IdentCase

theorem Unicode.upper_ne_nil (c : Nat) : upper c ≠ [] := by
  have htable : ∀ e ∈ upperExpansions, e.2 ≠ [] := by decide
  unfold upper
  split
  · split <;> simp
  · cases hl : upperExpansions.lookup c with
    | none => simp
    | some image =>
      obtain ⟨l₁, l₂, he, -⟩ := List.lookup_eq_some_iff.mp hl
      have hmem : (c, image) ∈ upperExpansions := by simp [he]
      exact htable _ hmem

namespace Naming

theorem upperChar_ne_nil (c : Char) : upperChar c ≠ [] := by
  simpa [upperChar] using Unicode.upper_ne_nil c.toNat

theorem length_le_length_upperText (text : List Char) : text.length ≤ (upperText text).length := by
  induction text with
  | nil => simp
  | cons c text ih =>
    have hpos := List.length_pos_iff.mpr (upperChar_ne_nil c)
    simp only [upperText, List.flatMap_cons, List.length_append, List.length_cons] at ih ⊢
    omega

/-- A text is its own upper case if and only if each of its characters is. -/
theorem upperText_eq_self_iff {text : List Char} :
    upperText text = text ↔ ∀ c ∈ text, upperChar c = [c] := by
  induction text with
  | nil => simp [upperText]
  | cons c text ih =>
    rw [List.forall_mem_cons, ← ih]
    constructor
    · intro h
      have hlen := congrArg List.length h
      have hle := length_le_length_upperText text
      have hpos := List.length_pos_iff.mpr (upperChar_ne_nil c)
      simp only [upperText, List.flatMap_cons, List.length_append, List.length_cons] at h hlen hle
      have hone : (upperChar c).length = 1 := by omega
      obtain ⟨d, hd⟩ := List.length_eq_one_iff.mp hone
      rw [hd, List.singleton_append, List.cons.injEq] at h
      exact ⟨by rw [hd, h.1], h.2⟩
    · rintro ⟨hc, ht⟩
      unfold upperText at ht ⊢
      rw [List.flatMap_cons, hc, ht, List.singleton_append]

theorem breaksStyle_iff {name : String} :
    breaksStyle name ↔ '_' ∈ name.toList ∧ ∃ c ∈ name.toList, upperChar c ≠ [c] := by
  have hne : upperText name.toList ≠ name.toList ↔ ∃ c ∈ name.toList, upperChar c ≠ [c] := by
    rw [ne_eq, upperText_eq_self_iff]
    push Not
    rfl
  rw [breaksStyle, Bool.and_eq_true, bne_iff_ne, ne_comm, hne, List.contains_iff_mem]

/-- A name that breaks the convention breaks it still with more characters. -/
theorem breaksStyle_of_sublist {part name : String} (h : part.toList.Sublist name.toList)
    (hb : breaksStyle part) : breaksStyle name := by
  obtain ⟨hlow, c, hc, hup⟩ := breaksStyle_iff.mp hb
  exact breaksStyle_iff.mpr ⟨h.subset hlow, c, h.subset hc, hup⟩

/--
A name breaks the convention if and only if it holds a low line and some character that is not its
own upper case, which may be more than one character. So no part of a name breaks it that is left
when characters are taken out, unless the name does.
-/
theorem breaksStyle_characters (name : String) :
    (breaksStyle name ↔ '_' ∈ name.toList ∧ ∃ c ∈ name.toList, upperChar c ≠ [c]) ∧
      ∀ part : String, part.toList.Sublist name.toList → breaksStyle part → breaksStyle name :=
  ⟨breaksStyle_iff, fun _ hsub hb => breaksStyle_of_sublist hsub hb⟩

/-- The only character that is not its own upper case has two characters for one. -/
theorem breaksStyle_characters_sharpS :
    "ß_".toList.Sublist "MAß_1".toList ∧ upperChar 'ß' = ['S', 'S'] ∧ breaksStyle "MAß_1" := by
  have hsub : "ß_".toList.Sublist "MAß_1".toList := by decide
  exact ⟨hsub, by decide, (breaksStyle_characters "MAß_1").2 "ß_" hsub (by decide)⟩

end Naming

section
variable {name part : String}

theorem Matcher.stripPrefix?_isSuffix {m : Matcher} (h : m.stripPrefix? name = some part) :
    part.toList <:+ name.toList := by
  cases m with
  | literal text =>
    unfold stripPrefix? at h
    dsimp only at h
    split at h
    · cases h
      rw [String.toList_ofList]
      exact List.drop_suffix _ _
    · cases h
  | pattern p =>
    unfold stripPrefix? at h
    dsimp only at h
    split at h
    · next stop hf =>
      cases h
      obtain ⟨matched, hm⟩ := Pattern.Expr.findFrom_span hf
      rw [String.toList_ofList]
      exact ⟨matched, hm.symm⟩
    · cases h

theorem Matcher.stripSuffix?_isPrefix {m : Matcher} (h : m.stripSuffix? name = some part) :
    part.toList <+: name.toList := by
  cases m with
  | literal text =>
    unfold stripSuffix? at h
    dsimp only at h
    split at h
    · cases h
      rw [String.toList_ofList]
      exact List.take_prefix _ _
    · cases h
  | pattern p =>
    unfold stripSuffix? at h
    dsimp only at h
    split at h
    · next skipped stop hf =>
      obtain ⟨matched, hm⟩ := Pattern.Expr.findFrom_span hf
      split at h
      · cases h
        rw [String.toList_ofList]
        exact ⟨matched ++ stop.after, by rw [hm, List.append_assoc]⟩
      · cases h
    · cases h

theorem stripFirstPrefix_isSuffix (ms : List Matcher) (name : String) :
    (stripFirstPrefix ms name).toList <:+ name.toList := by
  unfold stripFirstPrefix
  cases hf : ms.findSome? (·.stripPrefix? name) with
  | none => exact List.suffix_rfl
  | some part =>
    obtain ⟨m, -, hm⟩ := List.exists_of_findSome?_eq_some hf
    exact m.stripPrefix?_isSuffix hm

theorem stripFirstSuffix_isPrefix (ms : List Matcher) (name : String) :
    (stripFirstSuffix ms name).toList <+: name.toList := by
  unfold stripFirstSuffix
  cases hf : ms.findSome? (·.stripSuffix? name) with
  | none => exact List.prefix_rfl
  | some part =>
    obtain ⟨m, -, hm⟩ := List.exists_of_findSome?_eq_some hf
    exact m.stripSuffix?_isPrefix hm

end

namespace Naming

/-- The checkable part of a name is a part of it, once the low lines at the edges are gone. -/
theorem checkable_isInfix (c : Config) (name : String) :
    (checkable c name).toList <:+: (trimmed name).toList :=
  (stripFirstSuffix_isPrefix _ _).isInfix.trans (stripFirstPrefix_isSuffix _ _).isInfix

theorem checkable_of_no_affixes {c : Config} (hp : c.prefixes.getD [] = [])
    (hs : c.suffixes.getD [] = []) (name : String) : checkable c name = trimmed name := by
  rw [checkable, hp, hs]
  rfl

end Naming

end IdentCase
