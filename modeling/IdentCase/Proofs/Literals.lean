import IdentCase.Proofs.Affixes
import IdentCase.Proofs.Elements
import IdentCase.Proofs.Pattern.Plain

/-! Literal matchers beside the patterns of the same texts. They part where a literal would leave
nothing of a name, and where a name holds the text before its end, too. -/
namespace IdentCase

open Pattern

namespace Matcher

section
variable {text name rest : String} {p : Pattern}

theorem accepts_literal_iff : (literal text).accepts name ↔ name = text := beq_iff_eq

theorem stripPrefix?_pattern_iff (hp : p.body = .ofText text.toList) :
    (pattern p).stripPrefix? name = some rest ↔ name = text ++ rest := by
  have hleftmost : Leftmost text.toList name.toList [] rest.toList ↔ name = text ++ rest := by
    rw [← String.toList_inj, String.toList_append]
    exact ⟨fun h => h.whole_eq, fun h => ⟨h, fun _ _ _ => Nat.zero_le _⟩⟩
  rw [← hleftmost, ← find?_ofText_iff, ← hp]
  unfold stripPrefix?
  dsimp only
  constructor
  · intro h
    split at h
    · next stop hf =>
      cases h
      exact ⟨stop, hf, by rw [String.toList_ofList]⟩
    · cases h
  · rintro ⟨stop, hf, ha⟩
    change p.find? name.toList = _ at hf
    rw [hf]
    dsimp only
    rw [ha, String.ofList_toList]

theorem stripSuffix?_pattern_iff (hp : p.body = .ofText text.toList) :
    (pattern p).stripSuffix? name = some rest ↔
      name = rest ++ text ∧
        ∀ before after, name = before ++ text ++ after → rest.length ≤ before.length := by
  have hleftmost : Leftmost text.toList name.toList rest.toList [] ↔ name = rest ++ text ∧
      ∀ before after, name = before ++ text ++ after → rest.length ≤ before.length := by
    rw [← String.toList_inj, String.toList_append]
    constructor
    · intro h
      refine ⟨by rw [h.whole_eq, List.append_nil], fun before after heq => ?_⟩
      have hle := h.le_length before.toList after.toList (by rw [heq]; simp)
      rwa [String.length_toList, String.length_toList] at hle
    · rintro ⟨heq, hfirst⟩
      refine ⟨by rw [heq, List.append_nil], fun before after h => ?_⟩
      have hle := hfirst (.ofList before) (.ofList after) (by rw [← String.toList_inj, h]; simp)
      rwa [← String.length_toList, ← String.length_toList, String.toList_ofList] at hle
  rw [← hleftmost, ← find?_ofText_iff, ← hp]
  unfold stripSuffix?
  dsimp only
  constructor
  · intro h
    split at h
    · next skipped stop hf =>
      split at h
      · next he =>
        cases h
        exact ⟨stop, by rw [String.toList_ofList]; exact hf, List.isEmpty_iff.mp he⟩
      · cases h
    · cases h
  · rintro ⟨stop, hf, ha⟩
    change p.find? name.toList = _ at hf
    rw [hf]
    dsimp only
    rw [ha, List.isEmpty_nil, if_pos rfl, String.ofList_toList]

theorem accepts_pattern_iff (hp : p.body = .ofText text.toList) :
    (pattern p).accepts name ↔ ∃ before after, name = before ++ text ++ after := by
  change (p.body.find? name.toList).isSome = true ↔ _
  rw [hp, isSome_find?_ofText]
  constructor
  · rintro ⟨before, after, h⟩
    exact ⟨.ofList before, .ofList after, by rw [← String.toList_inj]; simpa using h.symm⟩
  · rintro ⟨before, after, rfl⟩
    exact ⟨before.toList, after.toList, by simp⟩

end

/--
A plain text as a literal and as a pattern. Both strip it from the start of a name, and from its end. A
literal does so only if something is left; a pattern strips a suffix only where the text occurs first.
-/
theorem compileMatcher_plain (host : Host) (option text : String) (h : IsPlain text.toList) :
    Options.compileMatcher host option (.str text) = .ok (literal text) ∧
      ∃ p, Options.compileMatcher host option (.obj [("pattern", .str text)]) = .ok (pattern p) ∧
        ∀ name rest,
          ((pattern p).stripPrefix? name = some rest ↔ name = text ++ rest) ∧
          ((literal text).stripPrefix? name = some rest ↔ name = text ++ rest ∧ rest ≠ "") ∧
          ((pattern p).stripSuffix? name = some rest ↔ name = rest ++ text ∧
            ∀ before after, name = before ++ text ++ after → rest.length ≤ before.length) ∧
          ((literal text).stripSuffix? name = some rest ↔ name = rest ++ text ∧ rest ≠ "") ∧
          ((pattern p).accepts name ↔ ∃ before after, name = before ++ text ++ after) ∧
          ((literal text).accepts name ↔ name = text) := by
  let p : Pattern := ⟨text, {}, .ofText text.toList⟩
  have hpattern : Options.IsPattern host (.obj [("pattern", .str text)]) p :=
    ⟨text, "", ⟨rfl, Or.inr ⟨rfl, Or.inl rfl⟩⟩, nofun, compile_plain h⟩
  exact ⟨rfl, p, Options.compileMatcher_of_isPattern hpattern, fun name rest =>
    ⟨stripPrefix?_pattern_iff rfl, stripPrefix?_literal_iff, stripSuffix?_pattern_iff rfl,
      stripSuffix?_literal_iff, accepts_pattern_iff rfl, accepts_literal_iff⟩⟩

/-- In the first name the text stands twice, and the two places overlap. The other name is the text. -/
theorem compileMatcher_plain_overlap :
    ∃ p, Options.compileMatcher {} "exceptions" (.obj [("pattern", .str "_x_")]) = .ok (pattern p) ∧
      (pattern p).stripPrefix? "_x_x_" = some "x_" ∧ (pattern p).stripSuffix? "_x_x_" ≠ some "_x" ∧
      (literal "_x_").stripSuffix? "_x_x_" = some "_x" ∧ (pattern p).stripSuffix? "_x_" = some "" ∧
      (literal "_x_").stripSuffix? "_x_" ≠ some "" := by
  obtain ⟨-, p, hp, h⟩ := compileMatcher_plain {} "exceptions" "_x_" (by decide)
  obtain ⟨hstart, -⟩ := h "_x_x_" "x_"
  obtain ⟨-, -, hfirst, hlast, -⟩ := h "_x_x_" "_x"
  obtain ⟨-, -, hwhole, hnone, -⟩ := h "_x_" ""
  refine ⟨p, hp, hstart.mpr rfl, fun hs => ?_, hlast.mpr ⟨rfl, by decide⟩,
    hwhole.mpr ⟨rfl, fun _ _ _ => Nat.zero_le _⟩, fun hs => (hnone.mp hs).2 rfl⟩
  exact absurd ((hfirst.mp hs).2 "" "x_" rfl) (by decide)

end Matcher

end IdentCase
