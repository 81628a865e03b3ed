import IdentCase.Proofs.Affixes
import Mathlib.Order.Iterate

/-! Checkable parts of checkable parts: only one affix comes off at a side each time, until none is left. -/
namespace IdentCase.Naming

/-- A name from which nothing comes off: no low line, and no affix but perhaps an empty one. -/
structure Settled (c : Config) (name : String) : Prop where
  trimmed_eq : trimmed name = name
  prefix_first : FirstStrip Matcher.stripPrefix? name (c.prefixes.getD []) name
  suffix_first : FirstStrip Matcher.stripSuffix? name (c.suffixes.getD []) name

section
variable {c : Config} {name : String}

theorem checkable_sublist (c : Config) (name : String) :
    (checkable c name).toList.Sublist name.toList :=
  (checkable_isInfix c name).sublist.trans (trimmed_sublist name)

theorem checkable_of_length_le (h : name.length ≤ (checkable c name).length) :
    checkable c name = name :=
  String.toList_inj.mp ((checkable_sublist c name).eq_of_length_le h)

/-- The checkable part is the name itself only if each of the three steps leaves the name alone. -/
theorem checkable_eq_self_iff : checkable c name = name ↔ Settled c name := by
  constructor
  · intro h
    obtain ⟨rest, hrest⟩ : ∃ rest, stripFirstPrefix (c.prefixes.getD []) (trimmed name) = rest :=
      ⟨_, rfl⟩
    rw [checkable, hrest] at h
    have hsuf : name.toList.Sublist rest.toList := by
      have hpart := (stripFirstSuffix_isPrefix (c.suffixes.getD []) rest).sublist
      rwa [h] at hpart
    have hpre : rest.toList.Sublist (trimmed name).toList :=
      hrest ▸ (stripFirstPrefix_isSuffix _ _).sublist
    -- The name is a part of what each step leaves, so the steps leave the whole.
    have htrimmed : trimmed name = name :=
      String.toList_inj.mp ((trimmed_sublist name).antisymm (hsuf.trans hpre))
    have hname : rest = name :=
      String.toList_inj.mp ((hpre.trans (trimmed_sublist name)).antisymm hsuf)
    rw [htrimmed, hname] at hrest
    rw [hname] at h
    exact ⟨htrimmed, stripFirstPrefix_eq_iff.mp hrest, stripFirstSuffix_eq_iff.mp h⟩
  · rintro ⟨htrimmed, hpre, hsuf⟩
    rw [checkable, htrimmed, stripFirstPrefix_eq_iff.mpr hpre, stripFirstSuffix_eq_iff.mpr hsuf]

/-- Nothing comes off any more after as many steps as the name has characters. -/
theorem settled_iterate (c : Config) {n : Nat} (h : name.length ≤ n) :
    Settled c ((checkable c)^[n] name) := by
  induction n generalizing name with
  | zero => exact checkable_eq_self_iff.mp (checkable_of_length_le (h.trans (Nat.zero_le _)))
  | succ n ih =>
    by_cases heq : checkable c name = name
    · rw [Function.iterate_fixed heq]
      exact checkable_eq_self_iff.mp heq
    · have hlt : (checkable c name).length < name.length :=
        Nat.lt_of_not_le fun hle => heq (checkable_of_length_le hle)
      rw [Function.iterate_succ_apply]
      exact ih (Nat.le_of_lt_succ (hlt.trans_le h))

/-- Without affixes nothing comes off the checkable part, unless a line feed has come to its end. -/
theorem settled_of_no_affixes {raw : String} (hp : c.prefixes.getD [] = [])
    (hs : c.suffixes.getD [] = []) (h : ¬ ['\n'] <:+ (checkable c raw).toList) :
    Settled c (checkable c raw) := by
  rw [checkable_of_no_affixes hp hs] at h ⊢
  have hraw : ¬ ['\n'] <:+ raw.toList := by
    rintro ⟨text, htext⟩
    rw [toList_trimmed_of_lineFeed htext.symm] at h
    exact h (List.suffix_append _ _)
  obtain ⟨-, -, -, -, -, hhead, hlast⟩ := exists_withoutEdges raw.toList
  rw [← toList_trimmed_of_not_lineFeed hraw] at hhead hlast
  refine ⟨(trimmed_eq_self_iff h).mpr ⟨hhead, hlast⟩, ?_, ?_⟩
  · rw [hp]
    exact .untouched nofun
  · rw [hs]
    exact .untouched nofun

/--
The checkable part of a checkable part is never longer, and the same if and only if nothing comes off it.
So it is if there are no affixes, and after as many steps as the name has characters.
-/
theorem checkable_checkable (c : Config) (raw : String) :
    (checkable c (checkable c raw)).toList.Sublist (checkable c raw).toList ∧
      (checkable c (checkable c raw) = checkable c raw ↔ Settled c (checkable c raw)) ∧
      (¬ ['\n'] <:+ (checkable c raw).toList →
        (trimmed (checkable c raw) = checkable c raw ↔
          (checkable c raw).toList.head? ≠ some '_' ∧ (checkable c raw).toList.getLast? ≠ some '_')) ∧
      (¬ ['\n'] <:+ (checkable c raw).toList → c.prefixes.getD [] = [] → c.suffixes.getD [] = [] →
        checkable c (checkable c raw) = checkable c raw) ∧
      Settled c ((checkable c)^[raw.length] raw) := by
  refine ⟨checkable_sublist c _, checkable_eq_self_iff, trimmed_eq_self_iff, ?_, settled_iterate c le_rfl⟩
  exact fun h hp hs => checkable_eq_self_iff.mpr (settled_of_no_affixes hp hs h)

/-- Prefixes of which one may stand twice in a name. -/
def repeatedPrefix : Config := { prefixes := some [.literal "opt_", .literal "o_"] }

theorem checkable_repeatedPrefix_ne : checkable repeatedPrefix (checkable repeatedPrefix "opt_opt_id") ≠
    checkable repeatedPrefix "opt_opt_id" := by
  decide +kernel

theorem checkable_checkable_repeatedPrefix :
    ¬ Settled repeatedPrefix (checkable repeatedPrefix "opt_opt_id") ∧
      (checkable repeatedPrefix)^[10] "opt_opt_id" = "id" ∧ Settled repeatedPrefix "id" ∧
      checkable {} (checkable {} "_a_b_") = checkable {} "_a_b_" := by
  obtain ⟨-, hiff, -, -, hsettled⟩ := checkable_checkable repeatedPrefix "opt_opt_id"
  obtain ⟨-, -, -, hno, -⟩ := checkable_checkable {} "_a_b_"
  have hid : (checkable repeatedPrefix)^[10] "opt_opt_id" = "id" := by decide +kernel
  have hlast : ¬ ['\n'] <:+ (checkable {} "_a_b_").toList := by decide +kernel
  exact ⟨fun h => checkable_repeatedPrefix_ne (hiff.mpr h), hid, hid ▸ hsettled, hno hlast rfl rfl⟩

/-- Only one of two equal prefixes is stripped, so a second one is left for the next time. -/
theorem not_checkable_checkable_listed : ¬ ∀ (options : Json) (c : Config) (notices : List Notice)
    (raw : String), Options.resolve {} options = .ok (c, notices) →
    checkable c (checkable c raw) = checkable c raw := by
  intro h
  let options : Json := .obj [("allowedPrefixes", .arr [.str "opt_", .str "o_"])]
  exact checkable_repeatedPrefix_ne (h options repeatedPrefix [] "opt_opt_id" rfl)

end

end IdentCase.Naming
