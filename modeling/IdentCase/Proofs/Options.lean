import IdentCase.Options
import IdentCase.Proofs.Run

/-! What the options of a check come down to, if they can be resolved. -/
namespace IdentCase.Options

/-- What the configuration of raw options is made of. -/
structure Resolves (host : Host) (options : Json) (c : Config) (notices : List Notice) : Prop where
  console : c.console = host.console
  prefixes : compileMatchers host "allowedPrefixes" ((options.get? "allowedPrefixes").getD .null) =
    .ok c.prefixes
  suffixes : compileMatchers host "allowedSuffixes" ((options.get? "allowedSuffixes").getD .null) =
    .ok c.suffixes
  exceptions : compileMatchers host "exceptions" ((options.get? "exceptions").getD .null) =
    .ok c.exceptions
  policy : resolvePolicy (policyValue options) = (c.policy, notices)

variable {host : Host} {options : Json} {c : Config} {notices : List Notice}

/-- Options that are no object count as an object without keys, and so they have none. -/
theorem resolves_of_eq_ok (hc : resolve host options = .ok (c, notices)) :
    Resolves host options c notices := by
  obtain ⟨fields, hget, hc⟩ : ∃ fields, (∀ k, (Json.obj fields).get? k = options.get? k) ∧
      resolve host (.obj fields) = .ok (c, notices) := by
    cases options with
    | obj fields => exact ⟨fields, fun _ => rfl, hc⟩
    | _ =>
      unfold resolve at hc
      dsimp only at hc
      split at hc
      · cases hc
      · exact ⟨[], fun _ => rfl, hc⟩
  simp only [resolve, pure_bind, policyValue, hget] at hc
  obtain ⟨prefixes, hprefixes, hc⟩ := bind_eq_ok.mp hc
  obtain ⟨suffixes, hsuffixes, hc⟩ := bind_eq_ok.mp hc
  obtain ⟨exceptions, hexceptions, hc⟩ := bind_eq_ok.mp hc
  cases hc
  exact ⟨rfl, hprefixes, hsuffixes, hexceptions, rfl⟩

end IdentCase.Options
