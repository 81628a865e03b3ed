import IdentCase.Proofs.Options
import IdentCase.Proofs.Pass

/-! The resolution of options as a whole: what the configuration is, which fault there is if there is
none, and what of the options bears on it. -/
namespace IdentCase.Options

/-- The keys for the policy; the first of them that is there decides. -/
def policyKeys : List String := ["propertyPolicy", "properties"]

def compileElement (host : Host) (x : String × Json) : Except Fault Matcher :=
  compileMatcher host x.1 x.2

/-- What the value under a key brings: a matcher for each element in order, or no list at all. -/
inductive Compiles (host : Host) (key : String) : Option Json → Option (List Matcher) → Prop
  | list {items : List Json} {ms : List Matcher}
      (h : List.Forall₂ (fun elt m => compileMatcher host key elt = .ok m) items ms) :
    Compiles host key (some (.arr items)) (some ms)
  | other {value : Option Json} (h : ∀ items, value ≠ some (.arr items)) : Compiles host key value none

structure Configures (host : Host) (options : Json) (c : Config) : Prop where
  console : c.console = host.console
  prefixes : Compiles host "allowedPrefixes" (options.get? "allowedPrefixes") c.prefixes
  suffixes : Compiles host "allowedSuffixes" (options.get? "allowedSuffixes") c.suffixes
  exceptions : Compiles host "exceptions" (options.get? "exceptions") c.exceptions
  never_iff : c.policy = .never ↔ options.get? "propertyPolicy" = some (.str "never") ∨
    options.get? "propertyPolicy" = none ∧ options.get? "properties" = some (.str "never")

section
variable {host : Host} {key : String} {value : Option Json} {e : Fault}

theorem mapM_compileElement (host : Host) (key : String) (items : List Json) :
    (items.map (key, ·)).mapM (compileElement host) = items.mapM (compileMatcher host key) := by
  rw [List.mapM_map]
  rfl

theorem compileMatchers_of_not_list (h : ∀ items, value ≠ some (.arr items)) :
    compileMatchers host key (value.getD .null) = .ok none := by
  cases value with
  | none => rfl
  | some value =>
    cases value with
    | arr items => exact absurd rfl (h items)
    | _ => rfl

theorem elementsAt_of_not_list (h : ∀ items, value ≠ some (.arr items)) : elementsAt key value = [] := by
  unfold elementsAt
  split
  · next items => exact absurd rfl (h items)
  · rfl

theorem compileMatchers_eq_error_iff : compileMatchers host key (value.getD .null) = .error e ↔
    FailsFirst (compileElement host) (elementsAt key value) e := by
  rw [← mapM_eq_error_iff]
  by_cases h : ∃ items, value = some (.arr items)
  · obtain ⟨items, rfl⟩ := h
    rw [elementsAt, mapM_compileElement]
    exact map_eq_error
  · rw [not_exists] at h
    rw [compileMatchers_of_not_list h, elementsAt_of_not_list h]
    exact iff_of_false nofun nofun

theorem compileMatchers_eq_ok_iff {ms : Option (List Matcher)} :
    compileMatchers host key (value.getD .null) = .ok ms ↔ Compiles host key value ms := by
  constructor
  · intro hms
    by_cases h : ∃ items, value = some (.arr items)
    · obtain ⟨items, rfl⟩ := h
      obtain ⟨out, hout, rfl⟩ := map_eq_ok.mp hms
      exact .list (mapM_eq_ok_iff.mp hout)
    · rw [not_exists] at h
      rw [compileMatchers_of_not_list h] at hms
      cases hms
      exact .other h
  · rintro (hms | h)
    · exact map_eq_ok.mpr ⟨_, mapM_eq_ok_iff.mpr hms, rfl⟩
    · exact compileMatchers_of_not_list h

theorem succeeds_compileMatchers_iff : Succeeds (compileMatchers host key (value.getD .null)) ↔
    ∀ x ∈ elementsAt key value, Succeeds (compileElement host x) := by
  rw [← succeeds_mapM_iff]
  by_cases h : ∃ items, value = some (.arr items)
  · obtain ⟨items, rfl⟩ := h
    rw [elementsAt, mapM_compileElement]
    exact succeeds_map_iff
  · rw [not_exists] at h
    rw [compileMatchers_of_not_list h, elementsAt_of_not_list h]
    exact iff_of_true (succeeds_ok _) (succeeds_ok _)

end

section
variable {host : Host} {options : Json} {fields : List (String × Json)} {c : Config} {notices : List Notice} {e : Fault}

theorem resolvePolicy_eq_never_iff {raw : Json} :
    (resolvePolicy raw).1 = .never ↔ raw = .str "never" := by
  unfold resolvePolicy
  split
  · simp
  · next text =>
    split
    · next h => simp [h]
    · split
      · next h => simp [h]
      · next h => simp [h]
  · next hstr => exact iff_of_false nofun (hstr "never")

theorem policyValue_eq_str_iff {text : String} : policyValue options = .str text ↔
    options.get? "propertyPolicy" = some (.str text) ∨
      options.get? "propertyPolicy" = none ∧ options.get? "properties" = some (.str text) := by
  unfold policyValue
  cases options.get? "propertyPolicy" with
  | some raw => simp
  | none =>
    cases options.get? "properties" with
    | some raw => simp
    | none => simp

theorem resolve_eq_error_iff :
    resolve host (.obj fields) = .error e ↔ FailsFirst (compileElement host) (elements (.obj fields)) e := by
  have hsplit : elements (.obj fields) =
      elementsAt "allowedPrefixes" ((Json.obj fields).get? "allowedPrefixes") ++
        (elementsAt "allowedSuffixes" ((Json.obj fields).get? "allowedSuffixes") ++
          elementsAt "exceptions" ((Json.obj fields).get? "exceptions")) := by
    simp [elements, listKeys]
  rw [hsplit, failsFirst_append, failsFirst_append, ← compileMatchers_eq_error_iff,
    ← compileMatchers_eq_error_iff, ← compileMatchers_eq_error_iff, ← succeeds_compileMatchers_iff,
    ← succeeds_compileMatchers_iff, resolve]
  simp only [pure_bind]
  refine bind_eq_error_iff fun prefixes => bind_eq_error_iff fun suffixes => ?_
  have hlast (exceptions : Option (List Matcher)) : (pure ({
      console := host.console
      policy := (resolvePolicy (policyValue (.obj fields))).1, prefixes, suffixes, exceptions },
      (resolvePolicy (policyValue (.obj fields))).2) : Except Fault (Config × List Notice)) =
        .error e ↔ False := by
    refine iff_of_false (fun h => ?_) id
    cases h
  rw [bind_eq_error_iff hlast, and_false, or_false]

/-- If no element is at fault, there is a configuration. -/
theorem succeeds_resolve_iff : Succeeds (resolve host (.obj fields)) ↔
    ∀ x ∈ elements (.obj fields), Succeeds (compileElement host x) := by
  rw [← succeeds_mapM_iff]
  constructor
  · rintro ⟨r, hr⟩
    cases hm : (elements (.obj fields)).mapM (compileElement host) with
    | ok ms => exact ⟨ms, rfl⟩
    | error e =>
      rw [resolve_eq_error_iff.mpr (mapM_eq_error_iff.mp hm)] at hr
      cases hr
  · rintro ⟨ms, hms⟩
    cases hr : resolve host (.obj fields) with
    | ok r => exact ⟨r, rfl⟩
    | error e =>
      rw [mapM_eq_error_iff.mpr (resolve_eq_error_iff.mp hr)] at hms
      cases hms

theorem configures_of_resolve (h : resolve host options = .ok (c, notices)) : Configures host options c := by
  have hr := resolves_of_eq_ok h
  refine ⟨hr.console, compileMatchers_eq_ok_iff.mp hr.prefixes, compileMatchers_eq_ok_iff.mp hr.suffixes,
    compileMatchers_eq_ok_iff.mp hr.exceptions, ?_⟩
  rw [← policyValue_eq_str_iff, ← resolvePolicy_eq_never_iff, hr.policy]

theorem resolve_congr {fields' : List (String × Json)} (h : ∀ key ∈ listKeys ++ policyKeys,
    (Json.obj fields').get? key = (Json.obj fields).get? key) :
    resolve host (.obj fields') = resolve host (.obj fields) := by
  simp only [listKeys, policyKeys, List.cons_append, List.nil_append, List.forall_mem_cons] at h
  obtain ⟨hprefixes, hsuffixes, hexceptions, hpolicy, hproperties, -⟩ := h
  simp only [resolve, pure_bind, policyValue, hprefixes, hsuffixes, hexceptions, hpolicy, hproperties]

/--
The resolution of options as a whole. It fails with the error of the first element at fault in the order
of the lists, whatever is said of the policy, and then a check leaves the tree and the sink as they were.
It has only written what there was to remark on the patterns up to there. Else each list has a
matcher for each element, and of all keys only five count.
-/
theorem resolve_iff (host : Host) (fields : List (String × Json)) :
    (∀ e, resolve host (.obj fields) = .error e ↔
        FailsFirst (compileElement host) (elements (.obj fields)) e) ∧
      (Succeeds (resolve host (.obj fields)) ↔
        ∀ x ∈ elements (.obj fields), Succeeds (compileElement host x)) ∧
      (∀ c notices, resolve host (.obj fields) = .ok (c, notices) → Configures host (.obj fields) c) ∧
      (∀ fields', (∀ key ∈ listKeys ++ policyKeys,
        (Json.obj fields').get? key = (Json.obj fields).get? key) →
        resolve host (.obj fields') = resolve host (.obj fields)) ∧
      ∀ e root s, resolve host (.obj fields) = .error e →
        (lint host (.obj fields) root).run.run s = (.error e, { s with
          progress.written := s.progress.written ++ host.remarks (compiled host (.obj fields)) }) :=
  ⟨fun _ => resolve_eq_error_iff, succeeds_resolve_iff, fun _ _ => configures_of_resolve,
    fun _ => resolve_congr, fun _ root s h => run_lint_of_resolve_eq_error h root s⟩

end

/-- Options with two elements at fault, of which the second stands under the key that is written first. -/
def faultyFields : List (String × Json) := [
  ("exceptions", .arr [.int 3]), ("properties", .str "sometimes"),
  ("allowedSuffixes", .arr [.str "_ms", .obj [("pattern", .null)]])]

/-- Options with a policy that the legacy key does not override, and a value that is no list. -/
def soundFields : List (String × Json) := [
  ("properties", .str "always"), ("allowedPrefixes", .str "opt_"), ("propertyPolicy", .str "never"),
  ("exceptions", .arr [.str "var_args", .str "_id"])]

theorem resolve_iff_faultyFields :
    resolve {} (.obj faultyFields) = .error (.badMatcher "allowedSuffixes" .null .patternNotText) ∧
      (∀ root s, ((lint {} (.obj faultyFields) root).run.run s).2.heap = s.heap) ∧
      (∃ c notices, resolve {} (.obj soundFields) = .ok (c, notices) ∧ c.policy = .never ∧
        c.prefixes = none ∧ c.suffixes = none) ∧
      resolve {} (.obj (("note", .null) :: soundFields)) = resolve {} (.obj soundFields) := by
  obtain ⟨herror, -, -, -, hlint⟩ := resolve_iff {} faultyFields
  obtain ⟨-, hsucceeds, hconfigures, hcongr, -⟩ := resolve_iff {} soundFields
  have hfault : resolve {} (.obj faultyFields) =
      .error (.badMatcher "allowedSuffixes" .null .patternNotText) := by
    refine (herror _).mpr ⟨[("allowedSuffixes", .str "_ms")],
      ("allowedSuffixes", .obj [("pattern", .null)]), [("exceptions", .int 3)], rfl, ?_, rfl⟩
    rw [List.forall_mem_singleton]
    exact ⟨_, rfl⟩
  have helements : elements (.obj soundFields) =
      [("exceptions", .str "var_args"), ("exceptions", .str "_id")] := rfl
  obtain ⟨⟨c, notices⟩, hr⟩ := hsucceeds.mpr (by
    rw [helements, List.forall_mem_cons, List.forall_mem_singleton]
    exact ⟨⟨_, rfl⟩, _, rfl⟩)
  have hc := hconfigures c notices hr
  have hprefixes := compileMatchers_eq_ok_iff.mpr hc.prefixes
  have hsuffixes := compileMatchers_eq_ok_iff.mpr hc.suffixes
  refine ⟨hfault, fun root s => congrArg (·.2.heap) (hlint _ root s hfault), ⟨c, notices, hr, hc.never_iff.mpr (Or.inl rfl),
    (Except.ok.inj hprefixes).symm, (Except.ok.inj hsuffixes).symm⟩, hcongr _ ?_⟩
  simp only [listKeys, policyKeys, List.cons_append, List.nil_append, List.forall_mem_cons]
  exact ⟨rfl, rfl, rfl, rfl, rfl, List.forall_mem_nil _⟩

end IdentCase.Options
