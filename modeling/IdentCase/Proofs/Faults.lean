import IdentCase.Proofs.Elements
import IdentCase.Proofs.Resolution
import IdentCase.Proofs.Pattern.Limits

/-! The faults of options. Most are the fault of an element, told with its option and its pattern. What is
left are patterns that break a limit, which only certain texts can do, and elements that are no matchers
and cannot be shown. -/
namespace IdentCase.Options

/-- A pattern that is compiled: an element describes it, and all elements before that are matchers. -/
def Reaches (host : Host) (elts : List (String × Json)) (source : String) (flags : Pattern.Flags) : Prop :=
  ∃ before x after letters, elts = before ++ x :: after ∧
    (∀ y ∈ before, Succeeds (compileElement host y)) ∧ Describes x.2 source letters ∧
    (∀ c ∈ letters.toList, c ∈ flagLetters) ∧ flags = flagsOf letters.toList

/-- A value beyond a limit that is to be shown, as an element is no matcher: the element itself, or what
it gives for a pattern. All elements before that are matchers. -/
def Shows (host : Host) (elts : List (String × Json)) (v : Json) : Prop :=
  ∃ before x after, elts = before ++ x :: after ∧ (∀ y ∈ before, Succeeds (compileElement host y)) ∧
    (v = x.2 ∨ v = ((patternSpec x.2).get? "pattern").getD .null)

section
variable {host : Host} {options : Json} {fields : List (String × Json)} {e : Fault} {option source : String}
  {elt : Json} {flags : Pattern.Flags} {what : Pattern.Limit}

/-- Options that stand for none count as an object without keys. -/
theorem resolve_of_falsy (h : options.truthy = false) :
    resolve host options = resolve host (.obj []) ∧ elements options = elements (.obj []) := by
  cases options with
  | obj fields =>
    cases fields with
    | nil => exact ⟨rfl, rfl⟩
    | cons field fields => cases h
  | _ =>
    refine ⟨?_, rfl⟩
    simp only [resolve, h]
    rfl

theorem fst_mem_listKeys_of_mem_elements {x : String × Json} (h : x ∈ elements options) :
    x.1 ∈ listKeys := by
  rw [elements, List.mem_flatMap] at h
  obtain ⟨key, hkey, hx⟩ := h
  unfold elementsAt at hx
  split at hx
  · obtain ⟨item, -, rfl⟩ := List.mem_map.mp hx
    exact hkey
  · cases hx

theorem cases_of_resolve_eq_error (h : resolve host (.obj fields) = .error e) :
    (∃ key ∈ listKeys, ∃ pattern reason, e = .badMatcher key pattern reason) ∨
      (∃ what source flags, e = .limit what ∧ Reaches host (elements (.obj fields)) source flags ∧
        Pattern.compile host source flags = .error (.limit what) ∧
        what.Needs host.room source.toList) ∨
      ∃ what v, e = .limit what ∧ Shows host (elements (.obj fields)) v ∧
        host.unwritable? v = some what := by
  obtain ⟨before, x, after, hsplit, hbefore, hx⟩ := resolve_eq_error_iff.mp h
  have hmem : x ∈ elements (.obj fields) := hsplit ▸ List.mem_append_right _ List.mem_cons_self
  rcases (compileMatcher_eq_error_iff.mp hx).cases with
    ⟨pattern, reason, rfl⟩ | ⟨what, source, letters, rfl, hd, hletters, hcompile⟩ | ⟨what, v, rfl, hw, hv⟩
  · exact Or.inl ⟨x.1, fst_mem_listKeys_of_mem_elements hmem, pattern, reason, rfl⟩
  · refine Or.inr (Or.inl ⟨what, source, _, rfl, ?_, hcompile,
      Pattern.Limit.needs_of_compile rfl hcompile⟩)
    exact ⟨before, x, after, letters, hsplit, hbefore, hd, hletters, rfl⟩
  · exact Or.inr (Or.inr ⟨what, v, rfl, ⟨before, x, after, hsplit, hbefore, hv⟩, hw⟩)

theorem resolve_of_reaches (h : Reaches host (elements (.obj fields)) source flags)
    (hcompile : Pattern.compile host source flags = .error (.limit what)) :
    resolve host (.obj fields) = .error (.limit what) := by
  obtain ⟨before, x, after, letters, hsplit, hbefore, hd, hletters, rfl⟩ := h
  have hx : compileElement host x = .error (.limit what) :=
    compileMatcher_of_refused (.limit hd hletters hcompile)
  exact resolve_eq_error_iff.mpr ⟨before, x, after, hsplit, hbefore, hx⟩

theorem Reaches.verbose_eq_false {elts : List (String × Json)} (h : Reaches host elts source flags) :
    flags.verbose = false := by
  obtain ⟨-, -, -, letters, -, -, -, -, rfl⟩ := h
  rfl

/--
What the resolution of options comes to, if they are an object or stand for none. There is a
configuration, or an element is no matcher and the fault tells the option and the pattern, or a pattern
that is reached breaks a limit, and then the fault tells nothing of the element, or what the message for
an element is to show is itself beyond a limit. Only texts that hold certain characters break a limit, and
every count too large or too long behind plain characters does.
-/
theorem resolve_faults (host : Host) (options : Json)
    (h : options.truthy = false ∨ ∃ fields, options = .obj fields) :
    (options.truthy = false → Succeeds (resolve host options)) ∧
      (∀ e, resolve host options = .error e →
        (∃ key ∈ listKeys, ∃ pattern reason, e = .badMatcher key pattern reason) ∨
          (∃ what source flags, e = .limit what ∧ Reaches host (elements options) source flags ∧
            Pattern.compile host source flags = .error (.limit what) ∧
            what.Needs host.room source.toList) ∨
          ∃ what v, e = .limit what ∧ Shows host (elements options) v ∧
            host.unwritable? v = some what) ∧
      (∀ what source flags, Reaches host (elements options) source flags →
        Pattern.compile host source flags = .error (.limit what) →
        resolve host options = .error (.limit what)) ∧
      ∀ what text digits flags, Pattern.IsPlain text → (∀ c ∈ digits, c.isDigit) →
        Pattern.countBreach? digits = some what →
        Reaches host (elements options) (.ofList (Pattern.counted text digits)) flags →
        resolve host options = .error (.limit what) := by
  obtain ⟨fields, hresolve, helements⟩ : ∃ fields, resolve host options = resolve host (.obj fields) ∧
      elements options = elements (.obj fields) := by
    rcases h with hfalsy | ⟨fields, rfl⟩
    · exact ⟨[], resolve_of_falsy hfalsy⟩
    · exact ⟨fields, rfl, rfl⟩
  refine ⟨fun hfalsy => ?_, ?_⟩
  · rw [(resolve_of_falsy hfalsy).1]
    exact ⟨_, rfl⟩
  rw [hresolve, helements]
  refine ⟨fun e => cases_of_resolve_eq_error, fun what source flags => resolve_of_reaches, ?_⟩
  intro what text digits flags htext hdigits hbreach hreaches
  exact resolve_of_reaches hreaches
    (Pattern.compile_counted hbreach htext hdigits hreaches.verbose_eq_false)

end

/-- Options with an exception that counts too far, behind one that is sound. -/
def overcountedFields : List (String × Json) := [
  ("exceptions", .arr [.str "_id",
    .obj [("pattern", .str "a\x7b4294967295\x7d"), ("flags", .str "i")]])]

theorem resolve_faults_overcountedFields :
    resolve {} (.obj overcountedFields) = .error (.limit .numberTooLarge) := by
  obtain ⟨-, -, -, hcounted⟩ := resolve_faults {} (.obj overcountedFields) (Or.inr ⟨_, rfl⟩)
  have hdigits : ∀ c ∈ "4294967295".toList, c.isDigit := by simp
  have hletters : ∀ c ∈ "i".toList, c ∈ flagLetters := by simp [flagLetters]
  refine hcounted .numberTooLarge ['a'] "4294967295".toList { ignoreCase := true } (by decide)
    hdigits rfl ?_
  refine ⟨[("exceptions", .str "_id")], _, [], "i", rfl, ?_, ⟨rfl, Or.inl rfl⟩, hletters, rfl⟩
  rw [List.forall_mem_singleton]
  exact ⟨_, rfl⟩

end IdentCase.Options
