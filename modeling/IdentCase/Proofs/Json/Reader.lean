import IdentCase.Json.Display
import IdentCase.Json.Reader
import IdentCase.Proofs.Json.Distinct

/-! What holds of all values that are read: their objects have no key twice, and their integers are
not too long to be written. -/
namespace IdentCase.Json

/-- What holds of atoms, and of lists and fields that are made of values of which it holds. The
integers are those with few enough digits. -/
structure Readable (P : Json → Prop) (F : List (String × Json) → Prop) : Prop where
  null : P .null
  bool (b : Bool) : P (.bool b)
  int (i : Int) (hi : i.natAbs < Nat.pow 10 Text.maxDigits) : P (.int i)
  float (f : Float) : P (.float f)
  str (s : String) : P (.str s)
  arr (items : List Json) (hitems : ∀ v ∈ items, P v) : P (.arr items)
  obj (fields : List (String × Json)) (hfields : F fields) : P (.obj fields)
  nil : F []
  field (key : String) (v : Json) (fields : List (String × Json)) (hv : P v) (hfields : F fields) :
    F (setField key v fields)

theorem digitsValue_lt {digits : List Char} (h : ∀ c ∈ digits, c.isDigit) :
    digitsValue digits < Nat.pow 10 digits.length := by
  have hfold (a : Nat) : digits.foldl (fun n c => n * 10 + (c.toNat - 48)) a <
      (a + 1) * Nat.pow 10 digits.length := by
    induction digits generalizing a with
    | nil => exact Nat.lt_of_lt_of_eq (Nat.lt_succ_self a) (Nat.mul_one _).symm
    | cons c digits ih =>
      rw [List.forall_mem_cons] at h
      have hc : 48 ≤ c.toNat ∧ c.toNat ≤ 57 := by
        simpa [Char.isDigit, UInt32.le_iff_toNat_le] using h.1
      have hstep : a * 10 + (c.toNat - 48) + 1 ≤ (a + 1) * 10 := by omega
      calc
        _ < (a * 10 + (c.toNat - 48) + 1) * Nat.pow 10 digits.length := ih h.2 _
        _ ≤ (a + 1) * 10 * Nat.pow 10 digits.length := Nat.mul_le_mul_right _ hstep
        _ = (a + 1) * (Nat.pow 10 digits.length * 10) := by
          rw [Nat.mul_assoc, Nat.mul_comm 10]
  simpa [digitsValue] using hfold 0

/-- The digits at the head of a text, if there are few enough, make a number that can be written. -/
theorem natAbs_digitsValue_lt {text : List Char} {n : Nat}
    (h : ¬ n < (text.takeWhile Char.isDigit).length) :
    (digitsValue (text.takeWhile Char.isDigit) : Int).natAbs < Nat.pow 10 n :=
  Nat.lt_of_lt_of_le (digitsValue_lt (List.all_eq_true.mp List.all_takeWhile))
    (Nat.pow_le_pow_right (by decide) (Nat.le_of_not_lt h))

namespace Readable

variable {P : Json → Prop} {F : List (String × Json) → Prop}

theorem of_readNumber? (hP : Readable P F) {text rest : List Char} {v : Json}
    (h : readNumber? text = some (v, rest)) : P v := by
  unfold readNumber? at h
  dsimp only [bind, pure] at h
  split at h
  · cases h
    exact hP.float _
  simp only [Option.bind_none, Option.ite_none_left_eq_some, Option.bind_eq_some_iff] at h
  obtain ⟨-, ⟨exponent, more⟩, -, h⟩ := h
  split_ifs at h with _ hlong
  · cases h
    refine hP.int _ ?_
    rw [Int.natAbs_neg]
    exact natAbs_digitsValue_lt hlong
  · cases h
    exact hP.int _ (natAbs_digitsValue_lt hlong)
  all_goals
    cases h
    exact hP.float _

theorem of_read (hP : Readable P F) (fuel : Nat) :
    (∀ text v rest, readValue? fuel text = some (v, rest) → P v) ∧
    (∀ text items rest, readItems? fuel text = some (items, rest) → ∀ v ∈ items, P v) ∧
    (∀ fields text fields' rest, F fields →
      readFields? fuel fields text = some (fields', rest) → F fields') := by
  induction fuel with
  | zero => simp [readValue?, readItems?, readFields?]
  | succ fuel ih =>
    obtain ⟨hvalue, hitems, hfields⟩ := ih
    refine ⟨?_, ?_, ?_⟩
    · intro text v rest h
      simp only [readValue?] at h
      split at h
      · simp only [Option.bind_eq_bind, Option.bind_eq_some_iff] at h
        obtain ⟨⟨s, more⟩, -, h⟩ := h
        cases h
        exact hP.str s
      · split at h
        · cases h
          exact hP.arr [] (List.forall_mem_nil _)
        · simp only [Option.bind_eq_bind, Option.bind_eq_some_iff] at h
          obtain ⟨⟨items, more⟩, hi, h⟩ := h
          cases h
          exact hP.arr items (hitems _ _ _ hi)
      · split at h
        · cases h
          exact hP.obj [] hP.nil
        · simp only [Option.bind_eq_bind, Option.bind_eq_some_iff] at h
          obtain ⟨⟨fields, more⟩, hf, h⟩ := h
          cases h
          exact hP.obj fields (hfields [] _ _ _ hP.nil hf)
      iterate 4
        · simp only [Option.bind_eq_bind, Option.bind_eq_some_iff] at h
          obtain ⟨more, -, h⟩ := h
          cases h
          first | exact hP.bool _ | exact hP.null | exact hP.float _
      · exact hP.of_readNumber? h
    · intro text items rest h
      simp only [readItems?, Option.bind_eq_bind, Option.bind_eq_some_iff] at h
      obtain ⟨⟨v, more⟩, hv, h⟩ := h
      have hfirst := hvalue _ _ _ hv
      dsimp only at h
      split at h
      · simp only [Option.bind_eq_some_iff] at h
        obtain ⟨⟨items', more'⟩, hi, h⟩ := h
        cases h
        exact List.forall_mem_cons.mpr ⟨hfirst, hitems _ _ _ hi⟩
      · cases h
        exact List.forall_mem_singleton.mpr hfirst
      · cases h
    · intro fields text fields' rest hf h
      simp only [readFields?] at h
      split at h
      · simp only [Option.bind_eq_bind, Option.bind_eq_some_iff] at h
        obtain ⟨⟨key, more⟩, -, more', -, ⟨v, more''⟩, hv, h⟩ := h
        have hf' : F (setField key v fields) := hP.field key v fields (hvalue _ _ _ hv) hf
        dsimp only at h
        split at h
        · exact hfields _ _ _ _ hf' h
        · cases h
          exact hf'
        · cases h
      · cases h

theorem of_parse? (hP : Readable P F) {text : String} {v : Json} (h : parse? text = some v) :
    P v := by
  simp only [parse?, Option.bind_eq_bind, Option.bind_eq_some_iff] at h
  obtain ⟨⟨w, rest⟩, hv, h⟩ := h
  dsimp only at h
  split_ifs at h
  cases h
  exact (hP.of_read _).1 _ _ _ hv

end Readable

theorem nodup_setField {key : String} {v : Json} {fields : List (String × Json)}
    (h : (fields.map Prod.fst).Nodup) : ((setField key v fields).map Prod.fst).Nodup := by
  rw [map_fst_setField]
  split
  · exact h
  · next hk =>
    refine List.nodup_append.mpr ⟨h, List.nodup_singleton key, fun k hk' k' hkey => ?_⟩
    rw [List.mem_singleton.mp hkey]
    rintro rfl
    exact hk hk'

/-- What holds of a value and of all fields holds of the fields with that value. -/
theorem forall_mem_setField {P : Json → Prop} {key : String} {v : Json}
    {fields : List (String × Json)} (hv : P v) (h : ∀ field ∈ fields, P field.2) :
    ∀ field ∈ setField key v fields, P field.2 := by
  rintro ⟨k, w⟩ hw
  rcases mem_setField hw with hw | ⟨-, rfl⟩
  · exact h _ hw
  · exact hv

theorem readable_distinct :
    Readable Distinct fun fields => (fields.map Prod.fst).Nodup ∧ ∀ field ∈ fields, field.2.Distinct where
  null := trivial
  bool _ := trivial
  int _ _ := trivial
  float _ := trivial
  str _ := trivial
  arr _ hitems := distinctItems_iff.mpr hitems
  obj _ hfields := ⟨hfields.1, distinctFields_iff.mpr hfields.2⟩
  nil := ⟨List.nodup_nil, List.forall_mem_nil _⟩
  field _ _ _ hv hfields := ⟨nodup_setField hfields.1, forall_mem_setField hv hfields.2⟩

/-- Whatever is read is free of double keys. -/
theorem parse?_distinct {text : String} {v : Json} (h : parse? text = some v) : v.Distinct :=
  readable_distinct.of_parse? h

theorem legibleItems_iff {items : List Json} : legibleItems items ↔ ∀ v ∈ items, v.legible := by
  induction items with
  | nil => simp [legibleItems]
  | cons v rest ih => simp [legibleItems, ih]

theorem legibleFields_iff {fields : List (String × Json)} :
    legibleFields fields ↔ ∀ field ∈ fields, field.2.legible := by
  induction fields with
  | nil => simp [legibleFields]
  | cons field rest ih => simp [legibleFields, ih]

theorem legible_int_of_lt_ten {i : Int} (hi : i.natAbs < 10) : (Json.int i).legible := by
  have hdigits : Text.maxDigits ≠ 0 := by decide
  rw [legible, decide_eq_true_iff]
  -- The bound is never computed.
  generalize Text.maxDigits = n at hdigits
  exact Nat.lt_of_lt_of_le hi (Nat.le_self_pow hdigits 10)

/-- Some integers have too many digits. -/
theorem exists_not_legible_int : ∃ i : Int, (Json.int i).legible = false := by
  simp only [legible, decide_eq_false_iff_not]
  generalize Text.maxDigits = n
  exact ⟨10 ^ n, by rw [Int.natAbs_pow]; exact Nat.lt_irrefl _⟩

theorem readable_legible :
    Readable (fun v => v.legible) fun fields => ∀ field ∈ fields, field.2.legible where
  null := rfl
  bool _ := rfl
  int _ hi := by
    rw [legible]
    exact decide_eq_true hi
  float _ := rfl
  str _ := rfl
  arr _ hitems := legibleItems_iff.mpr hitems
  obj _ hfields := legibleFields_iff.mpr hfields
  nil := List.forall_mem_nil _
  field _ _ _ hv hfields := forall_mem_setField (P := fun v => v.legible) hv hfields

/-- Whatever is read can be written. -/
theorem parse?_legible {text : String} {v : Json} (h : parse? text = some v) : v.legible :=
  readable_legible.of_parse? h

end IdentCase.Json
