import IdentCase.Proofs.Records
import IdentCase.Proofs.WellShaped

/-! Identifications of violations: they tell the name and, if its line is known, the position. -/
namespace IdentCase

/-- Two texts that are the same up to an element are cut by it at one place. -/
theorem append_cons_inj {α : Type} {a : α} {xs ys rest rest' : List α} (hx : a ∉ xs) (hy : a ∉ ys) :
    xs ++ a :: rest = ys ++ a :: rest' ↔ xs = ys ∧ rest = rest' := by
  induction xs generalizing ys with
  | nil =>
    cases ys with
    | nil => simp
    | cons y ys =>
      have hne : a ≠ y := fun h => hy (h ▸ List.mem_cons_self)
      simp [hne]
  | cons x xs ih =>
    have hne : x ≠ a := fun h => hx (h ▸ List.mem_cons_self)
    cases ys with
    | nil => simp [hne]
    | cons y ys =>
      rw [List.cons_append, List.cons_append, List.cons.injEq, List.cons.injEq,
        ih (fun h => hx (List.mem_cons_of_mem _ h)) (fun h => hy (List.mem_cons_of_mem _ h)),
        and_assoc]

theorem isDigit_of_mem_repr {n : Nat} {c : Char} (hc : c ∈ n.repr.toList) : c.isDigit := by
  rw [Nat.repr_eq_ofList_toDigits, String.toList_ofList] at hc
  exact Nat.isDigit_of_mem_toDigits (by decide) (by decide) hc

theorem repr_inj {m n : Nat} : m.repr = n.repr ↔ m = n := by
  refine ⟨fun h => ?_, congrArg _⟩
  have hdigits := congrArg (fun s : String => Nat.ofDigitChars 10 s.toList 0) h
  simpa [Nat.repr_eq_ofList_toDigits, Nat.ofDigitChars_toDigits] using hdigits

theorem mem_toString_int {i : Int} {c : Char} (hc : c ∈ (toString i).toList) :
    c = '-' ∨ c.isDigit := by
  rw [Int.toString_eq_repr, Int.repr_eq_if] at hc
  split at hc
  · exact Or.inr (isDigit_of_mem_repr hc)
  · rw [String.toList_append, List.mem_append] at hc
    rcases hc with hc | hc
    · exact Or.inl (List.mem_singleton.mp hc)
    · exact Or.inr (isDigit_of_mem_repr hc)

/-- Integers are written without two of them having one text. -/
theorem toString_int_inj {i j : Int} : toString i = toString j ↔ i = j := by
  have hsign : ∀ m n : Nat, "-" ++ m.repr ≠ n.repr := by
    intro m n h
    have hmem : '-' ∈ n.repr.toList := by
      rw [← h, String.toList_append]
      exact List.mem_append_left _ (by decide)
    exact absurd (isDigit_of_mem_repr hmem) (by decide)
  rw [Int.toString_eq_repr, Int.toString_eq_repr, Int.repr_eq_if, Int.repr_eq_if]
  split <;> split
  · rw [repr_inj]
    omega
  · exact iff_of_false (fun h => hsign _ _ h.symm) (by omega)
  · exact iff_of_false (hsign _ _) (by omega)
  · rw [← String.toList_inj, String.toList_append, String.toList_append, List.append_cancel_left_eq,
      String.toList_inj, repr_inj]
    omega

namespace Violation

/-- Whether the texts of a line and of a column can be told from what comes after them. -/
structure Delimited (position : String × String) : Prop where
  line : ':' ∉ position.1.toList
  column : ':' ∉ position.2.toList
  known : position.1 ≠ "?"

section
variable {position position' : Option (String × String)} {line column name name' : String}

def idStart : List Char := (detector ++ "::").toList

theorem toList_idFor_some : (idFor (some (line, column)) name).toList =
    idStart ++ (line.toList ++ ':' :: (column.toList ++ ':' :: (':' :: name.toList))) := by
  simp [idFor, idStart, List.append_assoc]

theorem toList_idFor_none : (idFor none name).toList =
    idStart ++ (['?'] ++ ':' :: (':' :: name.toList)) := by
  simp [idFor, idStart]

theorem idFor_some_ne_none (hd : Delimited (line, column)) :
    idFor (some (line, column)) name ≠ idFor none name' := by
  intro h
  rw [← String.toList_inj, toList_idFor_some, toList_idFor_none, List.append_cancel_left_eq,
    append_cons_inj hd.line (by decide)] at h
  exact hd.known (String.toList_inj.mp h.1)

/-- Nothing of a name can be taken for a part of the position in front of it. -/
theorem idFor_inj (hd : ∀ p ∈ position, Delimited p) (hd' : ∀ p ∈ position', Delimited p) :
    idFor position name = idFor position' name' ↔ position = position' ∧ name = name' := by
  cases position with
  | none =>
    cases position' with
    | none =>
      rw [← String.toList_inj, toList_idFor_none, toList_idFor_none]
      simp [String.toList_inj]
    | some p =>
      have hne : idFor (some p) name' ≠ idFor none name := idFor_some_ne_none (hd' p rfl)
      simp [hne.symm]
  | some p =>
    cases position' with
    | none =>
      have hne : idFor (some p) name ≠ idFor none name' := idFor_some_ne_none (hd p rfl)
      simp [hne]
    | some q =>
      obtain ⟨line, column⟩ := p
      obtain ⟨line', column'⟩ := q
      obtain ⟨hline, hcolumn, -⟩ := hd _ rfl
      obtain ⟨hline', hcolumn', -⟩ := hd' _ rfl
      rw [← String.toList_inj, toList_idFor_some, toList_idFor_some, List.append_cancel_left_eq,
        append_cons_inj hline hline', append_cons_inj hcolumn hcolumn', List.cons.injEq,
        String.toList_inj, String.toList_inj, String.toList_inj]
      simp [and_assoc]

end

end Violation

namespace Tree

def Value.isCount : Value → Bool
  | .null | .int _ => true
  | _ => false

section
variable {h h' : Heap} {v v' line line' column column' : Value} {p : Path} {name : String}

theorem mem_text_count {c : Char} (hv : v.isCount) (hc : c ∈ (h.toJson v).text.toList) :
    c ∈ ['N', 'o', 'n', 'e'] ∨ c = '-' ∨ c.isDigit := by
  cases v with
  | null =>
    change c ∈ "None".toList at hc
    exact Or.inl (by simpa using hc)
  | int i => exact Or.inr (mem_toString_int hc)
  | _ => cases hv

theorem text_count_inj (hv : v.isCount) (hv' : v'.isCount) :
    (h.toJson v).text = (h'.toJson v').text ↔ v = v' := by
  have hint : ∀ i : Int, toString i ≠ "None" := by
    intro i hi
    have hmem : 'N' ∈ (toString i).toList := by
      rw [hi]
      decide
    exact absurd (mem_toString_int hmem) (by decide)
  cases v with
  | null =>
    cases v' with
    | null => exact iff_of_true rfl rfl
    | int i => exact iff_of_false (fun he => hint i he.symm) nofun
    | _ => cases hv'
  | int i =>
    cases v' with
    | null => exact iff_of_false (hint i) nofun
    | int j =>
      change toString i = toString j ↔ _
      rw [toString_int_inj, Value.int.injEq]
    | _ => cases hv'
  | _ => cases hv

namespace Heap

theorem id_violationAt (hn : h.get? p "name" = some (.str name)) :
    (h.violationAt p (line, column)).id = Violation.idFor (h.toldPosition line column) name := by
  unfold violationAt
  rw [hn]
  rfl

theorem delimited_toldPosition (hl : line.isCount) (hc : column.isCount) :
    ∀ q ∈ h.toldPosition line column, Violation.Delimited q := by
  have hother : ∀ c ∈ [':', '?'], ¬ (c ∈ ['N', 'o', 'n', 'e'] ∨ c = '-' ∨ c.isDigit) := by
    simp
  have hnot : ∀ v : Value, v.isCount → ∀ c ∈ [':', '?'], c ∉ (h.toJson v).text.toList :=
    fun v hv c hmem hc => hother c hmem (mem_text_count hv hc)
  intro q hq
  cases line with
  | null => cases hq
  | int i =>
    cases hq
    have hknown := hnot _ hl '?' (by decide)
    refine ⟨hnot _ hl ':' (by decide), hnot _ hc ':' (by decide), fun he => hknown ?_⟩
    dsimp only at he
    rw [he]
    decide
  | _ => cases hl

theorem toldPosition_inj (hl : line.isCount) (hl' : line'.isCount) (hc : column.isCount)
    (hc' : column'.isCount) : h.toldPosition line column = h'.toldPosition line' column' ↔
      line = .null ∧ line' = .null ∨ line = line' ∧ column = column' := by
  cases line with
  | null =>
    cases line' with
    | null => simp [toldPosition]
    | int i => simp [toldPosition]
    | _ => cases hl'
  | int i =>
    cases line' with
    | null => simp [toldPosition]
    | int j =>
      simp only [toldPosition, Option.some.injEq, Prod.mk.injEq, text_count_inj hl hl',
        text_count_inj hc hc', reduceCtorEq, false_and, false_or]
    | _ => cases hl'
  | _ => cases hl

def fieldIn (h : Heap) (v : Value) (key : String) : Value :=
  match v with
  | .object q => h.get q key
  | _ => .null

theorem fieldOf_eq_fieldIn (ha : h.askable v) (key : String) :
    h.fieldOf v key = .ok (h.fieldIn v key) := by
  cases v with
  | object q => rfl
  | _ => exact fieldOf_of_askable ha nofun key

def startField (h : Heap) (p : Path) (key : String) : Value :=
  h.fieldIn (h.fieldIn (h.get p "loc") "start") key

/-- Whether the start of a node can be asked for, and tells integers as far as it tells anything. -/
structure Located (h : Heap) (p : Path) : Prop where
  loc : h.askable (h.get p "loc")
  start : h.askable (h.fieldIn (h.get p "loc") "start")
  line : (h.startField p "line").isCount
  column : (h.startField p "column").isCount

theorem position_of_located (hl : h.Located p) :
    h.position p = .ok (h.startField p "line", h.startField p "column") := by
  rw [position, fieldOf_eq_fieldIn hl.loc, ok_bind, fieldOf_eq_fieldIn hl.start, ok_bind,
    fieldOf_eq_fieldIn hl.start, ok_bind]
  rfl

/-- Whether no line is known of a node, or line and column have few enough digits to be written. -/
def Writable (h : Heap) (p : Path) : Prop :=
  h.tellable (h.startField p "line") (h.startField p "column")

/-- A node with a position and a name has a violation if the position can be written. -/
theorem violation_of_position (hp : h.position p = .ok (line, column))
    (hn : h.get? p "name" = some (.str name)) : h.violation p =
      if h.tellable line column then .ok (h.violationAt p (line, column))
      else .error (.limit .numberTooLong) := by
  have hname : h.tellableAt p (line, column) = h.tellable line column := by
    rw [tellableAt, hn]
    exact Bool.and_true _
  rw [violation_eq, hp, ok_bind, hname]

theorem tellable_int (h : Heap) (i : Int) (column : Value) :
    h.tellable (.int i) column = ((Json.int i).legible && (h.toJson column).legible) := rfl

theorem tellable_bool (h : Heap) (b : Bool) (column : Value) :
    h.tellable (.bool b) column = (h.toJson column).legible := Bool.true_and _

theorem tellable_int_of_lt_ten {i j : Int} (hi : i.natAbs < 10) (hj : j.natAbs < 10) :
    h.tellable (.int i) (.int j) := by
  rw [tellable_int, Json.legible_int_of_lt_ten hi, Bool.true_and]
  exact Json.legible_int_of_lt_ten hj

end Heap

/--
The violations of two identifiers can be made if and only if the position of each can be written. They
are identified in the same way if and only if these have one name and one position, or one name and no
line, in which case columns are not told.
-/
theorem violation_id_eq_iff (h h' : Heap) (p p' : Path) (name name' : String) (hl : h.Located p)
    (hl' : h'.Located p') (hn : h.get? p "name" = some (.str name))
    (hn' : h'.get? p' "name" = some (.str name')) :
    (¬ h.Writable p → h.violation p = .error (.limit .numberTooLong)) ∧
      (¬ h'.Writable p' → h'.violation p' = .error (.limit .numberTooLong)) ∧
      (h.Writable p → h'.Writable p' → ∃ v v', h.violation p = .ok v ∧ h'.violation p' = .ok v' ∧
        (v.id = v'.id ↔ name = name' ∧
          (h.startField p "line" = .null ∧ h'.startField p' "line" = .null ∨
            h.startField p "line" = h'.startField p' "line" ∧
              h.startField p "column" = h'.startField p' "column"))) := by
  have hx := Heap.violation_of_position (Heap.position_of_located hl) hn
  have hx' := Heap.violation_of_position (Heap.position_of_located hl') hn'
  refine ⟨fun hw => hx.trans (if_neg hw), fun hw => hx'.trans (if_neg hw), fun hw hw' =>
    ⟨_, _, hx.trans (if_pos hw), hx'.trans (if_pos hw'), ?_⟩⟩
  rw [Heap.id_violationAt hn, Heap.id_violationAt hn',
    Violation.idFor_inj (Heap.delimited_toldPosition hl.line hl.column)
      (Heap.delimited_toldPosition hl'.line hl'.column),
    Heap.toldPosition_inj hl.line hl'.line hl.column hl'.column, and_comm]

/-- Two identifiers, where the name of the second is what is told of the first without a line. -/
def placedIdentifiers : Json :=
  .obj [("type", .str "Program"), ("body", .arr [
    .obj [("type", .str "Identifier"), ("name", .str "a_b"),
      ("loc", .obj [("start", .obj [("line", .int 3), ("column", .int (-4))])])],
    .obj [("type", .str "Identifier"), ("name", .str "3:-4::a_b"), ("loc", .null)]])]

theorem violation_id_eq_iff_placedIdentifiers :
    let h := Heap.load placedIdentifiers
    h.Located [.index 0, .key "body"] ∧ h.Located [.index 1, .key "body"] ∧
      ∃ v v', h.violation [.index 0, .key "body"] = .ok v ∧
        h.violation [.index 1, .key "body"] = .ok v' ∧ v.id ≠ v'.id := by
  intro h
  have hl : h.Located [.index 0, .key "body"] := ⟨rfl, rfl, rfl, rfl⟩
  have hl' : h.Located [.index 1, .key "body"] := ⟨rfl, rfl, rfl, rfl⟩
  have hw : h.Writable [.index 0, .key "body"] :=
    Heap.tellable_int_of_lt_ten (i := 3) (j := -4) (by decide) (by decide)
  obtain ⟨-, -, hboth⟩ := violation_id_eq_iff h h _ _ "a_b" "3:-4::a_b" hl hl' rfl rfl
  obtain ⟨v, v', hv, hv', hid⟩ := hboth hw rfl
  refine ⟨hl, hl', v, v', hv, hv', fun he => ?_⟩
  exact absurd (hid.mp he).1 (by decide)

def identifierAt (line : Json) : Json :=
  .obj [("type", .str "Identifier"), ("name", .str "a_b"),
    ("loc", .obj [("start", .obj [("line", line), ("column", .int 0)])])]

/--
A line with too many digits is written in no identification, and a truth value is not written as the
integer that it equals.
-/
theorem not_violation_id_eq_iff_unbounded :
    (¬ ∀ (h h' : Heap) (p p' : Path) (name name' : String), h.Located p → h'.Located p' →
      h.get? p "name" = some (.str name) → h'.get? p' "name" = some (.str name') →
      ∃ v v', h.violation p = .ok v ∧ h'.violation p' = .ok v' ∧
        (v.id = v'.id ↔ name = name' ∧
          (h.startField p "line" = .null ∧ h'.startField p' "line" = .null ∨
            h.startField p "line" = h'.startField p' "line" ∧
              h.startField p "column" = h'.startField p' "column"))) ∧
      let h := Heap.load (identifierAt (.bool true))
      let h' := Heap.load (identifierAt (.int 1))
      h.same (h.startField [] "line") (h'.startField [] "line") = .ok true ∧
        ∃ v v', h.violation [] = .ok v ∧ h'.violation [] = .ok v' ∧ v.id ≠ v'.id := by
  have hl : ∀ i : Int, (Heap.load (identifierAt (.int i))).Located [] :=
    fun i => ⟨rfl, rfl, rfl, rfl⟩
  refine ⟨fun hmade => ?_, rfl, ?_⟩
  · obtain ⟨i, hi⟩ := Json.exists_not_legible_int
    obtain ⟨v, -, hv, -⟩ := hmade _ _ [] [] _ _ (hl i) (hl i) rfl rfl
    have hp : (Heap.load (identifierAt (.int i))).position [] = .ok (.int i, .int 0) := rfl
    rw [Heap.violation_of_position hp rfl, Heap.tellable_int, hi, Bool.false_and, if_neg Bool.false_ne_true] at hv
    cases hv
  · have htrue : (Heap.load (identifierAt (.bool true))).tellable (.bool true) (.int 0) := by
      rw [Heap.tellable_bool]
      exact Json.legible_int_of_lt_ten (by decide)
    have hone : (Heap.load (identifierAt (.int 1))).tellable (.int 1) (.int 0) :=
      Heap.tellable_int_of_lt_ten (by decide) (by decide)
    refine ⟨_, _, (Heap.violation_of_position rfl rfl).trans (if_pos htrue),
      (Heap.violation_of_position rfl rfl).trans (if_pos hone), ?_⟩
    decide +kernel

end

end Tree

end IdentCase
