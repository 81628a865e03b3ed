import IdentCase.Pattern.Match
import Mathlib.Data.List.TakeWhile

/-! Loops over one character. The places that such a loop may leave at are those within a run of
characters that pass its test, and it tries the last of them first. -/
namespace IdentCase.Pattern

def State.skip (s : State) (n : Nat) : State :=
  { s with
    pos := s.pos + n
    before := (s.after.take n).reverse ++ s.before
    after := s.after.drop n }

def State.runLength (s : State) (test : CharTest) : Nat := (s.after.takeWhile test.accepts).length

section
variable {s : State} {test : CharTest} {k : Next} {c : Char} {rest : List Char}

@[simp] theorem State.skip_zero (s : State) : s.skip 0 = s := by simp [skip]

theorem State.skip_step (h : s.after = c :: rest) (n : Nat) :
    (s.step c rest).skip n = s.skip (n + 1) := by
  simp only [skip, step, h, List.take_succ_cons, List.reverse_cons, List.drop_succ_cons,
    List.append_assoc, List.singleton_append, State.mk.injEq, and_true]
  omega

theorem State.runLength_nil (h : s.after = []) : s.runLength test = 0 := by simp [runLength, h]

theorem State.runLength_cons (h : s.after = c :: rest) :
    s.runLength test = if test.accepts c then (s.step c rest).runLength test + 1 else 0 := by
  simp only [runLength, step, h, List.takeWhile_cons]
  split <;> simp_all

/-- After the run comes the rest of the text. -/
theorem State.after_skip_runLength (s : State) (test : CharTest) :
    (s.skip (s.runLength test)).after = s.after.dropWhile test.accepts := by
  have hdrop : (s.after.takeWhile test.accepts ++ s.after.dropWhile test.accepts).drop
      (s.runLength test) = s.after.dropWhile test.accepts := List.drop_left
  rwa [List.takeWhile_append_dropWhile] at hdrop

theorem State.before_skip_ne_nil (h : 0 < s.runLength test) :
    (s.skip (s.runLength test)).before ≠ [] := by
  have hafter : s.after ≠ [] := fun hnil => Nat.ne_of_gt h (runLength_nil hnil)
  simp [skip, hafter, Nat.ne_of_gt h]

/-- Within the run there is a character that passes the test. -/
theorem State.after_skip_of_lt {j : Nat} (hj : j < s.runLength test) :
    ∃ d l, (s.skip j).after = d :: l ∧ test.accepts d := by
  have hsplit : (s.skip j).after =
      (s.after.takeWhile test.accepts).drop j ++ s.after.dropWhile test.accepts := by
    rw [← List.drop_append_of_le_length (Nat.le_of_lt hj), List.takeWhile_append_dropWhile]
    rfl
  have hmem := List.getElem_mem hj
  rw [List.drop_eq_getElem_cons hj] at hsplit
  exact ⟨_, _, hsplit, List.mem_takeWhile_imp hmem⟩

theorem run_one_nil (h : s.after = []) : (Expr.one test).run k s = none := by
  simp only [Expr.run, h]

theorem run_one_cons (h : s.after = c :: rest) :
    (Expr.one test).run k s = if test.accepts c then k (s.step c rest) else none := by
  simp only [Expr.run, h]

theorem greedily_one {fuel : Nat} {last : Option Nat} (hf : s.after.length < fuel)
    (hl : last ≠ some s.pos) : greedily (Expr.one test).run fuel none last k s =
      (List.range (s.runLength test + 1)).reverse.findSome? fun j => k (s.skip j) := by
  induction fuel generalizing s last with
  | zero => omega
  | succ fuel ih =>
    have hgo : ¬ ((none : Option Nat) = some 0 ∨ last = some s.pos) := by simp [hl]
    rw [greedily, if_neg hgo]
    cases hs : s.after with
    | nil => simp [run_one_nil hs, State.runLength_nil hs]
    | cons c rest =>
      rw [run_one_cons hs, State.runLength_cons hs]
      split
      · have hlast : some s.pos ≠ some (s.step c rest).pos := by simp [State.step]
        have hfuel : (s.step c rest).after.length < fuel := by
          rw [hs, List.length_cons] at hf
          exact Nat.lt_of_succ_lt_succ hf
        have hrange : (List.range ((s.step c rest).runLength test + 1 + 1)).reverse =
            (List.range ((s.step c rest).runLength test + 1)).reverse.map (· + 1) ++ [0] := by
          rw [List.range_succ_eq_map, List.reverse_cons, List.map_reverse]
        rw [fewer, Option.map_none, ih hfuel hlast, hrange, List.findSome?_append,
          List.findSome?_map]
        simp only [State.skip_step hs, Function.comp_def]
        simp
      · simp

/-- A loop tries to leave a run of characters at its end first, and before its first character not. -/
theorem run_loop_one : (Expr.loop .greedy 1 none (.one test)).run k s =
    (List.range (s.runLength test)).reverse.findSome? fun j => k (s.skip (j + 1)) := by
  have hrun : (Expr.loop .greedy 1 none (.one test)).run k s = (Expr.one test).run
      (fun t => greedily (Expr.one test).run (t.after.length + 1) none none k t) s := rfl
  rw [hrun]
  cases hs : s.after with
  | nil => simp [run_one_nil hs, State.runLength_nil hs]
  | cons c rest =>
    rw [run_one_cons hs, State.runLength_cons hs]
    split
    · rw [greedily_one (Nat.lt_succ_self _) (by simp)]
      simp only [State.skip_step hs]
    · simp

/-- A loop leaves a run of characters at its end, if it can go on from there or from nowhere else. -/
theorem run_loop_one_of_longest (hpos : 0 < s.runLength test)
    (h : (k (s.skip (s.runLength test))).isSome ∨
      ∀ j, 0 < j → j < s.runLength test → k (s.skip j) = none) :
    (Expr.loop .greedy 1 none (.one test)).run k s = k (s.skip (s.runLength test)) := by
  obtain ⟨n, hn⟩ : ∃ n, s.runLength test = n + 1 := ⟨s.runLength test - 1, by omega⟩
  rw [run_loop_one]
  simp only [hn] at h ⊢
  rw [List.range_succ, List.reverse_append, List.reverse_singleton, List.singleton_append,
    List.findSome?_cons]
  cases hk : k (s.skip (n + 1)) with
  | some t => rfl
  | none =>
    rw [hk] at h
    have hshort := h.resolve_left (by simp)
    refine List.findSome?_eq_none_iff.mpr fun j hj => hshort (j + 1) (Nat.succ_pos j) ?_
    simpa using hj

end

end IdentCase.Pattern
