import Mathlib.Data.List.Basic
import Mathlib.Data.List.Forall2
import Mathlib.Tactic.Tauto

/-! Runs of computations that may fail and keep their state. -/
namespace IdentCase

variable {ε σ α β γ : Type}

/-- Goes on with the value and the state that a computation ends with, unless it has failed. -/
def andThen (r : Except ε α × σ) (f : α → σ → Except ε β × σ) : Except ε β × σ :=
  match r with
  | (.ok a, s) => f a s
  | (.error e, s) => (.error e, s)

@[simp] theorem andThen_ok (a : α) (s : σ) (f : α → σ → Except ε β × σ) :
    andThen (.ok a, s) f = f a s := rfl

@[simp] theorem andThen_error (e : ε) (s : σ) (f : α → σ → Except ε β × σ) :
    andThen (.error e, s) f = (.error e, s) := rfl

theorem andThen_eq_ok {r : Except ε α × σ} {f : α → σ → Except ε β × σ} {b : β} {t : σ} :
    andThen r f = (.ok b, t) ↔ ∃ a s, r = (.ok a, s) ∧ f a s = (.ok b, t) := by
  rcases r with ⟨_ | a, s⟩
  · simp
  · simp

theorem ok_bind (a : α) (k : α → Except ε β) : (Except.ok a >>= k) = k a := rfl

theorem bind_eq_ok {x : Except ε α} {k : α → Except ε β} {b : β} :
    x >>= k = .ok b ↔ ∃ a, x = .ok a ∧ k a = .ok b := by
  cases x <;> simp [bind, Except.bind]

theorem bind_congr_ok {x : Except ε α} {k k' : α → Except ε β}
    (h : ∀ a, x = .ok a → k a = k' a) : x >>= k = x >>= k' := by
  cases x with
  | error e => rfl
  | ok a => exact h a rfl

theorem bind_map (x : Except ε α) (k : α → Except ε β) (g : β → γ) :
    (x >>= k).map g = x >>= fun a => (k a).map g := by
  cases x <;> rfl

theorem map_bind (x : Except ε α) (g : α → β) (k : β → Except ε γ) :
    (x.map g >>= k) = x >>= fun a => k (g a) := by
  cases x <;> rfl

theorem map_eq_ok {r : Except ε α} {f : α → β} {b : β} :
    r.map f = .ok b ↔ ∃ a, r = .ok a ∧ f a = b := by
  cases r <;> simp [Except.map]

theorem map_eq_error {r : Except ε α} {f : α → β} {e : ε} :
    r.map f = .error e ↔ r = .error e := by
  cases r <;> simp [Except.map]

def Succeeds (r : Except ε α) : Prop := ∃ a, r = .ok a

theorem succeeds_ok (a : α) : Succeeds (.ok a : Except ε α) := ⟨a, rfl⟩

theorem Succeeds.bind {x : Except ε α} {k : α → Except ε β} (hx : Succeeds x)
    (hk : ∀ a, x = .ok a → Succeeds (k a)) : Succeeds (x >>= k) := by
  obtain ⟨a, rfl⟩ := hx
  exact hk a rfl

theorem Succeeds.map {x : Except ε α} (hx : Succeeds x) (f : α → β) : Succeeds (x.map f) := by
  obtain ⟨a, rfl⟩ := hx
  exact succeeds_ok (f a)

/-- How two computations fail where the second may take the value of the first, but fails for all alike. -/
theorem bind_eq_error_iff {x : Except ε α} {k : α → Except ε β} {e : ε} {p : Prop}
    (h : ∀ a, k a = .error e ↔ p) : x >>= k = .error e ↔ x = .error e ∨ Succeeds x ∧ p := by
  cases x <;> simp [bind, Except.bind, Succeeds, h]

theorem succeeds_map_iff {x : Except ε α} {f : α → β} : Succeeds (x.map f) ↔ Succeeds x := by
  cases x <;> simp [Succeeds, Except.map]

/-- Whether a computation fails with an error on an element of a list, and succeeds on all before it. -/
def FailsFirst (f : α → Except ε β) (xs : List α) (e : ε) : Prop :=
  ∃ before x after, xs = before ++ x :: after ∧ (∀ y ∈ before, Succeeds (f y)) ∧ f x = .error e

section
variable {f : α → Except ε β} {x : α} {xs ys : List α} {e : ε}

theorem not_failsFirst_nil : ¬ FailsFirst f [] e := by
  rintro ⟨before, x, after, h, -⟩
  cases before <;> cases h

theorem failsFirst_cons :
    FailsFirst f (x :: xs) e ↔ f x = .error e ∨ Succeeds (f x) ∧ FailsFirst f xs e := by
  constructor
  · rintro ⟨before, y, after, h, hbefore, hy⟩
    cases before with
    | nil =>
      cases h
      exact Or.inl hy
    | cons z before =>
      cases h
      rw [List.forall_mem_cons] at hbefore
      exact Or.inr ⟨hbefore.1, before, y, after, rfl, hbefore.2, hy⟩
  · rintro (h | ⟨hx, before, y, after, rfl, hbefore, hy⟩)
    · exact ⟨[], x, xs, rfl, nofun, h⟩
    · exact ⟨x :: before, y, after, rfl, List.forall_mem_cons.mpr ⟨hx, hbefore⟩, hy⟩

theorem failsFirst_append : FailsFirst f (xs ++ ys) e ↔
    FailsFirst f xs e ∨ (∀ x ∈ xs, Succeeds (f x)) ∧ FailsFirst f ys e := by
  induction xs with
  | nil => simp [not_failsFirst_nil]
  | cons x xs ih =>
    rw [List.cons_append, failsFirst_cons, failsFirst_cons, ih, List.forall_mem_cons]
    tauto

theorem mapM_cons_eq_ok {l : List α} {out : List β} :
    (x :: l).mapM f = .ok out ↔ ∃ y ys, f x = .ok y ∧ l.mapM f = .ok ys ∧ out = y :: ys := by
  rw [List.mapM_cons]
  cases f x with
  | error e => simp [bind, Except.bind]
  | ok y => cases l.mapM f <;> simp [bind, Except.bind, pure, Except.pure, eq_comm]

theorem mapM_cons_eq_error {l : List α} :
    (x :: l).mapM f = .error e ↔ f x = .error e ∨ Succeeds (f x) ∧ l.mapM f = .error e := by
  rw [List.mapM_cons]
  cases f x with
  | error e => simp [bind, Except.bind, Succeeds]
  | ok y => cases l.mapM f <;> simp [bind, Except.bind, pure, Except.pure, Succeeds]

/-- A pass through a list fails where its computation fails first. -/
theorem mapM_eq_error_iff : xs.mapM f = .error e ↔ FailsFirst f xs e := by
  induction xs with
  | nil => exact iff_of_false nofun not_failsFirst_nil
  | cons x xs ih => rw [mapM_cons_eq_error, failsFirst_cons, ih]

theorem mapM_eq_ok_iff {out : List β} :
    xs.mapM f = .ok out ↔ List.Forall₂ (fun x y => f x = .ok y) xs out := by
  induction xs generalizing out with
  | nil => simp [pure, Except.pure, eq_comm]
  | cons x xs ih =>
    rw [mapM_cons_eq_ok, List.forall₂_cons_left_iff]
    simp only [ih]

theorem succeeds_mapM_iff : Succeeds (xs.mapM f) ↔ ∀ x ∈ xs, Succeeds (f x) := by
  induction xs with
  | nil => exact ⟨nofun, fun _ => ⟨[], rfl⟩⟩
  | cons x xs ih =>
    rw [List.forall_mem_cons, ← ih]
    simp only [Succeeds, mapM_cons_eq_ok]
    constructor
    · rintro ⟨_, y, ys, hy, hys, -⟩
      exact ⟨⟨y, hy⟩, ys, hys⟩
    · rintro ⟨⟨y, hy⟩, ys, hys⟩
      exact ⟨y :: ys, y, ys, hy, hys, rfl⟩

end

theorem run_bind (m : ExceptT ε (StateM σ) α) (f : α → ExceptT ε (StateM σ) β) (s : σ) :
    (m >>= f).run.run s = andThen (m.run.run s) fun a s => (f a).run.run s := by
  rw [ExceptT.run_bind, StateT.run_bind]
  rcases hm : m.run.run s with ⟨_ | _, _⟩ <;> rfl

theorem run_pure (a : α) (s : σ) :
    (pure a : ExceptT ε (StateM σ) α).run.run s = (.ok a, s) := rfl

theorem run_get (s : σ) : (get : ExceptT ε (StateM σ) σ).run.run s = (.ok s, s) := rfl

theorem run_set (s t : σ) : (set t : ExceptT ε (StateM σ) PUnit).run.run s = (.ok ⟨⟩, t) := rfl

theorem run_modify (f : σ → σ) (s : σ) :
    (modify f : ExceptT ε (StateM σ) PUnit).run.run s = (.ok ⟨⟩, f s) := rfl

theorem run_throw (e : ε) (s : σ) :
    (throw e : ExceptT ε (StateM σ) α).run.run s = (.error e, s) := rfl

theorem run_liftM (r : Except ε α) (s : σ) :
    (liftM r : ExceptT ε (StateM σ) α).run.run s = (r, s) := rfl

theorem run_forM_nil (f : α → ExceptT ε (StateM σ) PUnit) (s : σ) :
    (([] : List α).forM f).run.run s = (.ok ⟨⟩, s) := rfl

theorem run_forM_cons (f : α → ExceptT ε (StateM σ) PUnit) (x : α) (xs : List α) (s : σ) :
    ((x :: xs).forM f).run.run s =
      andThen ((f x).run.run s) fun _ s => (xs.forM f).run.run s := run_bind _ _ _

theorem run_forM_append (f : α → ExceptT ε (StateM σ) PUnit) (xs ys : List α) (s : σ) :
    ((xs ++ ys).forM f).run.run s =
      andThen ((xs.forM f).run.run s) fun _ s => (ys.forM f).run.run s := by
  induction xs generalizing s with
  | nil => rfl
  | cons x xs ih =>
    rw [List.cons_append, run_forM_cons, run_forM_cons]
    rcases (f x).run.run s with ⟨_ | _, t⟩
    · rfl
    · exact ih t

/-- A loop that fails has gone through some elements and failed at the next. -/
theorem exists_of_run_forM_eq_error {f : α → ExceptT ε (StateM σ) PUnit} {xs : List α} {s t : σ}
    {e : ε} (h : (xs.forM f).run.run s = (.error e, t)) :
    ∃ before x rest u, xs = before ++ x :: rest ∧ (before.forM f).run.run s = (.ok ⟨⟩, u) ∧
      (f x).run.run u = (.error e, t) := by
  induction xs generalizing s with
  | nil =>
    rw [run_forM_nil] at h
    cases h
  | cons x xs ih =>
    rw [run_forM_cons] at h
    rcases hx : (f x).run.run s with ⟨e' | _, u⟩
    · rw [hx, andThen_error] at h
      exact ⟨[], x, xs, s, rfl, rfl, hx.trans h⟩
    · rw [hx, andThen_ok] at h
      obtain ⟨before, y, rest, w, rfl, hbefore, hy⟩ := ih h
      refine ⟨x :: before, y, rest, w, rfl, ?_, hy⟩
      rw [run_forM_cons, hx, andThen_ok, hbefore]

/-- A loop that leaves nothing behind but its effects. -/
theorem forIn_eq_forM (f : α → ExceptT ε (StateM σ) PUnit) (xs : List α) :
    (forIn xs PUnit.unit fun x _ => do f x; pure (ForInStep.yield PUnit.unit)) = xs.forM f := by
  induction xs with
  | nil => rfl
  | cons x xs ih =>
    rw [List.forIn_cons]
    simp only [bind_assoc, pure_bind, ih]
    rfl

end IdentCase
