import IdentCase.Pattern.Match
import Mathlib.Data.List.Basic

/-! A match passes over characters one after the other, so it is a part of the text. -/
namespace IdentCase.Pattern

/-- Whether one place is reached from another by passing over characters. -/
def State.Passes (s t : State) : Prop :=
  ∃ passed, s.after = passed ++ t.after ∧ t.before = passed.reverse ++ s.before ∧
    t.pos = s.pos + passed.length

namespace State.Passes

variable {s t u : State}

theorem refl : s.Passes s := ⟨[], by simp⟩

theorem trans (hst : s.Passes t) (htu : t.Passes u) : s.Passes u := by
  obtain ⟨x, hxa, hxb, hxp⟩ := hst
  obtain ⟨y, hya, hyb, hyp⟩ := htu
  refine ⟨x ++ y, ?_, ?_, ?_⟩
  · rw [hxa, hya, List.append_assoc]
  · rw [hyb, hxb, List.reverse_append, List.append_assoc]
  · rw [hyp, hxp, List.length_append, Nat.add_assoc]

theorem step {c : Char} {rest : List Char} (h : s.after = c :: rest) : s.Passes (s.step c rest) :=
  ⟨[c], by simpa [State.step] using h⟩

/-- The groups do not bear on the place. -/
theorem congr {s' t' : State} (h : s.Passes t) (ha : s'.after = s.after) (hb : s'.before = s.before)
    (hp : s'.pos = s.pos) (ha' : t'.after = t.after) (hb' : t'.before = t.before)
    (hp' : t'.pos = t.pos) : s'.Passes t' := by
  unfold State.Passes
  rw [ha, hb, hp, ha', hb', hp']
  exact h

end State.Passes

/-- Whether what is matched before the rest of a pattern ends at a place that has been reached. -/
def Advances (m : Next → Next) : Prop :=
  ∀ k s t, m k s = some t → ∃ u, k u = some t ∧ s.Passes u

section
variable {m : Next → Next} {s t : State}

theorem passes_of_some (hm : Advances m) (h : m some s = some t) : s.Passes t := by
  obtain ⟨u, hu, hsu⟩ := hm some s t h
  cases hu
  exact hsu

theorem passes_passText {mode : CaseMode} {text : List Char} (h : s.passText mode text = some t) :
    s.Passes t := by
  induction text generalizing s with
  | nil =>
    cases h
    exact .refl
  | cons c cs ih =>
    unfold State.passText at h
    split at h
    · cases h
    · next x rest hs =>
      split at h
      · exact (State.Passes.step hs).trans (ih h)
      · cases h

theorem eq_some_of_orElse {o : Option State} {f : Unit → Option State}
    (h : o.orElse f = some t) : o = some t ∨ f () = some t := by
  rw [Option.orElse_eq_or, Option.or_eq_some_iff] at h
  exact h.imp_right And.right

theorem advances_once (hm : Advances m) : Advances (once m) := by
  intro k s t h
  obtain ⟨u, hu, hk⟩ := Option.bind_eq_some_iff.mp h
  exact ⟨u, hk, passes_of_some hm hu⟩

theorem advances_repeated (hm : Advances m) (n : Nat) : Advances (repeated m n) := by
  induction n with
  | zero => exact fun k s t h => ⟨s, h, .refl⟩
  | succ n ih =>
    intro k s t h
    obtain ⟨u, hu, hsu⟩ := hm _ _ _ h
    obtain ⟨v, hv, huv⟩ := ih _ _ _ hu
    exact ⟨v, hv, hsu.trans huv⟩

theorem advances_greedily (hm : Advances m) (fuel : Nat) (left last : Option Nat) :
    Advances (greedily m fuel left last) := by
  induction fuel generalizing left last with
  | zero => exact fun k s t h => ⟨s, h, .refl⟩
  | succ fuel ih =>
    intro k s t h
    unfold greedily at h
    split at h
    · exact ⟨s, h, .refl⟩
    · rcases eq_some_of_orElse h with h | h
      · obtain ⟨u, hu, hsu⟩ := hm _ _ _ h
        obtain ⟨v, hv, huv⟩ := ih _ _ _ _ _ hu
        exact ⟨v, hv, hsu.trans huv⟩
      · exact ⟨s, h, .refl⟩

theorem advances_lazily (hm : Advances m) (fuel : Nat) (left last : Option Nat) :
    Advances (lazily m fuel left last) := by
  induction fuel generalizing left last with
  | zero => exact fun k s t h => ⟨s, h, .refl⟩
  | succ fuel ih =>
    intro k s t h
    unfold lazily at h
    rcases eq_some_of_orElse h with h | h
    · exact ⟨s, h, .refl⟩
    · split at h
      · cases h
      · obtain ⟨u, hu, hsu⟩ := hm _ _ _ h
        obtain ⟨v, hv, huv⟩ := ih _ _ _ _ _ hu
        exact ⟨v, hv, hsu.trans huv⟩

theorem passes_possessively (hm : Advances m) (fuel : Nat) (left last : Option Nat) (s : State) :
    s.Passes (possessively m fuel left last s) := by
  induction fuel generalizing left last s with
  | zero => exact .refl
  | succ fuel ih =>
    unfold possessively
    split
    · exact .refl
    · split
      · exact .refl
      · next t ht => exact (passes_of_some hm ht).trans (ih _ _ t)

theorem advances_rounds (hm : Advances m) (greed : Greed) (least : Nat) (most : Option Nat) :
    Advances (rounds m greed least most) := by
  intro k s t h
  cases greed with
  | greedy =>
    obtain ⟨u, hu, hsu⟩ := advances_repeated hm _ _ _ _ h
    obtain ⟨v, hv, huv⟩ := advances_greedily hm _ _ _ _ _ _ hu
    exact ⟨v, hv, hsu.trans huv⟩
  | lazy =>
    obtain ⟨u, hu, hsu⟩ := advances_repeated hm _ _ _ _ h
    obtain ⟨v, hv, huv⟩ := advances_lazily hm _ _ _ _ _ _ hu
    exact ⟨v, hv, hsu.trans huv⟩
  | possessive =>
    obtain ⟨u, hu, hsu⟩ := advances_repeated (advances_once hm) _ _ _ _ h
    exact ⟨_, hu, hsu.trans (passes_possessively hm _ _ _ _)⟩

end

theorem Expr.advances (e : Expr) : Advances e.run := by
  induction e with
  | empty => exact fun k s t h => ⟨s, h, .refl⟩
  | one test =>
    intro k s t h
    unfold run at h
    split at h
    · cases h
    · next c rest hs =>
      split at h
      · exact ⟨_, h, .step hs⟩
      · cases h
  | anchor place =>
    intro k s t h
    unfold run at h
    split at h
    · exact ⟨s, h, .refl⟩
    · cases h
  | seq a b iha ihb =>
    intro k s t h
    obtain ⟨u, hu, hsu⟩ := iha _ _ _ h
    obtain ⟨v, hv, huv⟩ := ihb _ _ _ hu
    exact ⟨v, hv, hsu.trans huv⟩
  | alt a b iha ihb =>
    intro k s t h
    rcases eq_some_of_orElse h with h | h
    · exact iha _ _ _ h
    · exact ihb _ _ _ h
  | group index e ih =>
    intro k s t h
    cases index with
    | none => exact ih _ _ _ h
    | some i =>
      obtain ⟨u, hu, hsu⟩ := ih _ _ _ h
      exact ⟨_, hu, hsu.congr rfl rfl rfl rfl rfl rfl⟩
  | loop greed least most e ih => exact advances_rounds ih greed least most
  | look side negated e ih =>
    intro k s t h
    unfold run at h
    dsimp only at h
    split at h
    · exact ⟨_, h, State.Passes.refl.congr rfl rfl rfl rfl rfl rfl⟩
    · exact ⟨s, h, .refl⟩
    · cases h
  | atomic e ih => exact advances_once ih
  | backref i mode =>
    intro k s t h
    obtain ⟨text, -, h⟩ := Option.bind_eq_some_iff.mp h
    obtain ⟨u, hu, hk⟩ := Option.bind_eq_some_iff.mp h
    exact ⟨u, hk, passes_passText hu⟩
  | choice i yes no ihy ihn =>
    intro k s t h
    unfold run at h
    split at h
    · exact ihy _ _ _ h
    · exact ihn _ _ _ h

theorem findFrom_cons_of_some {e : Expr} {pos : Nat} {c : Char} {before rest : List Char} {t : State}
    (h : e.run some ⟨pos, before, c :: rest, [], []⟩ = some t) :
    e.findFrom pos before (c :: rest) = some ⟨[], t⟩ := by
  rw [Expr.findFrom, h]

theorem findFrom_cons_of_none {e : Expr} {pos : Nat} {c : Char} {before rest : List Char}
    (h : e.run some ⟨pos, before, c :: rest, [], []⟩ = none) :
    e.findFrom pos before (c :: rest) =
      (e.findFrom (pos + 1) (c :: before) rest).map fun f => ⟨c :: f.skipped, f.stop⟩ := by
  rw [Expr.findFrom, h]

/-- The text before a match, the match and the text after it make up the text. -/
theorem Expr.findFrom_span {e : Expr} {pos : Nat} {before text : List Char} {f : Found}
    (h : e.findFrom pos before text = some f) :
    ∃ matched, text = f.skipped ++ matched ++ f.stop.after := by
  induction text generalizing pos before f with
  | nil =>
    obtain ⟨t, ht, rfl⟩ := Option.map_eq_some_iff.mp h
    obtain ⟨matched, ha, -⟩ := passes_of_some e.advances ht
    exact ⟨matched, ha⟩
  | cons c rest ih =>
    unfold findFrom at h
    split at h
    · next t ht =>
      cases h
      obtain ⟨matched, ha, -⟩ := passes_of_some e.advances ht
      exact ⟨matched, ha⟩
    · obtain ⟨g, hg, rfl⟩ := Option.map_eq_some_iff.mp h
      obtain ⟨matched, hm⟩ := ih hg
      exact ⟨matched, by rw [hm]; rfl⟩

end IdentCase.Pattern
