/-! Sets of code points as ascending end points of half-open intervals. -/
namespace IdentCase.Unicode

/-- Whether `c` lies in one of the intervals `[lo, hi)` listed in ascending order. -/
def within : List Nat → Nat → Bool
  | lo :: hi :: rest, c => if c < lo then false else if c < hi then true else within rest c
  | _, _ => false

end IdentCase.Unicode
