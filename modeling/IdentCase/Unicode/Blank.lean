import IdentCase.Unicode.Interval

/-! White space: separators and the controls that act as white space. -/
namespace IdentCase.Unicode

/-- Ends of the intervals of white space. -/
def blankBounds : List Nat := [
  9, 14, 28, 33, 133, 134, 160, 161, 5760, 5761, 8192, 8203, 8232, 8234, 8239, 8240, 8287, 8288,
  12288, 12289]

def isBlank (c : Nat) : Bool := within blankBounds c

end IdentCase.Unicode
