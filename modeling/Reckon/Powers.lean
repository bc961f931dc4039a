/-!
Powers of the two bases that numbers are written in.
-/

namespace Reckon

/-- A power of two. -/
def pow2 (k : Nat) : Nat := Nat.pow 2 k

/-- A power of ten. -/
def pow10 (k : Nat) : Nat := Nat.pow 10 k

theorem pow2_pos (k : Nat) : 0 < pow2 k := Nat.pow_pos (by decide)

theorem pow10_pos (k : Nat) : 0 < pow10 k := Nat.pow_pos (by decide)

end Reckon
