/-!
# Powers of two and of ten

The two bases that numbers are written in. A number is below the power of two
that has one digit more than its logarithm.
-/

namespace TreeQuery

/-- A power of two. -/
def twoTo (k : Nat) : Nat :=
  Nat.pow 2 k

/-- A power of ten. -/
def tenTo (k : Nat) : Nat :=
  Nat.pow 10 k

theorem twoTo_add (j k : Nat) : twoTo (j + k) = twoTo j * twoTo k :=
  Nat.pow_add 2 j k

theorem lt_twoTo_log2_succ (n : Nat) : n < twoTo (n.log2 + 1) :=
  Nat.lt_log2_self

end TreeQuery
