import TreeQuery.Power

/-!
# How long a walk can be

In a tree whose directories nest at most `levels` deep below the root and have
at most `width` entries each, a walk takes boundedly many steps, whatever its
pattern. Each visit to a directory is one step that loads it, one for each of
its entries, one that drops it, and the visits to what is below.

`visitBound` counts these steps. The count grows with the power `levels`, and
so `walkBound`, which walks are run with, is a power of two above it: it is
written down at once, however many levels there are.
-/

namespace TreeQuery

/-- The steps that a visit to a directory takes at most. -/
def visitBound (width : Nat) : (levels : Nat) → Nat
  | 0 => width + 2
  | levels + 1 => 2 + width * (1 + visitBound width levels)

/-- As many steps as a walk never takes. -/
def walkBound (width levels : Nat) : Nat :=
  twoTo (((width + 3).log2 + 1) * (levels + 1))

/-- The turns that the driver of a selection takes at most for `steps` steps:
each step makes at most `width + 1` calls, and four turns go with it. One more
turn ends the driver. -/
def turnBound (width steps : Nat) : Nat :=
  steps * (width + 5) + 1

/-- A walk is one visit and the step that ends it, and the bound leaves room for another
one. -/
theorem visitBound_add_one_lt_walkBound (width levels : Nat) :
    visitBound width levels + 1 < walkBound width levels := by
  have wide := lt_twoTo_log2_succ (width + 3)
  induction levels with
  | zero =>
    simp only [visitBound, walkBound, Nat.zero_add, Nat.mul_one]
    omega
  | succ levels ih =>
    have step : walkBound width (levels + 1) =
        walkBound width levels * twoTo ((width + 3).log2 + 1) := by
      simp only [walkBound, ← twoTo_add, Nat.mul_add_one]
    rw [step]
    calc visitBound width (levels + 1) + 1
        = 3 + width * (1 + visitBound width levels) := by rw [visitBound]; omega
      _ < walkBound width levels * 3 + width * walkBound width levels := by
          have within : 1 + visitBound width levels ≤ walkBound width levels := by omega
          have := Nat.mul_le_mul_left width within
          omega
      _ = walkBound width levels * (width + 3) := by
          rw [Nat.mul_comm width, ← Nat.mul_add, Nat.add_comm]
      _ ≤ walkBound width levels * twoTo ((width + 3).log2 + 1) :=
          Nat.mul_le_mul_left _ (Nat.le_of_lt wide)

theorem visitBound_lt_walkBound (width levels : Nat) :
    visitBound width levels < walkBound width levels :=
  Nat.lt_of_succ_lt (visitBound_add_one_lt_walkBound width levels)

/-- With steps to spare, there are turns for their calls, four for each step, and three more. -/
theorem add_three_le_turnBound {width steps n calls : Nat} (h : n < steps)
    (hcalls : calls ≤ n * (width + 1)) : 4 * n + calls + 3 ≤ turnBound width steps := by
  calc 4 * n + calls + 3
      ≤ n * (width + 1 + 4) + 3 := by rw [Nat.mul_add]; omega
    _ ≤ (n + 1) * (width + 1 + 4) + 1 := by rw [Nat.succ_mul]; omega
    _ ≤ turnBound width steps := Nat.succ_le_succ (Nat.mul_le_mul_right _ h)

end TreeQuery
