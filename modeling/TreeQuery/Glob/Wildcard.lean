/-!
# Names matched against texts with stars

A text with stars is cut at its `*` characters into *pieces*. A name fits the
text when it is the pieces in order, with any run of characters – possibly
none – in each gap (`Fits`). The first piece must therefore start the name,
the last one must end it, and the pieces between have to occur one after the
other in what is left.

Only the middle pieces leave a choice, and the leftmost occurrence is always
the best one: it leaves the longest rest for the pieces that follow.
`fits` decides by that rule, going over the name once, without backtracking.
-/

namespace TreeQuery.Wildcard

/-- The pieces of a text: what stands before, between and after its stars. -/
def pieces (text : List Char) : List (List Char) :=
  text.splitOn '*'

/-- **The meaning of a text with stars.** A name fits a list of pieces when it
is the pieces in order with an arbitrary text in each gap; a single piece is
fitted by itself alone. -/
inductive Fits : List (List Char) → List Char → Prop
  | last (p : List Char) : Fits [p] p
  | gap (p w : List Char) {ps : List (List Char)} {s : List Char}
      (rest : Fits ps s) : Fits (p :: ps) (p ++ w ++ s)

/-- What follows `p` in a text that starts with `p`. -/
def after? : List Char → List Char → Option (List Char)
  | [], s => some s
  | _ :: _, [] => none
  | c :: p, d :: s => if c = d then after? p s else none

/-- What follows the leftmost occurrence of `p`. -/
def afterFirst? (p : List Char) : List Char → Option (List Char)
  | [] => after? p []
  | d :: s =>
    match after? p (d :: s) with
    | some r => some r
    | none => afterFirst? p s

/-- Does `s` end in the pieces `p :: ps`, in order and with a gap before each?
Every piece but the last is taken at its leftmost occurrence; the last one has
to end the text. -/
def trails : List Char → List (List Char) → List Char → Bool
  | p, [], s => p.isSuffixOf s
  | p, q :: ps, s =>
    match afterFirst? p s with
    | some r => trails q ps r
    | none => false

/-- Does a name fit a list of pieces? -/
def fits : List (List Char) → List Char → Bool
  | [], _ => false
  | [p], s => p == s
  | p :: q :: ps, s =>
    match after? p s with
    | some r => trails q ps r
    | none => false

@[simp] theorem after?_nil (s : List Char) : after? [] s = some s := by
  cases s <;> rfl

/-- `after?` takes off exactly the text asked for. -/
theorem after?_eq_some_iff {p s r : List Char} : after? p s = some r ↔ s = p ++ r := by
  induction p generalizing s with
  | nil => simp [eq_comm]
  | cons c p ih =>
    cases s with
    | nil => simp [after?]
    | cons d s =>
      by_cases h : c = d
      · simp [after?, h, ih]
      · simp [after?, h, Ne.symm h]

end TreeQuery.Wildcard
