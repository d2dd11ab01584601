/-!
# Comments

How far a comment reaches. A line comment runs from two dashes to the end of the line, which it
leaves standing. A block comment runs from its opener to the closer that belongs to it, other
block comments within it included.

## Main results

* `two_le_of_line?`, `line?_le`, `four_le_of_block?`, `block?_le` — a comment is at least as long
  as its delimiters and no longer than the text.
-/

namespace BatchScript.Comment

/-! ### Line comments -/

/-- The length of the line comment that a text begins with. -/
def line? : List Char → Option Nat
  | '-' :: '-' :: rest => some (2 + (rest.takeWhile (· != '\n')).length)
  | _ => none

theorem two_le_of_line? {text : List Char} {n : Nat} (h : line? text = some n) : 2 ≤ n := by
  rw [line?.eq_def] at h
  split at h <;> simp at h
  omega

theorem line?_le {text : List Char} {n : Nat} (h : line? text = some n) : n ≤ text.length := by
  rw [line?.eq_def] at h
  split at h <;> simp at h
  rename_i rest
  have := (List.takeWhile_prefix (p := (· != '\n')) (l := rest)).length_le
  simp
  omega

/-! ### Block comments -/

/-- What becomes of a block comment. -/
inductive Extent
  /-- It is closed, and is so long with its delimiters. -/
  | closed (length : Nat)
  /-- The text ends, and so many openers are not closed. -/
  | unclosed (depth : Nat)
deriving DecidableEq, Repr

/-- Follows a block comment behind its opener, with so many comments around it and so many
characters passed. -/
def blockFrom : Nat → Nat → List Char → Extent
  | outer, passed, '/' :: '*' :: rest => blockFrom (outer + 1) (passed + 2) rest
  | 0, passed, '*' :: '/' :: _ => .closed (passed + 2)
  | outer + 1, passed, '*' :: '/' :: rest => blockFrom outer (passed + 2) rest
  | outer, passed, _ :: rest => blockFrom outer (passed + 1) rest
  | outer, _, [] => .unclosed (outer + 1)

/-- How far the block comment reaches that a text begins with. -/
def block? : List Char → Option Extent
  | '/' :: '*' :: rest => some (blockFrom 0 2 rest)
  | _ => none

/-- The closer of a comment stands behind what was passed and within the text. -/
theorem bounds_of_blockFrom {outer passed n : Nat} {text : List Char}
    (h : blockFrom outer passed text = .closed n) :
    passed + 2 ≤ n ∧ n ≤ passed + text.length := by
  fun_induction blockFrom outer passed text with
  | case1 outer passed rest ih =>
    have := ih h
    simp
    omega
  | case2 passed rest =>
    cases h
    simp
  | case3 passed outer rest ih =>
    have := ih h
    simp
    omega
  | case4 outer passed c rest _ _ _ ih =>
    have := ih h
    simp
    omega
  | case5 outer passed => cases h

theorem four_le_of_block? {text : List Char} {n : Nat} (h : block? text = some (.closed n)) :
    4 ≤ n := by
  rw [block?.eq_def] at h
  split at h
  · have := bounds_of_blockFrom (Option.some.inj h)
    omega
  · cases h

theorem block?_le {text : List Char} {n : Nat} (h : block? text = some (.closed n)) :
    n ≤ text.length := by
  rw [block?.eq_def] at h
  split at h
  · have := bounds_of_blockFrom (Option.some.inj h)
    simp
    omega
  · cases h

end BatchScript.Comment
