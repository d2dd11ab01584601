/-!
# Quoted text

How far quoted text reaches. It runs from its opening delimiter to the next closing one; a closing
delimiter written twice stands for itself and does not end it.

## Main results

* `bodyFrom_add` — how far quoted text reaches does not depend on what was passed before it.
* `bounds_of_body?` — its end lies within the text.
-/

namespace BatchScript.Quoted

/-- Follows quoted text behind its opener up to and over the delimiter that ends it, with so many
characters passed. There is no end if the text ends first. -/
def bodyFrom (close : Char) : Nat → List Char → Option Nat
  | _, [] => none
  | passed, [c] => if c = close then some (passed + 1) else none
  | passed, c :: d :: rest =>
    if c = close then
      if d = close then bodyFrom close (passed + 2) rest else some (passed + 1)
    else
      bodyFrom close (passed + 1) (d :: rest)

/-- The length of quoted text behind its opener, the delimiter that ends it included. -/
def body? (close : Char) (text : List Char) : Option Nat :=
  bodyFrom close 0 text

/-- Characters passed before only add to the length. -/
theorem bodyFrom_add (close : Char) (passed extra : Nat) (text : List Char) :
    bodyFrom close (passed + extra) text = (bodyFrom close passed text).map (· + extra) := by
  fun_induction bodyFrom close passed text with
  | case1 => rfl
  | case2 => simp [bodyFrom, Nat.add_right_comm]
  | case3 _ _ h => simp [bodyFrom, h]
  | case4 passed rest ih => rw [bodyFrom, if_pos rfl, if_pos rfl, Nat.add_right_comm, ih]
  | case5 _ _ _ h => simp [bodyFrom, h, Nat.add_right_comm]
  | case6 passed c d rest h ih => rw [bodyFrom, if_neg h, Nat.add_right_comm, ih]

/-- The end of quoted text lies behind what was passed and within the text. -/
theorem bounds_of_bodyFrom {close : Char} {passed n : Nat} {text : List Char}
    (h : bodyFrom close passed text = some n) : passed + 1 ≤ n ∧ n ≤ passed + text.length := by
  fun_induction bodyFrom close passed text with
  | case1 => cases h
  | case2 =>
    cases h
    simp
  | case3 => cases h
  | case4 passed rest ih =>
    have := ih h
    simp
    omega
  | case5 =>
    cases h
    simp
  | case6 passed c d rest _ ih =>
    have := ih h
    simp at this ⊢
    omega

theorem bounds_of_body? {close : Char} {n : Nat} {text : List Char}
    (h : body? close text = some n) : 1 ≤ n ∧ n ≤ text.length := by
  have := bounds_of_bodyFrom h
  omega

end BatchScript.Quoted
