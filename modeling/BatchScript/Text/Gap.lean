import BatchScript.Text.Blank
import BatchScript.Text.Comment

/-!
# Gaps

A gap is what may stand between the parts of a separator statement: spaces, tabs and complete
block comments in any number and order. It is always taken as long as it can be.

## Main results

* `lengthFrom_add` — how far a gap reaches does not depend on what was passed before it.
* `length_le` — a gap lies within the text.
* `block?_drop_length` — what follows a gap is no complete block comment.
* `isLinear_drop_length` — and no space or tab.
-/

namespace BatchScript.Gap

/-- Follows a gap to its end, with so many characters passed. -/
def lengthFrom (passed : Nat) (text : List Char) : Nat :=
  match text with
  | [] => passed
  | c :: rest =>
    if isLinear c then
      lengthFrom (passed + 1) rest
    else
      match Comment.block? (c :: rest) with
      | some (.closed n) => lengthFrom (passed + n) (rest.drop (n - 1))
      | _ => passed
termination_by text.length
decreasing_by all_goals (simp only [List.length_cons, List.length_drop]; omega)

/-- The length of the gap that a text begins with. -/
def length (text : List Char) : Nat :=
  lengthFrom 0 text

/-- Characters passed before only add to the length. -/
theorem lengthFrom_add (passed extra : Nat) (text : List Char) :
    lengthFrom (passed + extra) text = lengthFrom passed text + extra := by
  fun_induction lengthFrom passed text with
  | case1 passed => rw [lengthFrom]
  | case2 passed c rest hc ih => rw [lengthFrom, if_pos hc, Nat.add_right_comm, ih]
  | case3 passed c rest hc n hn ih =>
    rw [lengthFrom, if_neg hc, hn]
    simp only
    rw [Nat.add_right_comm, ih]
  | case4 passed c rest hc h =>
    rw [lengthFrom, if_neg hc]
    split
    · rename_i n hn
      exact absurd hn (h n)
    · rfl

@[simp] theorem length_nil : length [] = 0 := by
  rw [length, lengthFrom]

theorem length_cons_of_isLinear {c : Char} {rest : List Char} (hc : isLinear c = true) :
    length (c :: rest) = length rest + 1 := by
  rw [length, lengthFrom, if_pos hc, lengthFrom_add]
  rfl

theorem length_of_closed {text : List Char} {n : Nat}
    (h : Comment.block? text = some (.closed n)) : length text = n + length (text.drop n) := by
  have hn := Comment.four_le_of_block? h
  cases text with
  | nil => cases h
  | cons c rest =>
    have hc : ¬ isLinear c = true := by
      intro hl
      rcases eq_of_isLinear hl with rfl | rfl <;> simp [Comment.block?] at h
    obtain ⟨m, rfl⟩ : ∃ m, n = m + 1 := ⟨n - 1, by omega⟩
    rw [length, lengthFrom, if_neg hc, h]
    simp only [Nat.add_sub_cancel, List.drop_succ_cons]
    rw [lengthFrom_add]
    exact Nat.add_comm ..

theorem length_eq_zero {c : Char} {rest : List Char} (hc : isLinear c = false)
    (h : ∀ n, Comment.block? (c :: rest) ≠ some (.closed n)) : length (c :: rest) = 0 := by
  rw [length, lengthFrom, if_neg (by simp [hc])]
  split
  · rename_i n hn
    exact absurd hn (h n)
  · rfl

/-- A gap is empty, or begins with a space or a tab, or begins with a block comment. -/
theorem induction {motive : List Char → Prop} (nil : motive [])
    (linear : ∀ c rest, isLinear c = true → motive rest → motive (c :: rest))
    (comment : ∀ text n, Comment.block? text = some (.closed n) → motive (text.drop n) →
      motive text)
    (other : ∀ c rest, isLinear c = false →
      (∀ n, Comment.block? (c :: rest) ≠ some (.closed n)) → motive (c :: rest))
    (text : List Char) : motive text := by
  suffices h : ∀ k, ∀ text : List Char, text.length = k → motive text from h _ text rfl
  intro k
  induction k using Nat.strongRecOn with
  | ind k ih =>
    rintro (_ | ⟨c, rest⟩) hk
    · exact nil
    · by_cases hc : isLinear c = true
      · exact linear c rest hc (ih rest.length (by simp at hk; omega) rest rfl)
      · cases hb : Comment.block? (c :: rest) with
        | none => exact other c rest (by simpa using hc) (by simp [hb])
        | some extent =>
          cases extent with
          | unclosed depth => exact other c rest (by simpa using hc) (by simp [hb])
          | closed n =>
            have hn := Comment.four_le_of_block? hb
            refine comment _ n hb (ih _ ?_ _ rfl)
            simp at hk ⊢
            omega

/-- A gap lies within the text. -/
theorem length_le (text : List Char) : length text ≤ text.length := by
  induction text using Gap.induction with
  | nil => simp
  | linear c rest hc ih =>
    rw [length_cons_of_isLinear hc]
    simpa using ih
  | comment text n h ih =>
    have := Comment.block?_le h
    rw [length_of_closed h]
    simp at ih
    omega
  | other c rest hc h => simp [length_eq_zero hc h]

/-- What follows a gap is no complete block comment. -/
theorem block?_drop_length (text : List Char) (n : Nat) :
    Comment.block? (text.drop (length text)) ≠ some (.closed n) := by
  induction text using Gap.induction with
  | nil => simp [Comment.block?]
  | linear c rest hc ih =>
    rw [length_cons_of_isLinear hc]
    exact ih
  | comment text m h ih =>
    rw [length_of_closed h, ← List.drop_drop]
    exact ih
  | other c rest hc h =>
    rw [length_eq_zero hc h]
    exact h n

/-- What follows a gap begins with no space or tab. -/
theorem isLinear_drop_length {text : List Char} {c : Char} {rest : List Char}
    (h : text.drop (length text) = c :: rest) : isLinear c = false := by
  induction text using Gap.induction with
  | nil => simp at h
  | linear d text hd ih =>
    rw [length_cons_of_isLinear hd] at h
    exact ih h
  | comment text m hm ih =>
    rw [length_of_closed hm, ← List.drop_drop] at h
    exact ih h
  | other d text hd hb =>
    rw [length_eq_zero hd hb] at h
    cases h
    exact hd

end BatchScript.Gap
