/-!
# Blank characters

The characters with the Unicode property White_Space. A text made only of them holds no
statement. The narrower class of spaces and tabs never leaves a line.

## Main results

* `isBlank_of_isLinear` — spaces and tabs are blank.
-/

namespace BatchScript

/-- A character with the Unicode property White_Space. -/
def isBlank (c : Char) : Bool :=
  let n := c.toNat
  (0x09 ≤ n && n ≤ 0x0D) || n == 0x20 || n == 0x85 || n == 0xA0 || n == 0x1680 ||
    (0x2000 ≤ n && n ≤ 0x200A) || n == 0x2028 || n == 0x2029 || n == 0x202F || n == 0x205F ||
    n == 0x3000

/-- A space or a tab: a blank that stays on its line. -/
def isLinear (c : Char) : Bool :=
  c == ' ' || c == '\t'

theorem eq_of_isLinear {c : Char} (h : isLinear c = true) : c = ' ' ∨ c = '\t' := by
  simpa [isLinear] using h

theorem isBlank_of_isLinear {c : Char} (h : isLinear c = true) : isBlank c = true := by
  rcases eq_of_isLinear h with rfl | rfl <;> decide

/-- Whether every character of a text is blank. -/
def allBlank (text : String) : Bool :=
  text.toList.all isBlank

@[simp] theorem allBlank_empty : allBlank "" = true := rfl

@[simp] theorem allBlank_append (s t : String) :
    allBlank (s ++ t) = (allBlank s && allBlank t) := by
  simp [allBlank]

end BatchScript
