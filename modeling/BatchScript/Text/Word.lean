import BatchScript.Text.Alphanumeric

/-!
# Word characters

The characters that identifiers are made of. A keyword stands as a word of its own when no word
character touches it.

## Main results

* `isWord_of_isAlphanum` — ASCII letters and digits are word characters.
-/

namespace BatchScript

/-- A character that may stand inside an identifier. -/
def isWord (c : Char) : Bool :=
  isAlphanumeric c || c == '_' || c == '@' || c == '#' || c == '$'

/-- A character that makes a longer word of the keyword before it. ASCII digits do not: they are
read as a count. -/
def continuesKeyword (c : Char) : Bool :=
  isWord c && !c.isDigit

theorem isWord_of_isAlphanum {c : Char} (h : c.isAlphanum = true) : isWord c = true := by
  simp [isWord, isAlphanumeric_of_isAlphanum h]

end BatchScript
