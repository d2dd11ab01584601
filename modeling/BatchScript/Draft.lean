import BatchScript.Batch
import BatchScript.Text.Blank

/-!
# Drafts

The batch being put together: its text so far, and the line of its first character that is not
blank. A draft of blanks alone is no batch.

Text is added by `Draft.push`, and a line is made known by `Draft.mark`. `Draft.add` does both at
once, telling from the text alone whether there is a line to be made known.

## Main results

* `add_of_allBlank`, `add_of_not_allBlank` — adding blanks is pushing them, and adding anything else
  is marking its line before.
* `weight_of_finish?` — a draft that makes a batch weighs one.
-/

namespace BatchScript

/-- A batch being put together. -/
structure Draft where
  /-- The text so far. -/
  text : String := ""
  /-- The line of its first character that is not blank, once there is one. -/
  line : Option Nat := none
deriving DecidableEq, Repr

namespace Draft

/-- Makes the line known, unless one is. -/
def mark (d : Draft) (line : Nat) : Draft :=
  { d with line := d.line <|> some line }

/-- Adds a piece of text, and nothing else. -/
def push (d : Draft) (piece : String) : Draft :=
  { d with text := d.text ++ piece }

/-- Adds a piece of text. Its first character that is not blank, if it has one, stands on the given
line. -/
def add (d : Draft) (line : Nat) (piece : String) : Draft :=
  { text := d.text ++ piece,
    line := d.line <|> if allBlank piece then none else some line }

/-- The batch that a draft makes, closed with the given count. Blanks alone make none, and their
count is lost. -/
def finish? (d : Draft) (o : Options) (count : RepeatCount) : Option Batch :=
  if allBlank d.text then none else some (.finish o d.text count (d.line.getD 1))

@[simp] theorem text_add (d : Draft) (line : Nat) (piece : String) :
    (d.add line piece).text = d.text ++ piece := rfl

/-- Blanks are pushed, and make no line known. -/
theorem add_of_allBlank (d : Draft) (line : Nat) {piece : String} (h : allBlank piece = true) :
    d.add line piece = d.push piece := by
  cases hd : d.line <;> simp [add, push, h, hd]

/-- Anything else makes its line known. -/
theorem add_of_not_allBlank (d : Draft) (line : Nat) {piece : String}
    (h : allBlank piece = false) : d.add line piece = (d.mark line).push piece := by
  simp [add, mark, push, h]

/-- One if the draft would make a batch, and zero if not. -/
def weight (d : Draft) : Nat :=
  if allBlank d.text then 0 else 1

theorem weight_le_one (d : Draft) : d.weight ≤ 1 := by
  rw [weight]
  split <;> omega

@[simp] theorem weight_empty : weight {} = 0 := rfl

theorem weight_of_finish? {d : Draft} {o : Options} {count : RepeatCount} {b : Batch}
    (h : d.finish? o count = some b) : d.weight = 1 := by
  rw [finish?] at h
  split at h
  · cases h
  · rename_i hb
    simp [weight, hb]

end Draft

end BatchScript
