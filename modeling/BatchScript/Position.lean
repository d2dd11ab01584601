/-!
# Positions in a script

A position is where the next unread character stands: the number of bytes before it in UTF-8, its
line and its column, the last two counted in characters from one. A line ends at a line feed and
at no other character.

## Main results

* `after_append` — moving over two texts one after the other is moving over their concatenation.
* `offset_after` — moving over a text adds its bytes to the offset.
-/

namespace BatchScript

/-- Where the next unread character of a script stands. -/
structure Position where
  /-- Bytes of UTF-8 before it. -/
  offset : Nat := 0
  /-- Its line, from one. -/
  line : Nat := 1
  /-- Its column, from one, in characters. -/
  column : Nat := 1
deriving DecidableEq, Repr, Inhabited

namespace Position

/-- The position behind a character that stands at a given one. -/
def advance (p : Position) (c : Char) : Position :=
  if c = '\n' then
    { offset := p.offset + c.utf8Size, line := p.line + 1, column := 1 }
  else
    { offset := p.offset + c.utf8Size, line := p.line, column := p.column + 1 }

@[simp] theorem offset_advance (p : Position) (c : Char) :
    (p.advance c).offset = p.offset + c.utf8Size := by
  rw [advance]
  split <;> rfl

/-- The position behind a text that begins at a given one. -/
def after (p : Position) (text : List Char) : Position :=
  text.foldl advance p

@[simp] theorem after_nil (p : Position) : p.after [] = p := rfl

@[simp] theorem after_cons (p : Position) (c : Char) (text : List Char) :
    p.after (c :: text) = (p.advance c).after text := rfl

@[simp] theorem after_append (p : Position) (s t : List Char) :
    p.after (s ++ t) = (p.after s).after t := by
  simp [after]

/-- The offset grows by the bytes of the text. -/
theorem offset_after (p : Position) (text : List Char) :
    (p.after text).offset = p.offset + (String.ofList text).utf8ByteSize := by
  induction text generalizing p with
  | nil => simp
  | cons c text ih => simp [ih, String.ofList_cons, Nat.add_assoc]

end Position

end BatchScript
