import BatchScript.Misuse
import BatchScript.Position
import BatchScript.Text.AsciiCase
import BatchScript.Text.Blank

/-!
# A cursor with checkpoints

A `Place` is a spot between two characters of a text: what lies behind it, what lies ahead, and
the position reached. A `Cursor` stands at a place and holds a stack of places to which a reading
that comes to nothing can return. It moves forward by skipping characters, and back only to a
checkpoint.

## Main results

* `skip_skip` — skipping twice is skipping once by the sum.
* `ahead_skip`, `saved_skip`, `position_skip` — what skipping does to each part of a cursor.
* `accept_save`, `rollback_save` — a checkpoint just taken is dropped, or returned to, exactly.
* `sliceFrom_skip` — the slice from where the cursor stood holds what it skipped.
-/

namespace BatchScript

/-! ### Places -/

/-- A spot between two characters of a text. -/
structure Place where
  /-- The text before it, nearest character first. -/
  behind : List Char
  /-- The text after it. -/
  ahead : List Char
  /-- The position reached. -/
  position : Position
deriving DecidableEq, Repr

namespace Place

/-- The place before a text. -/
def start (text : List Char) : Place :=
  { behind := [], ahead := text, position := {} }

/-- Passes over so many characters, or over all that are left if they are fewer. -/
def skip : Nat → Place → Place
  | 0, p => p
  | n + 1, p =>
    match p.ahead with
    | [] => p
    | c :: rest => skip n ⟨c :: p.behind, rest, p.position.advance c⟩

/-- Skipping moves characters from ahead to behind and the position over them. -/
theorem skip_eq (n : Nat) (p : Place) :
    p.skip n =
      { behind := (p.ahead.take n).reverse ++ p.behind,
        ahead := p.ahead.drop n,
        position := p.position.after (p.ahead.take n) } := by
  induction n generalizing p with
  | zero => simp [skip]
  | succ n ih =>
    obtain ⟨behind, ahead, position⟩ := p
    cases ahead with
    | nil => simp [skip]
    | cons c rest => simp [skip, ih]

@[simp] theorem skip_zero (p : Place) : p.skip 0 = p := rfl

@[simp] theorem skip_skip (m n : Nat) (p : Place) : (p.skip m).skip n = p.skip (m + n) := by
  simp [skip_eq, List.take_add, ← Position.after_append]

/-- The text made of the last characters behind a place that together have so many bytes, put in
front of a given text. There is none if the count ends within a character or before the text. -/
def lastBytes? : List Char → Nat → List Char → Option (List Char)
  | _, 0, text => some text
  | [], _ + 1, _ => none
  | c :: behind, bytes + 1, text =>
    if c.utf8Size ≤ bytes + 1 then lastBytes? behind (bytes + 1 - c.utf8Size) (c :: text) else none

/-- A text takes as many bytes as the text reversed. -/
theorem utf8ByteSize_reverse (text : List Char) :
    (String.ofList text.reverse).utf8ByteSize = (String.ofList text).utf8ByteSize := by
  induction text with
  | nil => rfl
  | cons c text ih => simp [String.ofList_append, String.ofList_cons, ih, Nat.add_comm]

/-- Walking back over the bytes of a text just passed finds that text. -/
theorem lastBytes?_append (passed behind text : List Char) :
    lastBytes? (passed ++ behind) (String.ofList passed).utf8ByteSize text =
      some (passed.reverse ++ text) := by
  induction passed generalizing text with
  | nil => cases behind <;> simp [lastBytes?]
  | cons c passed ih =>
    have hc := c.utf8Size_pos
    obtain ⟨n, hn⟩ : ∃ n, c.utf8Size + (String.ofList passed).utf8ByteSize = n + 1 :=
      ⟨_, (Nat.succ_pred_eq_of_pos (by omega)).symm⟩
    have hle : c.utf8Size ≤ n + 1 := by omega
    have hsub : n + 1 - c.utf8Size = (String.ofList passed).utf8ByteSize := by omega
    simp [String.ofList_cons, hn, lastBytes?, hle, hsub, ih]

end Place

/-! ### Cursors -/

/-- A reader's stand in a text, with the places it may return to, innermost first. -/
structure Cursor where
  /-- Where it stands. -/
  here : Place
  /-- The checkpoints it holds. -/
  saved : List Place := []
deriving DecidableEq, Repr

namespace Cursor

/-- The cursor before a text. -/
def ofString (text : String) : Cursor :=
  { here := .start text.toList }

/-- The text not yet read. -/
def ahead (c : Cursor) : List Char :=
  c.here.ahead

/-- The position of the next unread character. -/
def position (c : Cursor) : Position :=
  c.here.position

/-- How many checkpoints are held. -/
def depth (c : Cursor) : Nat :=
  c.saved.length

/-- The next character; none at the end of the text. -/
def peek (c : Cursor) : Option Char :=
  c.ahead.head?

/-- Passes over so many characters, or over all that are left if they are fewer. -/
def skip (c : Cursor) (n : Nat) : Cursor :=
  { c with here := c.here.skip n }

/-- Passes over one character and gives it; none at the end of the text. -/
def read (c : Cursor) : Option Char × Cursor :=
  (c.peek, c.skip 1)

/-- Whether the text ahead begins with a literal, ignoring ASCII case. -/
def peekLiteral (c : Cursor) (literal : String) : Bool :=
  AsciiCase.begins literal.toList c.ahead

/-- Passes over a literal if the text ahead begins with it, ignoring ASCII case, and otherwise
over nothing. -/
def matchLiteral (c : Cursor) (literal : String) : Bool × Cursor :=
  if c.peekLiteral literal then (true, c.skip literal.toList.length) else (false, c)

/-- Passes over the longest run of characters of a class and gives it. -/
def consumeWhile (c : Cursor) (keep : Char → Bool) : String × Cursor :=
  let run := c.ahead.takeWhile keep
  (String.ofList run, c.skip run.length)

/-- Passes over spaces and tabs and counts them. -/
def skipLinear (c : Cursor) : Nat × Cursor :=
  let run := c.ahead.takeWhile isLinear
  (run.length, c.skip run.length)

/-- Takes a checkpoint at the place where the cursor stands. -/
def save (c : Cursor) : Cursor :=
  { c with saved := c.here :: c.saved }

/-- Drops the innermost checkpoint. -/
def accept (c : Cursor) : Except Misuse Cursor :=
  match c.saved with
  | [] => .error .acceptWithoutCheckpoint
  | _ :: saved => .ok { c with saved }

/-- Returns to the innermost checkpoint and drops it. -/
def rollback (c : Cursor) : Except Misuse Cursor :=
  match c.saved with
  | [] => .error .rollbackWithoutCheckpoint
  | place :: saved => .ok { here := place, saved }

/-- The text from so many bytes into the script up to the cursor. -/
def sliceFrom (c : Cursor) (start : Nat) : Except Misuse String :=
  if start ≤ c.position.offset then
    match Place.lastBytes? c.here.behind (c.position.offset - start) [] with
    | some text => .ok (String.ofList text)
    | none => .error .sliceOutOfBounds
  else
    .error .sliceOutOfBounds

/-! ### What the operations do -/

@[simp] theorem ahead_ofString (text : String) : (ofString text).ahead = text.toList := rfl

@[simp] theorem skip_zero (c : Cursor) : c.skip 0 = c := rfl

@[simp] theorem skip_skip (c : Cursor) (m n : Nat) : (c.skip m).skip n = c.skip (m + n) := by
  simp [skip]

@[simp] theorem ahead_skip (c : Cursor) (n : Nat) : (c.skip n).ahead = c.ahead.drop n := by
  simp [skip, ahead, Place.skip_eq]

@[simp] theorem saved_skip (c : Cursor) (n : Nat) : (c.skip n).saved = c.saved := rfl

@[simp] theorem position_skip (c : Cursor) (n : Nat) :
    (c.skip n).position = c.position.after (c.ahead.take n) := by
  simp [skip, ahead, position, Place.skip_eq]

@[simp] theorem ahead_save (c : Cursor) : c.save.ahead = c.ahead := rfl

@[simp] theorem position_save (c : Cursor) : c.save.position = c.position := rfl

/-- A checkpoint dropped leaves the cursor where it is. -/
@[simp] theorem accept_save (c : Cursor) (n : Nat) : (c.save.skip n).accept = .ok (c.skip n) := rfl

/-- A checkpoint returned to undoes whatever was passed since. -/
@[simp] theorem rollback_save (c : Cursor) (n : Nat) : (c.save.skip n).rollback = .ok c := rfl

/-- The slice from where the cursor stood holds the characters it skipped. -/
theorem sliceFrom_skip (c : Cursor) (n : Nat) :
    (c.skip n).sliceFrom c.position.offset = .ok (String.ofList (c.ahead.take n)) := by
  have hback := Place.lastBytes?_append (c.ahead.take n).reverse c.here.behind []
  simp only [Place.utf8ByteSize_reverse, List.reverse_reverse, List.append_nil] at hback
  have hbehind : (c.skip n).here.behind = (c.ahead.take n).reverse ++ c.here.behind := by
    simp [skip, ahead, Place.skip_eq]
  have hoffset := Position.offset_after c.position (c.ahead.take n)
  simp only [sliceFrom, position_skip, hbehind, hoffset, Nat.le_add_right, if_true,
    Nat.add_sub_cancel_left, hback]

end Cursor

end BatchScript
