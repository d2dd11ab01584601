import BatchScript.Options
import BatchScript.RepeatCount

/-!
# Batches

A batch is the text between two separators, with the count of the separator that closes it. Under
`Repetition.wrap` the text of a batch that is to run several times becomes a loop around it.

## Main results

* `toList_wrapRepeat` — the lines of the loop.
* `Batch.text_finish_of_delegate` — where repetition is delegated a batch holds its body as it
  stands.
-/

namespace BatchScript

/-! ### The repetition loop -/

/-- A line feed or a carriage return. -/
def isLineBreak (c : Char) : Bool :=
  c == '\n' || c == '\r'

theorem eq_of_isLineBreak {c : Char} (h : isLineBreak c = true) : c = '\n' ∨ c = '\r' := by
  simpa [isLineBreak] using h

/-- A text without the line breaks at its two ends. -/
def stripLineBreaks (text : List Char) : List Char :=
  ((text.dropWhile isLineBreak).reverse.dropWhile isLineBreak).reverse

/-- A loop that runs a text so many times, counting in a variable of the given name. The text
stands on lines of its own. -/
def wrapRepeat (body : String) (count : RepeatCount) (counter : String) : String :=
  "DECLARE " ++ counter ++ " INT = 0;\n" ++
    "WHILE " ++ counter ++ " < " ++ count.val.repr ++ "\n" ++
    "BEGIN\n" ++
    String.ofList (stripLineBreaks body.toList) ++ "\n" ++
    "SET " ++ counter ++ " = " ++ counter ++ " + 1;\n" ++
    "END"

/-- The lines of the loop. -/
theorem toList_wrapRepeat (body : String) (count : RepeatCount) (counter : String) :
    (wrapRepeat body count counter).toList =
      "DECLARE ".toList ++ counter.toList ++ " INT = 0;".toList ++ '\n' ::
        ("WHILE ".toList ++ counter.toList ++ " < ".toList ++ Nat.toDigits 10 count.val ++ '\n' ::
          ("BEGIN".toList ++ '\n' ::
            (stripLineBreaks body.toList ++ '\n' ::
              ("SET ".toList ++ counter.toList ++ " = ".toList ++ counter.toList ++
                " + 1;".toList ++ '\n' :: "END".toList)))) := by
  dsimp only [wrapRepeat]
  simp

/-! ### Batches -/

/-- One piece of a script to be run by itself. -/
structure Batch where
  /-- What is to be run. -/
  text : String
  /-- The count of the separator that closed the batch. -/
  repeatCount : RepeatCount
  /-- The line of its first character that is not blank. -/
  line : Nat
  /-- Whether the text is already the repetition loop. -/
  wrapped : Bool
deriving DecidableEq, Repr

namespace Batch

/-- The batch of a body, repeated as the options say. A body that is to run once is never put
into a loop. -/
def finish (o : Options) (body : String) (count : RepeatCount) (line : Nat) : Batch :=
  if 1 < count.val ∧ o.repetition = .wrap then
    { text := wrapRepeat body count o.counterVariable, repeatCount := count, line, wrapped := true }
  else
    { text := body, repeatCount := count, line, wrapped := false }

/-- How many times the text has to be run. -/
def executions (b : Batch) : Nat :=
  if b.wrapped then 1 else b.repeatCount.val

@[simp] theorem repeatCount_finish (o : Options) (body : String) (count : RepeatCount)
    (line : Nat) : (finish o body count line).repeatCount = count := by
  rw [finish]
  split <;> rfl

/-- Where repetition is delegated a batch holds its body as it stands. -/
theorem text_finish_of_delegate {o : Options} (h : o.repetition = .delegate) (body : String)
    (count : RepeatCount) (line : Nat) : (finish o body count line).text = body := by
  simp [finish, h]

@[simp] theorem line_finish (o : Options) (body : String) (count : RepeatCount) (line : Nat) :
    (finish o body count line).line = line := by
  rw [finish]
  split <;> rfl

end Batch

end BatchScript
