import BatchScript.Cursor

/-!
# Commands to a cursor

The operations of a cursor as data, so that a sequence of them can be run one after the other. A
command that the cursor refuses leaves it as it was, and the next one goes on with it.

## Main results

* `length_run` — a run has one entry for each command.
-/

namespace BatchScript

/-- An operation of a cursor with its argument. -/
inductive Command
  | peek
  | read
  | matchLiteral (literal : String)
  | peekLiteral (literal : String)
  | save
  | accept
  | rollback
  | skipLinear
  | consumeWhile (keep : Char → Bool)
  | sliceFrom (start : Nat)

/-- What a command answers. -/
inductive Reply
  /-- A character, or none at the end of the text. -/
  | char (found : Option Char)
  /-- Whether a literal was there. -/
  | truth (value : Bool)
  /-- How many characters were passed over. -/
  | count (value : Nat)
  /-- A piece of the text. -/
  | text (value : String)
  /-- Nothing beyond that it was done. -/
  | done
deriving DecidableEq, Repr

/-- The answer to a command, with the position and the number of checkpoints after it. -/
structure Entry where
  reply : Except Misuse Reply
  position : Position
  depth : Nat

namespace Cursor

/-- Carries out a command. -/
def perform (c : Cursor) : Command → Except Misuse (Reply × Cursor)
  | .peek => .ok (.char c.peek, c)
  | .read => let (found, c) := c.read; .ok (.char found, c)
  | .matchLiteral literal => let (found, c) := c.matchLiteral literal; .ok (.truth found, c)
  | .peekLiteral literal => .ok (.truth (c.peekLiteral literal), c)
  | .save => .ok (.done, c.save)
  | .accept => c.accept.map (.done, ·)
  | .rollback => c.rollback.map (.done, ·)
  | .skipLinear => let (passed, c) := c.skipLinear; .ok (.count passed, c)
  | .consumeWhile keep => let (run, c) := c.consumeWhile keep; .ok (.text run, c)
  | .sliceFrom start => (c.sliceFrom start).map (.text ·, c)

/-- Carries out a command and enters the answer. A refused command changes nothing. -/
def enter (c : Cursor) (command : Command) : Entry × Cursor :=
  match c.perform command with
  | .ok (reply, next) => (⟨.ok reply, next.position, next.depth⟩, next)
  | .error misuse => (⟨.error misuse, c.position, c.depth⟩, c)

/-- Carries out commands in order, with an entry for each. -/
def run : Cursor → List Command → List Entry
  | _, [] => []
  | c, command :: commands =>
    let (entry, next) := c.enter command
    entry :: run next commands

@[simp] theorem length_run (c : Cursor) (commands : List Command) :
    (c.run commands).length = commands.length := by
  induction commands generalizing c with
  | nil => rfl
  | cons command commands ih => simp [run, ih]

end Cursor

end BatchScript
