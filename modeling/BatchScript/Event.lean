import BatchScript.Datum
import BatchScript.RepeatCount

/-!
# The log of a split

What a split reports while it runs, in order: that a script was taken up, each separator and each
batch as it is found, counts that cannot be used, constructs found open at the end of the script,
and at last that the script is split.
-/

namespace BatchScript

/-- One entry of the log. -/
inductive Event
  /-- A script of so many bytes is taken up. -/
  | opened (bytes : Nat)
  /-- Digits behind a separator that write no count, so that it is none. -/
  | unusableCount (digits : String)
  /-- A separator statement was passed over; the line is the one behind it. -/
  | separator (line : Nat) (count : RepeatCount)
  /-- A batch is handed out. -/
  | batch (line : Nat) (count : RepeatCount)
  /-- A block comment, opened at the given position, is still so deep when the script ends. -/
  | unclosedComment (line column depth : Nat)
  /-- Quoted text, opened at the given position, is not closed when the script ends. -/
  | unclosedQuote (line column : Nat) (opener : Char)
  /-- The script is split into so many batches. -/
  | finished (batches : Nat)
deriving DecidableEq, Repr

/-- How much detail an entry of the log belongs to. -/
inductive Level
  /-- A step on the way. -/
  | trace
  /-- What concerns the script as a whole. -/
  | debug
deriving DecidableEq, Repr

/-- The name of a level. -/
def Level.name : Level → String
  | .trace => "TRACE"
  | .debug => "DEBUG"

namespace Event

/-- The level of an entry. -/
def level : Event → Level
  | .unusableCount _ | .separator _ _ | .batch _ _ => .trace
  | .opened _ | .unclosedComment _ _ _ | .unclosedQuote _ _ _ | .finished _ => .debug

/-- The heading of an entry: the span that it opens, or the message that it brings. -/
def heading : Event → String × String
  | .opened _ => ("span", "split")
  | .unusableCount _ => ("message", "ignoring separator with unusable count")
  | .separator _ _ => ("message", "separator")
  | .batch _ _ => ("message", "emit batch")
  | .unclosedComment _ _ _ => ("message", "unterminated block comment")
  | .unclosedQuote _ _ _ => ("message", "unterminated quoted text")
  | .finished _ => ("message", "split script")

/-- What an entry says beyond its heading. -/
def fields : Event → List (String × Datum)
  | .opened bytes => [("len", .integer bytes)]
  | .unusableCount digits => [("digits", .text digits)]
  | .separator line count => [("line", .integer line), ("count", .integer count.val)]
  | .batch line count => [("line", .integer line), ("repeat", .integer count.val)]
  | .unclosedComment line column depth =>
    [("line", .integer line), ("column", .integer column), ("depth", .integer depth)]
  | .unclosedQuote line column opener =>
    [("line", .integer line), ("column", .integer column), ("open", .text opener.toString)]
  | .finished batches => [("count", .integer batches)]

/-- An entry as a record. -/
def toDatum (e : Event) : Datum :=
  .record
    [("level", .text e.level.name),
      (e.heading.1, .text e.heading.2),
      ("fields", .record e.fields)]

end Event

end BatchScript
