import BatchScript.Batch
import BatchScript.Datum

/-!
# Batches as data

A batch is read from a record that has all four of its fields, or from a list of exactly their
four values.

## Main results

* `Batch.ofDatum?_toDatum` — what is written reads back, provided the line fits sixty-four bits.
-/

namespace BatchScript.Batch

/-- Reads a repeat count. -/
def repeatCount? (d : Datum) : Option RepeatCount :=
  d.nat?.bind RepeatCount.ofNat?

/-- Reads a line number, which has to fit sixty-four bits. -/
def line? (d : Datum) : Option Nat :=
  d.nat?.filter (· < UInt64.size)

/-- Writes a batch as a record. -/
def toDatum (b : Batch) : Datum :=
  .record
    [("text", .text b.text),
      ("repeat_count", .integer b.repeatCount.val),
      ("line", .integer b.line),
      ("wrapped", .truth b.wrapped)]

/-- Reads a batch from the fields of a record. -/
def ofFields? (fields : List (String × Datum)) : Option Batch := do
  let text ← requireField Datum.text? "text" fields
  let repeatCount ← requireField repeatCount? "repeat_count" fields
  let line ← requireField line? "line" fields
  let wrapped ← requireField Datum.truth? "wrapped" fields
  return { text, repeatCount, line, wrapped }

/-- Reads a batch from the values of its fields in order. -/
def row : Row Batch := do
  let text ← Row.require Datum.text?
  let repeatCount ← Row.require repeatCount?
  let line ← Row.require line?
  let wrapped ← Row.require Datum.truth?
  return { text, repeatCount, line, wrapped }

/-- Reads a batch from a record or from a list. -/
def ofDatum? : Datum → Option Batch
  | .record fields => ofFields? fields
  | .list values => row.all? values
  | _ => none

theorem ofDatum?_toDatum {b : Batch} (h : b.line < UInt64.size) : ofDatum? b.toDatum = some b := by
  have hline : line? (.integer b.line) = some b.line := by
    show (some b.line).filter (· < UInt64.size) = some b.line
    simp only [Option.filter, h, decide_true, if_true]
  have hcount : repeatCount? (.integer b.repeatCount.val) = some b.repeatCount :=
    RepeatCount.ofNat?_val b.repeatCount
  simp [ofDatum?, toDatum, ofFields?, requireField, List.lookup_cons, Datum.text?, Datum.truth?,
    hline, hcount]

end BatchScript.Batch
