import BatchScript.Datum
import BatchScript.Options

/-!
# Options as data

Options are written as a record of eight fields. They are read from such a record, in which
missing fields take their default and unknown ones are passed over, or from a list of values in
the order of the fields, of which the last may be missing.

## Main results

* `Repetition.ofDatum?_toDatum`, `Options.ofDatum?_toDatum` — what is written reads back.
-/

namespace BatchScript

namespace Repetition

/-- The name of a choice. -/
def name : Repetition → String
  | .wrap => "wrap"
  | .delegate => "delegate"

/-- The choice of a name. -/
def ofName? : String → Option Repetition
  | "wrap" => some .wrap
  | "delegate" => some .delegate
  | _ => none

/-- Writes a choice as its name. -/
def toDatum (r : Repetition) : Datum :=
  .text r.name

/-- Reads a choice from its name, or from a record whose only field has that name and no value. -/
def ofDatum? : Datum → Option Repetition
  | .text value => ofName? value
  | .record [(value, .null)] => ofName? value
  | _ => none

@[simp] theorem ofDatum?_toDatum (r : Repetition) : ofDatum? r.toDatum = some r := by
  cases r <;> rfl

end Repetition

namespace Options

/-- Writes options as a record of all their fields. -/
def toDatum (o : Options) : Datum :=
  .record
    [("separator", .text o.separator),
      ("lookalikes", .ofTexts o.lookalikes),
      ("double_quoted_literals", .truth o.doubleQuotedLiterals),
      ("bracketed_identifiers", .truth o.bracketedIdentifiers),
      ("keep_comments", .truth o.keepComments),
      ("word_boundaries", .truth o.wordBoundaries),
      ("repeat", o.repetition.toDatum),
      ("counter_variable", .text o.counterVariable)]

/-- Reads options from the fields of a record. -/
def ofFields? (fields : List (String × Datum)) : Option Options := do
  let standard : Options := {}
  let separator ← fieldOr Datum.text? "separator" standard.separator fields
  let lookalikes ← fieldOr Datum.texts? "lookalikes" standard.lookalikes fields
  let doubleQuotedLiterals ←
    fieldOr Datum.truth? "double_quoted_literals" standard.doubleQuotedLiterals fields
  let bracketedIdentifiers ←
    fieldOr Datum.truth? "bracketed_identifiers" standard.bracketedIdentifiers fields
  let keepComments ← fieldOr Datum.truth? "keep_comments" standard.keepComments fields
  let wordBoundaries ← fieldOr Datum.truth? "word_boundaries" standard.wordBoundaries fields
  let repetition ← fieldOr Repetition.ofDatum? "repeat" standard.repetition fields
  let counterVariable ← fieldOr Datum.text? "counter_variable" standard.counterVariable fields
  return { separator, lookalikes, doubleQuotedLiterals, bracketedIdentifiers, keepComments,
           wordBoundaries, repetition, counterVariable }

/-- Reads options from values in the order of the fields. -/
def row : Row Options := do
  let standard : Options := {}
  let separator ← Row.next Datum.text? standard.separator
  let lookalikes ← Row.next Datum.texts? standard.lookalikes
  let doubleQuotedLiterals ← Row.next Datum.truth? standard.doubleQuotedLiterals
  let bracketedIdentifiers ← Row.next Datum.truth? standard.bracketedIdentifiers
  let keepComments ← Row.next Datum.truth? standard.keepComments
  let wordBoundaries ← Row.next Datum.truth? standard.wordBoundaries
  let repetition ← Row.next Repetition.ofDatum? standard.repetition
  let counterVariable ← Row.next Datum.text? standard.counterVariable
  return { separator, lookalikes, doubleQuotedLiterals, bracketedIdentifiers, keepComments,
           wordBoundaries, repetition, counterVariable }

/-- Reads options from a record or from a list. -/
def ofDatum? : Datum → Option Options
  | .record fields => ofFields? fields
  | .list values => row.all? values
  | _ => none

/-- Options written as a record read back as themselves. -/
@[simp] theorem ofDatum?_toDatum (o : Options) : ofDatum? o.toDatum = some o := by
  simp [ofDatum?, toDatum, ofFields?, fieldOr, List.lookup_cons, Datum.text?, Datum.truth?]

end Options

end BatchScript
