/-!
# Data of settings and results

Plain structured data, in which settings are handed in and results handed out: lists and records
of texts, truth values and numbers. A field of a record is looked up by its exact name.

The readers for single types refuse every datum of another type. `Row` reads the items of a list
one after the other.

## Main results

* `Datum.texts?_ofTexts` — a list of texts reads back as itself.
-/

namespace BatchScript

/-- A piece of structured data. -/
inductive Datum
  | null
  | truth (value : Bool)
  | integer (value : Int)
  /-- A number written with a fractional part: the digits, and how many of them follow the point. -/
  | decimal (digits : Int) (places : Nat)
  | text (value : String)
  | list (items : List Datum)
  | record (fields : List (String × Datum))

instance : Inhabited Datum := ⟨.null⟩

namespace Datum

/-- The text that a datum is. -/
def text? : Datum → Option String
  | .text value => some value
  | _ => none

/-- The truth value that a datum is. -/
def truth? : Datum → Option Bool
  | .truth value => some value
  | _ => none

/-- The natural number that a datum is. -/
def nat? : Datum → Option Nat
  | .integer (.ofNat value) => some value
  | _ => none

/-- The list of texts that a datum is. -/
def texts? : Datum → Option (List String)
  | .list items => items.mapM text?
  | _ => none

/-- A list of texts as a datum. -/
def ofTexts (values : List String) : Datum :=
  .list (values.map .text)

@[simp] theorem texts?_ofTexts (values : List String) :
    texts? (ofTexts values) = some values := by
  simp only [texts?, ofTexts]
  induction values with
  | nil => rfl
  | cons value values ih => simp [text?, ih]

end Datum

/-! ### Records -/

/-- Reads a field that has to be there. -/
def requireField {α : Type} (read : Datum → Option α) (name : String)
    (fields : List (String × Datum)) : Option α :=
  (fields.lookup name).bind read

/-- Reads a field, or takes a default if it is missing. -/
def fieldOr {α : Type} (read : Datum → Option α) (name : String) (default : α)
    (fields : List (String × Datum)) : Option α :=
  match fields.lookup name with
  | some value => read value
  | none => some default

/-! ### Rows -/

/-- A reading of list items from the left that may refuse, leaving the items not yet read. -/
abbrev Row (α : Type) : Type :=
  StateT (List Datum) Option α

namespace Row

/-- Reads the next item, which has to be there. -/
def require {α : Type} (read : Datum → Option α) : Row α := fun items =>
  match items with
  | value :: rest => (read value).map (·, rest)
  | [] => none

/-- Reads the next item, or takes a default if there is none. -/
def next {α : Type} (read : Datum → Option α) (default : α) : Row α := fun items =>
  match items with
  | value :: rest => (read value).map (·, rest)
  | [] => some (default, [])

/-- Reads a whole list: items left over are refused. -/
def all? {α : Type} (row : Row α) (items : List Datum) : Option α :=
  match row items with
  | some (value, []) => some value
  | _ => none

end Row

end BatchScript
