/-!
# Options

What a user can choose about splitting: the keyword that separates batches, which regions hide it,
whether comments are kept, and where repetition is applied.
-/

namespace BatchScript

/-- Where the repetition that a separator asks for is applied. -/
inductive Repetition
  /-- The text of the batch becomes a loop that repeats it. -/
  | wrap
  /-- The text is left alone, and whoever runs it repeats it. -/
  | delegate
deriving DecidableEq, Repr, Inhabited

/-- How scripts are split. -/
structure Options where
  /-- The keyword between batches. An empty one separates nothing. -/
  separator : String := "GO"
  /-- Longer keywords that begin with the separator and are never taken for it. -/
  lookalikes : List String := ["GOTO"]
  /-- Whether text in double quotes is a literal. -/
  doubleQuotedLiterals : Bool := true
  /-- Whether text in brackets is an identifier. -/
  bracketedIdentifiers : Bool := false
  /-- Whether comments outside separator statements stay in the text. -/
  keepComments : Bool := false
  /-- Whether the separator has to stand as a word of its own. -/
  wordBoundaries : Bool := true
  /-- Where repetition is applied. -/
  repetition : Repetition := .wrap
  /-- The variable that a repetition loop counts in. -/
  counterVariable : String := "@__batch_repeat"
deriving DecidableEq, Repr

instance : Inhabited Options := ⟨{}⟩

end BatchScript
