import BatchScript.Misuse

/-!
# Failures

Why a script cannot be split. A script is malformed when a string literal, a block comment or a
bracketed identifier is still open where it ends; the failure names the construct and the position
of its opener. A misuse of the cursor would be a failure too.
-/

namespace BatchScript

/-- A construct that can be left open. -/
inductive Construct
  | stringLiteral
  | blockComment
  | bracketedIdentifier
deriving DecidableEq, Repr

/-- What is said of a construct left open. -/
def Construct.unbalanced : Construct → String
  | .stringLiteral => "unbalanced string literal"
  | .blockComment => "unbalanced block comment"
  | .bracketedIdentifier => "unbalanced bracketed identifier"

/-- A construct left open at the end of a script, with the line and column of its opener. -/
structure Malformed where
  construct : Construct
  line : Nat
  column : Nat
deriving DecidableEq, Repr

/-- The wording of the error, with the position behind it. -/
def Malformed.message (e : Malformed) : String :=
  e.construct.unbalanced ++ " at " ++ e.line.repr ++ ":" ++ e.column.repr

/-- Why a reading of a script stops short. -/
inductive Failure
  /-- The script leaves a construct open. -/
  | malformed (error : Malformed)
  /-- The cursor was asked for what it cannot do. -/
  | misuse (misuse : Misuse)
deriving DecidableEq, Repr

end BatchScript
