/-!
# Misuse of a cursor

What can be asked of a cursor that it cannot do. None of it depends on what a script holds.
-/

namespace BatchScript

/-- A request that a cursor refuses. -/
inductive Misuse
  /-- A checkpoint was to be dropped and none is held. -/
  | acceptWithoutCheckpoint
  /-- A checkpoint was to be returned to and none is held. -/
  | rollbackWithoutCheckpoint
  /-- A slice was to begin past the cursor or within a character. -/
  | sliceOutOfBounds
  /-- Quoted text was to be read where its opening delimiter does not stand. -/
  | offOpener
deriving DecidableEq, Repr

/-- The wording of a refusal, where it has one. -/
def Misuse.message? : Misuse → Option String
  | .acceptWithoutCheckpoint => some "scanner.accept(): no checkpoint saved"
  | .rollbackWithoutCheckpoint => some "scanner.rollback(): no checkpoint saved"
  | .sliceOutOfBounds => none
  | .offOpener => none

end BatchScript
