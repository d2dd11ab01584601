import BatchScript.BatchStream

/-!
# Splitting scripts

A script is split into its batches in order, or into none of them if it cannot be split. The log
of a split opens with the length of the script, and closes with the number of batches if there is
no failure.

## Main results

* `fst_splitLogged` — keeping the log does not change the outcome.
-/

namespace BatchScript

/-- Splits a script into its batches. -/
def split (o : Options) (script : String) : Except Failure (List Batch) :=
  (BatchStream.ofString o script).collect.1

/-- Splits a script the way it is done unless something else is asked for. -/
def splitStandard (script : String) : Except Failure (List Batch) :=
  split {} script

/-- Splits a script and gives the log beside the outcome. -/
def splitLogged (o : Options) (script : String) :
    Except Failure (List Batch) × List Event :=
  let (outcome, last) := (BatchStream.ofString o script).collect
  let steps := last.reading.log.toList
  let closing :=
    match outcome with
    | .ok batches => [.finished batches.length]
    | .error _ => []
  (outcome, .opened script.utf8ByteSize :: (steps ++ closing))

@[simp] theorem fst_splitLogged (o : Options) (script : String) :
    (splitLogged o script).1 = split o script := rfl

end BatchScript
