import BatchScript.Batch.Datum
import BatchScript.Cursor.Command
import BatchScript.Options.Datum
import BatchScript.Proofs.Resplit
import BatchScript.Proofs.Ending
import BatchScript.Proofs.Delivery
import BatchScript.Proofs.Joining
import BatchScript.Proofs.Opacity
import BatchScript.Proofs.Truncation
import BatchScript.Proofs.Streaming
import BatchScript.Proofs.Uncommented
import BatchScript.Proofs.Repetition
import BatchScript.Proofs.Attribution
import BatchScript.Proofs.Interposition
import BatchScript.Proofs.Repair
import BatchScript.Proofs.LineEndings
import BatchScript.Proofs.CaseFolding
import BatchScript.Proofs.Account
import BatchScript.Proofs.Pointer
import BatchScript.Proofs.Grammar
import BatchScript.Proofs.BlankRuns
import BatchScript.Proofs.WordBoundary
import BatchScript.Proofs.Speculation
import BatchScript.Proofs.Lookalike
import BatchScript.Proofs.WithinWords
import BatchScript.Proofs.Doubling
import BatchScript.Proofs.LoopBody
import BatchScript.Proofs.Fields
import BatchScript.Proofs.Progress
