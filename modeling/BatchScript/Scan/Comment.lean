import BatchScript.Scan
import BatchScript.Text.Comment
import BatchScript.Text.Gap

/-!
# Comments and gaps at the cursor

A comment that the script goes on with is passed over whole. A block comment that is not closed
ends the scan: it reads to the end of the script, and the failure stands where the comment opens.

## Main results

* `Forward.lineComment`, `Forward.blockComment`, `Forward.gap` — these scans are forward.
* `lineComment_run`, `blockComment_run`, `comment_run` — what these scans come to is settled by the
  text ahead.
* `comment_true` — a comment found takes at least two characters.
* `comment_false` — where none is found nothing changes.
-/

namespace BatchScript.Scan

/-- Passes over a line comment, and says whether there was one. -/
def lineComment : Scan Bool := do
  let start ← cursor
  match Comment.line? start.ahead with
  | some n => do
    skip n
    return true
  | none => return false

/-- Passes over a block comment, and says whether there was one. -/
def blockComment : Scan Bool := do
  let start ← cursor
  match Comment.block? start.ahead with
  | some (.closed n) => do
    skip n
    return true
  | some (.unclosed depth) => do
    skip start.ahead.length
    note (.unclosedComment start.position.line start.position.column depth)
    malformed .blockComment start.position
  | none => return false

/-- Passes over a comment of either kind, and says whether there was one. -/
def comment : Scan Bool := do
  if ← lineComment then
    return true
  else
    blockComment

/-- Passes over spaces, tabs and block comments. What stops the gap may be a block comment that is
not closed, and then the scan fails on it. -/
def gap : Scan Unit := do
  let start ← cursor
  skip (Gap.length start.ahead)
  let _ ← blockComment

theorem Forward.lineComment : Forward lineComment := by
  refine .bind .cursor fun start => ?_
  split
  · exact .bind (.skip _) fun _ => .pure _
  · exact .pure _

theorem Forward.blockComment : Forward blockComment := by
  refine .bind .cursor fun start => ?_
  split
  · exact .bind (.skip _) fun _ => .pure _
  · exact .bind (.skip _) fun _ => .bind (.note _) fun _ => .malformed _ _
  · exact .pure _

theorem Forward.comment : Forward comment := by
  refine .bind .lineComment fun found => ?_
  split
  · exact .pure _
  · exact .blockComment

theorem Forward.gap : Forward gap :=
  .bind .cursor fun _ => .bind (.skip _) fun _ => .bind .blockComment fun _ => .pure _

/-! ### How the scans run -/

theorem lineComment_run (r : Reading) :
    lineComment r =
      match Comment.line? r.cursor.ahead with
      | some n => .ok true (r.skip n)
      | none => .ok false r := by
  simp only [lineComment, cursor, Bind.bind, EStateM.bind]
  rcases Comment.line? r.cursor.ahead with _ | n <;> rfl

theorem blockComment_run (r : Reading) :
    blockComment r =
      match Comment.block? r.cursor.ahead with
      | some (.closed n) => .ok true (r.skip n)
      | some (.unclosed depth) =>
        .error
          (.malformed
            { construct := .blockComment, line := r.cursor.position.line,
              column := r.cursor.position.column })
          ((r.skip r.cursor.ahead.length).note
            (.unclosedComment r.cursor.position.line r.cursor.position.column depth))
      | none => .ok false r := by
  simp only [blockComment, cursor, Bind.bind, EStateM.bind]
  rcases Comment.block? r.cursor.ahead with _ | n | depth <;> rfl

theorem comment_run (r : Reading) :
    comment r =
      match Comment.line? r.cursor.ahead with
      | some n => .ok true (r.skip n)
      | none => blockComment r := by
  simp only [comment, Bind.bind, EStateM.bind, lineComment_run]
  rcases Comment.line? r.cursor.ahead with _ | n <;> rfl

/-- A comment found takes at least its delimiter. -/
theorem comment_true {r r' : Reading} (h : comment r = .ok true r') :
    ∃ n, 2 ≤ n ∧ n ≤ r.cursor.ahead.length ∧ r' = r.skip n := by
  rw [comment_run] at h
  split at h
  · rename_i n hn
    cases h
    exact ⟨n, Comment.two_le_of_line? hn, Comment.line?_le hn, rfl⟩
  · rw [blockComment_run] at h
    split at h
    · rename_i n hn
      cases h
      have := Comment.four_le_of_block? hn
      exact ⟨n, by omega, Comment.block?_le hn, rfl⟩
    · cases h
    · cases h

/-- Where no comment is found nothing changes. -/
theorem comment_false {r r' : Reading} (h : comment r = .ok false r') : r' = r := by
  rw [comment_run] at h
  split at h
  · cases h
  · rw [blockComment_run] at h
    split at h <;> cases h
    rfl

end BatchScript.Scan
