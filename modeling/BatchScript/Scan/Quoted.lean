import BatchScript.Quotation
import BatchScript.Scan
import BatchScript.Text.Quoted

/-!
# Quoted text at the cursor

Quoted text is passed over whole, its delimiters included. Quoted text that is not closed ends the
scan: it reads to the end of the script, and the failure stands where the text opens.

## Main results

* `Forward.quoted` — the scan is forward.
* `quoted_run` — quoted text at its opener is passed over or found open.
* `quoted_ok` — quoted text takes at least its two delimiters.
-/

namespace BatchScript.Scan

/-- Passes over quoted text of a kind whose opener stands at the cursor. -/
def quoted (q : Quotation) : Scan Unit := do
  let start ← cursor
  if start.peek = some q.opener then
    match Quoted.body? q.close start.ahead.tail with
    | some n => skip (n + 1)
    | none => do
      skip start.ahead.length
      note (.unclosedQuote start.position.line start.position.column q.opener)
      malformed q.construct start.position
  else
    misuse .offOpener

theorem Forward.quoted (q : Quotation) : Forward (quoted q) := by
  refine .bind .cursor fun start => ?_
  split
  · split
    · exact .skip _
    · exact .bind (.skip _) fun _ => .bind (.note _) fun _ => .malformed _ _
  · exact .misuse _

/-- Quoted text at its opener is passed over or found open; it is no misuse to read it. -/
theorem quoted_run {q : Quotation} {r : Reading} (h : r.cursor.peek = some q.opener) :
    quoted q r =
      match Quoted.body? q.close r.cursor.ahead.tail with
      | some n => .ok () (r.skip (n + 1))
      | none =>
        .error
          (.malformed
            { construct := q.construct, line := r.cursor.position.line,
              column := r.cursor.position.column })
          ((r.skip r.cursor.ahead.length).note
            (.unclosedQuote r.cursor.position.line r.cursor.position.column q.opener)) := by
  simp only [quoted, cursor, Bind.bind, EStateM.bind, h, if_true]
  rcases Quoted.body? q.close r.cursor.ahead.tail with _ | n <;> rfl

theorem quoted_ok {q : Quotation} {r r' : Reading} {u : Unit} (h : quoted q r = .ok u r') :
    ∃ n, 2 ≤ n ∧ n ≤ r.cursor.ahead.length ∧ r' = r.skip n := by
  by_cases hp : r.cursor.peek = some q.opener
  · rw [quoted_run hp] at h
    split at h
    · rename_i n hn
      cases h
      have hb := Quoted.bounds_of_body? hn
      refine ⟨n + 1, by omega, ?_, rfl⟩
      simp at hb
      omega
    · cases h
  · simp only [quoted, cursor, Bind.bind, EStateM.bind, hp, if_false] at h
    cases h

end BatchScript.Scan
