import BatchScript.Scan.Quoted
import BatchScript.Statement

/-!
# Regions of a script

A script is a sequence of regions. At every place the first of these that fits is read: a comment,
quoted text, a separator statement, and otherwise ordinary text. Ordinary text is read character
by character, except that where no separator begins at a run of spaces and tabs none begins within
it either, so that the run is read as one.

Where words are to be kept whole, no separator is looked for right behind a word character of
ordinary text.

## Main results

* `Forward.region` — reading a region is forward.
* `region_ok` — every region takes at least one character.
-/

namespace BatchScript

/-- A region of a script. -/
inductive Region
  /-- A comment outside separator statements. -/
  | comment (text : String)
  /-- Quoted text with its delimiters. -/
  | quoted (text : String)
  /-- A separator statement with its count. -/
  | separator (count : RepeatCount)
  /-- A run of spaces and tabs. -/
  | blanks (text : String)
  /-- Any other character. -/
  | ordinary (char : Char)
deriving DecidableEq, Repr

namespace Region

/-- What a region adds to the text of a batch. -/
def copied (keepComments : Bool) : Region → String
  | .comment text => if keepComments then text else ""
  | .quoted text => text
  | .separator _ => ""
  | .blanks text => text
  | .ordinary char => char.toString

/-- Whether a region leaves a word open that the next character may go on with. -/
def endsInWord : Region → Bool
  | .ordinary char => isWord char
  | _ => false

/-- What the kind of a region says of its text: comments and quoted text are not blank, as their
delimiters are not, and spaces and tabs are. -/
def WellFormed : Region → Prop
  | .comment text => allBlank text = false
  | .quoted text => allBlank text = false
  | .blanks text => allBlank text = true
  | _ => True

end Region

namespace Scan

/-- Passes over one character as ordinary text. -/
def ordinary (first : Char) : Scan Region := do
  skip 1
  return .ordinary first

/-- Passes over the region that begins with the given character at the cursor. -/
def region (o : Options) (afterWord : Bool) (first : Char) : Scan Region := do
  let start ← cursor
  if ← comment then
    return .comment (← sliceFrom start.position.offset)
  else
    match Quotation.ofOpener? o first with
    | some q => do
      quoted q
      return .quoted (← sliceFrom start.position.offset)
    | none =>
      if o.wordBoundaries && afterWord then
        ordinary first
      else do
        match ← separator o with
        | some count => return .separator count
        | none =>
          if isLinear first then
            return .blanks (← consumeWhile isLinear)
          else
            ordinary first

theorem Forward.ordinary (first : Char) : Forward (ordinary first) :=
  .bind (.skip _) fun _ => .pure _

theorem Forward.region (o : Options) (afterWord : Bool) (first : Char) :
    Forward (region o afterWord first) := by
  refine .bind .cursor fun start => .bind .comment fun found => ?_
  split
  · exact .bind (.sliceFrom _) fun _ => .pure _
  · split
    · exact .bind (.quoted _) fun _ => .bind (.sliceFrom _) fun _ => .pure _
    · split
      · exact .ordinary _
      · refine .bind (.separator o) fun found => ?_
        split
        · exact .pure _
        · split
          · exact .bind (.consumeWhile _) fun _ => .pure _
          · exact .ordinary _

/-- Slicing changes nothing. -/
theorem sliceFrom_ok {start : Nat} {text : String} {r r' : Reading}
    (h : sliceFrom start r = .ok text r') : r' = r := by
  rw [sliceFrom] at h
  split at h <;> cases h
  rfl

/-- A region takes at least one character. -/
theorem region_ok {o : Options} {afterWord : Bool} {first : Char} {found : Region}
    {r r' : Reading} (hfirst : r.cursor.peek = some first)
    (h : region o afterWord first r = .ok found r') :
    ∃ k, 1 ≤ k ∧ r'.cursor = r.cursor.skip k := by
  simp only [region, cursor, Bind.bind, EStateM.bind] at h
  split at h
  · rename_i isComment r₁ hc
    cases isComment with
    | true =>
      simp only [if_true, EStateM.bind] at h
      split at h
      · rename_i text r₂ hs
        cases h
        obtain ⟨n, hn, -, rfl⟩ := comment_true hc
        rw [sliceFrom_ok hs]
        exact ⟨n, by omega, rfl⟩
      · cases h
    | false =>
      obtain rfl := comment_false hc
      simp only [Bool.false_eq_true, if_false] at h
      cases hq : Quotation.ofOpener? o first with
      | some q =>
        simp only [hq, EStateM.bind] at h
        split at h
        · rename_i hq
          split at h
          · rename_i text r₂ hs
            cases h
            obtain ⟨n, hn, -, rfl⟩ := quoted_ok hq
            rw [sliceFrom_ok hs]
            exact ⟨n, by omega, rfl⟩
          · cases h
        · cases h
      | none =>
        simp only [hq] at h
        split at h
        · cases h
          exact ⟨1, by omega, rfl⟩
        · simp only [EStateM.bind] at h
          split at h
          · rename_i answer r₂ hsep
            cases answer with
            | some count =>
              cases h
              obtain ⟨k, hk, -, -, -, hcur⟩ := separator_some hsep
              exact ⟨k, hk, hcur⟩
            | none =>
              have hcur := separator_none hsep
              simp only at h
              split at h
              · rename_i hl
                cases h
                obtain ⟨rest, hrest⟩ : ∃ rest, r₁.cursor.ahead = first :: rest := by
                  simpa [Cursor.peek, List.head?_eq_some_iff] using hfirst
                refine ⟨_, ?_, by simp only [hcur]; rfl⟩
                simp [hrest, hl]
              · cases h
                exact ⟨1, by omega, by simp only [Reading.skip, hcur]⟩
          · cases h
  · cases h

end Scan

end BatchScript
