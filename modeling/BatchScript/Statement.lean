import BatchScript.Options
import BatchScript.Scan.Comment
import BatchScript.Text.Word

/-!
# Separator statements

A separator statement is the keyword, blanks of its line before it, and behind it a gap, a repeat
count, and one more gap with a line comment; all but the keyword may be missing. A longer keyword
that looks like the separator is never taken for it, and where words are to be kept whole neither
is the beginning of a longer word. A count that cannot be used makes the whole no statement.

The statement is read on a checkpoint, and so is what may follow its count. `separator` and
`trailingComment` give their checkpoints up at every exit that they have. The same two scans without
a checkpoint of their own are `statement` and `closingComment`, and speculation on these is what the
two come to. Where a statement turns out to be none, nothing has been read.

## Main results

* `separator_eq`, `trailingComment_eq` — a checkpoint given up at every exit is speculation.
* `Forward.separator` — reading a separator is forward.
* `separator_some` — a separator found takes at least as many characters as its keyword.
* `separator_none` — where no separator is found the cursor has not moved.
-/

namespace BatchScript.Scan

/-- What may follow the count: a gap and a line comment, taken both together or not at all. -/
def trailingComment : Scan Unit := do
  save
  try
    gap
  catch failure => do
    rollback
    throw failure
  if ← lineComment then
    accept
  else
    rollback

/-- Passes over a separator statement if there is one, and gives its count. An empty keyword makes
none. Look-alikes are tried before the keyword, and a line comment ends the statement before any
count. -/
def separator (o : Options) : Scan (Option RepeatCount) := do
  if o.separator.isEmpty then
    return none
  save
  let _ ← move Cursor.skipLinear
  let start ← cursor
  let found ← if o.lookalikes.any start.peekLiteral then pure false else matchLiteral o.separator
  if !found then
    rollback
    return none
  let behind ← cursor
  if o.wordBoundaries && behind.peek.any continuesKeyword then
    rollback
    return none
  try
    gap
  catch failure => do
    rollback
    throw failure
  if ← lineComment then
    accept
    return some .once
  let digits ← consumeWhile Char.isDigit
  match RepeatCount.ofDigits? digits.toList with
  | none =>
    note (.unusableCount digits)
    rollback
    return none
  | some count =>
    try
      trailingComment
    catch failure => do
      rollback
      throw failure
    accept
    return some count

/-! ### The attempts behind the checkpoints -/

/-- A gap and a line comment behind it. -/
def closingComment : Scan (Option Unit) := do
  gap
  if ← lineComment then
    return some ()
  else
    return none

/-- The statement from its count on, which is none if the count cannot be used. -/
def count : Scan (Option RepeatCount) := do
  let digits ← consumeWhile Char.isDigit
  match RepeatCount.ofDigits? digits.toList with
  | some count => do
    trailingComment
    return some count
  | none => do
    note (.unusableCount digits)
    return none

/-- The statement behind its keyword. A line comment ends it before any count. -/
def afterKeyword (o : Options) : Scan (Option RepeatCount) := do
  let behind ← cursor
  if o.wordBoundaries && behind.peek.any continuesKeyword then
    return none
  else do
    gap
    if ← lineComment then
      return some .once
    else
      count

/-- The whole statement. Look-alikes are tried before the keyword itself. -/
def statement (o : Options) : Scan (Option RepeatCount) := do
  let _ ← move Cursor.skipLinear
  let start ← cursor
  if o.lookalikes.any start.peekLiteral then
    return none
  else if ← matchLiteral o.separator then
    afterKeyword o
  else
    return none

theorem Unfailing.lineComment : Unfailing lineComment := by
  intro r
  rw [lineComment_run]
  split
  · exact ⟨_, _, rfl⟩
  · exact ⟨_, _, rfl⟩

/-- A trailing comment is speculation on a closing comment, with each exit written out. -/
theorem trailingComment_eq :
    trailingComment = (do let _ ← speculate closingComment) := by
  rw [trailingComment, speculate, bind_assoc]
  refine bind_congr fun _ => ?_
  rw [closingComment, settle_bind, bind_assoc]
  refine bind_congr fun _ => ?_
  rw [settle_bind_of_unfailing .lineComment, bind_assoc]
  refine bind_congr fun found => ?_
  cases found with
  | true => simp only [if_true, settle_some, bind_assoc, pure_bind, bind_pure_unit]
  | false =>
    simp only [Bool.false_eq_true, if_false, settle_none, bind_assoc, pure_bind, bind_pure_unit]

/-- What follows the digits of a count, with the exits written out. -/
theorem settle_count :
    settle count = (do
      let digits ← consumeWhile Char.isDigit
      match RepeatCount.ofDigits? digits.toList with
      | none =>
        note (.unusableCount digits)
        rollback
        return none
      | some count =>
        try
          trailingComment
        catch failure => do
          rollback
          throw failure
        accept
        return some count) := by
  rw [count, settle_bind_of_unfailing (.consumeWhile _)]
  refine bind_congr fun digits => ?_
  cases RepeatCount.ofDigits? digits.toList with
  | none => exact settle_bind_of_unfailing (.note _) _
  | some count => exact settle_bind _ _

/-- A separator is speculation on the whole statement, with each exit written out. -/
theorem separator_eq (o : Options) :
    separator o = if o.separator.isEmpty then return none else speculate (statement o) := by
  rw [separator]
  split
  · rfl
  -- each split below is an exit: a look-alike, no keyword, a longer word, a line comment
  rw [speculate, statement, settle_bind_of_unfailing (.move _)]
  refine bind_congr fun _ => bind_congr fun _ => ?_
  rw [settle_bind_of_unfailing .cursor]
  refine bind_congr fun start => ?_
  cases o.lookalikes.any start.peekLiteral with
  | true => rfl
  | false =>
    simp only [Bool.false_eq_true, if_false]
    rw [settle_bind_of_unfailing (.matchLiteral _)]
    refine bind_congr fun found => ?_
    cases found with
    | false => rfl
    | true =>
      simp only [Bool.not_true, Bool.false_eq_true, if_false, if_true]
      rw [afterKeyword, settle_bind_of_unfailing .cursor]
      refine bind_congr fun behind => ?_
      cases o.wordBoundaries && behind.peek.any continuesKeyword with
      | true => rfl
      | false =>
        simp only [Bool.false_eq_true, if_false]
        -- the gap is the only step that fails before the count
        rw [settle_bind]
        refine bind_congr fun _ => ?_
        rw [settle_bind_of_unfailing .lineComment]
        refine bind_congr fun ended => ?_
        cases ended with
        | true => rfl
        | false => exact settle_count.symm

/-! ### Reading forward -/

theorem Forward.closingComment : Forward closingComment := by
  refine .bind .gap fun _ => .bind .lineComment fun found => ?_
  split <;> exact .pure _

theorem Forward.trailingComment : Forward trailingComment := by
  rw [trailingComment_eq]
  exact .bind (.speculate .closingComment) fun _ => .pure _

theorem Forward.count : Forward count := by
  refine .bind (.consumeWhile _) fun digits => ?_
  split
  · exact .bind .trailingComment fun _ => .pure _
  · exact .bind (.note _) fun _ => .pure _

theorem Forward.afterKeyword (o : Options) : Forward (afterKeyword o) := by
  refine .bind .cursor fun behind => ?_
  split
  · exact .pure _
  · refine .bind .gap fun _ => .bind .lineComment fun found => ?_
    split
    · exact .pure _
    · exact .count

theorem Forward.statement (o : Options) : Forward (statement o) := by
  refine .bind (fun _ => ⟨_, rfl⟩) fun _ => .bind .cursor fun start => ?_
  split
  · exact .pure _
  · refine .bind (.matchLiteral _) fun found => ?_
    split
    · exact .afterKeyword o
    · exact .pure _

theorem Forward.separator (o : Options) : Forward (separator o) := by
  rw [separator_eq]
  split
  · exact .pure _
  · exact .speculate (.statement o)

/-! ### Moving on -/

/-- A statement found takes at least its keyword. -/
theorem statement_some {o : Options} {r r' : Reading} {n : RepeatCount}
    (h : statement o r = .ok (some n) r') :
    ∃ k, o.separator.toList.length ≤ k ∧ o.separator.toList.length ≤ r.cursor.ahead.length ∧
      r'.cursor = r.cursor.skip k := by
  simp only [statement, move, cursor, Bind.bind, EStateM.bind, Cursor.skipLinear] at h
  split at h
  · cases h
  · simp only [EStateM.bind] at h
    split at h
    · rename_i found r₁ hm
      simp only [matchLiteral, move, Cursor.matchLiteral] at hm
      split at hm
      · rename_i hb
        cases hm
        obtain ⟨k, hk⟩ := (Forward.afterKeyword o).ok h
        have hlen := AsciiCase.length_le_of_begins hb
        refine ⟨_, ?_, ?_, by rw [hk, Cursor.skip_skip, Cursor.skip_skip]⟩
        · omega
        · simp at hlen
          omega
      · cases hm
        cases h
    · cases h

/-- A separator found takes at least its keyword, which is not empty. -/
theorem separator_some {o : Options} {r r' : Reading} {n : RepeatCount}
    (h : separator o r = .ok (some n) r') :
    ∃ k, 1 ≤ k ∧ o.separator.toList.length ≤ k ∧
      o.separator.toList.length ≤ r.cursor.ahead.length ∧ 1 ≤ r.cursor.ahead.length ∧
      r'.cursor = r.cursor.skip k := by
  rw [separator_eq] at h
  split at h
  · cases h
  · rename_i hne
    have hpos : 1 ≤ o.separator.toList.length := by
      rcases hs : o.separator.toList with _ | ⟨c, cs⟩
      · exact absurd (by simpa [String.isEmpty_iff] using hs) hne
      · simp
    cases hrun : statement o { r with cursor := r.cursor.save } with
    | ok found r₁ =>
      cases found with
      | some m =>
        obtain ⟨k, hk, hle, hcur⟩ := statement_some hrun
        rw [speculate_some hrun hcur] at h
        cases h
        rw [Cursor.ahead_save] at hle
        exact ⟨k, by omega, hk, hle, by omega, rfl⟩
      | none =>
        rw [speculate_none (.statement o) hrun] at h
        cases h
    | error e r₁ =>
      rw [speculate_error (.statement o) hrun] at h
      cases h

/-- Where no separator is found the cursor has not moved. -/
theorem separator_none {o : Options} {r r' : Reading} (h : separator o r = .ok none r') :
    r'.cursor = r.cursor := by
  rw [separator_eq] at h
  split at h
  · cases h
    rfl
  · cases hrun : statement o { r with cursor := r.cursor.save } with
    | ok found r₁ =>
      cases found with
      | some m =>
        obtain ⟨k, -, -, hcur⟩ := statement_some hrun
        rw [speculate_some hrun hcur] at h
        cases h
      | none =>
        rw [speculate_none (.statement o) hrun] at h
        cases h
        rfl
    | error e r₁ =>
      rw [speculate_error (.statement o) hrun] at h
      cases h

end BatchScript.Scan
