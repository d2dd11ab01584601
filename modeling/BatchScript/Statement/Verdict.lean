import BatchScript.Statement

/-!
# Verdicts on statements

Whether a text begins with a separator statement is settled by the text alone. `Verdict.ofText`
says what a text is, read as a statement, without a cursor: the statement and its length, no
statement, or a statement in which a block comment is left open.

## Main results

* `Scan.separator_run` — reading a separator at the cursor comes to the verdict on the text ahead.
  The cursor moves over a statement found and otherwise not at all.
-/

namespace BatchScript

/-- A block comment left open: how many characters stand before it, and how deep it is when the
text ends. -/
structure Opening where
  before : Nat
  depth : Nat
deriving DecidableEq, Repr

/-- An opening with so many more characters before it. -/
def Opening.shift (n : Nat) (e : Opening) : Opening :=
  { e with before := n + e.before }

/-- How far the gap reaches that a text begins with, unless a block comment is left open behind
it. -/
def Gap.read (text : List Char) : Except Opening Nat :=
  match Comment.block? (text.drop (length text)) with
  | some (.unclosed depth) => .error { before := length text, depth }
  | _ => .ok (length text)

/-- What a text is, read as a separator statement. -/
inductive Verdict
  /-- A statement with a count, so many characters long. -/
  | found (count : RepeatCount) (length : Nat)
  /-- No statement. -/
  | absent
  /-- No statement, for digits that write no count. -/
  | unusable (digits : List Char)
  /-- A statement in which a block comment is left open. -/
  | unclosed (opening : Opening)
deriving DecidableEq, Repr

namespace Verdict

/-- The verdict on a text with so many more characters before it. -/
def shift (n : Nat) : Verdict → Verdict
  | .found count length => .found count (n + length)
  | .absent => .absent
  | .unusable digits => .unusable digits
  | .unclosed e => .unclosed (e.shift n)

/-- How much of a text follows the count: a gap with a line comment behind it, or nothing. -/
def trailing (text : List Char) : Except Opening Nat :=
  match Gap.read text with
  | .error e => .error e
  | .ok g =>
    match Comment.line? (text.drop g) with
    | some n => .ok (g + n)
    | none => .ok 0

/-- The verdict from the count on. -/
def ofCount (text : List Char) : Verdict :=
  let digits := text.takeWhile Char.isDigit
  match RepeatCount.ofDigits? digits with
  | none => .unusable digits
  | some count =>
    match trailing (text.drop digits.length) with
    | .ok n => .found count (digits.length + n)
    | .error e => .unclosed (e.shift digits.length)

/-- The verdict from the end of the keyword on. -/
def ofTail (o : Options) (text : List Char) : Verdict :=
  if o.wordBoundaries && text.head?.any continuesKeyword then
    .absent
  else
    match Gap.read text with
    | .error e => .unclosed e
    | .ok g =>
      match Comment.line? (text.drop g) with
      | some n => .found .once (g + n)
      | none => (ofCount (text.drop g)).shift g

/-- The verdict on a text that begins with a keyword, blanks of its line before it. -/
def ofText (o : Options) (text : List Char) : Verdict :=
  let blanks := (text.takeWhile isLinear).length
  let keyword := text.drop blanks
  if o.separator.isEmpty || o.lookalikes.any fun l => AsciiCase.begins l.toList keyword then
    .absent
  else if AsciiCase.begins o.separator.toList keyword then
    (ofTail o (keyword.drop o.separator.toList.length)).shift (blanks + o.separator.toList.length)
  else
    .absent

end Verdict

namespace Scan

/-- The failure on a block comment left open in the text ahead of a cursor. -/
def openFailure (c : Cursor) (e : Opening) : Failure :=
  let p := (c.skip e.before).position
  .malformed { construct := .blockComment, line := p.line, column := p.column }

/-- The entry of the log for it. -/
def openEvent (c : Cursor) (e : Opening) : Event :=
  let p := (c.skip e.before).position
  .unclosedComment p.line p.column e.depth

/-- A gap at the cursor reaches as far as the text ahead says. -/
theorem gap_run (r : Reading) :
    gap r =
      match Gap.read r.cursor.ahead with
      | .ok n => .ok () (r.skip n)
      | .error e =>
        .error (openFailure r.cursor e)
          ((r.skip r.cursor.ahead.length).note (openEvent r.cursor e)) := by
  have hle := Gap.length_le r.cursor.ahead
  have hb := Gap.block?_drop_length r.cursor.ahead
  have hskip : Gap.length r.cursor.ahead + (r.cursor.ahead.length - Gap.length r.cursor.ahead) =
      r.cursor.ahead.length := by omega
  simp only [gap, cursor, skip, Bind.bind, EStateM.bind, blockComment_run, Gap.read,
    Reading.ahead_skip]
  rcases h : Comment.block? (r.cursor.ahead.drop (Gap.length r.cursor.ahead)) with _ | n | depth
  · rfl
  · exact absurd h (hb n)
  · simp only [Reading.skip_skip, List.length_drop, hskip]
    rfl

/-- A closing comment at the cursor is found where the text ahead has one. -/
theorem closingComment_run (r : Reading) :
    closingComment r =
      match Gap.read r.cursor.ahead with
      | .ok g =>
        match Comment.line? (r.cursor.ahead.drop g) with
        | some n => .ok (some ()) (r.skip (g + n))
        | none => .ok none (r.skip g)
      | .error e =>
        .error (openFailure r.cursor e)
          ((r.skip r.cursor.ahead.length).note (openEvent r.cursor e)) := by
  simp only [closingComment, Bind.bind, EStateM.bind, gap_run]
  rcases Gap.read r.cursor.ahead with e | g
  · rfl
  · simp only [lineComment_run, Reading.ahead_skip]
    rcases Comment.line? (r.cursor.ahead.drop g) with _ | n
    · rfl
    · simp only [Reading.skip_skip]
      rfl

theorem trailingComment_run (r : Reading) :
    trailingComment r =
      match Verdict.trailing r.cursor.ahead with
      | .ok n => .ok () (r.skip n)
      | .error e => .error (openFailure r.cursor e) (r.note (openEvent r.cursor e)) := by
  have h := closingComment_run { r with cursor := r.cursor.save }
  simp only [Cursor.ahead_save] at h
  simp only [trailingComment_eq, Bind.bind, EStateM.bind, Verdict.trailing]
  cases hg : Gap.read r.cursor.ahead with
  | error e =>
    simp only [hg] at h
    simp only [speculate_error .closingComment h]
    rfl
  | ok g =>
    simp only [hg] at h
    cases hl : Comment.line? (r.cursor.ahead.drop g) with
    | some n =>
      simp only [hl] at h
      simp only [speculate_some h rfl, hl]
      rfl
    | none =>
      simp only [hl] at h
      simp only [speculate_none .closingComment h, hl]
      rfl

/-- What a scan comes to under a verdict on the text ahead. How far it has read is fixed only if
it finds a statement; speculation undoes the rest. -/
def Settles (result : EStateM.Result Failure Reading (Option RepeatCount)) (r : Reading) :
    Verdict → Prop
  | .found count n => result = .ok (some count) (r.skip n)
  | .absent => ∃ k, result = .ok none (r.skip k)
  | .unusable digits =>
    ∃ k, result = .ok none ((r.skip k).note (.unusableCount (String.ofList digits)))
  | .unclosed e =>
    ∃ k, result = .error (openFailure r.cursor e) ((r.skip k).note (openEvent r.cursor e))

/-- What is settled behind some characters is settled with them. -/
theorem Settles.shift {result : EStateM.Result Failure Reading (Option RepeatCount)} {r : Reading}
    {n : Nat} {verdict : Verdict} (h : Settles result (r.skip n) verdict) :
    Settles result r (verdict.shift n) := by
  cases verdict with
  | found count k => simpa only [Settles, Verdict.shift, Reading.skip_skip] using h
  | absent =>
    obtain ⟨k, hk⟩ := h
    exact ⟨n + k, by rw [hk, Reading.skip_skip]⟩
  | unusable digits =>
    obtain ⟨k, hk⟩ := h
    exact ⟨n + k, by rw [hk, Reading.skip_skip]⟩
  | unclosed e =>
    obtain ⟨k, hk⟩ := h
    refine ⟨n + k, ?_⟩
    rw [hk, Reading.skip_skip]
    simp [openFailure, openEvent, Reading.skip, Opening.shift]

theorem count_settles (r : Reading) : Settles (count r) r (.ofCount r.cursor.ahead) := by
  have hd : consumeWhile Char.isDigit r =
      .ok (String.ofList (r.cursor.ahead.takeWhile Char.isDigit))
        (r.skip (r.cursor.ahead.takeWhile Char.isDigit).length) := rfl
  simp only [count, Verdict.ofCount, Bind.bind, EStateM.bind, hd, String.toList_ofList]
  cases hc : RepeatCount.ofDigits? (r.cursor.ahead.takeWhile Char.isDigit) with
  | none => exact ⟨_, rfl⟩
  | some n =>
    simp only [EStateM.bind, trailingComment_run, Reading.ahead_skip]
    cases Verdict.trailing (r.cursor.ahead.drop (r.cursor.ahead.takeWhile Char.isDigit).length) with
    | ok k =>
      simp only [Reading.skip_skip]
      rfl
    | error e =>
      refine ⟨(r.cursor.ahead.takeWhile Char.isDigit).length, ?_⟩
      simp [openFailure, openEvent, Reading.skip, Opening.shift]

theorem afterKeyword_settles (o : Options) (r : Reading) :
    Settles (afterKeyword o r) r (.ofTail o r.cursor.ahead) := by
  have hp : r.cursor.ahead.head? = r.cursor.peek := rfl
  simp only [afterKeyword, Verdict.ofTail, cursor, Bind.bind, EStateM.bind, hp]
  cases o.wordBoundaries && r.cursor.peek.any continuesKeyword with
  | true => exact ⟨0, rfl⟩
  | false =>
    simp only [Bool.false_eq_true, if_false, EStateM.bind, gap_run]
    cases Gap.read r.cursor.ahead with
    | error e => exact ⟨_, rfl⟩
    | ok g =>
      simp only [lineComment_run, Reading.ahead_skip]
      cases Comment.line? (r.cursor.ahead.drop g) with
      | some n =>
        simp only [Reading.skip_skip]
        rfl
      | none =>
        have h := count_settles (r.skip g)
        rw [Reading.ahead_skip] at h
        exact h.shift

theorem statement_settles {o : Options} (ho : o.separator.isEmpty = false) (r : Reading) :
    Settles (statement o r) r (.ofText o r.cursor.ahead) := by
  have hs : move Cursor.skipLinear r =
      .ok (r.cursor.ahead.takeWhile isLinear).length
        (r.skip (r.cursor.ahead.takeWhile isLinear).length) := rfl
  simp only [statement, Verdict.ofText, cursor, Bind.bind, EStateM.bind, hs, ho, Bool.false_or]
  generalize (r.cursor.ahead.takeWhile isLinear).length = blanks
  have hl : (r.skip blanks).cursor.peekLiteral =
      fun l => AsciiCase.begins l.toList (r.cursor.ahead.drop blanks) := by
    funext l
    simp only [Cursor.peekLiteral, Reading.ahead_skip]
  simp only [hl]
  cases o.lookalikes.any fun l => AsciiCase.begins l.toList (r.cursor.ahead.drop blanks) with
  | true => exact ⟨blanks, rfl⟩
  | false =>
    simp only [Bool.false_eq_true, if_false, EStateM.bind, matchLiteral, move,
      Cursor.matchLiteral, hl]
    cases AsciiCase.begins o.separator.toList (r.cursor.ahead.drop blanks) with
    | true =>
      have h := afterKeyword_settles o (r.skip (blanks + o.separator.toList.length))
      rw [Reading.ahead_skip, ← List.drop_drop] at h
      have h := h.shift
      rw [← Reading.skip_skip] at h
      exact h
    | false => exact ⟨blanks, rfl⟩

/-- Reading a separator comes to the verdict on the text ahead, and moves the cursor only over a
statement found. -/
theorem separator_run (o : Options) (r : Reading) :
    separator o r =
      match Verdict.ofText o r.cursor.ahead with
      | .found count n => .ok (some count) (r.skip n)
      | .absent => .ok none r
      | .unusable digits => .ok none (r.note (.unusableCount (String.ofList digits)))
      | .unclosed e => .error (openFailure r.cursor e) (r.note (openEvent r.cursor e)) := by
  cases ho : o.separator.isEmpty with
  | true =>
    simp only [separator_eq, Verdict.ofText, ho, Bool.true_or, if_true]
    rfl
  | false =>
    have h := statement_settles ho { r with cursor := r.cursor.save }
    rw [Cursor.ahead_save] at h
    simp only [separator_eq, ho, Bool.false_eq_true, if_false]
    cases hv : Verdict.ofText o r.cursor.ahead with
    | found n k =>
      simp only [hv, Settles] at h
      rw [speculate_some h rfl]
      rfl
    | absent =>
      simp only [hv] at h
      obtain ⟨k, hk⟩ := h
      rw [speculate_none (.statement o) hk]
      rfl
    | unusable digits =>
      simp only [hv] at h
      obtain ⟨k, hk⟩ := h
      rw [speculate_none (.statement o) hk]
      rfl
    | unclosed e =>
      simp only [hv] at h
      obtain ⟨k, hk⟩ := h
      rw [speculate_error (.statement o) hk]
      rfl

end Scan

end BatchScript
