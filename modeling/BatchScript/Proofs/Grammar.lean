import BatchScript.Proofs.Nesting

/-!
# The grammar of separator statements

A separator statement is blanks of a line, the keyword, a gap, and then a line comment, or a count
with or without a gap and a line comment behind it. Each of these stretches is as long as it can be,
no look-alike stands in place of the keyword, and where words are to be kept whole the keyword goes
on as no longer word. `Statement.Derives` says this of a statement with the text that follows it,
and `Statement.LeavesOpen` says that the text runs out in a block comment in one of the two gaps.
The second gap counts only behind a count that can be used.

Reading a separator at the cursor accepts exactly this grammar.

## Main results

* `Statement.lead_iff` — the front of a statement, in terms of the keyword and of the gap read.
* `Statement.derives_iff` — the grammar derives exactly the statements that the verdict finds.
* `Statement.leavesOpen_iff` — and leaves a comment open exactly where the verdict does.
* `separator_iff_derives` — reading a separator gives a count, fails, or finds nothing, exactly as
  the grammar says.
-/

namespace BatchScript

namespace Statement

/-- The front of a statement: blanks, the keyword and a gap, with the rest of the text. -/
structure Lead (o : Options) (blanks keyword gap rest : List Char) : Prop where
  /-- An empty separator makes no statement. -/
  separator_ne : o.separator ≠ ""
  /-- All blanks of the line are passed over. -/
  blanks : Longest (fun run => ∀ c ∈ run, isLinear c = true) blanks (keyword ++ (gap ++ rest))
  /-- No look-alike stands where the keyword does, ignoring ASCII case. -/
  lookalikes : ∀ l ∈ o.lookalikes, ∀ word, word <+: keyword ++ (gap ++ rest) →
    word.map Char.toLower ≠ l.toList.map Char.toLower
  /-- The keyword is the separator, ignoring ASCII case. -/
  keyword : keyword.map Char.toLower = o.separator.toList.map Char.toLower
  /-- Where words are kept whole it goes on as no word, ASCII digits apart. -/
  boundary : o.wordBoundaries = true → ∀ c ∈ (gap ++ rest).head?,
    isWord c = false ∨ c.isDigit = true
  /-- All of the gap is passed over. -/
  gap : Longest Gap.IsGap gap rest

/-- The digits of a count, with the rest of the text: all there are, and what number they write.
No digits write a single run; a number that is no count is written by none. -/
structure Number (digits rest : List Char) (count : RepeatCount) : Prop where
  longest : Longest (fun run => ∀ c ∈ run, c.isDigit = true) digits rest
  val : count.val = if digits = [] then 1 else Nat.ofDigitChars 10 digits 0

/-- A separator statement, with the rest of the text and the count that it gives. -/
inductive Derives (o : Options) : List Char → List Char → RepeatCount → Prop
  /-- A line comment behind the keyword ends the statement before any count. -/
  | commented {blanks keyword gap comment rest : List Char}
      (lead : Lead o blanks keyword gap (comment ++ rest)) (line : Comment.IsLine comment rest) :
      Derives o (blanks ++ (keyword ++ (gap ++ comment))) rest .once
  /-- A count ends the statement if no gap behind it leads to a line comment, nor to a block
  comment left open. -/
  | counted {blanks keyword gap digits rest : List Char} {count : RepeatCount}
      (lead : Lead o blanks keyword gap (digits ++ rest)) (number : Number digits rest count)
      (alone : ∀ trail behind, rest = trail ++ behind → Gap.IsGap trail →
        ¬ ['-', '-'] <+: behind ∧ ¬ Comment.LeftOpen behind) :
      Derives o (blanks ++ (keyword ++ (gap ++ digits))) rest count
  /-- A line comment behind the count, with a gap in front of it, belongs to the statement. -/
  | trailed {blanks keyword gap digits trail comment rest : List Char} {count : RepeatCount}
      (lead : Lead o blanks keyword gap (digits ++ (trail ++ (comment ++ rest))))
      (number : Number digits (trail ++ (comment ++ rest)) count) (between : Gap.IsGap trail)
      (line : Comment.IsLine comment rest) :
      Derives o (blanks ++ (keyword ++ (gap ++ (digits ++ (trail ++ comment))))) rest count

/-- The beginning of a statement up to a block comment that the rest of the text leaves open. -/
inductive LeavesOpen (o : Options) : List Char → List Char → Prop
  /-- The comment stands in the gap behind the keyword. -/
  | gap {blanks keyword gap rest : List Char} (lead : Lead o blanks keyword gap rest)
      (opened : Comment.LeftOpen rest) : LeavesOpen o (blanks ++ (keyword ++ gap)) rest
  /-- Or in the gap behind a count that can be used. -/
  | trail {blanks keyword gap digits trail rest : List Char} {count : RepeatCount}
      (lead : Lead o blanks keyword gap (digits ++ (trail ++ rest)))
      (number : Number digits (trail ++ rest) count) (between : Gap.IsGap trail)
      (opened : Comment.LeftOpen rest) :
      LeavesOpen o (blanks ++ (keyword ++ (gap ++ (digits ++ trail)))) rest

variable {o : Options} {blanks keyword gap digits rest : List Char} {count : RepeatCount}

/-! ### The parts of a statement -/

/-- The front of a statement, in terms of the keyword and of the gap read. -/
theorem lead_iff :
    Lead o blanks keyword gap rest ↔
      Verdict.Keyed o blanks keyword (gap ++ rest) ∧ Verdict.joined o (gap ++ rest) = false ∧
        Longest Gap.IsGap gap rest := by
  have hseparator : o.separator ≠ "" ↔ o.separator.toList ≠ [] := by
    rw [ne_eq, ne_eq, String.toList_eq_nil_iff]
  have hlookalike (l : String) : AsciiCase.begins l.toList (keyword ++ (gap ++ rest)) = false ↔
      ∀ word, word <+: keyword ++ (gap ++ rest) →
        word.map Char.toLower ≠ l.toList.map Char.toLower := by
    rw [← Bool.not_eq_true, AsciiCase.begins_iff]
    constructor
    · rintro h word ⟨behind, htext⟩ hword
      exact h ⟨word, behind, htext.symm, hword⟩
    · rintro h ⟨word, behind, htext, hword⟩
      exact h word ⟨behind, htext.symm⟩ hword
  have hboundary : Verdict.joined o (gap ++ rest) = false ↔
      (o.wordBoundaries = true → ∀ c ∈ (gap ++ rest).head?,
        isWord c = false ∨ c.isDigit = true) := by
    rw [Verdict.joined]
    cases o.wordBoundaries with
    | false => simp
    | true =>
        cases (gap ++ rest).head? with
        | none => simp
        | some c => cases hc : isWord c <;> simp [continuesKeyword, hc]
  constructor
  · rintro ⟨hne, hblanks, hlook, hkeyword, hword, hgap⟩
    obtain ⟨hlinear, hmaximal⟩ := longest_run_iff.1 hblanks
    exact ⟨⟨hlinear, hmaximal, hseparator.1 hne, hkeyword,
      fun l hl => (hlookalike l).2 (hlook l hl)⟩, hboundary.2 hword, hgap⟩
  · rintro ⟨⟨hlinear, hmaximal, hne, hkeyword, hlook⟩, hjoined, hgap⟩
    exact ⟨hseparator.2 hne, longest_run_iff.2 ⟨hlinear, hmaximal⟩,
      fun l hl => (hlookalike l).1 (hlook l hl), hkeyword, hboundary.1 hjoined, hgap⟩

/-- The digits of a count are those that the text begins with. -/
theorem number_iff :
    Number digits rest count ↔
      Verdict.digits (digits ++ rest) = digits ∧ RepeatCount.ofDigits? digits = some count := by
  have hdigits : Longest (fun run => ∀ c ∈ run, c.isDigit = true) digits rest ↔
      Verdict.digits (digits ++ rest) = digits := by
    constructor
    · intro h
      obtain ⟨hall, hstop⟩ := longest_run_iff.1 h
      rw [Verdict.digits, takeWhile_append_of_stop hstop, List.takeWhile_eq_self_iff.2 hall]
    · intro h
      refine longest_run_iff.2 ⟨?_, fun c hc => ?_⟩
      · intro c hc
        rw [← h] at hc
        exact List.all_eq_true.1 List.all_takeWhile c hc
      · have hdrop : (digits ++ rest).dropWhile Char.isDigit = rest := by
          rw [← drop_length_takeWhile, ← Verdict.digits, h, List.drop_left]
        have hnot := List.head?_dropWhile_not Char.isDigit (digits ++ rest)
        rw [hdrop, Option.mem_def.1 hc] at hnot
        simpa using hnot
  have hval : (count.val = if digits = [] then 1 else Nat.ofDigitChars 10 digits 0) ↔
      RepeatCount.ofDigits? digits = some count := by
    rw [RepeatCount.ofDigits?]
    rcases digits with _ | ⟨c, tail⟩
    · simp only [List.isEmpty_nil, if_true, Option.some.injEq]
      exact ⟨fun h => RepeatCount.ext h.symm, fun h => h ▸ rfl⟩
    · simp only [List.isEmpty_cons, Bool.false_eq_true, if_false, reduceCtorEq,
        RepeatCount.ofNat?_eq_some_iff]
  constructor
  · rintro ⟨hlongest, hcount⟩
    exact ⟨hdigits.1 hlongest, hval.1 hcount⟩
  · rintro ⟨htake, hcount⟩
    exact ⟨hdigits.2 htake, hval.2 hcount⟩

/-! ### What no gap goes on with -/

/-- A text that begins with two dashes opens no block comment. -/
theorem not_leftOpen_of_dashes {text : List Char} (h : ['-', '-'] <+: text) :
    ¬ Comment.LeftOpen text := by
  obtain ⟨behind, rfl⟩ := h
  rintro ⟨⟨_, heq⟩, -⟩
  simp at heq

/-- A gap ends in front of two dashes. -/
theorem length_eq_zero_of_dashes {text : List Char} (h : ['-', '-'] <+: text) :
    Gap.length text = 0 := by
  obtain ⟨behind, rfl⟩ := h
  exact Gap.length_eq_zero rfl fun n hn => by cases hn

/-- A gap ends in front of a block comment left open. -/
theorem length_eq_zero_of_leftOpen {text : List Char} (h : Comment.LeftOpen text) :
    Gap.length text = 0 := by
  obtain ⟨depth, hb⟩ := Comment.block?_unclosed_iff.2 h
  obtain ⟨behind, rfl⟩ := h.1
  refine Gap.length_eq_zero rfl fun n hn => ?_
  have := hb.symm.trans hn
  cases this

/-- In front of digits no comment begins. -/
theorem Number.begins (h : Number digits rest count) (hne : digits ≠ []) :
    Comment.line? (digits ++ rest) = none ∧ ¬ Comment.LeftOpen (digits ++ rest) := by
  obtain ⟨c, tail, rfl⟩ := List.exists_cons_of_ne_nil hne
  have hc := (longest_run_iff.1 h.longest).1 c List.mem_cons_self
  constructor
  · rw [Comment.line?_eq_none_iff_prefix]
    rintro ⟨behind, heq⟩
    obtain rfl : '-' = c := by simpa using congrArg List.head? heq
    cases hc
  · rintro ⟨⟨behind, heq⟩, -⟩
    obtain rfl : '/' = c := by simpa using congrArg List.head? heq
    cases hc

/-- Behind the longest gap no other one follows. -/
theorem eq_nil_of_longest {trail : List Char} (h : Longest Gap.IsGap gap (trail ++ rest))
    (ht : Gap.IsGap trail) : trail = [] := by
  have hle := h.longest (gap ++ trail) rest (by simp) (h.holds.append ht)
  rw [List.length_append] at hle
  exact List.eq_nil_of_length_eq_zero (by omega)

/-- Without digits the count is a single run. -/
theorem Number.eq_once (h : Number [] rest count) : count = .once :=
  RepeatCount.ext h.val

/-! ### What trails a count -/

/-- Nothing trails a count behind which no gap leads to a comment. -/
theorem trailing_of_alone
    (alone : ∀ trail behind, rest = trail ++ behind → Gap.IsGap trail →
      ¬ ['-', '-'] <+: behind ∧ ¬ Comment.LeftOpen behind) :
    Verdict.trailing rest = .ok 0 := by
  have hsplit := (List.take_append_drop (Gap.length rest) rest).symm
  obtain ⟨hdashes, hopen⟩ := alone _ _ hsplit (Gap.isGap_take_length rest)
  refine Verdict.trailing_eq_ok.2 ⟨Gap.length rest, ?_, .inr ⟨?_, rfl⟩⟩
  · refine Gap.read_eq_ok_iff.2 ⟨_, _, hsplit, ?_, Gap.longest_take rest, hopen⟩
    rw [List.length_take, Nat.min_eq_left (Gap.length_le rest)]
  · exact Comment.line?_eq_none_iff_prefix.2 hdashes

/-- Where nothing trails a count no gap leads to a comment: what is read is the longest gap, and no
other one ends in front of a comment. -/
theorem alone_of_trailing {g : Nat} (hread : Gap.read rest = .ok g)
    (hnone : Comment.line? (rest.drop g) = none) {trail behind : List Char}
    (hrest : rest = trail ++ behind) (between : Gap.IsGap trail) :
    ¬ ['-', '-'] <+: behind ∧ ¬ Comment.LeftOpen behind := by
  subst hrest
  obtain ⟨hg, hblock⟩ := Gap.read_eq_ok.1 hread
  rw [Gap.length_append_of_isGap between] at hg
  constructor
  · intro hdashes
    rw [length_eq_zero_of_dashes hdashes, Nat.add_zero] at hg
    rw [hg, List.drop_left] at hnone
    exact Comment.line?_eq_none_iff_prefix.1 hnone hdashes
  · intro hopen
    rw [length_eq_zero_of_leftOpen hopen, Nat.add_zero] at hg
    rw [hg, List.drop_left] at hblock
    obtain ⟨depth, hb⟩ := Comment.block?_unclosed_iff.2 hopen
    rw [hblock] at hb
    cases hb

/-- A line comment behind a gap trails the count with it. -/
theorem trailing_of_isLine {trail comment : List Char} (between : Gap.IsGap trail)
    (line : Comment.IsLine comment rest) :
    Verdict.trailing (trail ++ (comment ++ rest)) = .ok (trail.length + comment.length) := by
  have hdashes : ['-', '-'] <+: comment ++ rest := line.opens.trans (List.prefix_append _ _)
  refine Verdict.trailing_eq_ok.2 ⟨trail.length, ?_, .inl ⟨comment.length, ?_, rfl⟩⟩
  · exact Gap.read_eq_ok_iff.2 ⟨trail, _, rfl, rfl,
      Gap.longest_of_length_eq_zero between (length_eq_zero_of_dashes hdashes),
      not_leftOpen_of_dashes hdashes⟩
  · rw [List.drop_left, Comment.line?_append_iff.2 line]

/-- A block comment left open behind a gap is found open behind the count. -/
theorem exists_trailing_of_leftOpen {trail : List Char} (between : Gap.IsGap trail)
    (opened : Comment.LeftOpen rest) :
    ∃ depth, Verdict.trailing (trail ++ rest) = .error { before := trail.length, depth } := by
  obtain ⟨depth, hb⟩ := Comment.block?_unclosed_iff.2 opened
  refine ⟨depth, Verdict.trailing_eq_error.2 (Gap.read_eq_error_iff.2 ⟨trail, rest, rfl, rfl, ?_,
    hb⟩)⟩
  exact Gap.longest_of_length_eq_zero between (length_eq_zero_of_leftOpen opened)

/-! ### From the grammar to the verdict -/

/-- Behind the front of a statement the verdict is that on its tail. -/
theorem Lead.ofText_eq {v : Verdict} (h : Lead o blanks keyword gap rest)
    (ht : Verdict.Tail (gap ++ rest) v) :
    Verdict.ofText o (blanks ++ (keyword ++ (gap ++ rest))) =
      v.shift (blanks.length + keyword.length) := by
  obtain ⟨hkeyed, hjoined, -⟩ := lead_iff.1 h
  rw [Verdict.ofText_of_keyed hkeyed, (Verdict.ofTail_eq_iff hjoined).2 ht]

/-- The gap of the front is read if it does not end in a comment left open. -/
theorem Lead.read_eq (h : Lead o blanks keyword gap rest) (hopen : ¬ Comment.LeftOpen rest) :
    Gap.read (gap ++ rest) = .ok gap.length :=
  Gap.read_eq_ok_iff.2 ⟨gap, rest, rfl, rfl, h.gap, hopen⟩

/-- A count behind the gap of the front decides the verdict with what trails it. -/
theorem Lead.ofText_count {n : Nat} (h : Lead o blanks keyword gap (digits ++ rest))
    (hopen : ¬ Comment.LeftOpen (digits ++ rest))
    (hline : Comment.line? (digits ++ rest) = none) (number : Number digits rest count)
    (htrail : Verdict.trailing rest = .ok n) :
    Verdict.ofText o (blanks ++ (keyword ++ (gap ++ (digits ++ rest)))) =
      .found count (blanks.length + keyword.length + (gap.length + (digits.length + n))) := by
  obtain ⟨hdigits, hcount⟩ := number_iff.1 number
  have hread := h.read_eq hopen
  refine h.ofText_eq (v := .found count (gap.length + (digits.length + n))) ?_
  have ht := Verdict.Tail.count hread (by rwa [List.drop_left])
    (show _ = some count by rwa [List.drop_left, hdigits])
    (show _ = Except.ok n by rwa [List.drop_left, hdigits, List.drop_left])
  rwa [List.drop_left, hdigits] at ht

/-- The front of a statement with a line comment behind it is a statement. -/
theorem Lead.ofText_comment {comment : List Char}
    (h : Lead o blanks keyword gap (comment ++ rest)) (line : Comment.IsLine comment rest) :
    Verdict.ofText o (blanks ++ (keyword ++ (gap ++ (comment ++ rest)))) =
      .found .once (blanks.length + keyword.length + (gap.length + comment.length)) := by
  have hdashes : ['-', '-'] <+: comment ++ rest := line.opens.trans (List.prefix_append _ _)
  have hread := h.read_eq (not_leftOpen_of_dashes hdashes)
  have hline := Comment.line?_append_iff.2 line
  exact h.ofText_eq (.comment hread (by rwa [List.drop_left]))

/-- The grammar derives statements that the verdict finds. -/
theorem Derives.ofText_eq {statement : List Char} (h : Derives o statement rest count) :
    Verdict.ofText o (statement ++ rest) = .found count statement.length := by
  cases h with
  | @commented blanks keyword gap comment _ lead line =>
      have hfound := lead.ofText_comment line
      simp only [List.append_assoc, hfound, List.length_append, Nat.add_assoc]
  | @counted blanks keyword gap digits _ _ lead number alone =>
      have hfront : ¬ Comment.LeftOpen (digits ++ rest) ∧
          Comment.line? (digits ++ rest) = none := by
        by_cases hne : digits = []
        · subst hne
          obtain ⟨hdashes, hopen⟩ := alone [] rest rfl .nil
          exact ⟨hopen, Comment.line?_eq_none_iff_prefix.2 hdashes⟩
        · exact (number.begins hne).symm
      have hfound := lead.ofText_count hfront.1 hfront.2 number (trailing_of_alone alone)
      simp only [List.append_assoc, hfound, List.length_append, Nat.add_assoc, Nat.add_zero]
  | @trailed blanks keyword gap digits trail comment _ _ lead number between line =>
      by_cases hne : digits = []
      · -- Without digits the gap behind the count is part of the one in front of it.
        subst hne
        rw [List.nil_append] at lead
        obtain rfl := eq_nil_of_longest lead.gap between
        obtain rfl := number.eq_once
        rw [List.nil_append] at lead
        have hfound := lead.ofText_comment line
        simp only [List.append_assoc, List.nil_append, hfound, List.length_append, Nat.add_assoc]
      · obtain ⟨hline, hopen⟩ := number.begins hne
        have hfound := lead.ofText_count hopen hline number (trailing_of_isLine between line)
        simp only [List.append_assoc, hfound, List.length_append, Nat.add_assoc]

/-- A comment left open behind the front of a statement is found open there. -/
theorem Lead.exists_ofText_leftOpen (h : Lead o blanks keyword gap rest)
    (opened : Comment.LeftOpen rest) :
    ∃ depth, Verdict.ofText o (blanks ++ (keyword ++ (gap ++ rest))) =
      .unclosed { before := blanks.length + keyword.length + gap.length, depth } := by
  obtain ⟨depth, hb⟩ := Comment.block?_unclosed_iff.2 opened
  refine ⟨depth, h.ofText_eq (v := .unclosed { before := gap.length, depth }) ?_⟩
  exact .openGap (Gap.read_eq_error_iff.2 ⟨gap, rest, rfl, rfl, h.gap, hb⟩)

/-- Where the grammar leaves a comment open, so does the verdict. -/
theorem LeavesOpen.ofText_eq {before : List Char} (h : LeavesOpen o before rest) :
    ∃ depth, Verdict.ofText o (before ++ rest) = .unclosed { before := before.length, depth } := by
  cases h with
  | @gap blanks keyword gap _ lead opened =>
      obtain ⟨depth, h⟩ := lead.exists_ofText_leftOpen opened
      exact ⟨depth, by simp only [List.append_assoc, h, List.length_append, Nat.add_assoc]⟩
  | @trail blanks keyword gap digits trail _ count lead number between opened =>
      by_cases hne : digits = []
      · subst hne
        rw [List.nil_append] at lead
        obtain rfl := eq_nil_of_longest lead.gap between
        rw [List.nil_append] at lead
        obtain ⟨depth, h⟩ := lead.exists_ofText_leftOpen opened
        refine ⟨depth, ?_⟩
        simp only [List.append_nil, List.append_assoc, h, List.length_append, Nat.add_assoc]
      · obtain ⟨hline, hopen⟩ := number.begins hne
        obtain ⟨hdigits, hcount⟩ := number_iff.1 number
        obtain ⟨depth, htrail⟩ := exists_trailing_of_leftOpen between opened
        have ht := Verdict.Tail.openTrail (lead.read_eq hopen) (by rwa [List.drop_left])
          (show _ = some count by rwa [List.drop_left, hdigits])
          (show _ = Except.error { before := trail.length, depth } by
            rwa [List.drop_left, hdigits, List.drop_left])
        rw [List.drop_left, hdigits] at ht
        have h := lead.ofText_eq ht
        refine ⟨depth, ?_⟩
        simp only [List.append_assoc, h, Verdict.shift, Opening.shift, List.length_append,
          Nat.add_assoc]

/-! ### From the verdict to the grammar -/

/-- Digits that write a count are a stretch of their own. -/
theorem exists_number {text : List Char}
    (h : RepeatCount.ofDigits? (Verdict.digits text) = some count) :
    ∃ digits rest, text = digits ++ rest ∧ Verdict.digits text = digits ∧
      Number digits rest count := by
  have htext : Verdict.digits text ++ text.dropWhile Char.isDigit = text :=
    List.takeWhile_append_dropWhile
  exact ⟨_, _, htext.symm, rfl, number_iff.2 ⟨by rw [htext], h⟩⟩

/-- The front of a statement, from its keyword and the gap read behind it. -/
theorem Lead.of_keyed {tail : List Char} (hkeyed : Verdict.Keyed o blanks keyword tail)
    (hjoined : Verdict.joined o tail = false) (htail : tail = gap ++ rest)
    (hgap : Longest Gap.IsGap gap rest) : Lead o blanks keyword gap rest :=
  lead_iff.2 ⟨htail ▸ hkeyed, htail ▸ hjoined, hgap⟩

/-- A statement that the verdict finds is derived by the grammar. -/
theorem exists_derives {text : List Char} {n : Nat}
    (h : Verdict.ofText o text = .found count n) :
    ∃ statement rest, text = statement ++ rest ∧ n = statement.length ∧
      Derives o statement rest count := by
  obtain ⟨blanks, keyword, tail, m, rfl, hkeyed, hjoined, ht, rfl⟩ := Verdict.keyed_of_found h
  cases ht with
  | @comment g n hgap hline =>
      obtain ⟨gap, behind, htail, rfl, hlongest, -⟩ := Gap.read_eq_ok_iff.1 hgap
      have hlead := Lead.of_keyed hkeyed hjoined htail hlongest
      rw [htail, List.drop_left] at hline
      obtain ⟨comment, rest, rfl, rfl, hcomment⟩ := Comment.line?_eq_some_iff.1 hline
      refine ⟨_, rest, ?_, ?_, .commented hlead hcomment⟩
      · simp only [htail, List.append_assoc]
      · simp only [List.length_append, Nat.add_assoc]
  | @count g n count hgap hline hcount htrail =>
      obtain ⟨gap, behind, htail, rfl, hlongest, -⟩ := Gap.read_eq_ok_iff.1 hgap
      have hlead := Lead.of_keyed hkeyed hjoined htail hlongest
      rw [htail, List.drop_left] at hcount htrail ⊢
      obtain ⟨digits, rest, rfl, hdigits, hnumber⟩ := exists_number hcount
      rw [hdigits, List.drop_left] at htrail
      obtain ⟨g, hread, ⟨m, hm, rfl⟩ | ⟨hnone, rfl⟩⟩ := Verdict.trailing_eq_ok.1 htrail
      · obtain ⟨trail, behind, rfl, rfl, hbetween, -⟩ := Gap.read_eq_ok_iff.1 hread
        rw [List.drop_left] at hm
        obtain ⟨comment, rest, rfl, rfl, hcomment⟩ := Comment.line?_eq_some_iff.1 hm
        refine ⟨_, rest, ?_, ?_, .trailed hlead hnumber hbetween.holds hcomment⟩
        · simp only [List.append_assoc]
        · simp only [hdigits, List.length_append, Nat.add_assoc]
      · refine ⟨_, rest, ?_, ?_, .counted hlead hnumber ?_⟩
        · simp only [List.append_assoc]
        · simp only [hdigits, List.length_append, Nat.add_assoc, Nat.add_zero]
        · exact fun trail behind => alone_of_trailing hread hnone

/-- A comment that the verdict finds open is left open by the grammar. -/
theorem exists_leavesOpen {text : List Char} {e : Opening}
    (h : Verdict.ofText o text = .unclosed e) :
    ∃ before rest, text = before ++ rest ∧ e.before = before.length ∧
      LeavesOpen o before rest := by
  obtain ⟨blanks, keyword, tail, e, rfl, hkeyed, hjoined, ht, rfl⟩ := Verdict.keyed_of_unclosed h
  cases ht with
  | openGap hgap =>
      obtain ⟨gap, rest, htail, hbefore, hlongest, hb⟩ := Gap.read_eq_error_iff.1 hgap
      have hlead := Lead.of_keyed hkeyed hjoined htail hlongest
      refine ⟨_, rest, ?_, ?_, .gap hlead (Comment.block?_unclosed_iff.1 ⟨_, hb⟩)⟩
      · simp only [htail, List.append_assoc]
      · simp only [Opening.shift, hbefore, List.length_append, Nat.add_assoc]
  | @openTrail g count e hgap hline hcount htrail =>
      obtain ⟨gap, behind, htail, rfl, hlongest, -⟩ := Gap.read_eq_ok_iff.1 hgap
      have hlead := Lead.of_keyed hkeyed hjoined htail hlongest
      rw [htail, List.drop_left] at hcount htrail ⊢
      obtain ⟨digits, rest, rfl, hdigits, hnumber⟩ := exists_number hcount
      rw [hdigits, List.drop_left] at htrail
      obtain ⟨trail, rest, rfl, hbefore, hbetween, hb⟩ :=
        Gap.read_eq_error_iff.1 (Verdict.trailing_eq_error.1 htrail)
      refine ⟨_, rest, ?_, ?_, .trail hlead hnumber hbetween.holds
        (Comment.block?_unclosed_iff.1 ⟨_, hb⟩)⟩
      · simp only [List.append_assoc]
      · simp only [hdigits, Opening.shift, hbefore, List.length_append, Nat.add_assoc]

/-- The grammar derives exactly the statements that the verdict finds. -/
theorem derives_iff {statement : List Char} :
    Derives o statement rest count ↔
      Verdict.ofText o (statement ++ rest) = .found count statement.length := by
  refine ⟨Derives.ofText_eq, fun h => ?_⟩
  obtain ⟨statement', rest', htext, hlen, hderives⟩ := exists_derives h
  obtain ⟨rfl, rfl⟩ := List.append_inj htext hlen
  exact hderives

/-- The grammar leaves a comment open exactly where the verdict does. -/
theorem leavesOpen_iff {before : List Char} :
    LeavesOpen o before rest ↔
      ∃ depth, Verdict.ofText o (before ++ rest) =
        .unclosed { before := before.length, depth } := by
  refine ⟨LeavesOpen.ofText_eq, fun ⟨depth, h⟩ => ?_⟩
  obtain ⟨before', rest', htext, hlen, hopen⟩ := exists_leavesOpen h
  obtain ⟨rfl, rfl⟩ := List.append_inj htext hlen
  exact hopen

end Statement

/-! ### Reading a separator -/

namespace Scan

variable {o : Options} {r r' : Reading}

/-- A count is given where the verdict finds a statement. -/
theorem separator_eq_some_iff {count : RepeatCount} :
    separator o r = .ok (some count) r' ↔
      ∃ n, Verdict.ofText o r.cursor.ahead = .found count n ∧ r' = r.skip n := by
  rw [separator_run]
  cases hv : Verdict.ofText o r.cursor.ahead with
  | found found n =>
      constructor
      · intro h
        cases h
        exact ⟨n, rfl, rfl⟩
      · rintro ⟨m, h, rfl⟩
        cases h
        rfl
  | absent => simp
  | unusable digits => simp
  | unclosed e => simp

/-- Reading fails where the verdict finds a comment open. -/
theorem separator_eq_error_iff {failure : Failure} :
    (∃ r', separator o r = .error failure r') ↔
      ∃ e, Verdict.ofText o r.cursor.ahead = .unclosed e ∧ failure = openFailure r.cursor e := by
  rw [separator_run]
  cases hv : Verdict.ofText o r.cursor.ahead with
  | found found n => simp
  | absent => simp
  | unusable digits => simp
  | unclosed e =>
      constructor
      · rintro ⟨r', h⟩
        cases h
        exact ⟨e, rfl, rfl⟩
      · rintro ⟨e', h, rfl⟩
        cases h
        exact ⟨_, rfl⟩

/-- Nothing is found where the verdict finds neither. -/
theorem separator_eq_none_iff :
    (∃ r', separator o r = .ok none r') ↔ (Verdict.ofText o r.cursor.ahead).isNone = true := by
  rw [separator_run]
  cases Verdict.ofText o r.cursor.ahead <;> simp [Verdict.isNone]

/-- Unless a statement is found the cursor stays. -/
theorem cursor_of_separator
    (h : separator o r = .ok none r' ∨ ∃ failure, separator o r = .error failure r') :
    r'.cursor = r.cursor := by
  rcases h with h | ⟨failure, h⟩
  · exact separator_none h
  · rw [separator_run] at h
    split at h <;> cases h
    rfl

end Scan

/-- **The grammar of separator statements.** Reading a separator at the cursor gives a count exactly
if the text ahead begins with a statement of the grammar, and passes over that statement. It fails
exactly if the text ahead leaves a block comment open in a gap of a statement, at the opener of that
comment, and it finds nothing exactly if the grammar says neither. The cursor moves only over a
statement found. -/
theorem separator_iff_derives (o : Options) (r : Reading) :
    (∀ count r', Scan.separator o r = .ok (some count) r' ↔
      ∃ statement rest, r.cursor.ahead = statement ++ rest ∧
        Statement.Derives o statement rest count ∧ r' = r.skip statement.length) ∧
      (∀ failure, (∃ r', Scan.separator o r = .error failure r') ↔
        ∃ before rest, r.cursor.ahead = before ++ rest ∧ Statement.LeavesOpen o before rest ∧
          failure = .malformed
            { construct := .blockComment, line := (r.cursor.position.after before).line,
              column := (r.cursor.position.after before).column }) ∧
      ((∃ r', Scan.separator o r = .ok none r') ↔
        ∀ front rest, r.cursor.ahead = front ++ rest →
          (∀ count, ¬ Statement.Derives o front rest count) ∧
            ¬ Statement.LeavesOpen o front rest) ∧
      ∀ r', (Scan.separator o r = .ok none r' ∨
          ∃ failure, Scan.separator o r = .error failure r') → r'.cursor = r.cursor := by
  refine ⟨fun count r' => ?_, fun failure => ?_, ?_, fun r' => Scan.cursor_of_separator⟩
  · rw [Scan.separator_eq_some_iff]
    constructor
    · rintro ⟨n, hfound, rfl⟩
      obtain ⟨statement, rest, htext, rfl, hderives⟩ := Statement.exists_derives hfound
      exact ⟨statement, rest, htext, hderives, rfl⟩
    · rintro ⟨statement, rest, htext, hderives, rfl⟩
      exact ⟨_, by rw [htext, Statement.derives_iff.1 hderives], rfl⟩
  · rw [Scan.separator_eq_error_iff]
    have hfailure {before rest : List Char} {e : Opening} (htext : r.cursor.ahead = before ++ rest)
        (he : e.before = before.length) : Scan.openFailure r.cursor e =
          .malformed
            { construct := .blockComment, line := (r.cursor.position.after before).line,
              column := (r.cursor.position.after before).column } := by
      rw [Scan.openFailure, he, Cursor.position_skip, htext, List.take_left]
    constructor
    · rintro ⟨e, hunclosed, rfl⟩
      obtain ⟨before, rest, htext, he, hopen⟩ := Statement.exists_leavesOpen hunclosed
      exact ⟨before, rest, htext, hopen, hfailure htext he⟩
    · rintro ⟨before, rest, htext, hopen, rfl⟩
      obtain ⟨depth, hunclosed⟩ := Statement.leavesOpen_iff.1 hopen
      exact ⟨_, by rw [htext, hunclosed], (hfailure htext rfl).symm⟩
  · rw [Scan.separator_eq_none_iff]
    constructor
    · rintro hnone front rest htext
      rw [htext] at hnone
      refine ⟨fun count hderives => ?_, fun hopen => ?_⟩
      · rw [Statement.derives_iff.1 hderives] at hnone
        cases hnone
      · obtain ⟨depth, hunclosed⟩ := Statement.leavesOpen_iff.1 hopen
        rw [hunclosed] at hnone
        cases hnone
    · intro h
      cases hv : Verdict.ofText o r.cursor.ahead with
      | found count n =>
          obtain ⟨statement, rest, htext, -, hderives⟩ := Statement.exists_derives hv
          exact absurd hderives ((h statement rest htext).1 count)
      | unclosed e =>
          obtain ⟨before, rest, htext, -, hopen⟩ := Statement.exists_leavesOpen hv
          exact absurd hopen (h before rest htext).2
      | absent => rfl
      | unusable digits => rfl

end BatchScript
