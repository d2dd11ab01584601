import BatchScript.Proofs.Ending

/-!
# Texts in front of a block comment

What a text is read as in front of a block comment. The text is whole: it leaves nothing open and
does not end in a line comment. A block comment is not like what `Ends` puts behind a text, for it
goes on with the gap of a statement; but it goes on with nothing else. So a piece that the text
begins with is settled by the text, unless it is a statement whose gap reaches the comment, and then
the verdict depends on the comment and on what is behind it in one of two ways. `Verdict.Reach` says
how far a verdict reaches.

## Main results

* `Verdict.exists_reach` — the verdict on a whole text in front of a block comment.
* `Outlook.settled_or_pending` — the piece that the text begins with is settled, or a statement
  reaches the comment.
* `exists_approach` — a passage through the text up to the comment, or to a statement that reaches
  it, whatever the comment holds.
-/

namespace BatchScript

/-! ### Whole texts -/

/-- A blind reading finds the same open from everywhere. -/
theorem blindFault?_eq_none {o : Options} {p : Position} {text : List Char}
    (h : blindFault? o p text = none) (p' : Position) : blindFault? o p' text = none := by
  fun_induction blindFault? o p text generalizing p' with
  | case1 p => rw [blindFault?]
  | case2 p first rest n hn ih => rw [blindFault?, hn]; exact ih h _
  | case3 p first rest n hn ih => rw [blindFault?, hn]; exact ih h _
  | case4 p first rest construct hn => cases h
  | case5 p first rest hn ih => rw [blindFault?, hn]; exact ih h _

/-- A text that leaves nothing open and does not end in a line comment. -/
structure Whole (o : Options) (text : List Char) : Prop where
  closed : ∀ p, blindFault? o p text = none
  line : endsInLineComment o text = false

namespace Whole

variable {o : Options} {text : List Char} {n : Nat}

theorem nil (o : Options) : Whole o [] := by
  refine ⟨fun p => ?_, ?_⟩
  · rw [blindFault?]
  · rw [endsInLineComment]

/-- What is left of a whole text is whole. -/
theorem drop (h : Whole o text) (hr : Reads o text n) : Whole o (text.drop n) := by
  refine ⟨fun p => ?_, hr.endsInLineComment_drop h.line⟩
  have hclosed := h.closed {}
  rw [hr.clear] at hclosed
  exact blindFault?_eq_none hclosed p

/-- A script that can be split, and does not end in a line comment, is whole. -/
theorem of_split {script : String} {batches : List Batch} (ho : HasWordSeparator o)
    (h : split o script = .ok batches) (hline : endsInLineComment o script.toList = false) :
    Whole o script.toList := by
  refine ⟨fun p => ?_, hline⟩
  cases hf : blindFault? o {} script.toList with
  | none => exact blindFault?_eq_none hf p
  | some m =>
      rw [(split_error_iff_blindFault? ho _).2 ⟨m, hf, rfl⟩] at h
      cases h

/-- A whole text opens nothing that it does not close. -/
theorem not_unclosed (h : Whole o text) {construct : Construct} :
    ¬ Hiding.Hides o text (.unclosed construct) := by
  intro hh
  have hclosed := h.closed {}
  rw [(Opens.of_unclosed hh).blindFault?_eq {}] at hclosed
  cases hclosed

/-- Its gap ends before no comment that is left open. -/
theorem read_gap (h : Whole o text) : Gap.read text = .ok (Gap.length text) := by
  cases hg : Gap.read text with
  | ok g => rw [(Gap.read_eq_ok.1 hg).1]
  | error e =>
      have hclosed := h.closed {}
      rw [(opens_of_gap hg).blindFault?_eq {}] at hclosed
      cases hclosed

end Whole

/-! ### Constructs in front of a block comment -/

/-- A text that begins like a block comment. -/
def opened (inside : List Char) : List Char :=
  '/' :: '*' :: inside

section

variable {o : Options} {text : List Char} {n : Nat}

theorem isWord_head?_opened (inside : List Char) :
    ∀ c ∈ (opened inside).head?, isWord c = false := by
  rintro c ⟨⟩
  decide

theorem isLinear_head?_opened (inside : List Char) :
    ∀ c ∈ (opened inside).head?, isLinear c = false := by
  rintro c ⟨⟩
  decide

namespace Whole

/-- A line comment ends in the text. -/
theorem line?_append (h : Whole o text) (inside : List Char) :
    Comment.line? (text ++ opened inside) = Comment.line? text := by
  cases hl : Comment.line? text with
  | some n => exact Comment.line?_append_of_lt _ hl (lt_length_of_line? h.line hl)
  | none =>
      by_cases ht : text = []
      · rw [ht]
        rfl
      · exact (Comment.line?_append_eq_none ht (by simp [opened])).2 hl

/-- A gap that ends before the comment. -/
theorem read_append (h : Whole o text) (hlt : Gap.length text < text.length) (inside : List Char) :
    Gap.read (text ++ opened inside) = .ok (Gap.length text) := by
  have hne : text.drop (Gap.length text) ≠ [] := by simpa using hlt
  have hstar : (opened inside).head? ≠ some '*' := by simp [opened]
  obtain ⟨-, hnone⟩ := Gap.read_eq_ok.1 h.read_gap
  rw [Gap.read_eq_ok, Gap.length_append_of_lt hstar hlt hnone,
    List.drop_append_of_le_length (Gap.length_le text)]
  exact ⟨rfl, (Comment.block?_append_eq_none hne hstar).2 hnone⟩

/-- What trails a count whose gap ends before the comment. -/
theorem trailing_append (h : Whole o text) (hlt : Gap.length text < text.length)
    (inside : List Char) : Verdict.trailing (text ++ opened inside) = Verdict.trailing text := by
  have hdrop : (text ++ opened inside).drop (Gap.length text) =
      text.drop (Gap.length text) ++ opened inside :=
    List.drop_append_of_le_length (Gap.length_le text)
  have hline := (h.drop (reads_of_gap o text)).line?_append inside
  simp only [Verdict.trailing, h.read_append hlt, h.read_gap, hdrop, hline]

end Whole

end

namespace Gap

/-- What is read of a gap with so many characters before it. -/
def shift (n : Nat) : Except Opening Nat → Except Opening Nat
  | .ok g => .ok (n + g)
  | .error e => .error (e.shift n)

/-- A gap that reaches the end of a text goes on behind it. -/
theorem read_append_of_eq {text : List Char} (heq : length text = text.length)
    (behind : List Char) : read (text ++ behind) = shift text.length (read behind) := by
  have hlength : length (text ++ behind) = text.length + length behind := length_append_of_eq heq
  have hdrop (g : Nat) : (text ++ behind).drop (text.length + g) = behind.drop g := by
    rw [← List.drop_drop, List.drop_left]
  cases hg : read behind with
  | ok g =>
      obtain ⟨rfl, hnone⟩ := read_eq_ok.1 hg
      refine read_eq_ok.2 ⟨hlength.symm, ?_⟩
      rwa [hdrop]
  | error e =>
      obtain ⟨hbefore, hopen⟩ := read_eq_error.1 hg
      refine read_eq_error.2 ⟨?_, ?_⟩
      · rw [hlength, ← hbefore]
        rfl
      · rw [Opening.shift, hdrop]
        exact hopen

end Gap

namespace Verdict

variable {o : Options} {text : List Char}

/-! ### Verdicts that reach the end of a text -/

theorem digits_append_opened (text inside : List Char) :
    digits (text ++ opened inside) = digits text :=
  digits_append (by rintro c ⟨⟩; decide)

/-- What trails a count with so many characters of a gap before it, which count only if a line
comment is behind the gap. -/
def shiftTrail (n : Nat) : Except Opening Nat → Except Opening Nat
  | .ok 0 => .ok 0
  | .ok (k + 1) => .ok (n + (k + 1))
  | .error e => .error (e.shift n)

theorem trailing_append_of_eq (heq : Gap.length text = text.length) (behind : List Char) :
    trailing (text ++ behind) = shiftTrail text.length (trailing behind) := by
  have hdrop (g : Nat) : (text ++ behind).drop (text.length + g) = behind.drop g := by
    rw [← List.drop_drop, List.drop_left]
  rw [trailing, trailing, Gap.read_append_of_eq heq]
  cases Gap.read behind with
  | error e => rfl
  | ok g =>
      simp only [Gap.shift, hdrop]
      cases hl : Comment.line? (behind.drop g) with
      | none => rfl
      | some n =>
          have htwo := Comment.two_le_of_line? hl
          obtain ⟨k, hk⟩ : ∃ k, g + n = k + 1 := ⟨g + n - 1, by omega⟩
          simp only
          rw [hk, shiftTrail, ← hk, Nat.add_assoc]

/-- The verdict from the gap behind the keyword on. -/
def ofGap (text : List Char) : Verdict :=
  match Gap.read text with
  | .error e => .unclosed e
  | .ok g =>
    match Comment.line? (text.drop g) with
    | some n => .found .once (g + n)
    | none => (ofCount (text.drop g)).shift g

theorem ofTail_eq (o : Options) (text : List Char) :
    ofTail o text = if joined o text then .absent else ofGap text := rfl

theorem shift_shift (m n : Nat) (v : Verdict) : (v.shift n).shift m = v.shift (m + n) := by
  cases v <;> simp [shift, Opening.shift, Nat.add_assoc]

/-- The verdict behind a gap is the one on what follows it. -/
theorem ofGap_append_of_eq (heq : Gap.length text = text.length) (behind : List Char) :
    ofGap (text ++ behind) = (ofGap behind).shift text.length := by
  have hdrop (g : Nat) : (text ++ behind).drop (text.length + g) = behind.drop g := by
    rw [← List.drop_drop, List.drop_left]
  rw [ofGap, ofGap, Gap.read_append_of_eq heq]
  cases Gap.read behind with
  | error e => rfl
  | ok g =>
      simp only [Gap.shift, hdrop]
      cases Comment.line? (behind.drop g) with
      | none => exact (shift_shift _ _ _).symm
      | some n => simp only [shift, Nat.add_assoc]

/-- A statement with a count whose gap reaches the end of the text, with what trails the count
there. Unless a line comment does, the statement ends with the count. -/
def ofTrail (count : RepeatCount) (statement length : Nat) : Except Opening Nat → Verdict
  | .ok 0 => .found count statement
  | .ok (k + 1) => .found count (length + (k + 1))
  | .error e => .unclosed (e.shift length)

/-- How far the verdict on a text reaches into what is behind it. -/
inductive Reach
  /-- Not at all. -/
  | settled (v : Verdict)
  /-- The gap behind the keyword reaches the end of the text, which is so long. -/
  | gap (length : Nat)
  /-- The gap behind the count does; up to the count the statement is so long. -/
  | trail (count : RepeatCount) (statement length : Nat)

namespace Reach

/-- The verdict, with what is behind the text. -/
def verdict : Reach → List Char → Verdict
  | settled v, _ => v
  | gap length, behind => (ofGap behind).shift length
  | trail count statement length, behind => ofTrail count statement length (trailing behind)

/-- The reach of a text with so many characters before it. -/
def shift (n : Nat) : Reach → Reach
  | settled v => settled (v.shift n)
  | gap length => gap (n + length)
  | trail count statement length => trail count (n + statement) (n + length)

theorem verdict_shift (n : Nat) (reach : Reach) (behind : List Char) :
    (reach.shift n).verdict behind = (reach.verdict behind).shift n := by
  cases reach with
  | settled v => rfl
  | gap length => exact (shift_shift _ _ _).symm
  | trail count statement length =>
      simp only [shift, verdict]
      rcases trailing behind with e | _ | k <;>
        simp [ofTrail, Verdict.shift, Opening.shift, Nat.add_assoc]

/-- Such a reach of a text: what is found in the text is read there, and a comment is left open only
behind it. -/
inductive Fits (o : Options) (text : List Char) : Reach → Prop
  | settled {v : Verdict} (closed : ∀ e, v ≠ .unclosed e)
      (within : ∀ count n, v = .found count n → Reads o text n) :
      Fits o text (.settled v)
  | gap : Fits o text (.gap text.length)
  | trail {count : RepeatCount} {n : Nat} (reads : Reads o text n) :
      Fits o text (.trail count n text.length)

/-- What a text reaches, it reaches with a keyword before it. -/
theorem Fits.shift {text tail : List Char} {n : Nat} {reach : Reach} (h : Fits o tail reach)
    (hr : Reads o text n) (htail : text.drop n = tail) : Fits o text (reach.shift n) := by
  have hlength : n + tail.length = text.length := by
    rw [← htail, List.length_drop, Nat.add_sub_cancel' hr.le_length]
  cases h with
  | @settled v closed within =>
      refine .settled (fun e he => ?_) (fun count m hm => ?_)
      · obtain ⟨e', he', -⟩ := shift_eq_unclosed.1 he
        exact closed e' he'
      · obtain ⟨k, hk, rfl⟩ := shift_eq_found.1 hm
        exact hr.add (htail ▸ within count k hk)
  | gap =>
      rw [Reach.shift, hlength]
      exact .gap
  | trail reads =>
      rw [Reach.shift, hlength]
      exact .trail (hr.add (htail ▸ reads))

end Reach

/-- The verdict from the count on, in front of a block comment. -/
theorem exists_reach_ofCount (h : Whole o text) :
    ∃ reach : Reach, reach.Fits o text ∧
      ∀ inside, ofCount (text ++ opened inside) = reach.verdict (opened inside) := by
  have hdigits := reads_of_digits o text
  have hle := length_digits_le text
  obtain ⟨rest, hrest⟩ : ∃ rest, rest = text.drop (digits text).length := ⟨_, rfl⟩
  have hwhole : Whole o rest := hrest ▸ h.drop hdigits
  have hlength : rest.length = text.length - (digits text).length := by rw [hrest, List.length_drop]
  have hdrop (inside : List Char) :
      (text ++ opened inside).drop (digits text).length = rest ++ opened inside := by
    rw [List.drop_append_of_le_length hle, hrest]
  cases hcount : RepeatCount.ofDigits? (digits text) with
  | none =>
      refine ⟨.settled (.unusable (digits text)), .settled (by simp) (by simp), fun inside => ?_⟩
      simp only [ofCount_eq, digits_append_opened, hcount, Reach.verdict]
  | some count =>
      have hofCount (inside : List Char) : ofCount (text ++ opened inside) =
          match trailing (rest ++ opened inside) with
          | .ok n => .found count ((digits text).length + n)
          | .error e => .unclosed (e.shift (digits text).length) := by
        have hcases := ofCount_eq (text ++ opened inside)
        rw [digits_append_opened, hcount, hdrop] at hcases
        exact hcases
      rcases Nat.lt_or_eq_of_le (Gap.length_le rest) with hlt | heq
      · cases htrail : trailing rest with
        | error e =>
            rw [trailing_eq_error, hwhole.read_gap] at htrail
            cases htrail
        | ok n =>
            refine ⟨.settled (.found count ((digits text).length + n)), .settled (by simp) ?_,
              fun inside => ?_⟩
            · rintro count' k ⟨⟩
              exact hdigits.add (hrest ▸ reads_of_trailing htrail)
            · rw [hofCount, hwhole.trailing_append hlt, htrail]
              rfl
      · refine ⟨.trail count (digits text).length text.length, .trail hdigits, fun inside => ?_⟩
        have hsum : (digits text).length + rest.length = text.length := by omega
        rw [hofCount, trailing_append_of_eq heq, Reach.verdict]
        rcases trailing (opened inside) with e | _ | k
        · simp only [shiftTrail, ofTrail, ← hsum, Opening.shift, Nat.add_assoc]
        · rfl
        · simp only [shiftTrail, ofTrail, ← hsum, Nat.add_assoc]

/-- The verdict behind a keyword that stands as a word of its own, in front of a block comment. -/
theorem exists_reach_ofGap (h : Whole o text) :
    ∃ reach : Reach, reach.Fits o text ∧
      ∀ inside, ofGap (text ++ opened inside) = reach.verdict (opened inside) := by
  have hgap := reads_of_gap o text
  rcases Nat.lt_or_eq_of_le (Gap.length_le text) with hlt | heq
  swap
  · exact ⟨.gap text.length, .gap, fun inside => ofGap_append_of_eq heq _⟩
  obtain ⟨rest, hrest⟩ : ∃ rest, rest = text.drop (Gap.length text) := ⟨_, rfl⟩
  have hwhole : Whole o rest := hrest ▸ h.drop hgap
  have hread (inside : List Char) := h.read_append hlt inside
  have hdrop (inside : List Char) :
      (text ++ opened inside).drop (Gap.length text) = rest ++ opened inside := by
    rw [List.drop_append_of_le_length (Gap.length_le text), hrest]
  have hofGap (inside : List Char) : ofGap (text ++ opened inside) =
      match Comment.line? rest with
      | some n => .found .once (Gap.length text + n)
      | none => (ofCount (rest ++ opened inside)).shift (Gap.length text) := by
    simp only [ofGap, hread, hdrop, hwhole.line?_append]
  cases hline : Comment.line? rest with
  | some n =>
      refine ⟨.settled (.found .once (Gap.length text + n)), .settled (by simp) ?_,
        fun inside => ?_⟩
      · rintro count k ⟨⟩
        exact hgap.add (hrest ▸ .of_comment (.line hline))
      · rw [hofGap, hline]
        rfl
  | none =>
      obtain ⟨reach, hfits, heq⟩ := exists_reach_ofCount hwhole
      refine ⟨reach.shift (Gap.length text), hfits.shift hgap hrest.symm, fun inside => ?_⟩
      rw [hofGap, hline, Reach.verdict_shift, ← heq]

/-- The verdict on a whole text in front of a block comment, whatever the comment holds. -/
theorem exists_reach (ho : HasWordKeywords o) (h : Whole o text) :
    ∃ reach : Reach, reach.Fits o text ∧
      ∀ inside, ofText o (text ++ opened inside) = reach.verdict (opened inside) := by
  have habsent : (Reach.settled .absent).Fits o text := .settled (by simp) (by simp)
  -- A keyword in front of one comment stands in front of every other.
  by_cases hkeyed : ∃ blanks keyword front, text = blanks ++ (keyword ++ front) ∧
      Keyed o blanks keyword front
  · obtain ⟨blanks, keyword, front, rfl, hk⟩ := hkeyed
    have hreads := reads_of_keyed ho.separator hk
    have hdrop : (blanks ++ (keyword ++ front)).drop (blanks.length + keyword.length) = front := by
      rw [← List.append_assoc, ← List.length_append, List.drop_left]
    have hofText (inside : List Char) : ofText o (blanks ++ (keyword ++ front) ++ opened inside) =
        (ofTail o (front ++ opened inside)).shift (blanks.length + keyword.length) := by
      rw [List.append_assoc, List.append_assoc]
      exact ofText_of_keyed ((Keyed.append_iff_of_isWord ho (isWord_head?_opened inside)).2 hk)
    have hjoined (inside : List Char) : joined o (front ++ opened inside) = joined o front := by
      rcases front with _ | ⟨c, front⟩
      · have hslash : continuesKeyword '/' = false := by decide
        simp [joined, opened, hslash]
      · rfl
    cases hj : joined o front with
    | true =>
        refine ⟨.settled .absent, habsent, fun inside => ?_⟩
        rw [hofText, ofTail_of_joined ((hjoined inside).trans hj)]
        rfl
    | false =>
        obtain ⟨reach, hfits, heq⟩ := exists_reach_ofGap (hdrop ▸ h.drop hreads)
        refine ⟨reach.shift (blanks.length + keyword.length), hfits.shift hreads hdrop,
          fun inside => ?_⟩
        rw [hofText, ofTail_eq, hjoined, hj, Reach.verdict_shift, ← heq]
        rfl
  · refine ⟨.settled .absent, habsent, fun inside => ?_⟩
    rcases ofText_eq_absent_or o (text ++ opened inside) with
      ha | ⟨blanks, keyword, tail, htext, hk⟩
    · exact ha
    · obtain ⟨front, hfront, rfl⟩ :=
        hk.exists_front ho (isLinear_head?_opened inside) (isWord_head?_opened inside) htext
      exact absurd ⟨blanks, keyword, front, hfront,
        (Keyed.append_iff_of_isWord ho (isWord_head?_opened inside)).1 hk⟩ hkeyed

end Verdict

/-! ### Pieces and passages in front of a block comment -/

namespace Hiding

variable {o : Options} {text : List Char} {n : Nat}

/-- A comment that a whole text begins with ends in it. -/
theorem comment_append_opened (hx : Whole o text) (h : Hides o text (.comment n))
    (inside : List Char) : Hides o (text ++ opened inside) (.comment n) := by
  rcases comment_iff.1 h with hl | hb
  · exact .line ((hx.line?_append inside).trans hl)
  · exact .block ((Comment.block?_eq_closed_iff _).1 hb).1

/-- No quoted text is gone on with by a comment. -/
theorem quoted_append_opened (h : Hides o text (.quoted n)) (inside : List Char) :
    Hides o (text ++ opened inside) (.quoted n) := by
  cases h with
  | @quoted first rest q m hq hn =>
      have hne : (opened inside).head? ≠ some q.close := by
        have hclose := Quotation.close_of_ofOpener? hq
        intro hc
        rw [← Option.some.inj hc] at hclose
        revert hclose
        decide
      exact .quoted hq ((Quoted.body?_eq_some_iff hne).1 hn).1

theorem plain_append_opened (hx : Whole o text) (ht : text ≠ []) (h : Hides o text .plain)
    (inside : List Char) : Hides o (text ++ opened inside) .plain := by
  obtain ⟨first, rest, rfl⟩ := List.exists_cons_of_ne_nil ht
  cases h with
  | plain hl hb hq =>
      have hstar : (opened inside).head? ≠ some '*' := by simp [opened]
      exact .plain ((hx.line?_append inside).trans hl)
        ((Comment.block?_append_eq_none (by simp) hstar).2 hb) hq

end Hiding

namespace Outlook

variable {o : Options} {w : Bool} {text : List Char}

/-- A piece of text at the beginning of a whole text, which is read there in front of every block
comment unless a statement stands in its place, and leaves a whole text behind. -/
def HasCopy (o : Options) (w : Bool) (text : List Char) (piece : Piece) (rest : List Char) : Prop :=
  text = piece.source ++ rest ∧ piece.isSeparator = false ∧ Whole o rest ∧
    ∀ inside, Copies o w (text ++ opened inside) piece (rest ++ opened inside)

/-- Every whole text begins with a piece of text, if no statement stands in its place. -/
theorem exists_copy (hx : Whole o text) (ht : text ≠ []) (w : Bool) :
    ∃ piece rest, HasCopy o w text piece rest := by
  have hh := Hiding.hides_ofText o text
  cases hk : Hiding.ofText o text with
  | unclosed construct => exact absurd (hk ▸ hh) hx.not_unclosed
  | comment n =>
      rw [hk] at hh
      have hle := (Hiding.bounds_of_comment hh).2
      refine ⟨.comment (text.take n), text.drop n, (List.take_append_drop _ _).symm, rfl,
        hx.drop (.of_comment hh), fun inside => ?_⟩
      rw [← List.take_append_of_le_length hle, ← List.drop_append_of_le_length hle]
      exact .comment (Hiding.comment_append_opened hx hh inside)
  | quoted n =>
      rw [hk] at hh
      have hle := (Hiding.bounds_of_quoted hh).2
      refine ⟨.quoted (text.take n), text.drop n, (List.take_append_drop _ _).symm, rfl,
        hx.drop (.of_quoted hh), fun inside => ?_⟩
      rw [← List.take_append_of_le_length hle, ← List.drop_append_of_le_length hle]
      exact .quoted (Hiding.quoted_append_opened hh inside)
  | plain =>
      rw [hk] at hh
      obtain ⟨first, rest, rfl⟩ := List.exists_cons_of_ne_nil ht
      have hplain (inside : List Char) := Hiding.plain_append_opened hx ht hh inside
      by_cases hl : (o.wordBoundaries && w) = true ∨ isLinear first = false
      · exact ⟨.ordinary first, rest, rfl, rfl, hx.drop (.of_plain hh), fun inside =>
          .ordinary (hplain inside) hl⟩
      · obtain ⟨hw, hl⟩ : (o.wordBoundaries && w) = false ∧ isLinear first = true := by
          simpa using hl
        have hrun : Copies o w (first :: rest) (.blanks ((first :: rest).takeWhile isLinear))
            ((first :: rest).dropWhile isLinear) := .blanks hh hw hl
        refine ⟨.blanks ((first :: rest).takeWhile isLinear), (first :: rest).dropWhile isLinear,
          List.takeWhile_append_dropWhile.symm, rfl, ?_, fun inside => ?_⟩
        · rw [← drop_length_takeWhile]
          exact hx.drop (reads_of_copies hrun)
        · rw [← takeWhile_append_of_stop (isLinear_head?_opened inside),
            ← dropWhile_append_of_stop (isLinear_head?_opened inside)]
          exact .blanks (hplain inside) hw hl

/-- A statement at the beginning of a whole text whose gap reaches the block comment behind it. -/
structure Pending (o : Options) (w : Bool) (text : List Char) : Prop where
  plain : ∀ inside, Hiding.Hides o (text ++ opened inside) .plain
  notInWord : (o.wordBoundaries && w) = false
  exists_reach : ∃ reach : Verdict.Reach, reach.Fits o text ∧ (∀ v, reach ≠ .settled v) ∧
    ∀ inside, Verdict.ofText o (text ++ opened inside) = reach.verdict (opened inside)

/-- The piece that a whole text begins with in front of a block comment is settled by the text, or a
statement reaches the comment. -/
theorem settled_or_pending (ho : HasWordKeywords o) (hx : Whole o text) (ht : text ≠ [])
    (w : Bool) :
    (∃ piece rest, text = piece.source ++ rest ∧ Whole o rest ∧
      ∀ inside, Shows o w (text ++ opened inside) (.piece piece (rest ++ opened inside))) ∨
      Pending o w text := by
  obtain ⟨piece, rest, htext, hp, hrest, hcopies⟩ := exists_copy hx ht w
  have hcopy (h : ∀ inside, Hiding.ofText o (text ++ opened inside) = .plain →
      (o.wordBoundaries && w) = false →
      (Verdict.ofText o (text ++ opened inside)).isNone = true) :
      ∃ piece rest, text = piece.source ++ rest ∧ Whole o rest ∧
        ∀ inside, Shows o w (text ++ opened inside) (.piece piece (rest ++ opened inside)) :=
    ⟨piece, rest, htext, hrest, fun inside => (shows_iff_copies hp).2 ⟨hcopies inside, h inside⟩⟩
  cases hw : o.wordBoundaries && w with
  | true => exact .inl (hcopy fun inside _ hw' => by rw [hw] at hw'; cases hw')
  | false =>
      by_cases hplain : Hiding.Hides o text .plain
      · obtain ⟨reach, hfits, hverdict⟩ := Verdict.exists_reach ho hx
        have hplain' (inside : List Char) := Hiding.plain_append_opened hx ht hplain inside
        by_cases hsettled : ∃ v, reach = .settled v
        · obtain ⟨v, rfl⟩ := hsettled
          cases hfits with
          | settled closed within =>
              have hnone (hv : v.isNone = true) := hcopy fun inside _ _ => by
                rw [hverdict]
                exact hv
              cases v with
              | absent => exact .inl (hnone rfl)
              | unusable digits => exact .inl (hnone rfl)
              | unclosed e => exact absurd rfl (closed e)
              | found count n =>
                  have hreads := within count n rfl
                  refine .inl ⟨.separator count (text.take n), text.drop n,
                    (List.take_append_drop _ _).symm, hx.drop hreads, fun inside => ?_⟩
                  have hfound := hverdict inside
                  have hsplit : text ++ opened inside =
                      text.take n ++ (text.drop n ++ opened inside) := by
                    rw [← List.append_assoc, List.take_append_drop]
                  rw [hsplit] at hfound ⊢
                  refine shows_of_found ho.separator hw ?_
                  rw [hfound, List.length_take_of_le hreads.le_length]
                  rfl
        · exact .inr ⟨hplain', hw, reach, hfits, fun v hv => hsettled ⟨v, hv⟩, hverdict⟩
      · refine .inl (hcopy fun inside hplain' _ => absurd ?_ hplain)
        have hh := Hiding.hides_ofText o text
        cases hk : Hiding.ofText o text with
        | plain => rwa [hk] at hh
        | unclosed construct => exact absurd (hk ▸ hh) hx.not_unclosed
        | comment n =>
            rw [hk] at hh
            rw [(Hiding.comment_append_opened hx hh inside).eq_ofText] at hplain'
            cases hplain'
        | quoted n =>
            rw [hk] at hh
            rw [(Hiding.quoted_append_opened hh inside).eq_ofText] at hplain'
            cases hplain'

end Outlook

/-- A passage through a whole text leads to the block comment behind it, or to a statement that
reaches the comment, whatever the comment holds. -/
theorem exists_approach {o : Options} {text : List Char} (ho : HasWordKeywords o)
    (hx : Whole o text) (w : Bool) :
    ∃ pieces w' rest, text = sources pieces ++ rest ∧ Whole o rest ∧
      (∀ inside, Passage o w (text ++ opened inside) pieces w' (rest ++ opened inside)) ∧
      (rest = [] ∨ Outlook.Pending o w' rest) := by
  induction hn : text.length using Nat.strongRecOn generalizing text w with
  | ind n ih =>
      by_cases ht : text = []
      · exact ⟨[], w, [], by rw [ht]; rfl, .nil o, fun inside => ht ▸ .stay w _, .inl rfl⟩
      rcases Outlook.settled_or_pending ho hx ht w with
        ⟨piece, more, htext, hmore, hshows⟩ | hpending
      · have hpos := List.length_pos_iff.2 (Outlook.source_ne_nil (hshows []))
        have hlength := congrArg List.length htext
        rw [List.length_append] at hlength
        obtain ⟨pieces, w', rest, hrest, hwhole, hpassage, hend⟩ :=
          ih more.length (by omega) hmore piece.endsInWord rfl
        refine ⟨piece :: pieces, w', rest, ?_, hwhole, fun inside =>
          .step (hshows inside) (hpassage inside), hend⟩
        rw [sources_cons, List.append_assoc, ← hrest, htext]
      · exact ⟨[], w, text, rfl, hx, fun inside => .stay w _, .inr hpending⟩

end BatchScript
