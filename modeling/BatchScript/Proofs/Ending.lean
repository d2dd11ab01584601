import BatchScript.Proofs.Blind
import BatchScript.Proofs.Seam

/-!
# Texts with more behind them

What a text is read as, by itself, it is read as with more behind it, if what is behind goes on
with nothing at the end of the text: with no word, no gap and no delimiter, no quoted text that
just ends there, and no line comment. A line feed ends a line comment, and so it may follow one.

Where `Seam` and `Covers` take a text out of a longer one, here it is put into a longer one. The
separator may be any word.

## Main results

* `Verdict.ofText_append` — the verdict on a text is that on the longer one.
* `Outlook.Shows.append` — and so is the piece that it begins with.
* `Passage.append_behind` — a passage through a text is one through the longer text.
-/

namespace BatchScript

/-! ### Characters that go on with nothing -/

/-- A character that goes on with no word, no gap, and no delimiter of a comment. -/
def isStop (c : Char) : Bool :=
  !isWord c && !isLinear c && c != '-' && c != '/' && c != '*'

section

variable {c : Char}

theorem isWord_of_isStop (h : isStop c = true) : isWord c = false := by
  simp only [isStop, Bool.and_eq_true, Bool.not_eq_true'] at h
  exact h.1.1.1.1

theorem isLinear_of_isStop (h : isStop c = true) : isLinear c = false := by
  simp only [isStop, Bool.and_eq_true, Bool.not_eq_true'] at h
  exact h.1.1.1.2

theorem isDigit_of_isStop (h : isStop c = true) : c.isDigit = false := by
  rw [Bool.eq_false_iff]
  intro hd
  have hword : isWord c = true := isWord_of_isAlphanum (by simp [Char.isAlphanum, hd])
  rw [isWord_of_isStop h] at hword
  cases hword

/-- No delimiter of a comment goes on with nothing. -/
theorem head?_ne_of_isStop {behind : List Char} (hs : ∀ c ∈ behind.head?, isStop c = true)
    (hc : isStop c = false) : behind.head? ≠ some c := by
  intro h
  rw [hs c h] at hc
  cases hc

/-- A character that is no word character matches none, in either case. -/
theorem toLower_ne_of_isWord {d : Char} (hc : isWord c = false) (hd : isWord d = true) :
    c.toLower ≠ d.toLower := by
  intro h
  have halpha : c.isAlphanum = false := by
    rw [Bool.eq_false_iff]
    intro ha
    rw [isWord_of_isAlphanum ha] at hc
    cases hc
  unfold Char.isAlphanum Char.isAlpha at halpha
  simp only [Bool.or_eq_false_iff] at halpha
  rw [AsciiCase.toLower_of_not_isUpper halpha.1.1] at h
  rw [AsciiCase.eq_of_toLower halpha.1.2 h.symm, hc] at hd
  cases hd

end

/-! ### Keywords that are words -/

/-- Options whose separator and look-alikes are words, or empty. -/
structure HasWordKeywords (o : Options) : Prop where
  separator : HasWordSeparator o
  lookalikes : ∀ l ∈ o.lookalikes, ∀ c ∈ l.toList, isWord c = true

/-- The usual keyword and look-alike are words. -/
theorem SeparatesByGo.hasWordKeywords {o : Options} (hg : SeparatesByGo o) :
    HasWordKeywords o := by
  refine ⟨?_, fun l hl => ?_⟩
  · rw [HasWordSeparator, hg.separator, ← List.all_eq_true]
    decide
  · rw [hg.lookalikes, List.mem_singleton] at hl
    rw [hl, ← List.all_eq_true]
    decide

/-! ### Ends of a text -/

/-- Whether a blind reading of a text ends inside a line comment. -/
def endsInLineComment (o : Options) (text : List Char) : Bool :=
  match text with
  | [] => false
  | first :: rest =>
    match Hiding.ofText o (first :: rest) with
    | .comment n =>
      Comment.line? (first :: rest) == some (first :: rest).length ||
        endsInLineComment o (rest.drop (n - 1))
    | .quoted n => endsInLineComment o (rest.drop (n - 1))
    | .unclosed _ => false
    | .plain => endsInLineComment o rest
termination_by text.length
decreasing_by all_goals (simp only [List.length_cons, List.length_drop]; omega)

/-- A text that is read as it is with another one behind it. -/
structure Ends (o : Options) (text behind : List Char) : Prop where
  /-- What is behind goes on with nothing. -/
  stop : ∀ c ∈ behind.head?, isStop c = true
  /-- The text ends in no line comment, or the line ends with it. -/
  line : behind.head? = some '\n' ∨ endsInLineComment o text = false
  /-- Quoted text that just ends is not gone on with. -/
  quote : ∀ c ∈ behind.head?, text.getLast? = some c → c ∉ ['\'', '"', ']']

section

variable {o : Options} {text behind : List Char} {n : Nat}

/-- The rest of a text ends in a line comment only if the text does. -/
theorem Reads.endsInLineComment_drop (h : Reads o text n)
    (hend : endsInLineComment o text = false) : endsInLineComment o (text.drop n) = false := by
  induction h with
  | zero text => exact hend
  | @comment text n m h next ih =>
      obtain ⟨hn, hle⟩ := Hiding.bounds_of_comment h
      obtain ⟨k, rfl⟩ : ∃ k, n = k + 1 := ⟨n - 1, by omega⟩
      obtain ⟨first, rest, rfl⟩ : ∃ first rest, text = first :: rest :=
        List.exists_cons_of_length_pos (by omega)
      rw [endsInLineComment, h.eq_ofText] at hend
      rw [← List.drop_drop]
      exact ih (Bool.or_eq_false_iff.1 hend).2
  | @quoted text n m h next ih =>
      obtain ⟨hn, hle⟩ := Hiding.bounds_of_quoted h
      obtain ⟨k, rfl⟩ : ∃ k, n = k + 1 := ⟨n - 1, by omega⟩
      obtain ⟨first, rest, rfl⟩ : ∃ first rest, text = first :: rest :=
        List.exists_cons_of_length_pos (by omega)
      rw [endsInLineComment, h.eq_ofText] at hend
      rw [← List.drop_drop]
      exact ih hend
  | @plain first rest m h next ih =>
      rw [endsInLineComment, h.eq_ofText] at hend
      rw [Nat.add_comm, List.drop_succ_cons]
      exact ih hend

/-- A line comment that a text begins with ends before the text does, unless the text ends in a
line comment. -/
theorem lt_length_of_line? (hend : endsInLineComment o text = false)
    (h : Comment.line? text = some n) : n < text.length := by
  have hle := Comment.line?_le h
  have htwo := Comment.two_le_of_line? h
  obtain ⟨first, rest, rfl⟩ : ∃ first rest, text = first :: rest :=
    List.exists_cons_of_length_pos (by omega)
  have hh : Hiding.Hides o (first :: rest) (.comment n) := .line h
  rw [endsInLineComment, hh.eq_ofText] at hend
  have hne := (Bool.or_eq_false_iff.1 hend).1
  rw [h, beq_eq_false_iff_ne, Ne, Option.some.injEq] at hne
  omega

namespace Ends

/-- Every text may stand before a line feed. -/
theorem newline (o : Options) (text rest : List Char) : Ends o text ('\n' :: rest) := by
  refine ⟨?_, .inl rfl, ?_⟩
  · rintro c ⟨⟩
    decide
  · rintro c ⟨⟩ -
    decide

/-- Quoted text may stand behind a text that ends in no line comment and, if it is closed as it is
opened, not in the delimiter. -/
theorem opener {q : Quotation} (hq : Quotation.ofOpener? o q.opener = some q)
    (hline : endsInLineComment o text = false)
    (hlast : q.close = q.opener → text.getLast? ≠ some q.opener) (rest : List Char) :
    Ends o text (q.opener :: rest) := by
  refine ⟨?_, .inr hline, ?_⟩
  · rintro c ⟨⟩
    rcases Quotation.kinds_of_ofOpener? hq with ⟨ho, -⟩ | ⟨ho, -⟩ | ⟨ho, -⟩ <;> rw [ho] <;> decide
  · rintro c ⟨⟩ hlast'
    rcases Quotation.kinds_of_ofOpener? hq with ⟨-, rfl⟩ | ⟨-, -, rfl⟩ | ⟨-, -, rfl⟩
    · exact absurd hlast' (hlast rfl)
    · exact absurd hlast' (hlast rfl)
    · decide

/-- What is left of a text ends as the text does. -/
theorem drop (he : Ends o text behind) (h : Reads o text n) : Ends o (text.drop n) behind := by
  refine ⟨he.stop, ?_, fun c hc hlast => ?_⟩
  · rcases he.line with hline | hline
    · exact .inl hline
    · exact .inr (h.endsInLineComment_drop hline)
  · rw [List.getLast?_drop] at hlast
    split at hlast
    · cases hlast
    · exact he.quote c hc hlast

theorem head?_ne {c : Char} (he : Ends o text behind) (hc : isStop c = false) :
    behind.head? ≠ some c :=
  head?_ne_of_isStop he.stop hc

/-- What is behind opens no block comment. -/
theorem block?_eq_none (he : Ends o text behind) : Comment.block? behind = none := by
  rw [Comment.block?.eq_def]
  split
  · exact absurd rfl (he.head?_ne (c := '/') (by decide))
  · rfl

theorem line?_eq_none (he : Ends o text behind) : Comment.line? behind = none := by
  rw [Comment.line?.eq_def]
  split
  · exact absurd rfl (he.head?_ne (c := '-') (by decide))
  · rfl

theorem gap_eq_zero (he : Ends o text behind) : Gap.length behind = 0 := by
  rcases behind with _ | ⟨c, rest⟩
  · exact Gap.length_nil
  · exact Gap.length_eq_zero (isLinear_of_isStop (he.stop c rfl)) (by simp [he.block?_eq_none])

/-- Whether a text begins with a line comment does not depend on what is behind. -/
theorem line?_append_eq_none (he : Ends o text behind) (h : Comment.line? text = none) :
    Comment.line? (text ++ behind) = none := by
  by_cases ht : text = []
  · rw [ht, List.nil_append, he.line?_eq_none]
  · exact (Comment.line?_append_eq_none ht (he.head?_ne (by decide))).2 h

theorem block?_append_eq_none (he : Ends o text behind) (h : Comment.block? text = none) :
    Comment.block? (text ++ behind) = none := by
  by_cases ht : text = []
  · rw [ht, List.nil_append, he.block?_eq_none]
  · exact (Comment.block?_append_eq_none ht (he.head?_ne (by decide))).2 h

/-- And it ends at the same place. -/
theorem line?_append (he : Ends o text behind) (h : Comment.line? text = some n) :
    Comment.line? (text ++ behind) = some n := by
  rcases he.line with hline | hline
  · obtain ⟨rest, rfl⟩ := List.head?_eq_some_iff.1 hline
    exact Comment.line?_append rest h
  · exact Comment.line?_append_of_lt behind h (lt_length_of_line? hline h)

/-- A gap is not gone on with. -/
theorem gap_append (he : Ends o text behind) {g : Nat} (h : Gap.read text = .ok g) :
    Gap.read (text ++ behind) = .ok g := by
  obtain ⟨rfl, hnone⟩ := Gap.read_eq_ok.1 h
  have hle := Gap.length_le text
  have hdrop : (text ++ behind).drop (Gap.length text) =
      text.drop (Gap.length text) ++ behind := List.drop_append_of_le_length hle
  have hlength : Gap.length (text ++ behind) = Gap.length text := by
    rcases Nat.lt_or_eq_of_le hle with hlt | heq
    · exact Gap.length_append_of_lt (he.head?_ne (by decide)) hlt hnone
    · rw [Gap.length_append_of_eq heq, he.gap_eq_zero, heq, Nat.add_zero]
  rw [Gap.read_eq_ok, hlength, hdrop]
  exact ⟨rfl, (he.drop (reads_of_gap o text)).block?_append_eq_none hnone⟩

/-- No digits follow those that the text ends in. -/
theorem digits_append (he : Ends o text behind) :
    Verdict.digits (text ++ behind) = Verdict.digits text :=
  Verdict.digits_append fun c hc => isDigit_of_isStop (he.stop c hc)

end Ends

end

/-! ### The verdict -/

namespace Verdict

variable {o : Options} {text behind : List Char}

/-- What trails a count is not gone on with. -/
theorem trailing_append (he : Ends o text behind) {n : Nat} (h : trailing text = .ok n) :
    trailing (text ++ behind) = .ok n := by
  obtain ⟨g, hgap, hline⟩ := trailing_eq_ok.1 h
  refine trailing_eq_ok.2 ⟨g, he.gap_append hgap, ?_⟩
  obtain ⟨rfl, -⟩ := Gap.read_eq_ok.1 hgap
  rw [List.drop_append_of_le_length (Gap.length_le text)]
  have he' := he.drop (reads_of_gap o text)
  rcases hline with ⟨m, hm, rfl⟩ | ⟨hnone, rfl⟩
  · exact .inl ⟨m, he'.line?_append hm, rfl⟩
  · exact .inr ⟨he'.line?_append_eq_none hnone, rfl⟩

/-- A stop does not go on with the keyword before it. -/
theorem joined_append (he : Ends o text behind) : joined o (text ++ behind) = joined o text := by
  rcases text with _ | ⟨c, text⟩
  · rcases behind with _ | ⟨c, behind⟩
    · rfl
    · have hword := isWord_of_isStop (he.stop c rfl)
      simp [joined, continuesKeyword, hword]
  · rfl

/-- The parts that decide about a statement are not gone on with. -/
theorem Tail.append (he : Ends o text behind) {v : Verdict} (hv : ∀ e, v ≠ .unclosed e)
    (h : Tail text v) : Tail (text ++ behind) v := by
  have hdrop : (text ++ behind).drop (Gap.length text) =
      text.drop (Gap.length text) ++ behind := List.drop_append_of_le_length (Gap.length_le text)
  have he' := he.drop (reads_of_gap o text)
  cases h with
  | openGap hgap => exact absurd rfl (hv _)
  | openTrail hgap hline hcount htrail => exact absurd rfl (hv _)
  | comment hgap hline =>
      have hgap' := he.gap_append hgap
      obtain ⟨rfl, -⟩ := Gap.read_eq_ok.1 hgap
      exact .comment hgap' (by rw [hdrop, he'.line?_append hline])
  | unusable hgap hline hcount =>
      have hgap' := he.gap_append hgap
      obtain ⟨rfl, -⟩ := Gap.read_eq_ok.1 hgap
      rw [← he'.digits_append, ← hdrop] at hcount ⊢
      exact .unusable hgap' (by rw [hdrop, he'.line?_append_eq_none hline]) hcount
  | count hgap hline hcount htrail =>
      have hgap' := he.gap_append hgap
      obtain ⟨rfl, -⟩ := Gap.read_eq_ok.1 hgap
      have htrail' := trailing_append (he'.drop (reads_of_digits o _)) htrail
      rw [← List.drop_append_of_le_length (length_digits_le _)] at htrail'
      rw [← he'.digits_append, ← hdrop] at hcount htrail' ⊢
      exact .count hgap' (by rw [hdrop, he'.line?_append_eq_none hline]) hcount htrail'

/-- What begins with no word character counts for no keyword before it. -/
theorem Keyed.append_iff_of_isWord {blanks keyword tail : List Char} (ho : HasWordKeywords o)
    (hword : ∀ c ∈ behind.head?, isWord c = false) :
    Keyed o blanks keyword (tail ++ behind) ↔ Keyed o blanks keyword tail := by
  have hlookalikes : ∀ l ∈ o.lookalikes,
      AsciiCase.begins l.toList (keyword ++ (tail ++ behind)) =
        AsciiCase.begins l.toList (keyword ++ tail) := by
    intro l hl
    rw [← List.append_assoc]
    exact AsciiCase.begins_append fun c hc d hd =>
      toLower_ne_of_isWord (hword c hc) (ho.lookalikes l hl d hd)
  constructor
  · intro h
    obtain ⟨c, keyword, rfl⟩ := List.exists_cons_of_ne_nil h.keyword_ne_nil
    exact ⟨h.isLinear, h.maximal, h.separator_ne_nil, h.toLower,
      fun l hl => (hlookalikes l hl).symm.trans (h.lookalikes l hl)⟩
  · intro h
    obtain ⟨c, keyword, rfl⟩ := List.exists_cons_of_ne_nil h.keyword_ne_nil
    exact ⟨h.isLinear, h.maximal, h.separator_ne_nil, h.toLower,
      fun l hl => (hlookalikes l hl).trans (h.lookalikes l hl)⟩

/-- Neither the blanks nor the keyword reach into what begins with no blank and no word
character. -/
theorem Keyed.exists_front {blanks keyword tail : List Char} (ho : HasWordKeywords o)
    (hlinear : ∀ c ∈ behind.head?, BatchScript.isLinear c = false)
    (hword : ∀ c ∈ behind.head?, isWord c = false) (hk : Keyed o blanks keyword tail)
    (h : text ++ behind = blanks ++ (keyword ++ tail)) :
    ∃ front, text = blanks ++ (keyword ++ front) ∧ tail = front ++ behind := by
  rw [← List.append_assoc] at h
  rcases List.append_eq_append_iff.1 h with ⟨a, ha, hrest⟩ | ⟨front, rfl, htail⟩
  · rcases a with _ | ⟨c, a⟩
    · exact ⟨[], by simpa using ha.symm, hrest.symm⟩
    · have hc : c ∈ behind.head? := by rw [hrest]; rfl
      have hmem : c ∈ blanks ++ keyword := by simp [ha]
      rcases List.mem_append.1 hmem with hmem | hmem
      · have hblank := hk.isLinear c hmem
        rw [hlinear c hc] at hblank
        cases hblank
      · have hfold : c.toLower ∈ o.separator.toList.map Char.toLower :=
          hk.toLower ▸ List.mem_map_of_mem hmem
        obtain ⟨d, hd, heq⟩ := List.mem_map.1 hfold
        exact absurd heq.symm (toLower_ne_of_isWord (hword c hc) (ho.separator d hd))
  · exact ⟨front, by rw [List.append_assoc], htail⟩

/-- The verdict behind a keyword is that on the longer text. -/
theorem ofTail_append (he : Ends o text behind) (hv : ∀ e, ofTail o text ≠ .unclosed e) :
    ofTail o (text ++ behind) = ofTail o text := by
  cases hj : joined o text with
  | true => rw [ofTail_of_joined hj, ofTail_of_joined ((joined_append he).trans hj)]
  | false =>
      exact ((tail_ofTail hj).append he hv).eq_ofTail ((joined_append he).trans hj)

/-- The verdict on a text is that on the longer one, unless a comment is left open. -/
theorem ofText_append (ho : HasWordKeywords o) (he : Ends o text behind)
    (hv : ∀ e, ofText o text ≠ .unclosed e) : ofText o (text ++ behind) = ofText o text := by
  have hword : ∀ c ∈ behind.head?, isWord c = false := fun c hc => isWord_of_isStop (he.stop c hc)
  have hlinear : ∀ c ∈ behind.head?, BatchScript.isLinear c = false :=
    fun c hc => isLinear_of_isStop (he.stop c hc)
  have hkeyed {blanks keyword tail : List Char} (htext : text = blanks ++ (keyword ++ tail))
      (hk : Keyed o blanks keyword tail) : ofText o (text ++ behind) = ofText o text := by
    have hreads := reads_of_keyed ho.separator hk
    have hdrop : (blanks ++ (keyword ++ tail)).drop (blanks.length + keyword.length) = tail := by
      rw [← List.append_assoc, ← List.length_append, List.drop_left]
    have he' := he.drop (htext ▸ hreads)
    rw [htext, hdrop] at he'
    rw [htext, ofText_of_keyed hk] at hv
    rw [htext, List.append_assoc, List.append_assoc,
      ofText_of_keyed ((Keyed.append_iff_of_isWord ho hword).2 hk), ofText_of_keyed hk,
      ofTail_append he' fun e h => hv _ (by rw [h]; rfl)]
  rcases ofText_eq_absent_or o text with ha | ⟨blanks, keyword, tail, htext, hk⟩
  · rcases ofText_eq_absent_or o (text ++ behind) with ha' | ⟨blanks, keyword, tail, htext, hk⟩
    · rw [ha, ha']
    · obtain ⟨front, hfront, rfl⟩ := hk.exists_front ho hlinear hword htext
      exact hkeyed hfront ((Keyed.append_iff_of_isWord ho hword).1 hk)
  · exact hkeyed htext hk

end Verdict

/-! ### Pieces and passages -/

namespace Hiding

variable {o : Options} {text behind : List Char} {n : Nat}

theorem comment_append_behind (he : Ends o text behind) (h : Hides o text (.comment n)) :
    Hides o (text ++ behind) (.comment n) := by
  rcases comment_iff.1 h with hl | hb
  · exact .line (he.line?_append hl)
  · exact .block ((Comment.block?_eq_closed_iff behind).1 hb).1

theorem quoted_append_behind (he : Ends o text behind) (h : Hides o text (.quoted n)) :
    Hides o (text ++ behind) (.quoted n) := by
  cases h with
  | @quoted first rest q m hq hm =>
      rcases Nat.lt_or_eq_of_le (Quoted.bounds_of_body? hm).2 with hlt | heq
      · exact .quoted hq ((Quoted.body?_eq_some_iff_of_lt behind hlt).1 hm)
      · -- The text ends with the delimiter, and what is behind begins with another character.
        have hlast : (first :: rest).getLast? = some q.close := by
          have hclose := Quoted.getElem?_of_bodyFrom hm
          rw [Nat.sub_zero, heq] at hclose
          have hne : rest ≠ [] := by
            rintro rfl
            simp at hclose
          rw [List.getLast?_cons_of_ne_nil hne, List.getLast?_eq_getElem?, hclose]
        have hne : behind.head? ≠ some q.close :=
          fun hc => he.quote _ hc hlast (Quotation.close_of_ofOpener? hq)
        exact .quoted hq ((Quoted.body?_eq_some_iff hne).1 hm).1

theorem plain_append_behind (he : Ends o text behind) (ht : text ≠ [])
    (h : Hides o text .plain) : Hides o (text ++ behind) .plain := by
  obtain ⟨first, rest, rfl⟩ := List.exists_cons_of_ne_nil ht
  cases h with
  | plain hl hb hq =>
      exact .plain (he.line?_append_eq_none hl) (he.block?_append_eq_none hb) hq

end Hiding

/-- The piece that a text begins with is the one that the longer text begins with. -/
theorem Outlook.Shows.append {o : Options} {w : Bool} {text behind rest : List Char}
    {piece : Piece} (ho : HasWordKeywords o) (he : Ends o text behind)
    (h : Shows o w text (.piece piece rest)) :
    Shows o w (text ++ behind) (.piece piece (rest ++ behind)) := by
  have hverdict {v : Verdict} (hv : Verdict.ofText o text = v) (hne : ∀ e, v ≠ .unclosed e) :
      Verdict.ofText o (text ++ behind) = v := by
    rw [Verdict.ofText_append ho he (hv ▸ hne), hv]
  have hnone (hv : (Verdict.ofText o text).isNone = true) :
      (Verdict.ofText o (text ++ behind)).isNone = true := by
    rw [hverdict rfl, hv]
    rintro e he
    simp [he, Verdict.isNone] at hv
  have hstop : ∀ c ∈ behind.head?, isLinear c = false :=
    fun c hc => isLinear_of_isStop (he.stop c hc)
  cases h with
  | @comment first rest n hh =>
      have hle := (Hiding.bounds_of_comment hh).2
      rw [← List.take_append_of_le_length hle, ← List.drop_append_of_le_length hle]
      exact .comment (Hiding.comment_append_behind he hh)
  | @quoted first rest n hh =>
      have hle := (Hiding.bounds_of_quoted hh).2
      rw [← List.take_append_of_le_length hle, ← List.drop_append_of_le_length hle]
      exact .quoted (Hiding.quoted_append_behind he hh)
  | word hh hw => exact .word (Hiding.plain_append_behind he (by simp) hh) hw
  | @separator first rest count n hh hw hv =>
      have hle := (Verdict.bounds_of_found hv).2
      rw [← List.take_append_of_le_length hle, ← List.drop_append_of_le_length hle]
      exact .separator (Hiding.plain_append_behind he (by simp) hh) hw (hverdict hv (by simp))
  | blanks hh hw hv hl =>
      rw [← takeWhile_append_of_stop hstop, ← dropWhile_append_of_stop hstop]
      exact .blanks (Hiding.plain_append_behind he (by simp) hh) hw (hnone hv) hl
  | ordinary hh hw hv hl =>
      exact .ordinary (Hiding.plain_append_behind he (by simp) hh) hw (hnone hv) hl

/-- A passage through a text is one through the longer text. -/
theorem Passage.append_behind {o : Options} {w w' : Bool} {text behind rest : List Char}
    {pieces : List Piece} (ho : HasWordKeywords o) (he : Ends o text behind)
    (h : Passage o w text pieces w' rest) :
    Passage o w (text ++ behind) pieces w' (rest ++ behind) := by
  induction h with
  | stay w text => exact .stay w _
  | step shows _ ih =>
      have he' := he.drop (reads_of_piece ho.separator shows)
      rw [Outlook.text_eq shows, List.drop_left] at he'
      exact .step (shows.append ho he) (ih he')

end BatchScript
