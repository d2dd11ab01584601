import BatchScript.Proofs.Delivery
import BatchScript.Proofs.Unbroken

/-!
# Scripts cut behind a statement

A script that is cut behind one of its separator statements is read up to the cut as it is with the
rest behind it. A statement that is found looks past its end, over the gap behind its count, and one
that is not found looks as far; what they see of the rest makes no difference.

## Main results

* `Verdict.found_of_append` — a statement is found without the rest of the script.
* `Outlook.Copies.change` — a piece that ends before the text does is read whatever is behind.
* `Passage.cut` — a passage that ends in a statement is one through the text up to there.
-/

namespace BatchScript

/-! ### Statements -/

namespace Verdict

variable {o : Options} {text behind : List Char}

/-- Digits that end within the text are those of the text. -/
theorem digits_of_append (h : (digits (text ++ behind)).length ≤ text.length) :
    digits (text ++ behind) = digits text := by
  rw [digits, List.takeWhile_append] at h ⊢
  split
  · rename_i hall
    rw [if_pos hall, List.length_append] at h
    have hnil : behind.takeWhile Char.isDigit = [] := List.length_eq_zero_iff.1 (by omega)
    rw [hnil, List.append_nil, digits]
    exact ((List.takeWhile_prefix _).eq_of_length hall).symm
  · rfl

/-- What trails a count within the text trails it there, if nothing is left open in the text. -/
theorem trailing_of_append {n : Nat} (h : trailing (text ++ behind) = .ok n)
    (hn : n ≤ text.length) (hclosed : n = 0 → ∀ e, Gap.read text ≠ .error e) :
    trailing text = .ok n := by
  obtain ⟨g, hgap, ⟨m, hm, rfl⟩ | ⟨hnone, rfl⟩⟩ := trailing_eq_ok.1 h
  · have hread := Gap.read_of_append hgap (by omega)
    rw [List.drop_append_of_le_length (by omega)] at hm
    have hline := Comment.line?_of_append hm (by rw [List.length_drop]; omega)
    exact trailing_eq_ok.2 ⟨g, hread, .inl ⟨m, hline, rfl⟩⟩
  · cases hread : Gap.read text with
    | error e => exact absurd hread (hclosed rfl e)
    | ok g' =>
        refine trailing_eq_ok.2 ⟨g', hread, .inr ⟨?_, rfl⟩⟩
        obtain ⟨rfl, -⟩ := Gap.read_eq_ok.1 hread
        obtain ⟨rfl, -⟩ := Gap.read_eq_ok.1 hgap
        rw [Gap.length_append] at hnone
        rcases hrest : text.drop (Gap.length text) with _ | ⟨c, _ | ⟨d, rest⟩⟩
        · rfl
        · simp [Comment.line?]
        · rw [Comment.line?_eq_none_iff]
          rintro ⟨rfl, rfl⟩
          -- Two dashes behind the gap end it in the longer text too, and open a comment there.
          have hzero : Gap.length ('-' :: '-' :: (rest ++ behind)) = 0 :=
            Gap.length_eq_zero rfl (by simp [Comment.block?])
          rw [hrest, List.cons_append, List.cons_append, hzero, Nat.add_zero,
            List.drop_append_of_le_length (Gap.length_le text), hrest, List.cons_append,
            List.cons_append, Comment.line?_eq_none_iff] at hnone
          exact hnone ⟨rfl, rfl⟩

/-- The parts of a statement that lie within the text make it there. -/
theorem Tail.of_append {count : RepeatCount} {n : Nat} (h : Tail (text ++ behind) (.found count n))
    (hn : n ≤ text.length) (hclosed : ∀ e, Gap.read (text.drop n) ≠ .error e) :
    Tail text (.found count n) := by
  cases h with
  | comment hgap hline =>
      have hread := Gap.read_of_append hgap (by omega)
      rw [List.drop_append_of_le_length (by omega)] at hline
      exact .comment hread (Comment.line?_of_append hline (by rw [List.length_drop]; omega))
  | @count g n count hgap hline hcount htrail =>
      have hread := Gap.read_of_append hgap (by omega)
      have hdrop : (text ++ behind).drop g = text.drop g ++ behind :=
        List.drop_append_of_le_length (by omega)
      rw [hdrop] at hline hcount htrail hn hclosed ⊢
      have hlength : (text.drop g).length = text.length - g := List.length_drop
      have hdigits : digits (text.drop g ++ behind) = digits (text.drop g) :=
        digits_of_append (by omega)
      rw [hdigits] at hcount htrail hn hclosed ⊢
      rw [List.drop_append_of_le_length (by omega)] at htrail
      have hopen : n = 0 → ∀ e,
          Gap.read ((text.drop g).drop (digits (text.drop g)).length) ≠ .error e := by
        rintro rfl e he
        rw [List.drop_drop] at he
        exact hclosed e he
      have htrail' := trailing_of_append htrail (by rw [List.length_drop]; omega) hopen
      exact .count hread (Comment.line?_eq_none_of_append hline) hcount htrail'

/-- A keyword within the text has no look-alike in its place there either. -/
theorem Keyed.of_append {blanks keyword tail : List Char}
    (h : Keyed o blanks keyword (tail ++ behind)) : Keyed o blanks keyword tail := by
  obtain ⟨c, more, hmore⟩ := List.exists_cons_of_ne_nil h.keyword_ne_nil
  have hmaximal := h.maximal
  rw [hmore] at hmaximal
  refine ⟨h.isLinear, by rwa [hmore], h.separator_ne_nil, h.toLower, fun l hl => ?_⟩
  have hnone := h.lookalikes l hl
  rw [Bool.eq_false_iff] at hnone ⊢
  intro hbegins
  obtain ⟨taken, rest, heq, hfold⟩ := AsciiCase.begins_iff.1 hbegins
  refine hnone (AsciiCase.begins_iff.2 ⟨taken, rest ++ behind, ?_, hfold⟩)
  rw [← List.append_assoc, heq, List.append_assoc]

/-- A statement that lies within the text is found without what is behind it, if what of the text
follows it leaves nothing open. -/
theorem found_of_append {count : RepeatCount} {n : Nat}
    (h : ofText o (text ++ behind) = .found count n) (hn : n ≤ text.length)
    (hclosed : ∀ e, Gap.read (text.drop n) ≠ .error e) : ofText o text = .found count n := by
  obtain ⟨blanks, keyword, tail, m, htext, hk, hj, ht, rfl⟩ := keyed_of_found h
  obtain ⟨front, rfl, rfl⟩ : ∃ front, text = blanks ++ (keyword ++ front) ∧
      tail = front ++ behind := by
    rw [← List.append_assoc] at htext
    rcases List.append_eq_append_iff.1 htext with ⟨a, ha, hbehind⟩ | ⟨front, hfront, htail⟩
    · have hlength := congrArg List.length ha
      simp only [List.length_append] at hlength
      obtain rfl : a = [] := List.length_eq_zero_iff.1 (by omega)
      exact ⟨[], by simpa using ha.symm, by simpa using hbehind.symm⟩
    · exact ⟨front, by rw [hfront, List.append_assoc], htail⟩
  simp only [List.length_append] at hn
  have hdrop : (blanks ++ (keyword ++ front)).drop (blanks.length + keyword.length + m) =
      front.drop m := by
    rw [← List.append_assoc, ← List.length_append, List.drop_append, List.drop_of_length_le,
      List.nil_append, Nat.add_sub_cancel_left]
    omega
  rw [hdrop] at hclosed
  have hj' : joined o front = false := by
    rcases front with _ | ⟨c, front⟩
    · simp [joined]
    · exact hj
  rw [ofText_of_keyed hk.of_append, (ht.of_append (by omega) hclosed).eq_ofTail hj']
  rfl

end Verdict

/-! ### Pieces that end before the text does -/

namespace Hiding

variable {o : Options} {text behind behind' : List Char} {n : Nat}

theorem comment_change (h : Hides o (text ++ behind) (.comment n)) (hn : n < text.length) :
    Hides o (text ++ behind') (.comment n) := by
  rcases comment_iff.1 h with hl | hb
  · exact .line (Comment.line?_append_of_lt behind' (Comment.line?_of_append hl (by omega)) hn)
  · have htext := (Comment.block?_eq_closed_iff behind).2 ⟨hb, by omega⟩
    exact .block ((Comment.block?_eq_closed_iff behind').1 htext).1

theorem quoted_change (h : Hides o (text ++ behind) (.quoted n)) (hn : n < text.length) :
    Hides o (text ++ behind') (.quoted n) := by
  obtain ⟨first, rest, rfl⟩ := List.exists_cons_of_length_pos (show 0 < text.length by omega)
  cases h with
  | @quoted _ _ q m hq hm =>
      rw [List.length_cons] at hn
      have hrest := (Quoted.body?_eq_some_iff_of_lt behind (by omega)).2 hm
      exact .quoted hq ((Quoted.body?_eq_some_iff_of_lt behind' (by omega)).1 hrest)

theorem plain_change (h : Hides o (text ++ behind) .plain) (hn : 1 < text.length) :
    Hides o (text ++ behind') .plain := by
  obtain ⟨c, d, rest, rfl⟩ : ∃ c d rest, text = c :: d :: rest := by
    rcases text with _ | ⟨c, _ | ⟨d, rest⟩⟩
    · simp at hn
    · simp at hn
    · exact ⟨c, d, rest, rfl⟩
  cases h with
  | plain hl hb hq =>
      refine .plain ?_ ?_ hq
      · exact Comment.line?_eq_none_iff.2 (Comment.line?_eq_none_iff.1 hl)
      · exact Comment.block?_eq_none_iff.2 (Comment.block?_eq_none_iff.1 hb)

end Hiding

/-- A piece that ends before the text does is read whatever is behind the text. -/
theorem Outlook.Copies.change {o : Options} {w : Bool} {whole left text rest behind : List Char}
    {piece : Piece} (behind' : List Char) (h : Copies o w whole piece left)
    (hwhole : whole = text ++ behind) (hleft : left = rest ++ behind)
    (htext : text = piece.source ++ rest) (hrest : rest ≠ []) :
    Copies o w (text ++ behind') piece (rest ++ behind') := by
  have hpos := List.length_pos_iff.2 hrest
  have hlength := congrArg List.length htext
  rw [List.length_append] at hlength
  have htake : (text ++ behind').take piece.source.length = piece.source := by
    rw [htext, List.append_assoc, List.take_left]
  have hdrop : (text ++ behind').drop piece.source.length = rest ++ behind' := by
    rw [htext, List.append_assoc, List.drop_left]
  cases h with
  | @comment _ n hh =>
      have hlen : (whole.take n).length = n :=
        List.length_take_of_le (Hiding.bounds_of_comment hh).2
      rw [Piece.source, hlen] at htake hdrop hlength
      rw [← htake, ← hdrop]
      exact .comment (Hiding.comment_change (hwhole ▸ hh) (by omega))
  | @quoted _ n hh =>
      have hlen : (whole.take n).length = n :=
        List.length_take_of_le (Hiding.bounds_of_quoted hh).2
      rw [Piece.source, hlen] at htake hdrop hlength
      rw [← htake, ← hdrop]
      exact .quoted (Hiding.quoted_change (hwhole ▸ hh) (by omega))
  | @blanks first tail hh hw hl =>
      obtain ⟨c, rest', rfl⟩ := List.exists_cons_of_ne_nil hrest
      have hstop : ∀ d ∈ (c :: rest' ++ behind').head?, isLinear d = false := by
        rintro d ⟨⟩
        have hnot := List.head?_dropWhile_not isLinear (first :: tail)
        rw [hleft] at hnot
        simpa using hnot
      have hrun : ((first :: tail).takeWhile isLinear).takeWhile isLinear =
          (first :: tail).takeWhile isLinear :=
        List.takeWhile_eq_self_iff.2 fun d hd => List.all_eq_true.1 List.all_takeWhile d hd
      obtain ⟨more, hmore⟩ : ∃ more, text ++ behind' = first :: more := by
        rw [htext, Piece.source, List.takeWhile_cons_of_pos hl]
        exact ⟨_, rfl⟩
      have htakeWhile :
          (text ++ behind').takeWhile isLinear = (first :: tail).takeWhile isLinear := by
        rw [htext, List.append_assoc, takeWhile_append_of_stop hstop, Piece.source, hrun]
      have hdropWhile : (text ++ behind').dropWhile isLinear = c :: rest' ++ behind' := by
        rw [← drop_length_takeWhile, htakeWhile]
        exact hdrop
      rw [← htakeWhile, ← hdropWhile, hmore]
      exact .blanks (Hiding.hides_of_isInert (isInert_of_isLinear hl) more) hw hl
  | @ordinary first tail hh hl =>
      rw [htext] at hwhole ⊢
      rw [hwhole] at hh
      exact .ordinary (Hiding.plain_change hh (by simpa [Piece.source])) hl

/-! ### Where no statement is found -/

namespace Verdict

variable {o : Options} {text behind : List Char}

/-- Behind blanks of its line a statement is found with them. -/
theorem found_of_isLinear {count : RepeatCount} {n : Nat} (ht : ∀ c ∈ text, isLinear c = true)
    (h : ofText o behind = .found count n) :
    ofText o (text ++ behind) = .found count (text.length + n) := by
  obtain ⟨blanks, keyword, tail, m, rfl, hk, hj, htail, rfl⟩ := keyed_of_found h
  have hk' : Keyed o (text ++ blanks) keyword tail := by
    refine ⟨fun c hc => ?_, hk.maximal, hk.separator_ne_nil, hk.toLower, hk.lookalikes⟩
    rcases List.mem_append.1 hc with hc | hc
    · exact ht c hc
    · exact hk.isLinear c hc
  rw [← List.append_assoc, ofText_of_keyed hk', htail.eq_ofTail hj]
  simp only [shift, found.injEq, List.length_append, true_and]
  omega

/-- Where no statement is found in a text, none is found with a seam behind it, unless the text is
blanks of the line that a statement follows on. -/
theorem isNone_append_of_seam (hg : SeparatesByGo o) (hs : Seam behind)
    (ht : ∃ c ∈ text, isLinear c = false) (h : (ofText o text).isNone = true) :
    (ofText o (text ++ behind)).isNone = true := by
  rcases ofText_eq_absent_or o (text ++ behind) with ha | ⟨blanks, keyword, tail, htext, hk⟩
  · rw [ha]
    rfl
  obtain ⟨c, d, rfl, hc, hd⟩ := hk.eq_go hg
  obtain ⟨front, rfl, rfl⟩ : ∃ front, text = blanks ++ ([c, d] ++ front) ∧
      tail = front ++ behind := by
    rw [← List.append_assoc] at htext
    rcases List.append_eq_append_iff.1 htext with ⟨a, ha, hbehind⟩ | ⟨front, hfront, htail⟩
    · -- The keyword ends behind the seam. Neither of its letters can stand there.
      rcases List.eq_nil_or_concat a with rfl | ⟨a, e, rfl⟩
      · exact ⟨[], by simpa using ha.symm, by simpa using hbehind.symm⟩
      obtain ⟨hfirst, rfl⟩ : blanks ++ [c] = text ++ a ∧ d = e := by
        rw [List.append_cons blanks c [d], List.concat_eq_append, ← List.append_assoc] at ha
        exact ⟨List.append_inj_left' ha rfl, by simpa using List.append_inj_right' ha rfl⟩
      rcases List.eq_nil_or_concat a with rfl | ⟨a, e, rfl⟩
      · have hnot : d ∉ Seam.heads := by
          rcases hd with rfl | rfl <;> decide
        exact absurd (by rw [hbehind]; rfl) (hs.head?_ne hnot)
      · have hblanks : blanks = text ++ a := by
          rw [List.concat_eq_append, ← List.append_assoc] at hfirst
          exact List.append_inj_left' hfirst rfl
        obtain ⟨x, hx, hlinear⟩ := ht
        rw [hk.isLinear x (by rw [hblanks]; exact List.mem_append_left a hx)] at hlinear
        cases hlinear
    · exact ⟨front, by rw [hfront, List.append_assoc], htail⟩
  rw [htext]
  exact isNone_append_of_keyed hg hs hk h

end Verdict

/-! ### Passages up to a statement -/

/-- In an unbroken text no statement is found where one is looked for. -/
theorem Unbroken.isNone {o : Options} {w : Bool} {text : List Char} (h : Unbroken o w text)
    (hne : text ≠ []) (hplain : Hiding.ofText o text = .plain)
    (hw : (o.wordBoundaries && w) = false) : (Verdict.ofText o text).isNone = true := by
  cases h with
  | nil => exact absurd rfl hne
  | step hp shows _ => exact ((Outlook.shows_iff_copies hp).1 shows).2 hplain hw

namespace Passage

variable {o : Options} {w w' : Bool} {text behind : List Char} {pieces : List Piece}

/-- No statement is found in a stretch of text before one, whatever follows that. -/
theorem isNone_of_stretch {statement rest behind' : List Char} {count : RepeatCount}
    (hg : SeparatesByGo o) (h : Passage o w text pieces w' rest)
    (hp : ∀ piece ∈ pieces, piece.isSeparator = false)
    (hs : Outlook.Shows o w' rest (.piece (.separator count statement) behind))
    (hv : Verdict.ofText o (statement ++ behind') = .found count statement.length)
    (hw : (o.wordBoundaries && w) = false)
    (hplain : Hiding.ofText o (sources pieces ++ (statement ++ behind')) = .plain)
    (hne : pieces ≠ []) :
    (Verdict.ofText o (sources pieces ++ (statement ++ behind'))).isNone = true := by
  have hunbroken := unbroken_of_passage hg h hp (.inr ⟨_, _, rfl, hs⟩)
  have hseam := Seam.of_found hg hv
  have htext := h.text_eq
  cases h with
  | stay => exact absurd rfl hne
  | @step _ _ _ _ _ piece more shows tail =>
      have hsource : sources (piece :: more) ≠ [] := by
        rw [sources_cons]
        simp [Outlook.source_ne_nil shows]
      by_cases hlinear : ∃ c ∈ sources (piece :: more), isLinear c = false
      · -- The stretch is unbroken by itself, and the seam adds no statement to it.
        have hplain' : Hiding.ofText o (sources (piece :: more)) = .plain := by
          rw [Hiding.ofText_eq_iff] at hplain ⊢
          exact (Hiding.plain_append_iff hseam hsource).1 hplain
        exact Verdict.isNone_append_of_seam hg hseam hlinear (hunbroken.isNone hsource hplain' hw)
      · -- Blanks alone would belong to the statement that follows them.
        have hall : ∀ c ∈ sources (piece :: more), isLinear c = true := by
          simpa using hlinear
        obtain ⟨first, left, hfirst⟩ := List.exists_cons_of_ne_nil hsource
        have hinert := isInert_of_isLinear (hall first (by simp [hfirst]))
        have hfound := Verdict.found_of_isLinear hall (Outlook.found_of_separator hs)
        have hnone := ((Outlook.shows_iff_copies (hp piece (by simp))).1 shows).2 (by
          rw [htext, hfirst, List.cons_append]
          exact (Hiding.hides_of_isInert hinert _).eq_ofText) hw
        rw [htext, hfound] at hnone
        cases hnone

/-- A stretch of text before a statement is read the same whatever follows the statement. -/
theorem change {statement rest behind' : List Char} {count : RepeatCount} (hg : SeparatesByGo o)
    (h : Passage o w text pieces w' rest) (hp : ∀ piece ∈ pieces, piece.isSeparator = false)
    (hs : Outlook.Shows o w' rest (.piece (.separator count statement) behind))
    (hv : Verdict.ofText o (statement ++ behind') = .found count statement.length) :
    Passage o w (sources pieces ++ (statement ++ behind')) pieces w' (statement ++ behind') := by
  induction h with
  | stay w text => exact .stay w _
  | @step w w' text left rest piece pieces shows tail ih =>
      obtain ⟨hpiece, hpieces⟩ := List.forall_mem_cons.1 hp
      have hrest : rest = statement ++ behind := Outlook.text_eq hs
      have hne : statement ≠ [] := Outlook.source_ne_nil hs
      obtain ⟨hcopies, -⟩ := (Outlook.shows_iff_copies hpiece).1 shows
      have hleft : left = (sources pieces ++ statement) ++ behind := by
        rw [tail.text_eq, hrest, List.append_assoc]
      have htext : text = (piece.source ++ (sources pieces ++ statement)) ++ behind := by
        rw [Outlook.text_eq shows, hleft, List.append_assoc piece.source]
      have hchanged := hcopies.change behind' htext hleft rfl (by simp [hne])
      rw [List.append_assoc, List.append_assoc] at hchanged
      rw [sources_cons, List.append_assoc]
      refine .step ((Outlook.shows_iff_copies hpiece).2 ⟨hchanged, fun hplain hw => ?_⟩)
        (ih hpieces hs)
      have hnone := (Passage.step shows tail).isNone_of_stretch hg hp hs hv hw
      rw [sources_cons, List.append_assoc] at hnone
      exact hnone hplain (by simp)

/-- A passage that ends in a statement is one through the text up to there. -/
theorem cut (hg : SeparatesByGo o) (h : Passage o w text pieces w' behind)
    (hlast : ∀ piece ∈ pieces.getLast?, piece.isSeparator = true) :
    Passage o w (sources pieces) pieces w' [] := by
  induction hn : pieces.length using Nat.strongRecOn generalizing w text pieces with
  | ind n ih =>
      rcases exists_stretch pieces with hall | ⟨stretch, count, statement, more, rfl, hall⟩
      · rcases List.eq_nil_or_concat pieces with rfl | ⟨front, last, rfl⟩
        · cases h
          exact .stay _ []
        · have hsep := hlast last (by simp)
          rw [hall last (by simp)] at hsep
          cases hsep
      obtain ⟨w₁, text₁, hfirst, hrest⟩ := h.split
      cases hrest with
      | @step _ _ _ text₂ _ _ _ shows hmore =>
          have hmorelast : ∀ piece ∈ more.getLast?, piece.isSeparator = true := by
            intro piece hpiece
            refine hlast piece ?_
            rw [List.getLast?_append_of_ne_nil _ (by simp), List.getLast?_cons,
              Option.mem_def.1 hpiece]
            rfl
          have hcut := ih more.length (by simp [← hn]; omega) hmore hmorelast rfl
          have hclosed : ∀ e, Gap.read (sources more) ≠ .error e := by
            intro e he
            have hblind := blindFault?_of_passage {} hg.hasWordSeparator hcut
            rw [(opens_of_gap he).blindFault?_eq {}, blindFault?] at hblind
            cases hblind
          have hfound := Outlook.found_of_separator shows
          rw [Outlook.text_eq shows, hmore.text_eq, Piece.source, ← List.append_assoc] at hfound
          have hv := Verdict.found_of_append hfound (by simp) (by rwa [List.drop_left])
          have hw : (o.wordBoundaries && w₁) = false := by
            cases shows with
            | separator hh hw hv => exact hw
          have hstatement := Outlook.shows_of_found hg.hasWordSeparator hw hv
          have hstretch := hfirst.change hg hall shows hv
          rw [sources_append, sources_cons, Piece.source]
          exact hstretch.append (.step hstatement hcut)

end Passage

end BatchScript
