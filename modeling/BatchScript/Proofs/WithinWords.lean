import BatchScript.Proofs.Mark
import BatchScript.Proofs.Unbroken

/-!
# Statements within words

Where words need not be kept whole a script is cut at more places: behind any word character, and
in front of any. Nothing is lost by that. The reading that looks for statements everywhere runs into
ones that the other does not see, and passes over their gaps, counts and comments; but it comes out
of them where the other reading stands in ordinary text, and before any keyword that the other
finds.

What makes the two come together again is the blind reading that both go along with. A keyword found
by one begins where a blind reading of the script gets to. The other gets there too, in one of its
pieces: and within comments, quoted text, gaps, counts and the rest of a keyword, no letter stands
where a blind reading gets to that a keyword could begin with.

## Main results

* `Reads.sub` — of two blind readings of a text one goes on where the other stops.
* `quiet_of_tail`, `quiet_of_open` — no word begins in the tail of a statement.
* `Outlook.separator_of_keyword` — the piece in which a keyword begins is its statement.
* `marks_words_sublist` — statements found where words are kept whole are found where they are not.
-/

namespace BatchScript

/-! ### Two blind readings of one text -/

variable {o : Options} {text rest : List Char} {m n : Nat}

/-- A text hides one thing only. -/
theorem Hiding.Hides.unique {found found' : Hiding} (h : Hides o text found)
    (h' : Hides o text found') : found = found' :=
  h.eq_ofText.symm.trans h'.eq_ofText

namespace Reads

/-- Options that quote alike have the same blind readings. -/
theorem congr {o' : Options} (ho : QuoteAlike o o') (h : Reads o text n) : Reads o' text n := by
  have hides {text : List Char} {found : Hiding} (hh : Hiding.Hides o text found) :
      Hiding.Hides o' text found :=
    Hiding.ofText_eq_iff.1 ((ho.ofText_eq text).symm.trans hh.eq_ofText)
  induction h with
  | zero text => exact .zero text
  | comment hh _ ih => exact .comment (hides hh) ih
  | quoted hh _ ih => exact .quoted (hides hh) ih
  | plain hh _ ih => exact .plain (hides hh) ih

/-- A blind reading gets to no place within a comment. -/
theorem le_of_comment (h : Reads o text n) (hh : Hiding.Hides o text (.comment m)) :
    n = 0 ∨ m ≤ n := by
  cases h with
  | zero => exact .inl rfl
  | comment hh' _ =>
      cases hh.unique hh'
      exact .inr (Nat.le_add_right _ _)
  | quoted hh' _ => cases hh.unique hh'
  | plain hh' _ => cases hh.unique hh'

/-- And to none within quoted text. -/
theorem le_of_quoted (h : Reads o text n) (hh : Hiding.Hides o text (.quoted m)) :
    n = 0 ∨ m ≤ n := by
  cases h with
  | zero => exact .inl rfl
  | comment hh' _ => cases hh.unique hh'
  | quoted hh' _ =>
      cases hh.unique hh'
      exact .inr (Nat.le_add_right _ _)
  | plain hh' _ => cases hh.unique hh'

/-- And nowhere behind the opener of a construct left open. -/
theorem eq_zero_of_unclosed {construct : Construct} (h : Reads o text n)
    (hh : Hiding.Hides o text (.unclosed construct)) : n = 0 := by
  cases h with
  | zero => rfl
  | comment hh' _ => cases hh.unique hh'
  | quoted hh' _ => cases hh.unique hh'
  | plain hh' _ => cases hh.unique hh'

/-- Of two blind readings of a text the longer goes on where the shorter stops. -/
theorem sub (h : Reads o text m) (h' : Reads o text n) (hle : m ≤ n) :
    Reads o (text.drop m) (n - m) := by
  induction h generalizing n with
  | zero text => exact h'
  | @comment text k m hh _ ih =>
      have hk := (Hiding.bounds_of_comment hh).1
      cases h' with
      | zero => omega
      | @comment _ k' n hh' next' =>
          cases hh.unique hh'
          rw [← List.drop_drop, Nat.add_sub_add_left]
          exact ih next' (by omega)
      | quoted hh' _ => cases hh.unique hh'
      | plain hh' _ => cases hh.unique hh'
  | @quoted text k m hh _ ih =>
      have hk := (Hiding.bounds_of_quoted hh).1
      cases h' with
      | zero => omega
      | comment hh' _ => cases hh.unique hh'
      | @quoted _ k' n hh' next' =>
          cases hh.unique hh'
          rw [← List.drop_drop, Nat.add_sub_add_left]
          exact ih next' (by omega)
      | plain hh' _ => cases hh.unique hh'
  | @plain first rest m hh _ ih =>
      generalize htext : first :: rest = text at hh h'
      cases h' with
      | zero => omega
      | comment hh' _ => cases hh.unique hh'
      | quoted hh' _ => cases hh.unique hh'
      | @plain first' rest' n hh' next' =>
          cases htext
          rw [Nat.add_comm 1 m, Nat.add_comm 1 n, Nat.add_sub_add_right]
          exact ih next' (by omega)

end Reads

/-! ### Where no word begins -/

/-- A text over so many characters of which a blind reading gets to no word character but digits. -/
def Quiet (o : Options) (text : List Char) (n : Nat) : Prop :=
  ∀ k, Reads o text k → k < n → ∀ c ∈ (text.drop k).head?, isWord c = true → c.isDigit = true

/-- At a word character nothing hides. -/
theorem Hiding.Hides.eq_plain {c : Char} {found : Hiding} (h : Hides o text found)
    (hc : c ∈ text.head?) (hword : isWord c = true) : found = .plain := by
  obtain ⟨rest, rfl⟩ := List.head?_eq_some_iff.1 hc
  exact h.unique (hides_of_isInert (isInert_of_isWord hword rfl) rest)

namespace Quiet

theorem zero (o : Options) (text : List Char) : Quiet o text 0 :=
  fun _ _ hk => absurd hk (Nat.not_lt_zero _)

/-- One quiet text behind another is quiet. -/
theorem add (h : Quiet o text m) (hm : Reads o text m) (h' : Quiet o (text.drop m) n) :
    Quiet o text (m + n) := by
  intro k hk hlt
  by_cases hkm : k < m
  · exact h k hk hkm
  · have hbehind := h' (k - m) (hm.sub hk (by omega)) (by omega)
    rwa [List.drop_drop, Nat.add_sub_cancel' (by omega)] at hbehind

theorem of_comment (h : Hiding.Hides o text (.comment n)) : Quiet o text n := by
  intro k hk hlt c hc hword
  obtain rfl : k = 0 := (hk.le_of_comment h).resolve_right (by omega)
  cases h.eq_plain hc hword

theorem of_quoted (h : Hiding.Hides o text (.quoted n)) : Quiet o text n := by
  intro k hk hlt c hc hword
  obtain rfl : k = 0 := (hk.le_of_quoted h).resolve_right (by omega)
  cases h.eq_plain hc hword

theorem of_run {run : List Char} (h : ∀ c ∈ run, isWord c = true → c.isDigit = true)
    (rest : List Char) : Quiet o (run ++ rest) run.length := by
  intro k _ hlt c hc
  refine h c ?_
  rw [List.drop_append_of_le_length (by omega), List.head?_append_of_ne_nil] at hc
  · exact List.mem_of_mem_drop (List.mem_of_head? hc)
  · simpa using hlt

/-- No word begins in blanks. -/
theorem of_isLinear {run : List Char} (h : ∀ c ∈ run, isLinear c = true) (rest : List Char) :
    Quiet o (run ++ rest) run.length := by
  refine of_run (fun c hc hword => ?_) rest
  rw [isWord_of_isLinear (h c hc)] at hword
  cases hword

end Quiet

/-- No word begins in a gap. -/
theorem quiet_of_gap (o : Options) (text : List Char) : Quiet o text (Gap.length text) := by
  induction text using Gap.induction with
  | nil =>
      rw [Gap.length_nil]
      exact .zero o []
  | linear c rest hc ih =>
      have hrun : Quiet o ([c] ++ rest) [c].length :=
        .of_isLinear (List.forall_mem_singleton.2 hc) rest
      rw [Gap.length_cons_of_isLinear hc, Nat.add_comm]
      exact hrun.add (.of_plain (Hiding.hides_of_isInert (isInert_of_isLinear hc) rest)) ih
  | comment text n h ih =>
      rw [Gap.length_of_closed h]
      exact .add (.of_comment (.block h)) (.of_comment (.block h)) ih
  | other c rest hc h =>
      rw [Gap.length_eq_zero hc h]
      exact .zero o _

/-- And none among digits. -/
theorem quiet_of_digits (o : Options) (text : List Char) :
    Quiet o text (Verdict.digits text).length := by
  have h : Quiet o (Verdict.digits text ++ text.dropWhile Char.isDigit)
      (Verdict.digits text).length :=
    .of_run (fun c hc _ => List.all_eq_true.1 List.all_takeWhile c hc) _
  rwa [Verdict.digits, List.takeWhile_append_dropWhile] at h

theorem quiet_of_trailing (h : Verdict.trailing text = .ok n) : Quiet o text n := by
  obtain ⟨g, hgap, ⟨m, hline, rfl⟩ | ⟨-, rfl⟩⟩ := Verdict.trailing_eq_ok.1 h
  · obtain ⟨rfl, -⟩ := Gap.read_eq_ok.1 hgap
    exact (quiet_of_gap o text).add (reads_of_gap o text) (.of_comment (.line hline))
  · exact .zero o text

/-- No word begins in the tail of a statement. -/
theorem quiet_of_tail {count : RepeatCount} (h : Verdict.Tail text (.found count n)) :
    Quiet o text n := by
  cases h with
  | comment hgap hline =>
      obtain ⟨rfl, -⟩ := Gap.read_eq_ok.1 hgap
      exact (quiet_of_gap o text).add (reads_of_gap o text) (.of_comment (.line hline))
  | count hgap hline hcount htrail =>
      obtain ⟨rfl, -⟩ := Gap.read_eq_ok.1 hgap
      exact (quiet_of_gap o text).add (reads_of_gap o text)
        ((quiet_of_digits o _).add (reads_of_digits o _) (quiet_of_trailing htrail))

/-- And none in front of a comment that a tail leaves open. -/
theorem quiet_of_open {e : Opening} (h : Verdict.Tail text (.unclosed e)) :
    Quiet o text e.before := by
  cases h with
  | openGap hgap =>
      rw [(Gap.read_eq_error.1 hgap).1]
      exact quiet_of_gap o text
  | openTrail hgap hline hcount htrail =>
      obtain ⟨rfl, -⟩ := Gap.read_eq_ok.1 hgap
      refine (quiet_of_gap o text).add (reads_of_gap o text)
        ((quiet_of_digits o _).add (reads_of_digits o _) ?_)
      rw [(Gap.read_eq_error.1 (Verdict.trailing_eq_error.1 htrail)).1]
      exact quiet_of_gap o _

/-! ### Where a keyword begins -/

/-- A keyword of a statement behind so many characters of a text, where a blind reading of the text
gets to. -/
structure KeywordBehind (o : Options) (text : List Char) (k : Nat) (keyword tail : List Char)
    (count : RepeatCount) (length : Nat) : Prop where
  reads : Reads o text k
  drop_eq : text.drop k = keyword ++ tail
  keyed : Verdict.Keyed o [] keyword tail
  tail : Verdict.Tail tail (.found count length)

namespace KeywordBehind

variable {k length : Nat} {keyword tail : List Char} {count : RepeatCount}

/-- A keyword begins with a letter. -/
theorem exists_letter (h : KeywordBehind o text k keyword tail count length)
    (hg : SeparatesByGo o) :
    ∃ c ∈ (text.drop k).head?, (c = 'g' ∨ c = 'G') ∧ isWord c = true ∧ c.isDigit = false := by
  obtain ⟨c, d, rfl, hc, -⟩ := h.keyed.eq_go hg
  refine ⟨c, by rw [h.drop_eq]; rfl, hc, ?_⟩
  rcases hc with rfl | rfl <;> decide

/-- It is found behind what is passed over before it. -/
theorem drop (h : KeywordBehind o text k keyword tail count length) (hn : Reads o text n)
    (hle : n ≤ k) : KeywordBehind o (text.drop n) (k - n) keyword tail count length := by
  refine ⟨hn.sub h.reads hle, ?_, h.keyed, h.tail⟩
  rw [List.drop_drop, Nat.add_sub_cancel' hle, h.drop_eq]

/-- It does not begin where no word does. -/
theorem le_of_quiet (h : KeywordBehind o text k keyword tail count length)
    (hg : SeparatesByGo o) (hquiet : Quiet o text n) : n ≤ k := by
  obtain ⟨c, hc, -, hword, hdigit⟩ := h.exists_letter hg
  refine Nat.le_of_not_lt fun hlt => ?_
  rw [hquiet k h.reads hlt c hc hword] at hdigit
  cases hdigit

/-- A keyword that begins within a statement, or before a comment that one leaves open, is the
keyword of the statement. -/
theorem eq_of_keyed (h : KeywordBehind o text k keyword tail count length)
    (hg : SeparatesByGo o) {blanks keyword' tail' : List Char}
    (htext : text = blanks ++ (keyword' ++ tail')) (hk : Verdict.Keyed o blanks keyword' tail')
    (hquiet : Quiet o tail' n) (hlt : k < blanks.length + keyword'.length + n) :
    k = blanks.length ∧ keyword' = keyword ∧ tail' = tail := by
  have hblanks : blanks.length ≤ k :=
    h.le_of_quiet hg (htext ▸ .of_isLinear hk.isLinear (keyword' ++ tail'))
  have hbefore : k < blanks.length + keyword'.length := by
    refine Nat.lt_of_not_le fun hle => ?_
    have hkeyword : Reads o text (blanks.length + keyword'.length) := by
      rw [htext]
      exact reads_of_keyed hg.hasWordSeparator hk
    have hbehind : text.drop (blanks.length + keyword'.length) = tail' := by
      rw [htext, ← List.append_assoc, ← List.length_append, List.drop_left]
    have htail := (h.drop hkeyword hle).le_of_quiet hg (hbehind.symm ▸ hquiet)
    omega
  have hplace : k = blanks.length := by
    obtain ⟨e, he, hletter, -, -⟩ := h.exists_letter hg
    obtain ⟨c, d, rfl, -, hd⟩ := hk.eq_go hg
    rcases Nat.eq_or_lt_of_le hblanks with heq | hlt
    · exact heq.symm
    · -- The second letter of a keyword is not the first.
      obtain rfl : k = blanks.length + 1 := by
        simp only [List.length_cons, List.length_nil] at hbefore
        omega
      rw [htext, ← List.drop_drop, List.drop_left] at he
      obtain rfl : d = e := by simpa using he
      rcases hletter with rfl | rfl <;> rcases hd with hd | hd <;> cases hd
  have hdrop := h.drop_eq
  rw [htext, hplace, List.drop_left] at hdrop
  exact ⟨hplace, List.append_inj hdrop (hk.length.trans h.keyed.length.symm)⟩

/-- A keyword is within the text. -/
theorem ne_nil (h : KeywordBehind o text k keyword tail count length) : text ≠ [] := by
  rintro rfl
  have hdrop := h.drop_eq
  rw [List.drop_nil] at hdrop
  exact h.keyed.keyword_ne_nil (List.append_eq_nil_iff.1 hdrop.symm).1

variable {w : Bool} {piece : Piece}

/-- No keyword begins in a piece of text where statements are looked for everywhere. -/
theorem length_le_of_shows (h : KeywordBehind o text k keyword tail count length)
    (hg : SeparatesByGo o) (ho : o.wordBoundaries = false) (hp : piece.isSeparator = false)
    (shows : Outlook.Shows o w text (.piece piece rest)) : piece.source.length ≤ k := by
  obtain ⟨hcopies, hnone⟩ := (Outlook.shows_iff_copies hp).1 shows
  cases hcopies with
  | comment hh => exact (List.length_take_le _ _).trans (h.le_of_quiet hg (.of_comment hh))
  | quoted hh => exact (List.length_take_le _ _).trans (h.le_of_quiet hg (.of_quoted hh))
  | @blanks first rest hh hw hl =>
      have hrun : Quiet o
          ((first :: rest).takeWhile isLinear ++ (first :: rest).dropWhile isLinear)
          ((first :: rest).takeWhile isLinear).length :=
        .of_isLinear (List.all_eq_true.1 List.all_takeWhile) _
      rw [List.takeWhile_append_dropWhile] at hrun
      exact h.le_of_quiet hg hrun
  | @ordinary first rest hh hl =>
      refine Nat.one_le_iff_ne_zero.2 ?_
      rintro rfl
      have hv := hnone hh.eq_ofText (by rw [ho]; rfl)
      have hjoined : Verdict.joined o tail = false := by rw [Verdict.joined, ho]; rfl
      have hfound := Verdict.ofText_of_keyed h.keyed
      rw [List.nil_append, ← h.drop_eq, List.drop_zero, h.tail.eq_ofTail hjoined] at hfound
      rw [hfound] at hv
      cases hv

end KeywordBehind

variable {k length : Nat} {keyword tail : List Char} {count : RepeatCount} {w w' : Bool}
  {piece : Piece} {pieces : List Piece}

/-- Where statements are looked for everywhere, the piece in which a keyword begins is its
statement. -/
theorem Outlook.separator_of_keyword (hg : SeparatesByGo o) (ho : o.wordBoundaries = false)
    (h : KeywordBehind o text k keyword tail count length)
    (shows : Shows o w text (.piece piece rest)) (hlt : k < piece.source.length) :
    ∃ blanks, text = blanks ++ (keyword ++ tail) ∧ blanks.length = k ∧
      Verdict.Keyed o blanks keyword tail ∧
      piece = .separator count (blanks ++ (keyword ++ tail.take length)) := by
  cases hp : piece.isSeparator with
  | false => exact absurd (h.length_le_of_shows hg ho hp shows) (Nat.not_le_of_lt hlt)
  | true =>
      obtain ⟨count', statement, rfl⟩ := Piece.eq_separator hp
      obtain rfl : text = statement ++ rest := text_eq shows
      obtain ⟨blanks, keyword', tail', m, htext, rfl, hk, hjoined, ht⟩ :=
        Verdict.exists_keyed_of_found (found_of_separator shows)
      have hshort : k < blanks.length + keyword'.length + m := by
        simp only [Piece.source, List.length_append, List.length_take] at hlt
        omega
      obtain ⟨rfl, rfl, rfl⟩ := h.eq_of_keyed hg htext hk (quiet_of_tail ht) hshort
      have hsame := (ht.eq_ofTail hjoined).symm.trans (h.tail.eq_ofTail hjoined)
      obtain ⟨rfl, rfl⟩ : count' = count ∧ m = length := by simpa using hsame
      exact ⟨blanks, htext, rfl, hk, rfl⟩

/-- And nothing is left open before it. -/
theorem KeywordBehind.not_fault (h : KeywordBehind o text k keyword tail count length)
    (hg : SeparatesByGo o) {fault : Fault} : ¬ Outlook.Shows o w text (.fault fault) := by
  intro shows
  have hopens := opens_of_fault hg.hasWordSeparator shows
  by_cases hle : fault.before ≤ k
  · -- A blind reading gets no further than to the opener, where no keyword begins.
    have hzero := (hopens.reads.sub h.reads hle).eq_zero_of_unclosed hopens.unclosed
    obtain rfl : k = fault.before := by omega
    obtain ⟨c, hc, -, hword, -⟩ := h.exists_letter hg
    cases hopens.unclosed.eq_plain hc hword
  · cases shows with
    | unclosed hh => exact hle (Nat.zero_le k)
    | openSeparator hh hw hv =>
        obtain ⟨blanks, keyword', tail', e, htext, hk, hjoined, ht, rfl⟩ :=
          Verdict.keyed_of_unclosed hv
        have hshort : k < blanks.length + keyword'.length + e.before := Nat.lt_of_not_le hle
        obtain ⟨-, -, rfl⟩ := h.eq_of_keyed hg htext hk (quiet_of_open ht) hshort
        cases (ht.eq_ofTail hjoined).symm.trans (h.tail.eq_ofTail hjoined)

/-! ### Whole scripts -/

/-- A passage that looks for statements everywhere comes to every keyword that a blind reading gets
to, with nothing but blanks left in front of it. -/
theorem Passage.exists_separator (h : Passage o w text pieces w' rest) {fault : Option Fault}
    (hh : Halt o w' rest fault) (hg : SeparatesByGo o) (ho : o.wordBoundaries = false)
    (hkeyword : KeywordBehind o text k keyword tail count length) :
    ∃ front w₁ blanks rest₁, Passage o w text front w₁ (blanks ++ (keyword ++ tail)) ∧
      Outlook.Shows o w₁ (blanks ++ (keyword ++ tail))
        (.piece (.separator count (blanks ++ (keyword ++ tail.take length))) rest₁) ∧
      Verdict.Keyed o blanks keyword tail ∧ (sources front ++ blanks).length = k := by
  induction h generalizing k with
  | stay w text =>
      cases hh with
      | finished => exact absurd rfl hkeyword.ne_nil
      | fault shows => exact absurd shows (hkeyword.not_fault hg)
  | @step w w' text rest rest' piece pieces shows _ ih =>
      by_cases hlt : k < piece.source.length
      · obtain ⟨blanks, rfl, rfl, hk, rfl⟩ := Outlook.separator_of_keyword hg ho hkeyword shows hlt
        exact ⟨[], w, blanks, rest, .stay w _, shows, hk, rfl⟩
      · have hdrop :=
          hkeyword.drop (reads_of_piece hg.hasWordSeparator shows) (Nat.le_of_not_lt hlt)
        rw [Outlook.text_eq shows, List.drop_left] at hdrop
        obtain ⟨front, w₁, blanks, rest₁, hfront, hshows, hk, hlength⟩ := ih hh hdrop
        refine ⟨piece :: front, w₁, blanks, rest₁, .step shows hfront, hshows, hk, ?_⟩
        rw [sources_cons, List.append_assoc, List.length_append, hlength]
        omega

/-- The options, with words kept whole or not. -/
def Options.words (o : Options) (whole : Bool) : Options :=
  { o with wordBoundaries := whole }

/-- A keyword that is found where words are kept whole begins where a blind reading gets to. -/
theorem Mark.Stands.keywordBehind {script blanks : List Char} {mark : Mark} {whole : Bool}
    (hg : SeparatesByGo o)
    (hp : Passage (o.words whole) w script pieces w' (blanks ++ (keyword ++ tail)))
    (h : mark.Stands (o.words whole) script (sources pieces) blanks keyword tail length) :
    KeywordBehind (o.words false) script (sources pieces ++ blanks).length keyword tail mark.count
      length := by
  have hwords : HasWordSeparator (o.words whole) := hg.hasWordSeparator
  have hquotes : QuoteAlike (o.words whole) (o.words false) := ⟨rfl, rfl⟩
  have hreads : Reads (o.words whole) script (sources pieces ++ blanks).length := by
    rw [List.length_append]
    refine .add (reads_of_passage hwords hp) ?_
    rw [h.script_eq, List.drop_left]
    exact .of_isInert (fun c hc => isInert_of_isLinear (h.keyed.isLinear c hc)) _
  refine ⟨hreads.congr hquotes, ?_, ?_, h.tail⟩
  · rw [h.script_eq, ← List.append_assoc, List.drop_left]
  · exact
      { isLinear := fun _ hc => nomatch hc
        maximal := h.keyed.maximal
        separator_ne_nil := h.keyed.separator_ne_nil
        toLower := h.keyed.toLower
        lookalikes := h.keyed.lookalikes }

/-- **Statements within words.** With the usual keyword and its usual look-alike, every separator
statement that is read where words are kept whole is read where they are not: with its keyword at
the same position, its end at the same position, and the same count. -/
theorem marks_words_sublist (hg : SeparatesByGo o) (script : String) :
    (marks (o.words true) script).Sublist (marks (o.words false) script) := by
  refine marks_sublist fun mark hmark => ?_
  obtain ⟨pieces, w, blanks, keyword, tail, length, hp, hstands⟩ := exists_stands_of_mem_marks hmark
  obtain ⟨pieces', w', rest, fault, hp', hh⟩ := exists_passage (o.words false) false script.toList
  obtain ⟨front, w₁, blanks', rest₁, hfront, hshows, hk, hlength⟩ :=
    hp'.exists_separator hh ⟨hg.separator, hg.lookalikes⟩ rfl (hstands.keywordBehind hg hp)
  -- Both readings have read the same text before the keyword.
  have hsame : (sources front ++ blanks') ++ (keyword ++ tail) =
      (sources pieces ++ blanks) ++ (keyword ++ tail) := by
    rw [List.append_assoc, List.append_assoc, ← hfront.text_eq, ← hstands.script_eq]
  have hbefore := List.append_cancel_right hsame
  refine mem_marks_of_shows hfront hshows ?_
  rw [Visit.mark?_of_keyed hk, ← Position.after_append, ← Position.after_append, hbefore,
    ← List.append_assoc, hbefore, List.append_assoc, ← hstands.keyword_eq, ← hstands.ending_eq]

/-- Where words are not kept whole a statement is also read within the first word of this script. It
takes the count behind it, and the next statement then has the blank that was ordinary text. -/
theorem marks_words_of_ago :
    SeparatesByGo {} ∧
      (marks (Options.words {} true) "ago 3 go 2\ngo").map (·.keyword.offset) = [6, 11] ∧
      (marks (Options.words {} false) "ago 3 go 2\ngo").map (·.keyword.offset) = [1, 6, 11] ∧
      (marks (Options.words {} true) "ago 3 go 2\ngo").Sublist
        (marks (Options.words {} false) "ago 3 go 2\ngo") := by
  have hwhole : pieces? (Options.words {} true) 10 false "ago 3 go 2\ngo".toList =
      some
        [.ordinary 'a', .ordinary 'g', .ordinary 'o', .ordinary ' ', .ordinary '3', .ordinary ' ',
          .separator ⟨2, by decide, by decide⟩ ['g', 'o', ' ', '2'], .ordinary '\n',
          .separator .once ['g', 'o']] := by
    decide +kernel
  have hwithin : pieces? (Options.words {} false) 6 false "ago 3 go 2\ngo".toList =
      some
        [.ordinary 'a', .separator ⟨3, by decide, by decide⟩ ['g', 'o', ' ', '3'],
          .separator ⟨2, by decide, by decide⟩ [' ', 'g', 'o', ' ', '2'], .ordinary '\n',
          .separator .once ['g', 'o']] := by
    decide +kernel
  refine ⟨⟨rfl, rfl⟩, ?_, ?_, marks_words_sublist ⟨rfl, rfl⟩ _⟩
  · rw [marks, course_of_pieces? hwhole]
    decide +kernel
  · rw [marks, course_of_pieces? hwithin]
    decide +kernel

end BatchScript
