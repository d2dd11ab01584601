import BatchScript.Proofs.Blind
import BatchScript.Proofs.Seam

/-!
# Unbroken texts

A text is unbroken if reading it from its first character to its last finds no separator statement
and leaves nothing open. What a split leaves between two statements is such a text, but that has to
be shown: it is read there with the rest of the script behind it, and alone it ends at a seam.

Two ways lead to unbroken texts. `Covers` follows a reading of a longer text up to a seam, where it
may still be inside a line comment; what it covers is unbroken by itself. And unbroken texts are
joined by a line feed.

## Main results

* `Covers.unbroken` — what is covered before a seam is unbroken by itself.
* `unbroken_of_passage` — the text between two separator statements is unbroken.
* `Unbroken.append_newline` — unbroken texts with a line feed between them are unbroken.
* `Unbroken.of_isSilent` — a text that opens nothing and does not hold the keyword is unbroken.
-/

namespace BatchScript

/-! ### Pieces before a seam -/

namespace Outlook.Copies

variable {o : Options} {w : Bool} {text behind rest : List Char} {piece : Piece}

/-- A piece and what is left behind it make up the text. -/
theorem eq_append (h : Copies o w text piece rest) : text = piece.source ++ rest := by
  cases h with
  | comment => exact (List.take_append_drop _ _).symm
  | quoted => exact (List.take_append_drop _ _).symm
  | blanks => exact List.takeWhile_append_dropWhile.symm
  | ordinary => rfl

/-- A piece ends in no word and no line break, unless it is one character or a line comment. -/
theorem last_cases {c : Char} (h : Copies o w text piece rest) (hc : c ∈ piece.source.getLast?) :
    (∃ n, Comment.line? text = some n ∧ piece = .comment (text.take n) ∧ rest = text.drop n) ∨
      piece = .ordinary c ∨ c ∈ [' ', '\t', '/', '\'', '"', ']'] := by
  cases h with
  | @comment _ n hh =>
      have hn := (Hiding.bounds_of_comment hh).1
      rcases Hiding.comment_iff.1 hh with hl | hb
      · exact .inl ⟨n, hl, rfl, rfl⟩
      · rw [Piece.source, List.getLast?_take, if_neg (by omega), Comment.getElem?_of_block? hb,
          Option.some_or, Option.mem_some_iff] at hc
        simp [← hc]
  | quoted hh =>
      cases hh with
      | @quoted first rest q n hq hn =>
          rw [Piece.source, Quoted.getLast?_take hn, Option.mem_some_iff] at hc
          have hclose := Quotation.close_of_ofOpener? hq
          rw [hc] at hclose
          exact .inr (.inr (by simp_all))
  | blanks hh hw hl =>
      have hlinear := List.all_eq_true.1 List.all_takeWhile c (List.mem_of_getLast? hc)
      rcases eq_of_isLinear hlinear with rfl | rfl <;> simp
  | ordinary hh hl =>
      obtain rfl : _ = c := by simpa [Piece.source] using hc
      exact .inr (.inl rfl)

/-- A piece that ends before a seam does not need the text behind it. -/
theorem of_append {whole left : List Char} (hs : Seam behind) (h : Copies o w whole piece left)
    (hwhole : whole = text ++ behind) (hleft : left = rest ++ behind)
    (htext : text = piece.source ++ rest) : Copies o w text piece rest := by
  -- Its source has a length of its own, and cuts the text where it cuts the whole.
  have htake : text.take piece.source.length = piece.source := by rw [htext, List.take_left]
  have hdrop : text.drop piece.source.length = rest := by rw [htext, List.drop_left]
  cases h with
  | @comment _ n hh =>
      have hlen : ((whole.take n).length) = n :=
        List.length_take_of_le (Hiding.bounds_of_comment hh).2
      rw [Piece.source, hlen] at htake hdrop
      have hle : n ≤ text.length := by rw [htext, List.length_append, Piece.source, hlen]; omega
      rw [← htake, ← hdrop]
      exact .comment (Hiding.comment_of_append (hwhole ▸ hh) hle)
  | @quoted _ n hh =>
      have hlen : ((whole.take n).length) = n :=
        List.length_take_of_le (Hiding.bounds_of_quoted hh).2
      rw [Piece.source, hlen] at htake hdrop
      have hle : n ≤ text.length := by rw [htext, List.length_append, Piece.source, hlen]; omega
      rw [← htake, ← hdrop]
      exact .quoted ((Hiding.quoted_iff hs).2 ⟨hwhole ▸ hh, hle⟩)
  | @blanks first tail hh hw hl =>
      have hstop : ∀ c ∈ rest.head?, isLinear c = false := by
        intro c hc
        have hnot := List.head?_dropWhile_not isLinear (first :: tail)
        rw [hleft, List.head?_append, Option.mem_def.1 hc] at hnot
        simpa using hnot
      have hrun : ((first :: tail).takeWhile isLinear).takeWhile isLinear =
          (first :: tail).takeWhile isLinear := by
        rw [List.takeWhile_takeWhile]
        simp
      have htakeWhile : text.takeWhile isLinear = (first :: tail).takeWhile isLinear := by
        rw [htext, Piece.source, takeWhile_append_of_stop hstop, hrun]
      obtain ⟨more, rfl⟩ : ∃ more, text = first :: more := by
        rw [htext, Piece.source, List.takeWhile_cons_of_pos hl]
        exact ⟨_, rfl⟩
      have hdropWhile : (first :: more).dropWhile isLinear = rest := by
        rw [← drop_length_takeWhile, htakeWhile]
        exact hdrop
      rw [← htakeWhile, ← hdropWhile]
      rw [hwhole] at hh
      exact .blanks ((Hiding.plain_append_iff hs (by simp)).1 hh) hw hl
  | @ordinary first tail hh hl =>
      subst hleft
      obtain rfl : text = first :: rest := htext
      exact .ordinary ((Hiding.plain_append_iff hs (by simp)).1 hh) hl

/-- A piece before a line feed. -/
theorem append (more : List Char) (h : Copies o w text piece rest) :
    Copies o w (text ++ '\n' :: more) piece (rest ++ '\n' :: more) := by
  have hs := Seam.newline more
  cases h with
  | @comment _ n hh =>
      have hle := (Hiding.bounds_of_comment hh).2
      rw [← List.take_append_of_le_length hle, ← List.drop_append_of_le_length hle]
      exact .comment (Hiding.comment_append more hh)
  | @quoted _ n hh =>
      have hle := (Hiding.bounds_of_quoted hh).2
      rw [← List.take_append_of_le_length hle, ← List.drop_append_of_le_length hle]
      exact .quoted ((Hiding.quoted_iff hs).1 hh).1
  | blanks hh hw hl =>
      have hstop : ∀ c ∈ ('\n' :: more).head?, isLinear c = false := by
        rintro c ⟨⟩
        rfl
      rw [← takeWhile_append_of_stop hstop, ← dropWhile_append_of_stop hstop]
      exact .blanks ((Hiding.plain_append_iff hs (by simp)).2 hh) hw hl
  | ordinary hh hl => exact .ordinary ((Hiding.plain_append_iff hs (by simp)).2 hh) hl

end Outlook.Copies

/-- A line break by itself is passed over. -/
theorem Outlook.shows_of_isLineBreak {o : Options} {w : Bool} {c : Char} (hg : SeparatesByGo o)
    (hc : isLineBreak c = true) (rest : List Char) :
    Shows o w (c :: rest) (.piece (.ordinary c) rest) := by
  have hinert : isInert c = true ∧ isLinear c = false ∧ c ≠ 'g' ∧ c ≠ 'G' := by
    rcases eq_of_isLineBreak hc with rfl | rfl <;> decide
  obtain ⟨hinert, hlinear, hg₁, hg₂⟩ := hinert
  refine (shows_iff_copies rfl).2 ⟨?_, fun _ _ => ?_⟩
  · exact .ordinary (Hiding.hides_of_isInert hinert rest) (.inr hlinear)
  · rcases Verdict.ofText_eq_absent_or o (c :: rest) with ha | ⟨blanks, keyword, tail, htext, hk⟩
    · rw [ha]
      rfl
    · obtain ⟨d, e, rfl, hd, -⟩ := hk.eq_go hg
      rcases blanks with _ | ⟨b, blanks⟩
      · obtain ⟨rfl, -⟩ := List.cons.inj htext
        simp [hg₁, hg₂] at hd
      · obtain ⟨rfl, -⟩ := List.cons.inj htext
        have := hk.isLinear c (by simp)
        simp [hlinear] at this

/-! ### Unbroken texts -/

/-- A text that is read to its end, from a state on, with no separator statement in it. -/
inductive Unbroken (o : Options) : Bool → List Char → Prop
  | nil (w : Bool) : Unbroken o w []
  | step {w : Bool} {text rest : List Char} {piece : Piece} (hp : piece.isSeparator = false)
      (shows : Outlook.Shows o w text (.piece piece rest))
      (tail : Unbroken o piece.endsInWord rest) : Unbroken o w text

/-- A character that opens nothing and is not the second letter of the keyword `GO`. -/
def isSilent (c : Char) : Bool :=
  isInert c && c.toLower != 'o'

theorem isSilent_of_isDigit {c : Char} (h : c.isDigit = true) : isSilent c = true := by
  have hne : c.toLower ≠ 'o' := by
    intro ho
    rcases AsciiCase.eq_or_eq_toUpper_of_toLower ho with rfl | rfl <;> cases h
  simp [isSilent, isInert_of_isDigit h, hne]

/-- The usual keyword is a word. -/
theorem SeparatesByGo.hasWordSeparator {o : Options} (hg : SeparatesByGo o) :
    HasWordSeparator o := by
  rw [HasWordSeparator, hg.separator, ← List.all_eq_true]
  decide

namespace Unbroken

variable {o : Options} {w : Bool} {text rest : List Char}

/-- The passage through an unbroken text. -/
theorem exists_passage (h : Unbroken o w text) :
    ∃ pieces w', Passage o w text pieces w' [] ∧ ∀ piece ∈ pieces, piece.isSeparator = false := by
  induction h with
  | nil w => exact ⟨[], w, .stay w [], by simp⟩
  | step hp shows _ ih =>
      obtain ⟨pieces, w', hpassage, hpieces⟩ := ih
      exact ⟨_ :: pieces, w', .step shows hpassage, List.forall_mem_cons.2 ⟨hp, hpieces⟩⟩

/-- Unbroken texts with a line feed between them are unbroken. -/
theorem append_newline (hg : SeparatesByGo o) (h : Unbroken o w text)
    (hrest : Unbroken o false rest) : Unbroken o w (text ++ '\n' :: rest) := by
  induction h with
  | nil w => exact .step rfl (Outlook.shows_of_isLineBreak hg rfl rest) hrest
  | @step w text rest' piece hp shows _ ih =>
      obtain ⟨hcopies, hnone⟩ := (Outlook.shows_iff_copies hp).1 shows
      refine .step hp ((Outlook.shows_iff_copies hp).2 ⟨hcopies.append rest, ?_⟩) ih
      intro hplain hw
      refine Verdict.isNone_append hg rest (hnone ?_ hw)
      have hne : text ≠ [] := by
        rw [hcopies.eq_append]
        simp [Outlook.source_ne_nil shows]
      rw [Hiding.ofText_eq_iff] at hplain ⊢
      exact (Hiding.plain_append_iff (.newline rest) hne).1 hplain

/-- The line breaks that an unbroken text begins with can be left out. -/
theorem dropWhile_isLineBreak (hg : SeparatesByGo o) (h : Unbroken o false text) :
    Unbroken o false (text.dropWhile isLineBreak) := by
  induction text with
  | nil => exact h
  | cons c rest ih =>
      cases hc : isLineBreak c with
      | false => rwa [List.dropWhile_cons_of_neg (by simp [hc])]
      | true =>
          rw [List.dropWhile_cons_of_pos hc]
          refine ih ?_
          cases h with
          | step hp shows tail =>
              have hbreak := Outlook.shows_of_isLineBreak (w := false) hg hc rest
              have hsame := shows.eq_ofText.symm.trans hbreak.eq_ofText
              obtain ⟨rfl, rfl⟩ : _ = Piece.ordinary c ∧ _ = rest := by simpa using hsame
              have hword : (Piece.ordinary c).endsInWord = false := by
                rcases eq_of_isLineBreak hc with rfl | rfl <;> decide
              rwa [hword] at tail

/-- A text of silent characters is unbroken. -/
theorem of_isSilent (hg : SeparatesByGo o) (h : text.all isSilent = true) : Unbroken o w text := by
  rw [List.all_eq_true] at h
  induction hn : text.length using Nat.strongRecOn generalizing w text with
  | ind n ih =>
      rcases text with _ | ⟨first, rest⟩
      · exact .nil w
      have hfirst := h first (by simp)
      rw [isSilent, Bool.and_eq_true] at hfirst
      have hh := Hiding.hides_of_isInert (o := o) hfirst.1 rest
      have hrest : ∀ c ∈ rest, isSilent c = true :=
        fun c hc => h c (List.mem_cons_of_mem _ hc)
      have hlength : rest.length < n := by rw [← hn, List.length_cons]; omega
      have hv : (Verdict.ofText o (first :: rest)).isNone = true := by
        rcases Verdict.ofText_eq_absent_or o (first :: rest) with ha | ⟨blanks, keyword, tail,
          htext, hk⟩
        · rw [ha]
          rfl
        · obtain ⟨c, d, rfl, -, hd⟩ := hk.eq_go hg
          have hsilent := h d (by simp [htext])
          rcases hd with rfl | rfl <;> cases hsilent
      cases hw : o.wordBoundaries && w with
      | true => exact .step rfl (.word hh hw) (ih _ hlength hrest rfl)
      | false =>
          cases hl : isLinear first with
          | false => exact .step rfl (.ordinary hh hw hv hl) (ih _ hlength hrest rfl)
          | true =>
              refine .step rfl (.blanks hh hw hv hl) (ih _ ?_ ?_ rfl)
              · have hsuffix := (List.dropWhile_suffix (l := rest) isLinear).length_le
                rw [List.dropWhile_cons_of_pos hl]
                omega
              · intro c hc
                exact h c ((List.dropWhile_suffix isLinear).subset hc)

end Unbroken

/-! ### Readings up to a seam -/

/-- A reading of a text with more behind it that comes to the seam between them over pieces of
text, or by a line comment that reaches it. -/
inductive Covers (o : Options) (behind : List Char) : Bool → List Char → Prop
  | done (w : Bool) : Covers o behind w []
  | comment {w : Bool} {text : List Char} (hl : Comment.line? text = some text.length) :
      Covers o behind w text
  | piece {w : Bool} {text rest : List Char} {piece : Piece} (hp : piece.isSeparator = false)
      (shows : Outlook.Shows o w (text ++ behind) (.piece piece (rest ++ behind)))
      (htext : text = piece.source ++ rest) (tail : Covers o behind piece.endsInWord rest) :
      Covers o behind w text

namespace Covers

variable {o : Options} {w : Bool} {text behind : List Char}

/-- A blind reading passes over what is covered. -/
theorem blindFault?_eq_none (hs : Seam behind) (h : Covers o behind w text) (p : Position) :
    blindFault? o p text = none := by
  induction h generalizing p with
  | done w => rw [blindFault?]
  | @comment w text hl =>
      rw [(Reads.of_comment (.line hl)).clear, List.drop_length, blindFault?]
  | piece hp shows htext _ ih =>
      have hcopies := ((Outlook.shows_iff_copies hp).1 shows).1.of_append hs rfl rfl htext
      rw [(reads_of_copies hcopies).clear, htext, List.drop_left, ih]

/-- What is covered before a seam is unbroken by itself, unless its last word goes on behind. -/
theorem unbroken (hg : SeparatesByGo o) (hs : Seam behind)
    (hw : ∀ c ∈ text.getLast?, isWord c = true → Verdict.joined o behind = false)
    (h : Covers o behind w text) : Unbroken o w text := by
  induction h with
  | done w => exact .nil w
  | @comment w text hl =>
      have hh : Hiding.Hides o text (.comment text.length) := .line hl
      have hcopies : Outlook.Copies o w text _ _ := .comment hh
      have hshows := (Outlook.shows_iff_copies rfl).2 ⟨hcopies, by simp [hh.eq_ofText]⟩
      rw [List.drop_length] at hshows
      exact .step rfl hshows (.nil _)
  | @piece w text rest piece hp shows htext htail ih =>
      obtain ⟨hcopies, hnone⟩ := (Outlook.shows_iff_copies hp).1 shows
      have hcopies' := hcopies.of_append hs rfl rfl htext
      have hne : piece.source ≠ [] := Outlook.source_ne_nil shows
      have hlast : ∀ c ∈ rest.getLast?, isWord c = true → Verdict.joined o behind = false := by
        intro c hc
        exact hw c (by simp [htext, Option.mem_def.1 hc])
      refine .step hp ((Outlook.shows_iff_copies hp).2 ⟨hcopies', fun hplain hfree => ?_⟩)
        (ih hlast)
      have hplain' : Hiding.ofText o (text ++ behind) = .plain := by
        rw [Hiding.ofText_eq_iff] at hplain ⊢
        exact (Hiding.plain_append_iff hs (by simp [htext, hne])).2 hplain
      rcases Verdict.isNone_of_append hg hs hw (hnone hplain' hfree) with hv | ⟨e, hv⟩
      · exact hv
      · -- A comment left open in the text would stop a blind reading of it.
        have hclear := (Covers.piece hp shows htext htail).blindFault?_eq_none hs {}
        obtain ⟨first, more, rfl⟩ : ∃ first more, text = first :: more :=
          List.exists_cons_of_ne_nil (by simp [htext, hne])
        rw [Hiding.ofText_eq_iff] at hplain
        have hopen :=
          (opens_of_fault hg.hasWordSeparator (.openSeparator hplain hfree hv)).blindFault?_eq {}
        rw [hclear] at hopen
        cases hopen

/-- A passage over pieces of text covers them. -/
theorem of_passage {w' : Bool} {pieces : List Piece} (h : Passage o w text pieces w' behind)
    (hp : ∀ piece ∈ pieces, piece.isSeparator = false) : Covers o behind w (sources pieces) := by
  induction h with
  | stay w text => exact .done w
  | @step w w' text rest rest' piece pieces shows htail ih =>
      obtain ⟨hpiece, hpieces⟩ := List.forall_mem_cons.1 hp
      refine .piece hpiece ?_ (sources_cons piece pieces) (ih hpieces)
      rwa [sources_cons, List.append_assoc, ← htail.text_eq, ← Outlook.text_eq shows]

end Covers

/-- Behind a passage that ends in a word character the word is still open, or a line ends. -/
theorem Passage.open_of_getLast? {o : Options} {w w' : Bool} {text behind : List Char}
    {pieces : List Piece} {c : Char} (h : Passage o w text pieces w' behind)
    (hp : ∀ piece ∈ pieces, piece.isSeparator = false) (hc : c ∈ (sources pieces).getLast?)
    (hword : isWord c = true) : w' = true ∨ ∀ d ∈ behind.head?, d = '\n' := by
  induction h with
  | stay w text => cases hc
  | @step w w' text rest behind piece pieces shows htail ih =>
      obtain ⟨hpiece, hpieces⟩ := List.forall_mem_cons.1 hp
      cases htail with
      | stay =>
          rw [sources_cons, sources_nil, List.append_nil] at hc
          rcases ((Outlook.shows_iff_copies hpiece).1 shows).1.last_cases hc with
            ⟨n, hl, rfl, rfl⟩ | rfl | hmem
          · exact .inr (Comment.head?_drop_of_line? hl)
          · exact .inl hword
          · have hall : [' ', '\t', '/', '\'', '"', ']'].all (!isWord ·) = true := by
              decide
            have hnot := List.all_eq_true.1 hall c hmem
            simp [hword] at hnot
      | @step _ _ _ _ _ next more shows' htail' =>
          refine ih hpieces ?_
          have hne : sources (next :: more) ≠ [] := by
            rw [sources_cons]
            simp [Outlook.source_ne_nil shows']
          rwa [sources_cons, List.getLast?_append_of_ne_nil _ hne] at hc

/-- What is read up to the end of a script or up to a separator statement is unbroken. -/
theorem unbroken_of_passage {o : Options} {w w' : Bool} {text behind : List Char}
    {pieces : List Piece} (hg : SeparatesByGo o) (h : Passage o w text pieces w' behind)
    (hp : ∀ piece ∈ pieces, piece.isSeparator = false)
    (hend : behind = [] ∨ ∃ piece rest, piece.isSeparator = true ∧
      Outlook.Shows o w' behind (.piece piece rest)) : Unbroken o w (sources pieces) := by
  have hcovers := Covers.of_passage h hp
  rcases hend with rfl | ⟨piece, rest, hpiece, shows⟩
  · exact hcovers.unbroken hg (by simp [Seam]) (by simp [Verdict.joined])
  · obtain ⟨count, statement, rfl⟩ := Piece.eq_separator hpiece
    refine hcovers.unbroken hg (.of_found hg (Outlook.found_of_separator shows)) ?_
    intro c hc hword
    rcases h.open_of_getLast? hp hc hword with rfl | hnewline
    · -- No statement is looked for behind a word where words are to be kept whole.
      cases shows with
      | separator hh hw hv =>
          rw [Bool.and_true] at hw
          simp [Verdict.joined, hw]
    · refine Verdict.joined_of_isLineBreak o fun d hd => ?_
      rw [hnewline d hd]
      rfl

namespace Unbroken

variable {o : Options} {w : Bool} {text breaks : List Char}

/-- Line breaks behind a text are no part of what it is read as. -/
theorem covers_of_append {whole : List Char} (hb : ∀ c ∈ breaks, isLineBreak c = true)
    (h : Unbroken o w whole) (hwhole : whole = text ++ breaks) : Covers o breaks w text := by
  induction h generalizing text with
  | nil w =>
      obtain ⟨rfl, -⟩ := List.append_eq_nil_iff.1 hwhole.symm
      exact .done w
  | @step w whole rest piece hp shows _ ih =>
      rcases text with _ | ⟨first, more⟩
      · exact .done w
      have hsplit := (Outlook.text_eq shows).symm.trans hwhole
      rcases List.append_eq_append_iff.1 hsplit with ⟨left, htext, hrest⟩ | ⟨beyond, hsource, hrest⟩
      · -- The piece ends before the line breaks.
        rw [hwhole, hrest] at shows
        exact .piece hp shows htext (ih hrest)
      rcases beyond with _ | ⟨c, beyond⟩
      · -- It ends with the text.
        rw [List.append_nil] at hsource
        rw [List.nil_append] at hrest
        rw [hwhole, hrest, ← List.nil_append rest] at shows
        exact .piece hp (hrest ▸ shows) (by rw [hsource, List.append_nil]) (.done _)
      · -- It reaches over them, and is a line comment: nothing else ends in a line break.
        have hcopies := ((Outlook.shows_iff_copies hp).1 shows).1
        obtain ⟨d, hd⟩ : ∃ d, (c :: beyond).getLast? = some d :=
          ⟨_, List.getLast?_eq_some_getLast (by simp)⟩
        have hlast : d ∈ piece.source.getLast? := by
          rw [hsource, List.getLast?_append_of_ne_nil _ (by simp), hd]
          rfl
        have hbreak : isLineBreak d = true :=
          hb d (hrest ▸ List.mem_append_left rest (List.mem_of_getLast? hd))
        rcases hcopies.last_cases hlast with ⟨n, hl, rfl, rfl⟩ | rfl | hmem
        · have hle : (first :: more).length ≤ n := by
            have hlength := congrArg List.length hsource
            rw [Piece.source, List.length_take, List.length_append] at hlength
            omega
          have hdash : breaks.head? ≠ some '-' := by
            rw [hrest]
            rintro ⟨⟩
            cases hb '-' (by simp [hrest])
          rw [hwhole] at hl
          exact .comment (Comment.line?_of_le (by simp) hdash hl hle)
        · simp [Piece.source] at hsource
        · have hall : [' ', '\t', '/', '\'', '"', ']'].all (!isLineBreak ·) = true := by decide
          have hnot := List.all_eq_true.1 hall d hmem
          simp [hbreak] at hnot

/-- The line breaks at the two ends of an unbroken text can be left out. -/
theorem stripLineBreaks (hg : SeparatesByGo o) (h : Unbroken o false text) :
    Unbroken o false (stripLineBreaks text) := by
  have hfront := h.dropWhile_isLineBreak hg
  rw [← List.rdropWhile_append_rtakeWhile (p := isLineBreak)
    (l := text.dropWhile isLineBreak)] at hfront
  have hbreaks : ∀ c ∈ (text.dropWhile isLineBreak).rtakeWhile isLineBreak,
      isLineBreak c = true := fun c hc => List.mem_rtakeWhile_imp hc
  have hstop : ∀ c ∈ ((text.dropWhile isLineBreak).rtakeWhile isLineBreak).head?,
      isLineBreak c = true := fun c hc => hbreaks c (List.mem_of_head? hc)
  exact (hfront.covers_of_append hbreaks rfl).unbroken hg (.of_isLineBreak hstop)
    fun _ _ _ => Verdict.joined_of_isLineBreak o hstop

end Unbroken

end BatchScript
