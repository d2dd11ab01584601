import BatchScript.Proofs.Course

/-!
# Malformed scripts

Whether a script is malformed does not depend on where it is cut. A blind reading knows comments
and quoted text but no separators: at every place it takes a line comment, or else a block comment,
or else quoted text, or else one character. A script whose separator is empty or a word is
malformed exactly if a blind reading runs to the end of it inside a construct.

A separator statement hides nothing that a blind reading would not read the same way: its blanks,
keyword and digits open no construct, and its comments are comments for both.

## Main results

* `reads_of_piece`, `reads_of_passage` — a blind reading passes over every piece, and goes along
  with every passage.
* `opens_of_fault` — and fails where a piece is left open.
* `split_error_iff_blindFault?` — a script is malformed exactly if a blind reading finds it so.
* `malformed_iff_of_word_separators` — the verdict is the same for all separators that are words.
-/

namespace BatchScript

/-! ### Blind reading -/

/-- The construct that a blind reading from a position on runs to the end in, if it does. -/
def blindFault? (o : Options) (p : Position) (text : List Char) : Option Malformed :=
  match text with
  | [] => none
  | first :: rest =>
    match Hiding.ofText o (first :: rest) with
    | .comment n => blindFault? o (p.after ((first :: rest).take n)) (rest.drop (n - 1))
    | .quoted n => blindFault? o (p.after ((first :: rest).take n)) (rest.drop (n - 1))
    | .unclosed construct => some { construct, line := p.line, column := p.column }
    | .plain => blindFault? o (p.advance first) rest
termination_by text.length
decreasing_by all_goals (simp only [List.length_cons, List.length_drop]; omega)

/-- A text of which a blind reading passes over so many characters first. -/
def Clear (o : Options) (text : List Char) (n : Nat) : Prop :=
  ∀ p, blindFault? o p text = blindFault? o (p.after (text.take n)) (text.drop n)

namespace Clear

variable {o : Options} {text : List Char} {m n : Nat}

theorem zero (o : Options) (text : List Char) : Clear o text 0 :=
  fun _ => rfl

/-- What is passed over one after the other is passed over together. -/
theorem add (h : Clear o text m) (h' : Clear o (text.drop m) n) : Clear o text (m + n) := by
  intro p
  rw [h, h', List.take_add, Position.after_append, List.drop_drop]

theorem of_comment (h : Hiding.Hides o text (.comment n)) : Clear o text n := by
  intro p
  obtain ⟨hn, hle⟩ := Hiding.bounds_of_comment h
  obtain ⟨k, rfl⟩ : ∃ k, n = k + 1 := ⟨n - 1, by omega⟩
  rcases text with _ | ⟨first, rest⟩
  · simp at hle
  · rw [blindFault?, h.eq_ofText]
    rfl

theorem of_quoted (h : Hiding.Hides o text (.quoted n)) : Clear o text n := by
  intro p
  obtain ⟨hn, hle⟩ := Hiding.bounds_of_quoted h
  obtain ⟨k, rfl⟩ : ∃ k, n = k + 1 := ⟨n - 1, by omega⟩
  rcases text with _ | ⟨first, rest⟩
  · simp at hle
  · rw [blindFault?, h.eq_ofText]
    rfl

theorem of_plain {first : Char} {rest : List Char}
    (h : Hiding.Hides o (first :: rest) .plain) : Clear o (first :: rest) 1 := by
  intro p
  rw [blindFault?, h.eq_ofText]
  rfl

end Clear

/-- The steps of a blind reading over so many characters of a text. -/
inductive Reads (o : Options) : List Char → Nat → Prop
  | zero (text : List Char) : Reads o text 0
  | comment {text : List Char} {n m : Nat} (h : Hiding.Hides o text (.comment n))
      (next : Reads o (text.drop n) m) : Reads o text (n + m)
  | quoted {text : List Char} {n m : Nat} (h : Hiding.Hides o text (.quoted n))
      (next : Reads o (text.drop n) m) : Reads o text (n + m)
  | plain {first : Char} {rest : List Char} {m : Nat} (h : Hiding.Hides o (first :: rest) .plain)
      (next : Reads o rest m) : Reads o (first :: rest) (1 + m)

namespace Reads

variable {o : Options} {text : List Char} {m n : Nat}

theorem of_comment (h : Hiding.Hides o text (.comment n)) : Reads o text n :=
  .comment h (.zero _)

theorem of_quoted (h : Hiding.Hides o text (.quoted n)) : Reads o text n :=
  .quoted h (.zero _)

theorem of_plain {first : Char} {rest : List Char} (h : Hiding.Hides o (first :: rest) .plain) :
    Reads o (first :: rest) 1 :=
  .plain h (.zero _)

/-- What is read one after the other is read together. -/
theorem add (h : Reads o text m) (h' : Reads o (text.drop m) n) : Reads o text (m + n) := by
  induction h with
  | zero text => rwa [Nat.zero_add]
  | comment h next ih =>
      rw [← List.drop_drop] at h'
      rw [Nat.add_assoc]
      exact .comment h (ih h')
  | quoted h next ih =>
      rw [← List.drop_drop] at h'
      rw [Nat.add_assoc]
      exact .quoted h (ih h')
  | plain h next ih =>
      rw [Nat.add_comm 1, List.drop_succ_cons] at h'
      rw [Nat.add_assoc]
      exact .plain h (ih h')

/-- What is read lies within the text. -/
theorem le_length (h : Reads o text n) : n ≤ text.length := by
  induction h with
  | zero text => exact Nat.zero_le _
  | comment h next ih =>
      have := (Hiding.bounds_of_comment h).2
      rw [List.length_drop] at ih
      omega
  | quoted h next ih =>
      have := (Hiding.bounds_of_quoted h).2
      rw [List.length_drop] at ih
      omega
  | plain h next ih =>
      rw [List.length_cons]
      omega

/-- A blind reading passes over what it reads. -/
theorem clear (h : Reads o text n) : Clear o text n := by
  induction h with
  | zero text => exact .zero o text
  | comment h next ih => exact .add (.of_comment h) ih
  | quoted h next ih => exact .add (.of_quoted h) ih
  | plain h next ih => exact .add (.of_plain h) ih

end Reads

/-! ### Characters that open nothing -/

/-- A character that opens no comment and no quoted text. -/
def isInert (c : Char) : Bool :=
  c != '-' && c != '/' && c != '\'' && c != '"' && c != '['

/-- A text that begins with such a character hides nothing at its beginning. -/
theorem Hiding.hides_of_isInert {o : Options} {c : Char} (hc : isInert c = true)
    (rest : List Char) : Hides o (c :: rest) .plain := by
  simp only [isInert, Bool.and_eq_true, bne_iff_ne, ne_eq] at hc
  obtain ⟨⟨⟨⟨h₁, h₂⟩, h₃⟩, h₄⟩, h₅⟩ := hc
  refine .plain ?_ ?_ ?_
  · rw [Comment.line?.eq_def]
    split
    · rename_i h
      exact absurd (List.cons.inj h).1 h₁
    · rfl
  · rw [Comment.block?.eq_def]
    split
    · rename_i h
      exact absurd (List.cons.inj h).1 h₂
    · rfl
  · rintro first ⟨⟩
    rw [Quotation.ofOpener?.eq_def]
    split
    · exact absurd rfl h₃
    · exact absurd rfl h₄
    · exact absurd rfl h₅
    · rfl

theorem Reads.of_isInert {o : Options} {run : List Char} (hr : ∀ c ∈ run, isInert c = true)
    (rest : List Char) : Reads o (run ++ rest) run.length := by
  induction run with
  | nil => exact .zero rest
  | cons c run ih =>
      rw [List.length_cons, Nat.add_comm]
      refine .plain (Hiding.hides_of_isInert (hr c (by simp)) _) ?_
      exact ih fun d hd => hr d (List.mem_cons_of_mem c hd)

theorem isInert_of_isLinear {c : Char} (h : isLinear c = true) : isInert c = true := by
  rcases eq_of_isLinear h with rfl | rfl <;> decide

theorem isWord_of_isLinear {c : Char} (h : isLinear c = true) : isWord c = false := by
  rcases eq_of_isLinear h with rfl | rfl <;> decide

theorem isLinear_of_isWord {c : Char} (h : isWord c = true) : isLinear c = false := by
  rw [Bool.eq_false_iff]
  intro hl
  rw [isWord_of_isLinear hl] at h
  cases h

theorem isInert_of_isDigit {c : Char} (h : c.isDigit = true) : isInert c = true := by
  rw [isInert]
  simp only [Bool.and_eq_true, bne_iff_ne, ne_eq]
  refine ⟨⟨⟨⟨?_, ?_⟩, ?_⟩, ?_⟩, ?_⟩ <;> rintro rfl <;> cases h

/-- No character of a word opens a construct, in either case. -/
theorem isInert_of_isWord {c d : Char} (hd : isWord d = true) (h : c.toLower = d.toLower) :
    isInert c = true := by
  have hne (e : Char) (he : e.isLower = false) (hfold : e.toLower = e) (hword : isWord e = false) :
      c ≠ e := by
    rintro rfl
    rw [hfold] at h
    rw [AsciiCase.eq_of_toLower he h.symm, hword] at hd
    cases hd
  simp only [isInert, Bool.and_eq_true, bne_iff_ne, ne_eq]
  exact ⟨⟨⟨⟨hne _ rfl rfl rfl, hne _ rfl rfl rfl⟩, hne _ rfl rfl rfl⟩, hne _ rfl rfl rfl⟩,
    hne _ rfl rfl rfl⟩

/-! ### Statements -/

/-- A separator that is a word, or empty. -/
def HasWordSeparator (o : Options) : Prop :=
  ∀ c ∈ o.separator.toList, isWord c = true

instance (o : Options) : Decidable (HasWordSeparator o) :=
  decidable_of_iff (o.separator.toList.all isWord = true) List.all_eq_true

variable {o : Options} {text : List Char}

/-- What a blind reading finds open: a construct behind what it passes over. -/
structure Opens (o : Options) (text : List Char) (fault : Fault) : Prop where
  reads : Reads o text fault.before
  unclosed : Hiding.Hides o (text.drop fault.before) (.unclosed fault.construct)

namespace Opens

theorem of_unclosed {construct : Construct} (h : Hiding.Hides o text (.unclosed construct)) :
    Opens o text { construct, before := 0 } :=
  ⟨.zero text, h⟩

/-- More may be passed over before it. -/
theorem add {n before : Nat} {construct : Construct} (h : Reads o text n)
    (h' : Opens o (text.drop n) { construct, before }) :
    Opens o text { construct, before := n + before } := by
  refine ⟨h.add h'.reads, ?_⟩
  rw [← List.drop_drop]
  exact h'.unclosed

/-- A blind reading fails there. -/
theorem blindFault?_eq {fault : Fault} (h : Opens o text fault) (p : Position) :
    blindFault? o p text = some (fault.malformed p text) := by
  obtain ⟨construct, before⟩ := fault
  have hh := h.unclosed
  rw [h.reads.clear]
  simp only at hh ⊢
  rcases hrest : text.drop before with _ | ⟨first, rest⟩
  · rw [hrest] at hh
    cases hh
    rename_i hb
    cases hb
  · rw [hrest] at hh
    rw [blindFault?, hh.eq_ofText]
    rfl

end Opens

/-- A gap is blanks and comments. -/
theorem reads_of_gap (o : Options) (text : List Char) : Reads o text (Gap.length text) := by
  induction text using Gap.induction with
  | nil =>
      rw [Gap.length_nil]
      exact .zero []
  | linear c rest hc ih =>
      rw [Gap.length_cons_of_isLinear hc, Nat.add_comm]
      exact .plain (Hiding.hides_of_isInert (isInert_of_isLinear hc) rest) ih
  | comment text n h ih =>
      rw [Gap.length_of_closed h]
      exact .comment (.block h) ih
  | other c rest hc h =>
      rw [Gap.length_eq_zero hc h]
      exact .zero _

theorem opens_of_gap {e : Opening} (h : Gap.read text = .error e) :
    Opens o text { construct := .blockComment, before := e.before } := by
  obtain ⟨hbefore, hb⟩ := Gap.read_eq_error.1 h
  rw [hbefore] at hb ⊢
  exact ⟨reads_of_gap o text, .openBlock hb⟩

/-- What trails a count is a gap and a line comment. -/
theorem reads_of_trailing {n : Nat} (h : Verdict.trailing text = .ok n) : Reads o text n := by
  obtain ⟨g, hgap, ⟨m, hline, rfl⟩ | ⟨-, rfl⟩⟩ := Verdict.trailing_eq_ok.1 h
  · obtain ⟨rfl, -⟩ := Gap.read_eq_ok.1 hgap
    exact .add (reads_of_gap o text) (.of_comment (.line hline))
  · exact .zero text

/-- The digits that a text begins with. -/
theorem reads_of_digits (o : Options) (text : List Char) :
    Reads o text (Verdict.digits text).length := by
  have h : Reads o (Verdict.digits text ++ text.dropWhile Char.isDigit)
      (Verdict.digits text).length :=
    .of_isInert (fun c hc => isInert_of_isDigit (List.all_eq_true.1 List.all_takeWhile c hc)) _
  rwa [Verdict.digits, List.takeWhile_append_dropWhile] at h

/-- The tail of a statement hides nothing that a blind reading does not read. -/
theorem reads_of_tail {count : RepeatCount} {n : Nat} (h : Verdict.Tail text (.found count n)) :
    Reads o text n := by
  cases h with
  | comment hgap hline =>
      obtain ⟨rfl, -⟩ := Gap.read_eq_ok.1 hgap
      exact .add (reads_of_gap o text) (.of_comment (.line hline))
  | count hgap hline hcount htrail =>
      obtain ⟨rfl, -⟩ := Gap.read_eq_ok.1 hgap
      exact .add (reads_of_gap o text) (.add (reads_of_digits o _) (reads_of_trailing htrail))

/-- A comment left open in the tail of a statement is found open by a blind reading. -/
theorem opens_of_tail {e : Opening} (h : Verdict.Tail text (.unclosed e)) :
    Opens o text { construct := .blockComment, before := e.before } := by
  cases h with
  | openGap hgap => exact opens_of_gap hgap
  | openTrail hgap hline hcount htrail =>
      obtain ⟨rfl, -⟩ := Gap.read_eq_ok.1 hgap
      refine .add (reads_of_gap o text) (.add (reads_of_digits o _) ?_)
      exact opens_of_gap (Verdict.trailing_eq_error.1 htrail)

/-- The blanks and the keyword of a statement open nothing. -/
theorem reads_of_keyed {blanks keyword tail : List Char} (ho : HasWordSeparator o)
    (h : Verdict.Keyed o blanks keyword tail) :
    Reads o (blanks ++ (keyword ++ tail)) (blanks.length + keyword.length) := by
  have hkeyword : ∀ c ∈ keyword, isInert c = true := by
    intro c hc
    have hmem : c.toLower ∈ o.separator.toList.map Char.toLower :=
      h.toLower ▸ List.mem_map_of_mem hc
    obtain ⟨d, hd, heq⟩ := List.mem_map.1 hmem
    exact isInert_of_isWord (ho d hd) heq.symm
  refine .add (.of_isInert (fun c hc => isInert_of_isLinear (h.isLinear c hc)) _) ?_
  rw [List.drop_left]
  exact .of_isInert hkeyword tail

/-! ### Pieces -/

/-- A blind reading passes over a piece of text. -/
theorem reads_of_copies {w : Bool} {piece : Piece} {rest : List Char}
    (h : Outlook.Copies o w text piece rest) : Reads o text piece.source.length := by
  cases h with
  | comment hh =>
      rw [Piece.source, List.length_take, Nat.min_eq_left (Hiding.bounds_of_comment hh).2]
      exact .of_comment hh
  | quoted hh =>
      rw [Piece.source, List.length_take, Nat.min_eq_left (Hiding.bounds_of_quoted hh).2]
      exact .of_quoted hh
  | @blanks first rest hh hw hl =>
      have h : Reads o ((first :: rest).takeWhile isLinear ++ (first :: rest).dropWhile isLinear)
          ((first :: rest).takeWhile isLinear).length :=
        .of_isInert (fun c hc => isInert_of_isLinear (List.all_eq_true.1 List.all_takeWhile c hc)) _
      rwa [List.takeWhile_append_dropWhile] at h
  | ordinary hh hl => exact .of_plain hh

/-- A blind reading passes over every piece. -/
theorem reads_of_piece {w : Bool} {piece : Piece} {rest : List Char} (ho : HasWordSeparator o)
    (h : Outlook.Shows o w text (.piece piece rest)) : Reads o text piece.source.length := by
  cases hp : piece.isSeparator with
  | false => exact reads_of_copies ((Outlook.shows_iff_copies hp).1 h).1
  | true =>
      obtain ⟨count, statement, rfl⟩ := Piece.eq_separator hp
      obtain ⟨blanks, keyword, tail, m, htext, hk, -, ht, hlength⟩ :=
        Verdict.keyed_of_found (Outlook.found_of_separator h)
      rw [Piece.source, hlength, htext]
      refine .add (reads_of_keyed ho hk) ?_
      rw [← List.append_assoc, ← List.length_append, List.drop_left]
      exact reads_of_tail ht

/-- What is left open where a piece should stand is found open by a blind reading. -/
theorem opens_of_fault {w : Bool} {fault : Fault} (ho : HasWordSeparator o)
    (h : Outlook.Shows o w text (.fault fault)) : Opens o text fault := by
  cases h with
  | unclosed hh => exact .of_unclosed hh
  | openSeparator hh hw hv =>
      obtain ⟨blanks, keyword, tail, e, htext, hk, -, ht, rfl⟩ := Verdict.keyed_of_unclosed hv
      rw [htext]
      refine .add (reads_of_keyed ho hk) ?_
      rw [← List.append_assoc, ← List.length_append, List.drop_left]
      exact opens_of_tail ht

/-- Where a statement is found nothing hides. -/
theorem Hiding.plain_of_found {o : Options} {text : List Char} {count : RepeatCount} {n : Nat}
    (ho : HasWordSeparator o) (h : Verdict.ofText o text = .found count n) :
    Hides o text .plain := by
  obtain ⟨blanks, keyword, tail, m, rfl, hk, -, -, -⟩ := Verdict.keyed_of_found h
  rcases blanks with _ | ⟨b, blanks⟩
  · obtain ⟨c, keyword, rfl⟩ := List.exists_cons_of_ne_nil hk.keyword_ne_nil
    have hfold : c.toLower ∈ o.separator.toList.map Char.toLower :=
      hk.toLower ▸ List.mem_map_of_mem (List.mem_cons_self)
    obtain ⟨d, hd, heq⟩ := List.mem_map.1 hfold
    exact hides_of_isInert (isInert_of_isWord (ho d hd) heq.symm) _
  · exact hides_of_isInert (isInert_of_isLinear (hk.isLinear b (by simp))) _

/-- A statement that is found is the piece that stands there, unless a word is open. -/
theorem Outlook.shows_of_found {o : Options} {w : Bool} {statement rest : List Char}
    {count : RepeatCount} (ho : HasWordSeparator o) (hw : (o.wordBoundaries && w) = false)
    (hv : Verdict.ofText o (statement ++ rest) = .found count statement.length) :
    Shows o w (statement ++ rest) (.piece (.separator count statement) rest) := by
  have hpos : 0 < statement.length := (Verdict.bounds_of_found hv).1
  obtain ⟨first, more, rfl⟩ := List.exists_cons_of_length_pos hpos
  have hshows : Shows o w (first :: (more ++ rest)) _ :=
    .separator (Hiding.plain_of_found ho hv) hw hv
  rwa [← List.cons_append, List.take_left, List.drop_left] at hshows

/-- A blind reading goes along with every passage. -/
theorem reads_of_passage {w w' : Bool} {pieces : List Piece} {rest : List Char}
    (ho : HasWordSeparator o) (h : Passage o w text pieces w' rest) :
    Reads o text (sources pieces).length := by
  induction h with
  | stay w text => exact .zero text
  | step shows _ ih =>
      rw [sources_cons, List.length_append]
      refine .add (reads_of_piece ho shows) ?_
      rwa [Outlook.text_eq shows, List.drop_left]

theorem blindFault?_of_passage {w w' : Bool} {pieces : List Piece} {rest : List Char}
    (p : Position) (ho : HasWordSeparator o) (h : Passage o w text pieces w' rest) :
    blindFault? o p text = blindFault? o (p.after (sources pieces)) rest := by
  rw [(reads_of_passage ho h).clear, h.text_eq, List.take_left, List.drop_left]

/-- A blind reading finds open what a split finds open. -/
theorem blindFault?_of_halt {w : Bool} {fault : Option Fault} (p : Position)
    (ho : HasWordSeparator o) (h : Halt o w text fault) :
    blindFault? o p text = fault.map (·.malformed p text) := by
  cases h with
  | finished => rw [blindFault?]; rfl
  | fault shows => exact (opens_of_fault ho shows).blindFault?_eq p

/-- A script is malformed exactly if a blind reading finds it so. -/
theorem split_error_iff_blindFault? {script : String} (ho : HasWordSeparator o) (e : Failure) :
    split o script = .error e ↔
      ∃ m, blindFault? o {} script.toList = some m ∧ e = .malformed m := by
  obtain ⟨pieces, w, rest, fault, hp, hh⟩ := exists_passage o false script.toList
  obtain ⟨-, hsplit⟩ := split_of_halt hp hh
  rw [hsplit, blindFault?_of_passage {} ho hp, blindFault?_of_halt _ ho hh]
  rcases fault with _ | fault
  · simp
  · simp [eq_comm]

/-! ### Independence of the separator -/

/-- Options under which the same text is quoted. -/
structure QuoteAlike (o o' : Options) : Prop where
  doubleQuoted : o.doubleQuotedLiterals = o'.doubleQuotedLiterals
  bracketed : o.bracketedIdentifiers = o'.bracketedIdentifiers

/-- What hides separators depends on nothing else. -/
theorem QuoteAlike.ofText_eq {o o' : Options} (h : QuoteAlike o o') (text : List Char) :
    Hiding.ofText o text = Hiding.ofText o' text := by
  have hopener (c : Char) : Quotation.ofOpener? o c = Quotation.ofOpener? o' c := by
    simp only [Quotation.ofOpener?, h.doubleQuoted, h.bracketed]
  simp only [Hiding.ofText, hopener]

/-- And so does a blind reading. -/
theorem QuoteAlike.blindFault?_eq {o o' : Options} (h : QuoteAlike o o') (p : Position)
    (text : List Char) : blindFault? o p text = blindFault? o' p text := by
  fun_induction blindFault? o p text with
  | case1 p => rw [blindFault?]
  | case2 p first rest n hn ih => rw [blindFault?, ← h.ofText_eq, hn, ih]
  | case3 p first rest n hn ih => rw [blindFault?, ← h.ofText_eq, hn, ih]
  | case4 p first rest construct hn => rw [blindFault?, ← h.ofText_eq, hn]
  | case5 p first rest hn ih => rw [blindFault?, ← h.ofText_eq, hn, ih]

/-- **Malformed scripts.** Under all options that quote alike and whose separators are words or
empty, a script fails with the same error or with none: the one that a blind reading runs into,
with the construct and the position of its opener. -/
theorem malformed_iff_of_word_separators (script : String) {o o' : Options}
    (ho : HasWordSeparator o) (ho' : HasWordSeparator o') (h : QuoteAlike o o') (e : Failure) :
    (split o script = .error e ↔ split o' script = .error e) ∧
      (split o script = .error e ↔
        ∃ m, blindFault? o {} script.toList = some m ∧ e = .malformed m) := by
  refine ⟨?_, split_error_iff_blindFault? ho e⟩
  rw [split_error_iff_blindFault? ho, split_error_iff_blindFault? ho', h.blindFault?_eq]

/-- A comment left open behind a count: found with the separator in the gap behind the count, and
without one in ordinary text. -/
theorem malformed_of_open_comment :
    split {} "go 2 /*" = .error (.malformed ⟨.blockComment, 1, 6⟩) ∧
      split { separator := "", lookalikes := ["go"], keepComments := true } "go 2 /*" =
        .error (.malformed ⟨.blockComment, 1, 6⟩) := by
  have hgo : HasWordSeparator {} := by decide
  have hnone : HasWordSeparator
      { separator := "", lookalikes := ["go"], keepComments := true } := by decide
  have h := malformed_iff_of_word_separators "go 2 /*" hgo hnone ⟨rfl, rfl⟩
    (.malformed ⟨.blockComment, 1, 6⟩)
  have hsplit := h.2.2 ⟨⟨.blockComment, 1, 6⟩, by decide +kernel, rfl⟩
  exact ⟨hsplit, h.1.1 hsplit⟩

end BatchScript
