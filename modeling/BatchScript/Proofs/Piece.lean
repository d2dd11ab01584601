import BatchScript.Proofs.Verdict
import BatchScript.Region

/-!
# Pieces of a script

What a script goes on with, read off its text alone. `Hiding.ofText` says whether a text begins
with something that hides separators: a comment or quoted text. `Outlook.ofText` says which piece
of a script a text begins with, and what is left behind the piece. A `Piece` carries the text that
it covers, the separator statements included.

The scans of the library read a cursor; here the same decisions are functions of the text ahead.
Everything about whole scripts is proved over pieces and carried over to the scans by the two
results below.

## Main results

* `Outlook.text_eq` — a piece and what is left behind it make up the text.
* `Outlook.source_ne_nil` — a piece covers at least one character.
* `Outlook.wellFormed_of_shows` — the region read where a piece stands is true to its kind.
* `Scan.region_of_piece` — reading a region at the cursor reads the piece ahead.
* `Scan.region_of_fault` — where a construct ahead is left open reading fails at its opener, and
  reports it.
-/

namespace BatchScript

/-! ### What hides separators -/

/-- What a text begins with, as far as separators are hidden by it. -/
inductive Hiding
  /-- Nothing that hides. -/
  | plain
  /-- A comment, so many characters long. -/
  | comment (length : Nat)
  /-- Quoted text, so many characters long with its delimiters. -/
  | quoted (length : Nat)
  /-- A construct that is still open where the text ends. -/
  | unclosed (construct : Construct)
deriving DecidableEq, Repr

namespace Hiding

/-- What hides separators at the beginning of a text: a line comment first, then a block comment,
then quoted text of a kind that the options enable. -/
def ofText (o : Options) (text : List Char) : Hiding :=
  match Comment.line? text with
  | some n => .comment n
  | none =>
    match Comment.block? text with
    | some (.closed n) => .comment n
    | some (.unclosed _) => .unclosed .blockComment
    | none =>
      match text with
      | [] => .plain
      | first :: rest =>
        match Quotation.ofOpener? o first with
        | none => .plain
        | some q =>
          match Quoted.body? q.close rest with
          | some n => .quoted (n + 1)
          | none => .unclosed q.construct

variable {o : Options} {text : List Char}

/-- What hides separators, as a relation. The openers are told apart by their first characters, so
no case has to say that those before it fail. -/
inductive Hides (o : Options) : List Char → Hiding → Prop
  | line {text : List Char} {n : Nat} (hl : Comment.line? text = some n) :
      Hides o text (.comment n)
  | block {text : List Char} {n : Nat} (hb : Comment.block? text = some (.closed n)) :
      Hides o text (.comment n)
  | openBlock {text : List Char} {depth : Nat}
      (hb : Comment.block? text = some (.unclosed depth)) :
      Hides o text (.unclosed .blockComment)
  | quoted {first : Char} {rest : List Char} {q : Quotation} {n : Nat}
      (hq : Quotation.ofOpener? o first = some q) (hn : Quoted.body? q.close rest = some n) :
      Hides o (first :: rest) (.quoted (n + 1))
  | openQuoted {first : Char} {rest : List Char} {q : Quotation}
      (hq : Quotation.ofOpener? o first = some q) (hn : Quoted.body? q.close rest = none) :
      Hides o (first :: rest) (.unclosed q.construct)
  | plain {text : List Char} (hl : Comment.line? text = none) (hb : Comment.block? text = none)
      (hq : ∀ first ∈ text.head?, Quotation.ofOpener? o first = none) :
      Hides o text .plain

/-- Every text hides what `ofText` says. -/
theorem hides_ofText (o : Options) (text : List Char) : Hides o text (ofText o text) := by
  rw [ofText.eq_def]
  cases hl : Comment.line? text with
  | some n => exact .line hl
  | none =>
      rcases hb : Comment.block? text with _ | n | depth
      · rcases text with _ | ⟨first, rest⟩
        · exact .plain hl hb (by simp)
        · cases hq : Quotation.ofOpener? o first with
          | none => simpa only [hq] using Hides.plain hl hb (by simpa using hq)
          | some q =>
              cases hn : Quoted.body? q.close rest with
              | none => simpa only [hq, hn] using Hides.openQuoted hq hn
              | some n => simpa only [hq, hn] using Hides.quoted hq hn
      · exact .block hb
      · exact .openBlock hb

/-- A text that begins like a block comment begins with no line comment. -/
theorem line?_of_block? {extent : Comment.Extent} (h : Comment.block? text = some extent) :
    Comment.line? text = none := by
  rw [Comment.block?.eq_def] at h
  split at h
  · rfl
  · cases h

/-- The openers of quoted text open no comment. -/
theorem no_comment_of_opener {first : Char} {q : Quotation} (rest : List Char)
    (h : Quotation.ofOpener? o first = some q) :
    Comment.line? (first :: rest) = none ∧ Comment.block? (first :: rest) = none := by
  rcases Quotation.kinds_of_ofOpener? h with ⟨rfl, -⟩ | ⟨rfl, -⟩ | ⟨rfl, -⟩ <;> exact ⟨rfl, rfl⟩

/-- A text hides one thing only. -/
theorem Hides.eq_ofText {found : Hiding} (h : Hides o text found) : ofText o text = found := by
  cases h with
  | line hl => simp only [ofText.eq_def, hl]
  | block hb => simp only [ofText.eq_def, line?_of_block? hb, hb]
  | openBlock hb => simp only [ofText.eq_def, line?_of_block? hb, hb]
  | @quoted first rest q n hq hn =>
      obtain ⟨hl, hb⟩ := no_comment_of_opener rest hq
      simp only [ofText.eq_def, hl, hb, hq, hn]
  | @openQuoted first rest q hq hn =>
      obtain ⟨hl, hb⟩ := no_comment_of_opener rest hq
      simp only [ofText.eq_def, hl, hb, hq, hn]
  | plain hl hb hq =>
      rcases text with _ | ⟨first, rest⟩
      · simp only [ofText.eq_def, hl, hb]
      · simp only [ofText.eq_def, hl, hb, hq first rfl]

theorem ofText_eq_iff {found : Hiding} : ofText o text = found ↔ Hides o text found :=
  ⟨fun h => h ▸ hides_ofText o text, Hides.eq_ofText⟩

/-- A comment is a line comment or a closed block comment. -/
theorem comment_iff {n : Nat} :
    Hides o text (.comment n) ↔
      Comment.line? text = some n ∨ Comment.block? text = some (.closed n) := by
  constructor
  · intro h
    cases h with
    | line hl => exact .inl hl
    | block hb => exact .inr hb
  · rintro (hl | hb)
    · exact .line hl
    · exact .block hb

/-- A comment takes at least its delimiter and lies within the text. -/
theorem bounds_of_comment {n : Nat} (h : Hides o text (.comment n)) :
    2 ≤ n ∧ n ≤ text.length := by
  cases h with
  | line hl => exact ⟨Comment.two_le_of_line? hl, Comment.line?_le hl⟩
  | block hb =>
      have := Comment.four_le_of_block? hb
      exact ⟨by omega, Comment.block?_le hb⟩

/-- Quoted text takes at least its two delimiters and lies within the text. -/
theorem bounds_of_quoted {n : Nat} (h : Hides o text (.quoted n)) :
    2 ≤ n ∧ n ≤ text.length := by
  cases h with
  | @quoted first rest q n hq hn =>
      have := Quoted.bounds_of_body? hn
      simp only [List.length_cons]
      omega

/-- A comment does not begin with a blank. -/
theorem isBlank_of_comment {first : Char} {rest : List Char} {n : Nat}
    (h : Hides o (first :: rest) (.comment n)) : isBlank first = false := by
  cases h with
  | line hl =>
      rw [Comment.line?.eq_def] at hl
      split at hl
      · rename_i heq
        cases heq
        rfl
      · cases hl
  | block hb =>
      rw [Comment.block?.eq_def] at hb
      split at hb
      · rename_i heq
        cases heq
        rfl
      · cases hb

/-- Quoted text does not begin with a blank. -/
theorem isBlank_of_quoted {first : Char} {rest : List Char} {n : Nat}
    (h : Hides o (first :: rest) (.quoted n)) : isBlank first = false := by
  cases h with
  | quoted hq hn =>
      rcases Quotation.kinds_of_ofOpener? hq with ⟨rfl, -⟩ | ⟨rfl, -⟩ | ⟨rfl, -⟩ <;> rfl

end Hiding

/-! ### Pieces -/

/-- A piece of a script, with the text that it covers. -/
inductive Piece
  /-- A comment outside separator statements. -/
  | comment (text : List Char)
  /-- Quoted text with its delimiters. -/
  | quoted (text : List Char)
  /-- A separator statement with its count. -/
  | separator (count : RepeatCount) (text : List Char)
  /-- A run of spaces and tabs. -/
  | blanks (text : List Char)
  /-- Any other character. -/
  | ordinary (char : Char)
deriving DecidableEq, Repr

namespace Piece

/-- The text that a piece covers. -/
def source : Piece → List Char
  | .comment text => text
  | .quoted text => text
  | .separator _ text => text
  | .blanks text => text
  | .ordinary char => [char]

/-- The region that is read where a piece stands. -/
def region : Piece → Region
  | .comment text => .comment (String.ofList text)
  | .quoted text => .quoted (String.ofList text)
  | .separator count _ => .separator count
  | .blanks text => .blanks (String.ofList text)
  | .ordinary char => .ordinary char

/-- Whether a piece is a separator statement. -/
def isSeparator : Piece → Bool
  | .separator _ _ => true
  | _ => false

theorem eq_separator {piece : Piece} (h : piece.isSeparator = true) :
    ∃ count text, piece = .separator count text := by
  cases piece with
  | separator count text => exact ⟨count, text, rfl⟩
  | _ => cases h

/-- Whether a piece leaves a word open that the next character may go on with. -/
def endsInWord (piece : Piece) : Bool :=
  piece.region.endsInWord

/-- With comments kept a piece of text is copied as it stands. -/
theorem copied_region {piece : Piece} (h : piece.isSeparator = false) :
    piece.region.copied true = String.ofList piece.source := by
  cases piece with
  | separator count text => cases h
  | _ => rfl

end Piece

/-- A construct that a text leaves open, so many characters into it. -/
structure Fault where
  construct : Construct
  before : Nat
deriving DecidableEq, Repr

/-- The error on a fault in the text behind a position: it stands at the opener. -/
def Fault.malformed (fault : Fault) (p : Position) (text : List Char) : Malformed :=
  let opener := p.after (text.take fault.before)
  { construct := fault.construct, line := opener.line, column := opener.column }

/-- What a script goes on with. -/
inductive Outlook
  /-- Nothing more. -/
  | finished
  /-- A piece, and the text left behind it. -/
  | piece (piece : Piece) (rest : List Char)
  /-- A construct left open. -/
  | fault (fault : Fault)
deriving DecidableEq, Repr

namespace Outlook

/-- What follows where nothing hides and no separator stands: a run of blanks, or one character. -/
def plain (first : Char) (rest : List Char) : Outlook :=
  if isLinear first then
    .piece (.blanks ((first :: rest).takeWhile isLinear)) ((first :: rest).dropWhile isLinear)
  else
    .piece (.ordinary first) rest

/-- What a text is, read as the rest of a script, behind a word character or not. -/
def ofText (o : Options) (afterWord : Bool) : List Char → Outlook
  | [] => .finished
  | first :: rest =>
    match Hiding.ofText o (first :: rest) with
    | .comment n => .piece (.comment ((first :: rest).take n)) ((first :: rest).drop n)
    | .quoted n => .piece (.quoted ((first :: rest).take n)) ((first :: rest).drop n)
    | .unclosed construct => .fault { construct, before := 0 }
    | .plain =>
      if o.wordBoundaries && afterWord then
        .piece (.ordinary first) rest
      else
        match Verdict.ofText o (first :: rest) with
        | .found count n =>
          .piece (.separator count ((first :: rest).take n)) ((first :: rest).drop n)
        | .unclosed e => .fault { construct := .blockComment, before := e.before }
        | .absent => plain first rest
        | .unusable _ => plain first rest

/-- What a script goes on with, as a relation. -/
inductive Shows (o : Options) (afterWord : Bool) : List Char → Outlook → Prop
  | finished : Shows o afterWord [] .finished
  | comment {first : Char} {rest : List Char} {n : Nat}
      (hh : Hiding.Hides o (first :: rest) (.comment n)) :
      Shows o afterWord (first :: rest)
        (.piece (.comment ((first :: rest).take n)) ((first :: rest).drop n))
  | quoted {first : Char} {rest : List Char} {n : Nat}
      (hh : Hiding.Hides o (first :: rest) (.quoted n)) :
      Shows o afterWord (first :: rest)
        (.piece (.quoted ((first :: rest).take n)) ((first :: rest).drop n))
  | unclosed {first : Char} {rest : List Char} {construct : Construct}
      (hh : Hiding.Hides o (first :: rest) (.unclosed construct)) :
      Shows o afterWord (first :: rest) (.fault { construct, before := 0 })
  | word {first : Char} {rest : List Char} (hh : Hiding.Hides o (first :: rest) .plain)
      (hw : (o.wordBoundaries && afterWord) = true) :
      Shows o afterWord (first :: rest) (.piece (.ordinary first) rest)
  | separator {first : Char} {rest : List Char} {count : RepeatCount} {n : Nat}
      (hh : Hiding.Hides o (first :: rest) .plain)
      (hw : (o.wordBoundaries && afterWord) = false)
      (hv : Verdict.ofText o (first :: rest) = .found count n) :
      Shows o afterWord (first :: rest)
        (.piece (.separator count ((first :: rest).take n)) ((first :: rest).drop n))
  | openSeparator {first : Char} {rest : List Char} {e : Opening}
      (hh : Hiding.Hides o (first :: rest) .plain)
      (hw : (o.wordBoundaries && afterWord) = false)
      (hv : Verdict.ofText o (first :: rest) = .unclosed e) :
      Shows o afterWord (first :: rest) (.fault { construct := .blockComment, before := e.before })
  | blanks {first : Char} {rest : List Char} (hh : Hiding.Hides o (first :: rest) .plain)
      (hw : (o.wordBoundaries && afterWord) = false)
      (hv : (Verdict.ofText o (first :: rest)).isNone = true) (hl : isLinear first = true) :
      Shows o afterWord (first :: rest)
        (.piece (.blanks ((first :: rest).takeWhile isLinear)) ((first :: rest).dropWhile isLinear))
  | ordinary {first : Char} {rest : List Char} (hh : Hiding.Hides o (first :: rest) .plain)
      (hw : (o.wordBoundaries && afterWord) = false)
      (hv : (Verdict.ofText o (first :: rest)).isNone = true) (hl : isLinear first = false) :
      Shows o afterWord (first :: rest) (.piece (.ordinary first) rest)

variable {o : Options} {afterWord : Bool} {text : List Char}

/-- Every text shows what `ofText` says. -/
theorem shows_ofText (o : Options) (afterWord : Bool) (text : List Char) :
    Shows o afterWord text (ofText o afterWord text) := by
  rcases text with _ | ⟨first, rest⟩
  · exact .finished
  have hh := Hiding.hides_ofText o (first :: rest)
  rw [ofText]
  cases hk : Hiding.ofText o (first :: rest) with
  | comment n => exact .comment (hk ▸ hh)
  | quoted n => exact .quoted (hk ▸ hh)
  | unclosed construct => exact .unclosed (hk ▸ hh)
  | plain =>
      rw [hk] at hh
      simp only
      cases hw : o.wordBoundaries && afterWord with
      | true => exact .word hh hw
      | false =>
          have hnone (hv : (Verdict.ofText o (first :: rest)).isNone = true) :
              Shows o afterWord (first :: rest) (plain first rest) := by
            rw [plain]
            cases hl : isLinear first with
            | true => exact .blanks hh hw hv hl
            | false => exact .ordinary hh hw hv hl
          simp only [Bool.false_eq_true, if_false]
          cases hv : Verdict.ofText o (first :: rest) with
          | found count n => exact .separator hh hw hv
          | unclosed e => exact .openSeparator hh hw hv
          | absent => exact hnone (by rw [hv]; rfl)
          | unusable digits => exact hnone (by rw [hv]; rfl)

/-- Where no statement is found, a run of blanks or a character follows. -/
theorem ofText_of_isNone {first : Char} {rest : List Char}
    (hh : Hiding.Hides o (first :: rest) .plain) (hw : (o.wordBoundaries && afterWord) = false)
    (hv : (Verdict.ofText o (first :: rest)).isNone = true) :
    ofText o afterWord (first :: rest) = plain first rest := by
  simp only [ofText, hh.eq_ofText, hw, Bool.false_eq_true, if_false]
  cases h : Verdict.ofText o (first :: rest) with
  | found count n => simp [h, Verdict.isNone] at hv
  | unclosed e => simp [h, Verdict.isNone] at hv
  | absent => rfl
  | unusable digits => rfl

/-- A text shows one thing only. -/
theorem Shows.eq_ofText {k : Outlook} (h : Shows o afterWord text k) :
    ofText o afterWord text = k := by
  cases h with
  | finished => rfl
  | comment hh => simp only [ofText, hh.eq_ofText]
  | quoted hh => simp only [ofText, hh.eq_ofText]
  | unclosed hh => simp only [ofText, hh.eq_ofText]
  | word hh hw => simp only [ofText, hh.eq_ofText, hw, if_true]
  | separator hh hw hv => simp only [ofText, hh.eq_ofText, hw, Bool.false_eq_true, if_false, hv]
  | openSeparator hh hw hv =>
      simp only [ofText, hh.eq_ofText, hw, Bool.false_eq_true, if_false, hv]
  | blanks hh hw hv hl => rw [ofText_of_isNone hh hw hv, plain, if_pos hl]
  | ordinary hh hw hv hl => rw [ofText_of_isNone hh hw hv, plain, if_neg (by simp [hl])]

theorem ofText_eq_iff {k : Outlook} : ofText o afterWord text = k ↔ Shows o afterWord text k :=
  ⟨fun h => h ▸ shows_ofText o afterWord text, Shows.eq_ofText⟩

/-- A piece and what is left behind it make up the text. -/
theorem text_eq {piece : Piece} {rest : List Char}
    (h : Shows o afterWord text (.piece piece rest)) : text = piece.source ++ rest := by
  cases h with
  | comment => exact (List.take_append_drop _ _).symm
  | quoted => exact (List.take_append_drop _ _).symm
  | word => rfl
  | separator => exact (List.take_append_drop _ _).symm
  | blanks => exact List.takeWhile_append_dropWhile.symm
  | ordinary => rfl

/-- A piece covers at least one character. -/
theorem source_ne_nil {piece : Piece} {rest : List Char}
    (h : Shows o afterWord text (.piece piece rest)) : piece.source ≠ [] := by
  cases h with
  | comment hh =>
      have := Hiding.bounds_of_comment hh
      simp [Piece.source]
      omega
  | quoted hh =>
      have := Hiding.bounds_of_quoted hh
      simp [Piece.source]
      omega
  | word => simp [Piece.source]
  | separator hh hw hv =>
      have := Verdict.bounds_of_found hv
      simp [Piece.source]
      omega
  | blanks hh hw hv hl => simp [Piece.source, hl]
  | ordinary => simp [Piece.source]

theorem allBlank_take {first : Char} {n : Nat} (hn : 2 ≤ n) (hb : isBlank first = false)
    (rest : List Char) : allBlank (String.ofList ((first :: rest).take n)) = false := by
  obtain ⟨m, rfl⟩ : ∃ m, n = m + 1 := ⟨n - 1, by omega⟩
  simp [allBlank, hb]

/-- The region read where a piece stands is true to its kind. -/
theorem wellFormed_of_shows {piece : Piece} {rest : List Char}
    (h : Shows o afterWord text (.piece piece rest)) : piece.region.WellFormed := by
  cases h with
  | comment hh =>
      exact allBlank_take (Hiding.bounds_of_comment hh).1 (Hiding.isBlank_of_comment hh) _
  | quoted hh =>
      exact allBlank_take (Hiding.bounds_of_quoted hh).1 (Hiding.isBlank_of_quoted hh) _
  | blanks hh hw hv hl =>
      rw [Piece.region, Region.WellFormed, allBlank, String.toList_ofList, List.all_eq_true]
      exact fun c hc => isBlank_of_isLinear (List.all_eq_true.1 List.all_takeWhile c hc)
  | word => trivial
  | separator => trivial
  | ordinary => trivial

/-- A piece that is a separator statement is one by the verdict on the text. -/
theorem found_of_separator {count : RepeatCount} {statement rest : List Char}
    (h : Shows o afterWord text (.piece (.separator count statement) rest)) :
    Verdict.ofText o text = .found count statement.length := by
  cases h with
  | separator hh hw hv =>
      rw [hv, List.length_take, Nat.min_eq_left (Verdict.bounds_of_found hv).2]

/-- A piece of text that a text begins with, and what is left behind it. Whether a separator
statement stands in its place is left open. -/
inductive Copies (o : Options) (afterWord : Bool) : List Char → Piece → List Char → Prop
  | comment {text : List Char} {n : Nat} (hh : Hiding.Hides o text (.comment n)) :
      Copies o afterWord text (.comment (text.take n)) (text.drop n)
  | quoted {text : List Char} {n : Nat} (hh : Hiding.Hides o text (.quoted n)) :
      Copies o afterWord text (.quoted (text.take n)) (text.drop n)
  | blanks {first : Char} {rest : List Char} (hh : Hiding.Hides o (first :: rest) .plain)
      (hw : (o.wordBoundaries && afterWord) = false) (hl : isLinear first = true) :
      Copies o afterWord (first :: rest) (.blanks ((first :: rest).takeWhile isLinear))
        ((first :: rest).dropWhile isLinear)
  | ordinary {first : Char} {rest : List Char} (hh : Hiding.Hides o (first :: rest) .plain)
      (hl : (o.wordBoundaries && afterWord) = true ∨ isLinear first = false) :
      Copies o afterWord (first :: rest) (.ordinary first) rest

/-- A piece of text is shown where no separator statement is found, if one is looked for. -/
theorem shows_iff_copies {piece : Piece} {rest : List Char} (hp : piece.isSeparator = false) :
    Shows o afterWord text (.piece piece rest) ↔
      Copies o afterWord text piece rest ∧
        (Hiding.ofText o text = .plain → (o.wordBoundaries && afterWord) = false →
          (Verdict.ofText o text).isNone = true) := by
  constructor
  · intro h
    cases h with
    | comment hh => exact ⟨.comment hh, by simp [hh.eq_ofText]⟩
    | quoted hh => exact ⟨.quoted hh, by simp [hh.eq_ofText]⟩
    | word hh hw => exact ⟨.ordinary hh (.inl hw), by simp [hw]⟩
    | separator hh hw hv => cases hp
    | blanks hh hw hv hl => exact ⟨.blanks hh hw hl, fun _ _ => hv⟩
    | ordinary hh hw hv hl => exact ⟨.ordinary hh (.inr hl), fun _ _ => hv⟩
  · rintro ⟨h, hnone⟩
    cases h with
    | @comment _ n hh =>
        have hbounds := Hiding.bounds_of_comment hh
        rcases text with _ | ⟨first, rest⟩
        · simp at hbounds
          omega
        · exact .comment hh
    | @quoted _ n hh =>
        have hbounds := Hiding.bounds_of_quoted hh
        rcases text with _ | ⟨first, rest⟩
        · simp at hbounds
          omega
        · exact .quoted hh
    | blanks hh hw hl => exact .blanks hh hw (hnone hh.eq_ofText hw) hl
    | ordinary hh hl =>
        cases hw : o.wordBoundaries && afterWord with
        | true => exact .word hh hw
        | false =>
            have hlinear := hl.resolve_left (by simp [hw])
            exact .ordinary hh hw (hnone hh.eq_ofText hw) hlinear

end Outlook

/-! ### Entries of the log -/

/-- What is reported on a count that cannot be used, if one stands behind a keyword. -/
def Verdict.rejected? : Verdict → Option Event
  | .unusable digits => some (.unusableCount (String.ofList digits))
  | _ => none

/-- What is reported where a piece is read, if a statement is looked for. -/
def Outlook.rejected? (o : Options) (afterWord : Bool) (text : List Char) : Option Event :=
  match Hiding.ofText o text with
  | .plain => if o.wordBoundaries && afterWord then none else (Verdict.ofText o text).rejected?
  | _ => none

/-- What is reported on a construct that the text behind a position leaves open: where its opener
stands, with the depth of a block comment, or with the opener of quoted text. -/
inductive Fault.Reported (o : Options) (fault : Fault) (p : Position) (text : List Char) :
    Event → Prop
  | comment {depth : Nat} (construct : fault.construct = .blockComment)
      (hb : Comment.block? (text.drop fault.before) = some (.unclosed depth)) :
      Reported o fault p text
        (.unclosedComment (p.after (text.take fault.before)).line
          (p.after (text.take fault.before)).column depth)
  | quote {q : Quotation} {body : List Char} (construct : fault.construct = q.construct)
      (hq : Quotation.ofOpener? o q.opener = some q)
      (htext : text.drop fault.before = q.opener :: body) (hn : Quoted.body? q.close body = none) :
      Reported o fault p text
        (.unclosedQuote (p.after (text.take fault.before)).line
          (p.after (text.take fault.before)).column q.opener)

/-! ### Regions at the cursor -/

namespace Scan

variable {o : Options} {afterWord : Bool} {first : Char} {r : Reading}

/-- A comment ahead is passed over. -/
theorem comment_of_hides {text : List Char} {n : Nat} (htext : r.cursor.ahead = text)
    (h : Hiding.Hides o text (.comment n)) : comment r = .ok true (r.skip n) := by
  cases h with
  | line hl => simp only [comment_run, htext, hl]
  | block hb => simp only [comment_run, blockComment_run, htext, Hiding.line?_of_block? hb, hb]

/-- Where no comment opens none is read. -/
theorem comment_of_none {text : List Char} (htext : r.cursor.ahead = text)
    (h : Comment.line? text = none ∧ Comment.block? text = none) : comment r = .ok false r := by
  simp only [comment_run, blockComment_run, htext, h.1, h.2]

/-- Where nothing hides no comment and no quoted text opens. -/
theorem nothing_of_plain {rest : List Char} (h : Hiding.Hides o (first :: rest) .plain) :
    (Comment.line? (first :: rest) = none ∧ Comment.block? (first :: rest) = none) ∧
      Quotation.ofOpener? o first = none := by
  cases h with
  | plain hl hb hq => exact ⟨⟨hl, hb⟩, hq first rfl⟩

/-- Where no statement is found the cursor stays. -/
theorem separator_of_isNone (hv : (Verdict.ofText o r.cursor.ahead).isNone = true) :
    ∃ log, separator o r = .ok none { r with log } ∧
      log.toList = r.log.toList ++ (Verdict.ofText o r.cursor.ahead).rejected?.toList := by
  rw [separator_run]
  cases h : Verdict.ofText o r.cursor.ahead with
  | found count n => simp [h, Verdict.isNone] at hv
  | unclosed e => simp [h, Verdict.isNone] at hv
  | absent => exact ⟨r.log, rfl, (List.append_nil _).symm⟩
  | unusable digits => exact ⟨_, rfl, Array.toList_push⟩

/-- Slicing from where the cursor stood gives what was passed over. -/
theorem sliceFrom_skip (r : Reading) (n : Nat) :
    sliceFrom r.cursor.position.offset (r.skip n) =
      .ok (String.ofList (r.cursor.ahead.take n)) (r.skip n) := by
  simp only [sliceFrom, Reading.skip, Cursor.sliceFrom_skip]

/-- The piece ahead of a cursor is the region that is read there. -/
theorem region_of_piece {piece : Piece} {rest : List Char}
    (h : Outlook.Shows o afterWord r.cursor.ahead (.piece piece rest))
    (hfirst : r.cursor.peek = some first) :
    ∃ log, region o afterWord first r =
        .ok piece.region { cursor := r.cursor.skip piece.source.length, log } ∧
      log.toList =
        r.log.toList ++ (Outlook.rejected? o afterWord r.cursor.ahead).toList := by
  obtain ⟨tail, htext⟩ : ∃ tail, r.cursor.ahead = first :: tail := by
    simpa [Cursor.peek, List.head?_eq_some_iff] using hfirst
  rw [htext] at h ⊢
  cases h with
  | @comment _ _ n hh =>
      have hlen := (Hiding.bounds_of_comment hh).2
      refine ⟨r.log, ?_, by simp [Outlook.rejected?, hh.eq_ofText]⟩
      simp only [region, cursor, Bind.bind, EStateM.bind, comment_of_hides htext hh, if_true,
        sliceFrom_skip]
      simp only [htext, Piece.region, Piece.source, List.length_take, Nat.min_eq_left hlen]
      rfl
  | @quoted _ _ n hh =>
      have hlen := (Hiding.bounds_of_quoted hh).2
      cases hh with
      | @quoted _ _ q m hq hm =>
          have ho := Quotation.opener_of_ofOpener? hq
          have hrun := quoted_run (q := q) (r := r) (by rw [ho]; exact hfirst)
          simp only [htext, List.tail_cons, hm] at hrun
          have hh : Hiding.Hides o (first :: tail) (.quoted (m + 1)) := .quoted hq hm
          refine ⟨r.log, ?_, by simp [Outlook.rejected?, hh.eq_ofText]⟩
          simp only [region, cursor, Bind.bind, EStateM.bind,
            comment_of_none htext (Hiding.no_comment_of_opener tail hq), Bool.false_eq_true,
            if_false, hq, hrun, sliceFrom_skip]
          simp only [htext, Piece.region, Piece.source, List.length_take, Nat.min_eq_left hlen]
          rfl
  | word hh hw =>
      obtain ⟨hc, hq⟩ := nothing_of_plain hh
      refine ⟨r.log, ?_, by simp [Outlook.rejected?, hh.eq_ofText, hw]⟩
      simp only [region, cursor, Bind.bind, EStateM.bind, comment_of_none htext hc,
        Bool.false_eq_true, if_false, hq, hw, if_true]
      rfl
  | @separator _ _ count n hh hw hv =>
      have hlen := (Verdict.bounds_of_found hv).2
      obtain ⟨hc, hq⟩ := nothing_of_plain hh
      refine ⟨r.log, ?_, by simp [Outlook.rejected?, hh.eq_ofText, hw, hv, Verdict.rejected?]⟩
      simp only [region, cursor, Bind.bind, EStateM.bind, comment_of_none htext hc,
        Bool.false_eq_true, if_false, hq, hw, separator_run, htext, hv]
      simp only [Piece.region, Piece.source, List.length_take, Nat.min_eq_left hlen]
      rfl
  | blanks hh hw hv hl =>
      obtain ⟨hc, hq⟩ := nothing_of_plain hh
      obtain ⟨log, hs, hlog⟩ := separator_of_isNone (r := r) (htext ▸ hv)
      refine ⟨log, ?_, by simpa [Outlook.rejected?, hh.eq_ofText, hw, htext] using hlog⟩
      simp only [region, cursor, Bind.bind, EStateM.bind, comment_of_none htext hc,
        Bool.false_eq_true, if_false, hq, hw, hs, hl, if_true]
      simp only [consumeWhile, move, Cursor.consumeWhile, htext]
      rfl
  | ordinary hh hw hv hl =>
      obtain ⟨hc, hq⟩ := nothing_of_plain hh
      obtain ⟨log, hs, hlog⟩ := separator_of_isNone (r := r) (htext ▸ hv)
      refine ⟨log, ?_, by simpa [Outlook.rejected?, hh.eq_ofText, hw, htext] using hlog⟩
      simp only [region, cursor, Bind.bind, EStateM.bind, comment_of_none htext hc,
        Bool.false_eq_true, if_false, hq, hw, hs, hl]
      rfl

/-- A fault in the text ahead of a cursor is the failure there, and is reported. -/
theorem region_of_fault {fault : Fault}
    (h : Outlook.Shows o afterWord r.cursor.ahead (.fault fault))
    (hfirst : r.cursor.peek = some first) :
    ∃ r' event, region o afterWord first r =
        .error (.malformed (fault.malformed r.cursor.position r.cursor.ahead)) r' ∧
      r'.log = r.log.push event ∧
      fault.Reported o r.cursor.position r.cursor.ahead event := by
  obtain ⟨tail, htext⟩ : ∃ tail, r.cursor.ahead = first :: tail := by
    simpa [Cursor.peek, List.head?_eq_some_iff] using hfirst
  rw [htext] at h ⊢
  cases h with
  | unclosed hh =>
      cases hh with
      | @openBlock _ depth hb =>
          refine ⟨(r.skip (first :: tail).length).note
            (.unclosedComment r.cursor.position.line r.cursor.position.column depth), _, ?_, rfl,
            .comment rfl hb⟩
          simp only [region, cursor, Bind.bind, EStateM.bind, comment_run, blockComment_run, htext,
            Hiding.line?_of_block? hb, hb]
          rfl
      | @openQuoted _ _ q hq hm =>
          obtain rfl := Quotation.opener_of_ofOpener? hq
          have hrun := quoted_run (q := q) (r := r) hfirst
          simp only [htext, List.tail_cons, hm] at hrun
          refine ⟨(r.skip (q.opener :: tail).length).note
            (.unclosedQuote r.cursor.position.line r.cursor.position.column q.opener), _, ?_, rfl,
            .quote rfl hq rfl hm⟩
          simp only [region, cursor, Bind.bind, EStateM.bind,
            comment_of_none htext (Hiding.no_comment_of_opener tail hq), Bool.false_eq_true,
            if_false, hq, hrun]
          rfl
  | @openSeparator _ _ e hh hw hv =>
      obtain ⟨hc, hq⟩ := nothing_of_plain hh
      refine ⟨r.note (openEvent r.cursor e), openEvent r.cursor e, ?_, rfl, ?_⟩
      · simp only [region, cursor, Bind.bind, EStateM.bind, comment_of_none htext hc,
          Bool.false_eq_true, if_false, hq, hw, separator_run, htext, hv]
        simp only [openFailure, Cursor.position_skip, htext]
        rfl
      · rw [openEvent, Cursor.position_skip, htext]
        exact .comment rfl (Verdict.block?_of_unclosed hv)

end Scan

end BatchScript
