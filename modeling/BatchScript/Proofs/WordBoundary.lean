import BatchScript.Proofs.Attribution
import BatchScript.Proofs.Grammar
import BatchScript.Proofs.KeepComments

/-!
# Words and separator statements

Where words are to be kept whole, a separator statement is not looked for behind a word character of
ordinary text, and its keyword may not be followed by a word character, ASCII digits apart. The
first is seen to by the word state of the stream, which is shown here to say in every state what was
read last. The second is seen to right behind the keyword. Digits attached to the keyword are read
as the count, and nothing is asked of what follows them: so a word that begins with the keyword and
a count is cut behind the count.

## Main results

* `BatchStream.Reaches.afterWord_eq` — what the word state says in every state of a stream.
* `exists_keywordAt` — where the keyword of a statement stands in the script.
* `wordState_of_reaches` — the word state, where statements are looked for, and what stands on both
  sides of them.
* `endsWord_of_statement` — a word goes on behind a statement only if the statement ends with digits
  attached to its keyword.
-/

namespace BatchScript

/-! ### Digits attached to a keyword -/

/-- At a word character no gap and no comment begins. -/
theorem Gap.read_of_isWord {c : Char} (hc : isWord c = true) (rest : List Char) :
    read (c :: rest) = .ok 0 ∧ Comment.line? (c :: rest) = none := by
  have hlinear := isLinear_of_isWord hc
  obtain ⟨⟨hline, hblock⟩, -⟩ := Scan.nothing_of_plain
    (Hiding.hides_of_isInert (o := {}) (isInert_of_isWord hc rfl) rest)
  refine ⟨read_eq_ok.2 ⟨(length_eq_zero hlinear ?_).symm, hblock⟩, hline⟩
  rw [hblock]
  simp

namespace Verdict

/-- So no word trails a count. -/
theorem trailing_of_isWord {c : Char} (hc : isWord c = true) (rest : List Char) :
    trailing (c :: rest) = .ok 0 :=
  trailing_eq_ok.2 ⟨0, (Gap.read_of_isWord hc rest).1, .inr ⟨(Gap.read_of_isWord hc rest).2, rfl⟩⟩

/-- What follows the digits that a text begins with. -/
def behindDigits (text : List Char) : List Char :=
  text.dropWhile Char.isDigit

theorem digits_append_behindDigits (text : List Char) :
    digits text ++ behindDigits text = text :=
  List.takeWhile_append_dropWhile

theorem take_length_digits (text : List Char) : text.take (digits text).length = digits text :=
  (List.prefix_iff_eq_take.1 (List.takeWhile_prefix _)).symm

/-- All digits that a text begins with are before what follows them. -/
theorem longest_digits (text : List Char) :
    Longest (fun run => ∀ c ∈ run, c.isDigit = true) (digits text) (behindDigits text) := by
  refine longest_run_iff.2 ⟨List.all_eq_true.1 List.all_takeWhile, fun c hc => ?_⟩
  have hnot := List.head?_dropWhile_not Char.isDigit text
  rw [← behindDigits, Option.mem_def.1 hc] at hnot
  simpa using hnot

/-- A word goes on behind the digits attached to a keyword only if these are the count, and the
statement ends with them. -/
theorem Tail.attached {o : Options} {tail : List Char} {count : RepeatCount} {n : Nat} {c : Char}
    (h : Tail tail (.found count n)) (ho : o.wordBoundaries = true)
    (hj : joined o tail = false) (hc : c ∈ (behindDigits tail).head?) (hword : isWord c = true) :
    digits tail ≠ [] ∧ n = (digits tail).length ∧
      RepeatCount.ofDigits? (digits tail) = some count := by
  obtain ⟨rest, hrest⟩ := List.head?_eq_some_iff.1 hc
  have hsplit := digits_append_behindDigits tail
  rw [hrest] at hsplit
  obtain ⟨hall, hstop⟩ := longest_run_iff.1 (longest_digits tail)
  have hnot : c.isDigit = false := hstop c hc
  have hne : digits tail ≠ [] := by
    intro hnil
    rw [hnil, List.nil_append] at hsplit
    rw [joined, ho, ← hsplit] at hj
    simp [continuesKeyword, hword, hnot] at hj
  obtain ⟨d, more, hdigits⟩ := List.exists_cons_of_ne_nil hne
  have hd : isWord d = true :=
    isWord_of_isAlphanum (by simp [Char.isAlphanum, hall d (hdigits ▸ List.mem_cons_self)])
  have htail : tail = d :: (more ++ c :: rest) := by rw [← hsplit, hdigits]; rfl
  obtain ⟨hread, hline⟩ := Gap.read_of_isWord hd (more ++ c :: rest)
  rw [← htail] at hread hline
  cases h with
  | comment hgap hcomment =>
      cases hread.symm.trans hgap
      cases hline.symm.trans hcomment
  | @count _ m _ hgap _ hcount htrail =>
      cases hread.symm.trans hgap
      rw [List.drop_zero] at hcount htrail ⊢
      have hbehind : tail.drop (digits tail).length = c :: rest := by
        rw [digits, drop_length_takeWhile]
        exact hrest
      rw [hbehind] at htrail
      cases (trailing_of_isWord hword rest).symm.trans htrail
      exact ⟨hne, by omega, hcount⟩

end Verdict

/-- A keyword with a count attached to it is taken for a statement in front of any word. -/
theorem Scan.separator_of_attached {o : Options} {r : Reading} {c : Char}
    {blanks keyword digits rest : List Char} {count : RepeatCount}
    (hahead : r.cursor.ahead = blanks ++ (keyword ++ (digits ++ c :: rest)))
    (lead : Statement.Lead o blanks keyword [] (digits ++ c :: rest))
    (number : Statement.Number digits (c :: rest) count) (hne : digits ≠ [])
    (hc : isWord c = true) :
    separator o r =
      .ok (some count) (r.skip (blanks.length + keyword.length + digits.length)) := by
  obtain ⟨hline, hopen⟩ := number.begins hne
  have hfound := lead.ofText_count hopen hline number (Verdict.trailing_of_isWord hc rest)
  rw [List.nil_append, ← hahead] at hfound
  rw [separator_run, hfound]
  simp

/-! ### Statements on the way through a script -/

namespace Visit

/-- Where a visit to pieces stands a piece stands, behind those visited before it. -/
theorem exists_piece {p : Position} {pieces : List Piece} {earlier later : List Visit}
    {visit : Visit} (h : ofPieces p pieces = earlier ++ visit :: later) :
    ∃ before piece after, pieces = before ++ piece :: after ∧ earlier = ofPieces p before ∧
      visit = ofPiece (p.after (sources before)) piece := by
  induction earlier generalizing p pieces with
  | nil =>
      cases pieces with
      | nil => cases h
      | cons piece pieces =>
          obtain ⟨rfl, -⟩ := List.cons.inj h
          exact ⟨[], piece, pieces, rfl, rfl, rfl⟩
  | cons first earlier ih =>
      cases pieces with
      | nil => cases h
      | cons piece pieces =>
          obtain ⟨rfl, hrest⟩ := List.cons.inj h
          obtain ⟨before, piece', after, rfl, rfl, rfl⟩ := ih hrest
          refine ⟨piece :: before, piece', after, rfl, rfl, ?_⟩
          rw [sources_cons, Position.after_append]

end Visit

/-- What is read on the way through a script is read behind a passage over what was read before. -/
theorem exists_shows_of_course {o : Options} {script : String} {earlier later : List Visit}
    {visit : Visit} (h : course o script = earlier ++ visit :: later) :
    ∃ pieces w text piece rest, Passage o false script.toList pieces w text ∧
      Outlook.Shows o w text (.piece piece rest) ∧ earlier = Visit.ofPieces {} pieces ∧
      visit = Visit.ofPiece (({} : Position).after (sources pieces)) piece := by
  obtain ⟨pieces, w, rest, fault, hp, hh⟩ := exists_passage o false script.toList
  rw [(split_of_halt hp hh).1] at h
  obtain ⟨before, piece, after, rfl, hearlier, hvisit⟩ := Visit.exists_piece h
  obtain ⟨w', text, hfront, hbehind⟩ := hp.split
  cases hbehind with
  | @step _ _ _ rest' _ _ _ shows _ =>
      exact ⟨before, w', text, piece, rest', hfront, shows, hearlier, hvisit⟩

/-- Where the keyword of a statement stands in a script: behind the text in front of the statement
and the blanks that the statement begins with, and before the digits attached to it. -/
structure Visit.KeywordAt (o : Options) (script : List Char) (visit : Visit)
    (front blanks keyword digits behind : List Char) : Prop where
  script_eq : script = front ++ (blanks ++ (keyword ++ (digits ++ behind)))
  position_eq : visit.position = ({} : Position).after front
  /-- The statement begins with the blanks and the keyword. -/
  begins : blanks ++ keyword <+: visit.text
  /-- It covers the script from there on, for some way. -/
  covers : visit.text <+: blanks ++ (keyword ++ (digits ++ behind))
  blanks : Longest (fun run => ∀ c ∈ run, isLinear c = true) blanks
    (keyword ++ (digits ++ behind))
  keyword : keyword.map Char.toLower = o.separator.toList.map Char.toLower
  digits : Longest (fun run => ∀ c ∈ run, c.isDigit = true) digits behind

/-- A statement that is found is blanks, its keyword, and the beginning of the tail behind it. -/
theorem Verdict.exists_keyed_of_found {o : Options} {statement rest : List Char}
    {count : RepeatCount} (h : ofText o (statement ++ rest) = .found count statement.length) :
    ∃ blanks keyword tail m, statement ++ rest = blanks ++ (keyword ++ tail) ∧
      statement = blanks ++ (keyword ++ tail.take m) ∧ Keyed o blanks keyword tail ∧
      joined o tail = false ∧ Tail tail (.found count m) := by
  obtain ⟨blanks, keyword, tail, m, heq, hkeyed, hjoined, htail, hlen⟩ := keyed_of_found h
  refine ⟨blanks, keyword, tail, m, heq, ?_, hkeyed, hjoined, htail⟩
  have htake := congrArg (List.take statement.length) heq
  rwa [List.take_left, hlen, ← List.append_assoc, ← List.length_append,
    List.take_length_add_append, List.append_assoc] at htake

/-- A statement on the way through a script has a keyword. Where words are kept whole the keyword is
followed by no word character but a digit, and a word goes on behind digits attached to it only if
the statement ends with them. -/
theorem exists_keywordAt {o : Options} {script : String} {earlier later : List Visit}
    {visit : Visit} (h : course o script = earlier ++ visit :: later)
    (hs : visit.isStatement = true) :
    ∃ blanks keyword digits behind count,
      visit.KeywordAt o script.toList (earlier.flatMap Visit.text) blanks keyword digits behind ∧
      visit.region = .separator count ∧
      (o.wordBoundaries = true →
        (∀ c ∈ (digits ++ behind).head?, isWord c = true → c.isDigit = true) ∧
        ∀ c ∈ behind.head?, isWord c = true → digits ≠ [] ∧
          visit.text = blanks ++ (keyword ++ digits) ∧ Statement.Number digits behind count) := by
  obtain ⟨pieces, w, text, piece, rest, hp, hshows, rfl, rfl⟩ := exists_shows_of_course h
  have hsep : piece.isSeparator = true := by
    cases piece with
    | separator count statement => rfl
    | _ => cases hs
  obtain ⟨count, statement, rfl⟩ := Piece.eq_separator hsep
  obtain rfl : text = statement ++ rest := Outlook.text_eq hshows
  obtain ⟨blanks, keyword, tail, m, htext, hstatement, hkeyed, hjoined, htail⟩ :=
    Verdict.exists_keyed_of_found (Outlook.found_of_separator hshows)
  have hdigits := Verdict.digits_append_behindDigits tail
  refine ⟨blanks, keyword, Verdict.digits tail, Verdict.behindDigits tail, count, ?_, rfl,
    fun ho => ?_⟩
  · rw [Visit.flatMap_text_ofPieces]
    refine
      { script_eq := ?_, position_eq := rfl, begins := ⟨tail.take m, ?_⟩, covers := ⟨rest, ?_⟩,
        blanks := ?_, keyword := hkeyed.toLower, digits := Verdict.longest_digits tail }
    · rw [hdigits, hp.text_eq, htext]
    · rw [List.append_assoc]
      exact hstatement.symm
    · rw [hdigits]
      exact htext
    · rw [hdigits]
      exact longest_run_iff.2 ⟨hkeyed.isLinear, hkeyed.maximal⟩
  · rw [hdigits]
    refine ⟨fun c hc hword => ?_, fun c hc hword => ?_⟩
    · rw [Verdict.joined, ho, Option.mem_def.1 hc] at hjoined
      simpa [continuesKeyword, hword] using hjoined
    · obtain ⟨hne, rfl, hcount⟩ := htail.attached ho hjoined hc hword
      rw [Verdict.take_length_digits] at hstatement
      exact ⟨hne, hstatement, Statement.number_iff.2 ⟨by rw [hdigits], hcount⟩⟩

/-! ### The word state of a stream -/

/-- Whether the region read last leaves a word open, as a word character of ordinary text does. -/
def inWord (held : List Visit) : Bool :=
  held.getLast?.any fun visit => visit.region.endsInWord

theorem inWord_iff {held : List Visit} :
    inWord held = true ↔
      ∃ visit ∈ held.getLast?, ∃ c, visit.region = .ordinary c ∧ isWord c = true := by
  rw [inWord]
  cases held.getLast? with
  | none => simp
  | some visit => cases hregion : visit.region <;> simp [Region.endsInWord, hregion]

namespace BatchStream

variable {o : Options} {script : String} {s s' : BatchStream} {held : List Visit}

/-- A word is open behind a region held if the region leaves one open, and behind a separator
statement, which is not held, none is. -/
theorem inWord_hold (held : List Visit) (p : Position) (piece : Piece) :
    inWord (hold held (some (Visit.ofPiece p piece))) = piece.endsInWord := by
  cases piece with
  | separator count statement => rfl
  | _ => simp [hold, Visit.isStatement, Visit.ofPiece, Piece.region, inWord, Piece.endsInWord]

/-- What the next step of a stream comes to, and the word state then. A step that goes on leaves the
one of the region that it reads, and no word is open behind a batch unless the script ends there. -/
theorem Standing.afterWord_cases (h : Standing o script s held) (hf : s.finished = false) :
    (∃ s', s.step = .more s' ∧ s'.afterWord = inWord (hold held s.visit?)) ∨
      (∃ b s', s.step = .batch b s' ∧
        (s'.reading.cursor.ahead ≠ [] → s'.afterWord = false)) ∨
      (∃ s', s.step = .done s' ∧ s'.finished = true) ∨
      ∃ failure s', s.step = .failed failure s' ∧ s'.finished = true := by
  obtain ⟨pieces, w, rest, -, -, hopen⟩ := h.exists_passage
  obtain ⟨hs, -⟩ := hopen hf
  have hshows := Outlook.shows_ofText o w rest
  cases hk : Outlook.ofText o w rest with
  | piece piece rest' =>
      rw [hk] at hshows
      obtain ⟨-, -, hvisit, -⟩ := step_of_piece hs hshows
      obtain ⟨s', hmoves, hs', -⟩ := moves_of_piece hs hshows
      cases hb : (s.draft.absorb o s.reading.cursor.position.line piece).2 with
      | none =>
          rw [hb] at hmoves
          refine .inl ⟨s', hmoves, ?_⟩
          rw [hs'.afterWord, hvisit]
          exact (inWord_hold held _ piece).symm
      | some b =>
          rw [hb] at hmoves
          refine .inr (.inl ⟨b, s', hmoves, fun _ => ?_⟩)
          obtain ⟨count, statement, rfl⟩ := Piece.eq_separator (Draft.absorb_eq_some hb).1
          exact hs'.afterWord
  | finished =>
      rw [hk] at hshows
      cases hshows
      cases hb : s.draft.finish? o .once with
      | none => exact .inr (.inr (.inl ⟨_, step_of_blank_end hs hb, rfl⟩))
      | some b =>
          obtain ⟨s', hmoves, hs', -⟩ := moves_of_end hs hb
          exact .inr (.inl ⟨b, s', hmoves, fun hahead => absurd hs'.ahead hahead⟩)
  | fault fault =>
      rw [hk] at hshows
      obtain ⟨r, -, hstep, -⟩ := step_of_fault hs hshows
      exact .inr (.inr (.inr ⟨_, _, hstep, rfl⟩))

/-- In every state of a stream in which there is more to read, a word is open exactly if the region
read last in the segment leaves one open. -/
theorem Reaches.afterWord_eq (h : Reaches o script s held) (hf : s.finished = false)
    (hahead : s.reading.cursor.ahead ≠ []) : s.afterWord = inWord held := by
  cases h with
  | start => rfl
  | more reached goesOn step =>
      obtain ⟨s', hstep, h⟩ | ⟨b, s', hstep, -⟩ | ⟨s', hstep, -⟩ | ⟨failure, s', hstep, -⟩ :=
        reached.standing.afterWord_cases goesOn <;> cases step.symm.trans hstep
      exact h
  | batch reached goesOn step =>
      obtain ⟨s', hstep, -⟩ | ⟨b, s', hstep, h⟩ | ⟨s', hstep, -⟩ | ⟨failure, s', hstep, -⟩ :=
        reached.standing.afterWord_cases goesOn <;> cases step.symm.trans hstep
      exact h hahead
  | done reached goesOn step =>
      obtain ⟨s', hstep, -⟩ | ⟨b, s', hstep, -⟩ | ⟨s', hstep, h⟩ | ⟨failure, s', hstep, -⟩ :=
        reached.standing.afterWord_cases goesOn <;> cases step.symm.trans hstep
      exact absurd (hf.symm.trans h) (by decide)
  | failed reached goesOn step =>
      obtain ⟨s', hstep, -⟩ | ⟨b, s', hstep, -⟩ | ⟨s', hstep, -⟩ | ⟨failure, s', hstep, h⟩ :=
        reached.standing.afterWord_cases goesOn <;> cases step.symm.trans hstep
      exact absurd (hf.symm.trans h) (by decide)

end BatchStream

/-! ### Where statements are looked for -/

/-- Where nothing hides and no word is open, a separator statement is read if there is one, and text
if there is none. -/
theorem Scan.region_of_plain {o : Options} {w : Bool} {first : Char} {tail : List Char}
    {r : Reading} (htext : r.cursor.ahead = first :: tail)
    (hh : Hiding.Hides o (first :: tail) .plain) (hw : (o.wordBoundaries && w) = false) :
    region o w first r =
      match separator o r with
      | .ok (some count) r' => .ok (.separator count) r'
      | .ok none r' =>
        if isLinear first then
          .ok (.blanks (r'.cursor.consumeWhile isLinear).1)
            { r' with cursor := (r'.cursor.consumeWhile isLinear).2 }
        else
          .ok (.ordinary first) (r'.skip 1)
      | .error failure r' => .error failure r' := by
  obtain ⟨hc, hq⟩ := nothing_of_plain hh
  simp only [region, cursor, Bind.bind, EStateM.bind, comment_of_none htext hc,
    Bool.false_eq_true, if_false, hq, hw]
  cases separator o r with
  | error failure r' => rfl
  | ok answer r' =>
      cases answer with
      | some count => rfl
      | none => cases isLinear first <;> rfl

namespace BatchStream

variable {s : BatchStream}

/-- A step that looks for a separator statement first: what this comes to decides the step. -/
structure Consults (s : BatchStream) : Prop where
  /-- A statement found is read. -/
  found : ∀ count r, Scan.separator s.options s.reading = .ok (some count) r →
    s.step = separate { s with reading := r } count
  /-- A comment left open in one fails the stream. -/
  failed : ∀ failure r, Scan.separator s.options s.reading = .error failure r →
    s.step = .failed failure { s with reading := r, finished := true }
  /-- And where there is none text is read, behind what was reported in looking for it. -/
  none : ∀ r, Scan.separator s.options s.reading = .ok none r → ∃ s' visit,
    s.step = .more s' ∧ s.visit? = some visit ∧ visit.isStatement = false ∧
      s'.reading.log = r.log

/-- Where no word is open, and no comment and no quoted text begins, a statement is looked for. -/
theorem consults_of_plain (hw : (s.options.wordBoundaries && s.afterWord) = false)
    (hahead : s.reading.cursor.ahead ≠ [])
    (hh : Hiding.ofText s.options s.reading.cursor.ahead = .plain) : s.Consults := by
  obtain ⟨first, tail, htext⟩ := List.exists_cons_of_ne_nil hahead
  have hfirst : s.reading.cursor.peek = some first := by rw [Cursor.peek, htext]; rfl
  rw [htext] at hh
  have hregion := Scan.region_of_plain htext (Hiding.ofText_eq_iff.1 hh) hw
  refine ⟨fun count r hr => ?_, fun failure r hr => ?_, fun r hr => ?_⟩
  · rw [hr] at hregion
    simp only [step, hfirst, hregion]
    rfl
  · rw [hr] at hregion
    simp only [step, hfirst, hregion]
  · rw [hr] at hregion
    cases hl : isLinear first with
    | true =>
        simp only [hl, if_true] at hregion
        simp only [step, visit?, hfirst, hregion]
        exact ⟨_, _, rfl, rfl, rfl, rfl⟩
    | false =>
        simp only [hl, Bool.false_eq_true, if_false] at hregion
        simp only [step, visit?, hfirst, hregion]
        exact ⟨_, _, rfl, rfl, rfl, rfl⟩

end BatchStream

/-! ### In front of a statement -/

/-- A piece that ends in a word character is one of ordinary text, a comment or a separator
statement. -/
theorem Outlook.last_of_shows {o : Options} {w : Bool} {text rest : List Char} {piece : Piece}
    {c : Char} (h : Shows o w text (.piece piece rest)) (hc : c ∈ piece.source.getLast?)
    (hword : isWord c = true) :
    piece.endsInWord = true ∨ piece.isSeparator = true ∨ ∃ text, piece = .comment text := by
  cases h with
  | comment => exact .inr (.inr ⟨_, rfl⟩)
  | quoted hh =>
      cases hh with
      | quoted hq hn =>
          rw [Piece.source, Quoted.getLast?_take hn, Option.mem_some_iff] at hc
          have hclose := Quotation.close_of_ofOpener? hq
          rw [hc] at hclose
          simp only [List.mem_cons, List.not_mem_nil, or_false] at hclose
          rcases hclose with rfl | rfl | rfl <;> exact absurd hword (by decide)
  | word =>
      obtain rfl : _ = c := by simpa [Piece.source] using hc
      exact .inl hword
  | separator => exact .inr (.inl rfl)
  | blanks =>
      have hlinear := List.all_eq_true.1 List.all_takeWhile c (List.mem_of_getLast? hc)
      rw [isWord_of_isLinear hlinear] at hword
      cases hword
  | ordinary =>
      obtain rfl : _ = c := by simpa [Piece.source] using hc
      exact .inl hword

/-- If no word is open behind a passage that ends in a word character, its last piece is a comment
or a separator statement. -/
theorem Passage.last_visit {o : Options} {w : Bool} {text rest : List Char} {pieces : List Piece}
    {c : Char} (h : Passage o w text pieces false rest) (p : Position)
    (hc : c ∈ (sources pieces).getLast?) (hword : isWord c = true) :
    ∃ visit ∈ (Visit.ofPieces p pieces).getLast?, c ∈ visit.text.getLast? ∧
      (visit.isComment = true ∨ visit.isStatement = true) := by
  rcases List.eq_nil_or_concat' pieces with rfl | ⟨front, piece, rfl⟩
  · cases hc
  · have hopen : piece.endsInWord = false := by
      simpa using h.endsInWord_eq.symm
    obtain ⟨w', text', -, hlast⟩ := h.split
    cases hlast with
    | step shows _ =>
        obtain ⟨d, source, hsource⟩ := List.exists_cons_of_ne_nil (Outlook.source_ne_nil shows)
        have hlast : c ∈ piece.source.getLast? := by
          simpa [hsource, List.getLast?_cons] using hc
        refine ⟨Visit.ofPiece (p.after (sources front)) piece, ?_, hlast, ?_⟩
        · simp [Visit.ofPieces_append, Visit.ofPieces, Visit.ofPiece]
        · rcases Outlook.last_of_shows shows hlast hword with hends | hsep | ⟨text, rfl⟩
          · rw [hopen] at hends
            cases hends
          · obtain ⟨count, statement, rfl⟩ := Piece.eq_separator hsep
            exact .inr rfl
          · exact .inl rfl

/-- In front of a statement on the way through a script, where words are kept whole, stands a word
character only if it is the end of a comment or of the statement before it. -/
theorem last_of_course {o : Options} {script : String} {earlier later : List Visit}
    {visit : Visit} {c : Char} (ho : o.wordBoundaries = true)
    (h : course o script = earlier ++ visit :: later) (hs : visit.isStatement = true)
    (hc : c ∈ (earlier.flatMap Visit.text).getLast?) (hword : isWord c = true) :
    ∃ previous ∈ earlier.getLast?, c ∈ previous.text.getLast? ∧
      (previous.isComment = true ∨ previous.isStatement = true) := by
  obtain ⟨pieces, w, text, piece, rest, hp, hshows, rfl, rfl⟩ := exists_shows_of_course h
  rw [Visit.flatMap_text_ofPieces] at hc
  have hw : w = false := by
    cases hshows with
    | separator hh hw hv => simpa [ho] using hw
    | _ => cases hs
  subst hw
  exact hp.last_visit {} hc hword

/-! ### Both sides of a statement -/

/-- **The word state.** In every state of a stream in which there is more to read, a word is open
exactly if the region read last in the segment is a word character of ordinary text, and none is
open where a segment begins. Unless a word is open that is to be kept whole, a separator statement
is looked for wherever no comment and no quoted text begins. So where words are kept whole, a word
character stands in front of a statement only if it is the end of a comment or of the statement
before it, and the only word characters right behind its keyword are ASCII digits. -/
theorem wordState_of_reaches (o : Options) (script : String) :
    (∀ s held, BatchStream.Reaches o script s held → s.finished = false →
      s.reading.cursor.ahead ≠ [] →
        (s.afterWord = true ↔
          ∃ visit ∈ held.getLast?, ∃ c, visit.region = .ordinary c ∧ isWord c = true) ∧
        (held = [] → s.afterWord = false) ∧
        ((o.wordBoundaries && s.afterWord) = false →
          Hiding.ofText o s.reading.cursor.ahead = .plain → s.Consults)) ∧
      (o.wordBoundaries = true → ∀ earlier visit later,
        course o script = earlier ++ visit :: later → visit.isStatement = true →
          (∀ c ∈ (earlier.flatMap Visit.text).getLast?, isWord c = true →
            ∃ previous ∈ earlier.getLast?, c ∈ previous.text.getLast? ∧
              (previous.isComment = true ∨ previous.isStatement = true)) ∧
          ∃ blanks keyword digits behind,
            visit.KeywordAt o script.toList (earlier.flatMap Visit.text) blanks keyword digits
              behind ∧
            ∀ c ∈ (digits ++ behind).head?, isWord c = true → c.isDigit = true) := by
  refine ⟨fun s held h hf hahead => ?_, fun ho earlier visit later hcourse hs => ?_⟩
  · have hword := h.afterWord_eq hf hahead
    refine ⟨by rw [hword, inWord_iff], ?_, fun hw hh => ?_⟩
    · rintro rfl
      exact hword
    · obtain ⟨_, _, _, -, -, hopen⟩ := h.standing.exists_passage
      have hoptions := (hopen hf).1.options
      rw [← hoptions] at hw hh
      exact BatchStream.consults_of_plain hw hahead hh
  · obtain ⟨blanks, keyword, digits, behind, count, hat, -, hboundary⟩ :=
      exists_keywordAt hcourse hs
    exact ⟨fun c hc hword => last_of_course ho hcourse hs hc hword, blanks, keyword, digits, behind,
      hat, (hboundary ho).1⟩

/-- **Words behind a statement.** Where words are kept whole, a word goes on behind the keyword of a
statement and the digits attached to it only if there are such digits, they write the count, and the
statement ends with them. And wherever a word character follows a keyword with a count attached to
it, that much is taken for a statement. -/
theorem endsWord_of_statement {o : Options} (ho : o.wordBoundaries = true) :
    (∀ script earlier visit later,
      course o script = earlier ++ visit :: later → visit.isStatement = true →
        ∃ blanks keyword digits behind count,
          visit.KeywordAt o script.toList (earlier.flatMap Visit.text) blanks keyword digits
            behind ∧
          visit.region = .separator count ∧
          ∀ c ∈ behind.head?, isWord c = true → digits ≠ [] ∧
            visit.text = blanks ++ (keyword ++ digits) ∧ Statement.Number digits behind count) ∧
      ∀ (r : Reading) blanks keyword digits behind count,
        r.cursor.ahead = blanks ++ (keyword ++ (digits ++ behind)) →
        Statement.Lead o blanks keyword [] (digits ++ behind) →
        Statement.Number digits behind count → digits ≠ [] →
        (∃ c ∈ behind.head?, isWord c = true) →
          Scan.separator o r =
            .ok (some count) (r.skip (blanks.length + keyword.length + digits.length)) := by
  refine ⟨fun script earlier visit later hcourse hs => ?_, ?_⟩
  · obtain ⟨blanks, keyword, digits, behind, count, hat, hregion, hboundary⟩ :=
      exists_keywordAt hcourse hs
    exact ⟨blanks, keyword, digits, behind, count, hat, hregion, (hboundary ho).2⟩
  · rintro r blanks keyword digits behind count hahead lead number hne ⟨c, hc, hword⟩
    obtain ⟨rest, rfl⟩ := List.head?_eq_some_iff.1 hc
    exact Scan.separator_of_attached hahead lead number hne hword

/-- A word that begins with the keyword and a count, and how the script is read there. -/
theorem course_of_counted_word :
    course {} "a\ngo3x" =
      [⟨{ offset := 0, line := 1, column := 1 }, .ordinary 'a', ['a']⟩,
        ⟨{ offset := 1, line := 1, column := 2 }, .ordinary '\n', ['\n']⟩] ++
      ⟨{ offset := 2, line := 2, column := 1 }, .separator ⟨3, by decide, by decide⟩,
        ['g', 'o', '3']⟩ ::
      [⟨{ offset := 5, line := 2, column := 4 }, .ordinary 'x', ['x']⟩] := by
  have hpieces : pieces? {} 5 false "a\ngo3x".toList =
      some
        [.ordinary 'a', .ordinary '\n', .separator ⟨3, by decide, by decide⟩ ['g', 'o', '3'],
          .ordinary 'x'] := by
    decide +kernel
  rw [course_of_pieces? hpieces]
  decide +kernel

/-- The word is cut behind the count: its first letters and the digit are the statement. -/
theorem endsWord_of_counted_word :
    ({} : Options).wordBoundaries = true ∧
      (∃ blanks keyword digits behind count,
        Visit.KeywordAt {} "a\ngo3x".toList
          ⟨{ offset := 2, line := 2, column := 1 }, .separator ⟨3, by decide, by decide⟩,
            ['g', 'o', '3']⟩
          ['a', '\n'] blanks keyword digits behind ∧
        Region.separator ⟨3, by decide, by decide⟩ = .separator count ∧
        ∀ c ∈ behind.head?, isWord c = true → digits ≠ [] ∧
          ['g', 'o', '3'] = blanks ++ (keyword ++ digits) ∧
          Statement.Number digits behind count) ∧
      Scan.separator {} (.ofString "go3x") =
        .ok (some ⟨3, by decide, by decide⟩) ((Reading.ofString "go3x").skip 3) := by
  have hlead : Statement.Lead {} [] ['g', 'o'] [] ['3', 'x'] := by
    refine Statement.lead_iff.2 ⟨⟨by simp, ?_, by decide, by decide, by decide⟩, rfl, ?_⟩
    · rintro c ⟨⟩
      rfl
    · exact Gap.longest_of_length_eq_zero .nil (Gap.length_eq_zero rfl fun n hn => by cases hn)
  have hnumber : Statement.Number ['3'] ['x'] ⟨3, by decide, by decide⟩ :=
    Statement.number_iff.2 ⟨by decide, by decide⟩
  obtain ⟨hends, hcuts⟩ := endsWord_of_statement (o := {}) rfl
  exact ⟨rfl, hends _ _ _ _ course_of_counted_word rfl,
    hcuts _ _ _ _ _ _ rfl hlead hnumber (by decide) ⟨'x', rfl, by decide⟩⟩

/-- So a statement does cut a word behind its keyword and the digits attached to it. -/
theorem not_endsWord_of_counted_word :
    ¬ ∀ (o : Options) (script : String), o.wordBoundaries = true →
      (∀ c ∈ o.separator.toList, isWord c = true) →
      ∀ earlier visit later, course o script = earlier ++ visit :: later →
        visit.isStatement = true →
        ∀ blanks keyword digits behind,
          visit.KeywordAt o script.toList (earlier.flatMap Visit.text) blanks keyword digits
            behind →
          ∀ c ∈ behind.head?, isWord c = false := by
  intro h
  have hseparator : ∀ c ∈ ({} : Options).separator.toList, isWord c = true :=
    List.all_eq_true.1 (by decide)
  have hat : Visit.KeywordAt {} "a\ngo3x".toList
      ⟨{ offset := 2, line := 2, column := 1 }, .separator ⟨3, by decide, by decide⟩,
        ['g', 'o', '3']⟩
      ['a', '\n'] [] ['g', 'o'] ['3'] ['x'] := by
    refine ⟨rfl, by decide, by decide, by decide, ?_, by decide, ?_⟩
    · exact longest_run_iff.2 ⟨by simp, by rintro c ⟨⟩; rfl⟩
    · exact longest_run_iff.2 ⟨List.all_eq_true.1 (by decide), by rintro c ⟨⟩; rfl⟩
  have hcut := h {} "a\ngo3x" rfl hseparator _ _ _ course_of_counted_word rfl _ _ _ _ hat 'x' rfl
  exact absurd hcut (by decide)

end BatchScript
