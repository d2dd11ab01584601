import BatchScript.Proofs.Tiling

/-!
# Comments kept and dropped

Whether comments are kept decides what is copied into the batches, and nothing else. Two runs over
a script, one keeping its comments and one dropping them, go through the same regions, find the
same separator statements, and fail with the same error; they differ in the bodies that they copy
between the statements, which are the same but for the comments.

## Main results

* `marksComments_of_passage` — the comments on the way through a script are those of its text.
* `text_foldl_copy` — what a draft is filled with: the visits to it, or all but the comments.
* `stripped_of_mem_segments` — the two bodies of a segment, and the batches that they make.
* `split_keepComments` — keeping comments or not never changes where a script is cut.
-/

namespace BatchScript

/-- The same options with comments kept or dropped. -/
def Options.comments (o : Options) (keep : Bool) : Options :=
  { o with keepComments := keep }

/-- What a text goes on with does not depend on whether comments are kept. -/
theorem Outlook.ofText_comments (o : Options) (keep keep' w : Bool) (text : List Char) :
    ofText (o.comments keep) w text = ofText (o.comments keep') w text := by
  rcases text with _ | ⟨first, rest⟩ <;> rfl

/-! ### What is copied -/

namespace Visit

/-- Whether a comment is read. -/
def isComment (visit : Visit) : Bool :=
  match visit.region with
  | .comment _ => true
  | _ => false

/-- A visit whose text is copied as it stands, except that it may be dropped as a comment. -/
def IsCopied (visit : Visit) : Prop :=
  ∀ keep, (visit.region.copied keep).toList = if keep || !visit.isComment then visit.text else []

/-- Every region but a separator statement is copied. -/
theorem isCopied_of_piece {piece : Piece} (p : Position) (hp : piece.isSeparator = false) :
    IsCopied ⟨p, piece.region, piece.source⟩ := by
  intro keep
  cases piece with
  | comment text => cases keep <;> simp [isComment, Piece.region, Piece.source, Region.copied]
  | separator count text => cases hp
  | _ => simp [isComment, Piece.region, Piece.source, Region.copied]

/-- The visits to pieces cover the text of the pieces. -/
theorem flatMap_text_ofPieces (p : Position) (pieces : List Piece) :
    (ofPieces p pieces).flatMap text = sources pieces := by
  induction pieces generalizing p with
  | nil => rfl
  | cons piece pieces ih => rw [ofPieces, List.flatMap_cons, ih, sources_cons]

/-- A comment is visited exactly where a comment begins, and to its end. -/
def MarksComments (o : Options) (visits : List Visit) : Prop :=
  ∀ before visit after, visits = before ++ visit :: after →
    (visit.isComment = true ↔
      Hiding.ofText o ((visit :: after).flatMap text) = .comment visit.text.length)

theorem isComment_iff_of_shows {o : Options} {w : Bool} {script rest : List Char} {piece : Piece}
    (p : Position) (h : Outlook.Shows o w script (.piece piece rest)) :
    isComment ⟨p, piece.region, piece.source⟩ = true ↔
      Hiding.ofText o script = .comment piece.source.length := by
  cases h with
  | comment hh =>
      rw [hh.eq_ofText, Piece.source, List.length_take_of_le (Hiding.bounds_of_comment hh).2]
      exact iff_of_true rfl rfl
  | quoted hh => simp [hh.eq_ofText, isComment, Piece.region]
  | word hh hw => simp [hh.eq_ofText, isComment, Piece.region]
  | separator hh hw hv => simp [hh.eq_ofText, isComment, Piece.region]
  | blanks hh hw hv hl => simp [hh.eq_ofText, isComment, Piece.region]
  | ordinary hh hw hv hl => simp [hh.eq_ofText, isComment, Piece.region]

/-- The visits along a passage to the end of a script mark its comments. -/
theorem marksComments_of_passage {o : Options} {w w' : Bool} {script rest : List Char}
    {pieces : List Piece} (p : Position) (h : Passage o w script pieces w' rest)
    (hend : rest = []) : MarksComments o (ofPieces p pieces) := by
  induction h generalizing p with
  | stay w script =>
      intro before visit after heq
      simp [ofPieces] at heq
  | @step w w' script rest rest' piece pieces shows htail ih =>
      rintro (_ | ⟨first, before⟩) visit after heq
      · obtain ⟨rfl, rfl⟩ := List.cons.inj heq
        have hscript : script = piece.source ++ sources pieces := by
          rw [Outlook.text_eq shows, htail.text_eq, hend, List.append_nil]
        rw [List.flatMap_cons, flatMap_text_ofPieces, ← hscript]
        exact isComment_iff_of_shows p shows
      · obtain ⟨rfl, hrest⟩ := List.cons.inj heq
        exact ih (p.after piece.source) hend before visit after hrest

end Visit

namespace Segment

/-- The text of a segment. -/
def text (s : Segment) : List Char :=
  s.visits.flatMap Visit.text

/-- The text of a segment with exactly its comments deleted. -/
def uncommented (s : Segment) : List Char :=
  (s.visits.filter (!·.isComment)).flatMap Visit.text

/-- What a draft is filled with: the visits to it, or all but the comments. -/
theorem text_foldl_copy (keep : Bool) (d : Draft) {visits : List Visit}
    (h : ∀ visit ∈ visits, visit.IsCopied) :
    (visits.foldl (copy keep) d).text.toList =
      d.text.toList ++
        (visits.filter fun visit => keep || !visit.isComment).flatMap Visit.text := by
  induction visits generalizing d with
  | nil => simp
  | cons visit visits ih =>
      have hrest := ih (copy keep d visit) fun v hv => h v (List.mem_cons_of_mem _ hv)
      have hcopied := h visit (by simp) keep
      rw [List.foldl_cons, hrest, copy, Draft.text_add, String.toList_append, hcopied,
        List.filter_cons]
      split <;> simp

/-- Every segment of pieces is filled with text alone: the statements are between the segments. -/
theorem isCopied_of_mem_ofVisits {p : Position} {pieces : List Piece} {before : List Visit}
    (hbefore : ∀ visit ∈ before, visit.IsCopied) {s : Segment}
    (hs : s ∈ ofVisits before (Visit.ofPieces p pieces)) :
    ∀ visit ∈ s.visits, visit.IsCopied := by
  induction pieces generalizing p before with
  | nil =>
      rw [Visit.ofPieces, ofVisits, List.mem_singleton] at hs
      rw [hs]
      exact hbefore
  | cons piece pieces ih =>
      cases hp : piece.isSeparator with
      | false =>
          have hcopied := Visit.isCopied_of_piece p hp
          have hmore : ∀ visit ∈ before ++ [⟨p, piece.region, piece.source⟩],
              visit.IsCopied := by
            intro visit hv
            rcases List.mem_append.1 hv with hv | hv
            · exact hbefore visit hv
            · rwa [List.mem_singleton.1 hv]
          rw [Visit.ofPieces, ofVisits_text rfl hp] at hs
          exact ih hmore hs
      | true =>
          obtain ⟨count, statement, rfl⟩ := Piece.eq_separator hp
          rw [Visit.ofPieces, Piece.region, ofVisits] at hs
          rcases List.mem_cons.1 hs with rfl | hs
          · exact hbefore
          · exact ih (by simp) hs

/-- What becomes of a segment when its comments are kept, and when they are dropped. -/
structure Stripped (o : Options) (s : Segment) : Prop where
  /-- With comments kept the segment itself is copied. -/
  kept_text : (s.draft true).text.toList = s.text
  /-- With comments dropped its comments are deleted, and nothing else. -/
  dropped_text : (s.draft false).text.toList = s.uncommented
  /-- It makes a batch of this text if that is not blank. -/
  kept : (s.batch? (o.comments true)).map (fun b => (b.text, b.repeatCount)) =
    if s.text.all isBlank then none else some (rendered o (s.text, s.count))
  /-- Without comments it makes one if it is not blank then. -/
  dropped : (s.batch? (o.comments false)).map (fun b => (b.text, b.repeatCount)) =
    if s.uncommented.all isBlank then none else some (rendered o (s.uncommented, s.count))
  /-- So the batch is missing exactly where nothing but comments and blanks stood. -/
  missing : (s.batch? (o.comments true)).isSome →
    (s.batch? (o.comments false) = none ↔ s.uncommented.all isBlank = true)
  /-- Where it is not missing it is repeated as often. -/
  repeatCount_eq : ∀ b b', s.batch? (o.comments true) = some b →
    s.batch? (o.comments false) = some b' → b.repeatCount = b'.repeatCount
  /-- Nothing is gained. -/
  fewer : (s.batch? (o.comments false)).isSome → (s.batch? (o.comments true)).isSome

variable {o : Options} {s : Segment}

/-- A batch has the count of the statement behind its segment. -/
theorem repeatCount_of_batch? {b : Batch} (h : s.batch? o = some b) : s.count = b.repeatCount := by
  rw [batch?, Draft.finish?] at h
  split at h
  · cases h
  · rw [← Option.some.inj h, Batch.repeatCount_finish]

/-- What is left without comments is part of the text. -/
theorem all_isBlank_uncommented (h : s.text.all isBlank = true) :
    s.uncommented.all isBlank = true := by
  simp only [text, uncommented, List.all_eq_true, List.mem_flatMap] at h ⊢
  rintro c ⟨visit, hv, hc⟩
  exact h c ⟨visit, (List.mem_filter.1 hv).1, hc⟩

/-- The batch of a segment whose draft has a given body. -/
theorem batch?_eq_none_iff {body : List Char} (hd : (s.draft o.keepComments).text.toList = body) :
    s.batch? o = none ↔ body.all isBlank = true := by
  rw [batch?, Draft.finish?, allBlank, hd]
  split <;> simp_all

theorem stripped_of_isCopied (h : ∀ visit ∈ s.visits, visit.IsCopied) : Stripped o s := by
  have hkept : (s.draft true).text.toList = s.text := by
    rw [draft, text_foldl_copy true {} h, List.filter_eq_self.2 (by simp)]
    rfl
  have hdropped : (s.draft false).text.toList = s.uncommented := by
    rw [draft, text_foldl_copy false {} h]
    rfl
  have hmissing := batch?_eq_none_iff (o := o.comments false) hdropped
  refine ⟨hkept, hdropped, ?_, ?_, fun _ => hmissing, ?_, ?_⟩
  · refine rendered_finish? (o := o.comments true) ?_
    rw [← hkept, String.ofList_toList, Options.comments]
  · refine rendered_finish? (o := o.comments false) ?_
    rw [← hdropped, String.ofList_toList, Options.comments]
  · intro b b' hb hb'
    rw [← repeatCount_of_batch? hb, repeatCount_of_batch? hb']
  · intro hsome
    rw [← Option.ne_none_iff_isSome] at hsome ⊢
    rw [Ne, hmissing] at hsome
    rw [Ne, batch?_eq_none_iff (o := o.comments true) hkept]
    exact fun hblank => hsome (all_isBlank_uncommented hblank)

end Segment

/-! ### Whole scripts -/

/-- The two bodies of a segment, and the batches that they make. -/
theorem stripped_of_mem_segments {o o' : Options} {script : String} {pieces : List Piece}
    (hcourse : course o script = Visit.ofPieces {} pieces) {s : Segment}
    (hs : s ∈ segments o script) : Segment.Stripped o' s := by
  rw [segments, hcourse] at hs
  exact Segment.stripped_of_isCopied (Segment.isCopied_of_mem_ofVisits (by simp) hs)

/-- **Keeping comments.** Whether comments are kept never changes where a script is cut: the two
runs go through the same regions and fail alike. A script that can be split is split into the same
segments by both, and each batches them with or without the comments in them. -/
theorem split_keepComments (o : Options) (script : String) :
    course (o.comments true) script = course (o.comments false) script ∧
      (∀ e, split (o.comments true) script = .error e ↔
        split (o.comments false) script = .error e) ∧
      ∀ batches, split (o.comments true) script = .ok batches →
        script.toList = (course (o.comments true) script).flatMap Visit.text ∧
          Visit.MarksComments (o.comments true) (course (o.comments true) script) ∧
          batches = (segments (o.comments true) script).filterMap
            (Segment.batch? (o.comments true)) ∧
          split (o.comments false) script = .ok ((segments (o.comments true) script).filterMap
            (Segment.batch? (o.comments false))) ∧
          ∀ s ∈ segments (o.comments true) script, Segment.Stripped o s := by
  obtain ⟨pieces, w, rest, fault, hp, hh⟩ := exists_passage (o.comments true) false script.toList
  have hofText := Outlook.ofText_comments o true false
  obtain ⟨hcourse, hkept⟩ := split_of_halt hp hh
  obtain ⟨hcourse', hdropped⟩ := split_of_halt (hp.congr hofText) (hh.congr hofText)
  have hsegments : segments (o.comments false) script = segments (o.comments true) script := by
    rw [segments, segments, hcourse, hcourse']
  refine ⟨hcourse.trans hcourse'.symm, fun e => ?_, fun batches hbatches => ?_⟩
  · rw [hkept, hdropped]
    cases fault <;> simp
  · cases hh with
    | fault shows => rw [hkept] at hbatches; cases hbatches
    | finished =>
        refine ⟨?_, ?_, ?_, ?_, fun s hs => stripped_of_mem_segments hcourse hs⟩
        · rw [hcourse, Visit.flatMap_text_ofPieces, hp.text_eq, List.append_nil]
        · rw [hcourse]
          exact Visit.marksComments_of_passage {} hp rfl
        · exact Except.ok.inj (hbatches.symm.trans hkept)
        · rw [hdropped, hsegments]

/-- A script whose second segment holds nothing but a comment: its batch, with the count behind it,
is missing where comments are dropped. -/
theorem split_keepComments_of_comment_segment :
    split (Options.comments { repetition := .delegate } true) "a/*c*/\ngo\n--x\ngo 3\nb" =
        .ok
          [{ text := "a/*c*/\n", repeatCount := .once, line := 1, wrapped := false },
            { text := "\n--x\n", repeatCount := ⟨3, by decide, by decide⟩, line := 3,
              wrapped := false },
            { text := "\nb", repeatCount := .once, line := 5, wrapped := false }] ∧
      split (Options.comments { repetition := .delegate } false) "a/*c*/\ngo\n--x\ngo 3\nb" =
        .ok
          [{ text := "a\n", repeatCount := .once, line := 1, wrapped := false },
            { text := "\nb", repeatCount := .once, line := 5, wrapped := false }] ∧
      ∀ s ∈ segments (Options.comments { repetition := .delegate } true)
          "a/*c*/\ngo\n--x\ngo 3\nb",
        Segment.Stripped { repetition := .delegate } s := by
  have hpieces : pieces? (Options.comments { repetition := .delegate } true) 11 false
      "a/*c*/\ngo\n--x\ngo 3\nb".toList =
        some
          [.ordinary 'a', .comment "/*c*/".toList, .ordinary '\n', .separator .once "go".toList,
            .ordinary '\n', .comment "--x".toList, .ordinary '\n',
            .separator ⟨3, by decide, by decide⟩ "go 3".toList, .ordinary '\n',
            .ordinary 'b'] := by
    decide +kernel
  have hkept : split (Options.comments { repetition := .delegate } true)
      "a/*c*/\ngo\n--x\ngo 3\nb" =
        .ok
          [{ text := "a/*c*/\n", repeatCount := .once, line := 1, wrapped := false },
            { text := "\n--x\n", repeatCount := ⟨3, by decide, by decide⟩, line := 3,
              wrapped := false },
            { text := "\nb", repeatCount := .once, line := 5, wrapped := false }] := by
    rw [split_of_pieces? hpieces]
    exact congrArg Except.ok (by decide +kernel)
  obtain ⟨-, -, hsplit⟩ :=
    split_keepComments { repetition := .delegate } "a/*c*/\ngo\n--x\ngo 3\nb"
  obtain ⟨-, -, -, hdropped, hstripped⟩ := hsplit _ hkept
  obtain ⟨w, hpassage⟩ := passage_of_pieces? hpieces
  have hcourse := (split_of_halt hpassage .finished).1
  refine ⟨hkept, ?_, hstripped⟩
  rw [hdropped, segments, hcourse]
  exact congrArg Except.ok (by decide +kernel)

end BatchScript
