import BatchScript.Proofs.Course

/-!
# Batches and statements tile the script

With comments kept nothing of a script is lost between its batches but the separator statements,
nothing is put in another order, and nothing is copied twice: the script is the text of its
batches, blank ones included, with the statements between them.

## Main results

* `join_ofPieces` — the bodies and statements that pieces fall into make up their text.
* `delivered_eq_rendered` — the batches delivered are those of the bodies that are not blank.
* `exists_tiles_of_split` — the script of a split is a sequence of bodies with statements between
  them, and its batches are the bodies that are not blank.
-/

namespace BatchScript

/-- A separator statement with the body that it closes. -/
structure Cut where
  /-- The text before the statement. -/
  body : List Char
  /-- The text of the statement. -/
  statement : List Char
  /-- Its count. -/
  count : RepeatCount
deriving DecidableEq, Repr

namespace Cut

/-- The text that cuts make with a last body behind them. -/
def join : List Cut → List Char → List Char
  | [], last => last
  | cut :: cuts, last => cut.body ++ (cut.statement ++ join cuts last)

/-- The bodies with the counts that close them. The end closes the last one with a single run. -/
def bodies (cuts : List Cut) (last : List Char) : List (List Char × RepeatCount) :=
  cuts.map (fun cut => (cut.body, cut.count)) ++ [(last, .once)]

/-- The statements of cuts that begin at a position. -/
def statements : Position → List Cut → List Visit
  | _, [] => []
  | p, cut :: cuts =>
    { position := p.after cut.body, region := .separator cut.count, text := cut.statement } ::
      statements (p.after (cut.body ++ cut.statement)) cuts

/-- The cuts that pieces make, with the body begun before them, and the last body. -/
def ofPieces (body : List Char) : List Piece → List Cut × List Char
  | [] => ([], body)
  | piece :: pieces =>
    match piece with
    | .separator count statement =>
      ({ body, statement, count } :: (ofPieces [] pieces).1, (ofPieces [] pieces).2)
    | piece => ofPieces (body ++ piece.source) pieces

variable {body : List Char} {pieces : List Piece}

theorem ofPieces_text {piece : Piece} (hp : piece.isSeparator = false) :
    ofPieces body (piece :: pieces) = ofPieces (body ++ piece.source) pieces := by
  cases piece with
  | separator count text => cases hp
  | _ => rfl

/-- The bodies and statements that pieces fall into make up their text. -/
theorem join_ofPieces (body : List Char) (pieces : List Piece) :
    join (ofPieces body pieces).1 (ofPieces body pieces).2 = body ++ sources pieces := by
  induction pieces generalizing body with
  | nil => simp [ofPieces, join]
  | cons piece pieces ih =>
      cases hp : piece.isSeparator with
      | false => rw [ofPieces_text hp, ih, sources_cons, List.append_assoc]
      | true =>
          obtain ⟨count, statement, rfl⟩ := Piece.eq_separator hp
          simp only [ofPieces, join, ih, sources_cons, Piece.source, List.nil_append]

/-- The statements among the visits to pieces are those of the cuts that the pieces make. -/
theorem statements_ofPieces (p : Position) (body : List Char) (pieces : List Piece) :
    (Visit.ofPieces (p.after body) pieces).filter Visit.isStatement =
      statements p (ofPieces body pieces).1 := by
  induction pieces generalizing p body with
  | nil => rfl
  | cons piece pieces ih =>
      cases hp : piece.isSeparator with
      | false =>
          have hv : Visit.isStatement ⟨p.after body, piece.region, piece.source⟩ = false := by
            cases piece with
            | separator count text => cases hp
            | _ => rfl
          rw [Visit.ofPieces, List.filter_cons_of_neg (by simp [hv]), ← Position.after_append, ih,
            ofPieces_text hp]
      | true =>
          obtain ⟨count, statement, rfl⟩ := Piece.eq_separator hp
          have ih := ih (p.after (body ++ statement)) []
          rw [Position.after_nil, Position.after_append] at ih
          rw [Visit.ofPieces, List.filter_cons_of_pos rfl, Piece.source, ih]
          simp [ofPieces, statements, Piece.region]

/-- Where a passage makes a cut the text goes on with a separator statement. -/
theorem found_of_cut {o : Options} {w w' : Bool} {text rest : List Char} {before after : List Cut}
    {cut : Cut} (h : Passage o w text pieces w' rest)
    (hcut : (ofPieces body pieces).1 = before ++ cut :: after) :
    ∃ behind, body ++ text = join before cut.body ++ (cut.statement ++ behind) ∧
      Verdict.ofText o (cut.statement ++ behind) = .found cut.count cut.statement.length := by
  induction h generalizing body before with
  | stay w text => simp [ofPieces] at hcut
  | @step w w' text rest rest' piece pieces shows tail ih =>
      have htext := Outlook.text_eq shows
      cases hp : piece.isSeparator with
      | false =>
          rw [ofPieces_text hp] at hcut
          rw [htext, ← List.append_assoc]
          exact ih hcut
      | true =>
          obtain ⟨count, statement, rfl⟩ := Piece.eq_separator hp
          rw [htext]
          rcases before with _ | ⟨first, before⟩
          · obtain ⟨rfl, -⟩ := List.cons.inj hcut
            refine ⟨rest, rfl, ?_⟩
            rw [Piece.source] at htext
            rw [← htext]
            exact Outlook.found_of_separator shows
          · obtain ⟨rfl, hrest⟩ := List.cons.inj hcut
            obtain ⟨behind, heq, hfound⟩ := ih hrest
            refine ⟨behind, ?_, hfound⟩
            rw [List.nil_append] at heq
            rw [heq]
            simp [join, Piece.source]

end Cut

/-- What a batch holds of a body: its text, in a loop if it is to be wrapped, and its count. -/
def rendered (o : Options) (body : List Char × RepeatCount) : String × RepeatCount :=
  (if o.repetition = .wrap ∧ 1 < body.2.val then
      wrapRepeat (String.ofList body.1) body.2 o.counterVariable
    else
      String.ofList body.1,
    body.2)

/-- Whether a body makes a batch. -/
def isSolid (body : List Char × RepeatCount) : Bool :=
  !body.1.all isBlank

/-- A draft makes the batch of its body, unless that is blank. -/
theorem rendered_finish? {o : Options} {d : Draft} {body : List Char} {count : RepeatCount}
    (hd : d.text = String.ofList body) :
    (d.finish? o count).map (fun b => (b.text, b.repeatCount)) =
      if body.all isBlank then none else some (rendered o (body, count)) := by
  have hblank : allBlank d.text = body.all isBlank := by rw [hd, allBlank, String.toList_ofList]
  rw [Draft.finish?, hblank]
  cases hb : body.all isBlank with
  | true => rfl
  | false =>
      by_cases hc : 1 < count.val ∧ o.repetition = .wrap
      · simp [rendered, Batch.finish, hc, hd]
      · have hc' : ¬ (o.repetition = .wrap ∧ 1 < count.val) := fun h => hc h.symm
        simp [rendered, Batch.finish, hc, hc', hd]

/-- The batches delivered are those of the bodies that are not blank. -/
theorem delivered_eq_rendered {o : Options} (hk : o.keepComments = true) (p : Position)
    {before : List Visit} {body : List Char} (pieces : List Piece)
    (hbody : (before.foldl (Segment.copy o.keepComments) {}).text = String.ofList body) :
    (Segment.delivered o before (Visit.ofPieces p pieces)).map
        (fun b => (b.text, b.repeatCount)) =
      ((Cut.bodies (Cut.ofPieces body pieces).1 (Cut.ofPieces body pieces).2).filter
        isSolid).map (rendered o) := by
  induction pieces generalizing p before body with
  | nil =>
      rw [Visit.ofPieces, Segment.delivered_nil, ← Option.toList_map, rendered_finish? hbody]
      cases hb : body.all isBlank <;> simp [Cut.ofPieces, Cut.bodies, isSolid, hb]
  | cons piece pieces ih =>
      cases hp : piece.isSeparator with
      | false =>
          have hcopied : piece.region.copied o.keepComments = String.ofList piece.source := by
            rw [hk, Piece.copied_region hp]
          rw [Visit.ofPieces, Segment.delivered_text rfl hp, Cut.ofPieces_text hp]
          refine ih _ ?_
          rw [List.foldl_append, List.foldl_cons, List.foldl_nil, Segment.copy, Draft.text_add,
            hbody, hcopied, String.ofList_append]
      | true =>
          obtain ⟨count, statement, rfl⟩ := Piece.eq_separator hp
          have hempty : (([] : List Visit).foldl (Segment.copy o.keepComments) {}).text =
              String.ofList [] := rfl
          rw [Visit.ofPieces, Segment.delivered_separator rfl, List.map_append, Piece.source,
            ih (p.after statement) hempty, Segment.batch?, Segment.draft, ← Option.toList_map,
            rendered_finish? hbody]
          cases hb : body.all isBlank <;> simp [Cut.ofPieces, Cut.bodies, isSolid, hb]

/-- How the batches of a script tile it, with cuts and a last body. -/
structure Tiles (o : Options) (script : String) (cuts : List Cut) (last : List Char)
    (batches : List Batch) : Prop where
  /-- The script is the bodies with the statements between them. -/
  script_eq : script.toList = Cut.join cuts last
  /-- The statements are those recognised on the way through the script. -/
  recognised : (course o script).filter Visit.isStatement = Cut.statements {} cuts
  /-- Each is exactly what reading a separator takes where it stands, with the count it gives. -/
  statement_eq : ∀ before cut after, cuts = before ++ cut :: after → ∀ r : Reading,
    r.cursor = (Cursor.ofString script).skip (Cut.join before cut.body).length →
      Scan.separator o r = .ok (some cut.count) (r.skip cut.statement.length)
  /-- The batches are, in order, the bodies that are not blank, each with the count of the
  statement that follows it, and put into a loop if it is to be wrapped. -/
  batches_eq : batches.map (fun b => (b.text, b.repeatCount)) =
    ((Cut.bodies cuts last).filter isSolid).map (rendered o)

/-- **Tiling.** With comments kept, a script that can be split is tiled by bodies and separator
statements, and its batches are the bodies that are not blank. -/
theorem exists_tiles_of_split {o : Options} {script : String} {batches : List Batch}
    (hk : o.keepComments = true) (h : split o script = .ok batches) :
    ∃ cuts last, Tiles o script cuts last batches := by
  obtain ⟨pieces, w, hpassage, hcourse, rfl⟩ := passage_of_split h
  refine ⟨(Cut.ofPieces [] pieces).1, (Cut.ofPieces [] pieces).2, ?_, ?_, ?_, ?_⟩
  · rw [Cut.join_ofPieces, hpassage.text_eq, List.append_nil, List.nil_append]
  · rw [hcourse]
    exact Cut.statements_ofPieces {} [] pieces
  · intro before cut after hcut r hr
    obtain ⟨behind, htext, hfound⟩ := Cut.found_of_cut hpassage hcut
    have hahead : r.cursor.ahead = cut.statement ++ behind := by
      rw [List.nil_append] at htext
      rw [hr, Cursor.ahead_skip, Cursor.ahead_ofString, htext, List.drop_left]
    rw [Scan.separator_run, hahead, hfound]
  · rw [segments, hcourse]
    exact delivered_eq_rendered hk {} pieces rfl

/-- A script in which a comment stays in the text, a count is lost with a blank body, and the last
body is closed by the end. -/
theorem exists_tiles_of_three_bodies :
    split { keepComments := true, repetition := .delegate } "a--\ngo 2\n go 3\nb" =
        .ok
          [{ text := "a--\n", repeatCount := ⟨2, by decide, by decide⟩, line := 1,
              wrapped := false },
            { text := "\nb", repeatCount := .once, line := 4, wrapped := false }] ∧
      ∃ cuts last, Tiles { keepComments := true, repetition := .delegate }
        "a--\ngo 2\n go 3\nb" cuts last
          [{ text := "a--\n", repeatCount := ⟨2, by decide, by decide⟩, line := 1,
              wrapped := false },
            { text := "\nb", repeatCount := .once, line := 4, wrapped := false }] := by
  have h : split { keepComments := true, repetition := .delegate } "a--\ngo 2\n go 3\nb" =
      .ok
        [{ text := "a--\n", repeatCount := ⟨2, by decide, by decide⟩, line := 1,
            wrapped := false },
          { text := "\nb", repeatCount := .once, line := 4, wrapped := false }] := by
    have hpieces : pieces? { keepComments := true, repetition := .delegate } 9 false
        "a--\ngo 2\n go 3\nb".toList =
          some
            [.ordinary 'a', .comment ['-', '-'], .ordinary '\n',
              .separator ⟨2, by decide, by decide⟩ ['g', 'o', ' ', '2'], .ordinary '\n',
              .separator ⟨3, by decide, by decide⟩ [' ', 'g', 'o', ' ', '3'], .ordinary '\n',
              .ordinary 'b'] := by
      decide +kernel
    rw [split_of_pieces? hpieces]
    exact congrArg Except.ok (by decide +kernel)
  exact ⟨h, exists_tiles_of_split rfl h⟩

end BatchScript
