import BatchScript.Proofs.Course

/-!
# Delivering the batches of a passage

What a stream does with the pieces that it reads, without the stream: a piece of text goes into the
draft, a separator statement closes the draft, and so does the end of the script. `deliver` feeds
pieces to a draft and collects the batches that they complete.

Positions count for the lines of the batches only. Where pieces are read further down in a script,
the batches are the same but for their lines.

## Main results

* `deliver_append` — pieces are delivered one after the other.
* `split_of_passage` — the batches of a script are those delivered along the passage through it.
* `deliver_of_text` — pieces of text complete no batch, and their copies make up the draft.
* `delivery_of_open` — a draft that is not blank becomes the first batch to be delivered.
* `deliver_shift` — pieces further down in a script make the same batches on lower lines.
-/

namespace BatchScript

/-! ### Pieces fed to a draft -/

/-- What a piece that begins on a line makes of the draft, and the batch that it completes. -/
def Draft.absorb (o : Options) (d : Draft) (line : Nat) (piece : Piece) : Draft × Option Batch :=
  match piece with
  | .separator count _ => ({}, d.finish? o count)
  | piece => (d.add line (piece.region.copied o.keepComments), none)

/-- What pieces from a position on make of the draft, and the batches that they complete. -/
def deliver (o : Options) : Draft → Position → List Piece → Draft × List Batch
  | d, _, [] => (d, [])
  | d, p, piece :: pieces =>
    let r := d.absorb o p.line piece
    let t := deliver o r.1 (p.after piece.source) pieces
    (t.1, r.2.toList ++ t.2)

/-- The batches of pieces that a script ends behind: those that they complete, and the draft. -/
def delivery (o : Options) (d : Draft) (p : Position) (pieces : List Piece) : List Batch :=
  (deliver o d p pieces).2 ++ ((deliver o d p pieces).1.finish? o .once).toList

theorem Draft.absorb_text {o : Options} {d : Draft} {line : Nat} {piece : Piece}
    (hp : piece.isSeparator = false) :
    d.absorb o line piece = (d.add line (piece.region.copied o.keepComments), none) := by
  cases piece with
  | separator count text => cases hp
  | _ => rfl

/-- Pieces are delivered one after the other. -/
theorem deliver_append (o : Options) (d : Draft) (p : Position) (pieces more : List Piece) :
    deliver o d p (pieces ++ more) =
      let r := deliver o d p pieces
      let t := deliver o r.1 (p.after (sources pieces)) more
      (t.1, r.2 ++ t.2) := by
  induction pieces generalizing d p with
  | nil => simp [deliver]
  | cons piece pieces ih => simp [deliver, ih]

theorem delivery_append (o : Options) (d : Draft) (p : Position) (pieces more : List Piece) :
    delivery o d p (pieces ++ more) =
      (deliver o d p pieces).2 ++
        delivery o (deliver o d p pieces).1 (p.after (sources pieces)) more := by
  rw [delivery, deliver_append, delivery, List.append_assoc]

theorem delivery_text {o : Options} {piece : Piece} (hp : piece.isSeparator = false) (d : Draft)
    (p : Position) (pieces : List Piece) :
    delivery o d p (piece :: pieces) =
      delivery o (d.add p.line (piece.region.copied o.keepComments)) (p.after piece.source)
        pieces := by
  simp only [delivery, deliver, Draft.absorb_text hp, Option.toList_none, List.nil_append]

theorem delivery_separator (o : Options) (d : Draft) (p : Position) (count : RepeatCount)
    (statement : List Char) (pieces : List Piece) :
    delivery o d p (.separator count statement :: pieces) =
      (d.finish? o count).toList ++ delivery o {} (p.after statement) pieces := by
  rw [delivery, delivery, deliver, Draft.absorb, Piece.source, List.append_assoc]

namespace BatchStream

/-- Where a piece stands the next step absorbs it. -/
theorem moves_of_piece {s : BatchStream} {o : Options} {w : Bool} {text rest : List Char}
    {piece : Piece} (hs : s.Before o w text)
    (h : Outlook.Shows o w text (.piece piece rest)) :
    ∃ s', s.Moves (s.draft.absorb o s.reading.cursor.position.line piece).2 s' ∧
      s'.Before o piece.endsInWord rest ∧
      s'.reading.cursor.position = s.reading.cursor.position.after piece.source ∧
      s'.draft = (s.draft.absorb o s.reading.cursor.position.line piece).1 := by
  cases hp : piece.isSeparator with
  | false =>
      rw [Draft.absorb_text hp]
      exact moves_of_text hs h hp
  | true =>
      obtain ⟨count, statement, rfl⟩ := Piece.eq_separator hp
      exact moves_of_separator hs h

end BatchStream

/-- The batches of segments are those delivered. -/
theorem Segment.delivered_eq_delivery {o : Options} {before : List Visit} {d : Draft}
    (p : Position) (pieces : List Piece) (hd : d = before.foldl (copy o.keepComments) {}) :
    delivered o before (Visit.ofPieces p pieces) = delivery o d p pieces := by
  induction pieces generalizing before d p with
  | nil =>
      rw [Visit.ofPieces, delivered_nil, hd]
      rfl
  | cons piece pieces ih =>
      cases hp : piece.isSeparator with
      | false =>
          have hcopy : d.add p.line (piece.region.copied o.keepComments) =
              (before ++ [(⟨p, piece.region, piece.source⟩ : Visit)]).foldl
                (copy o.keepComments) {} := by
            rw [List.foldl_append, ← hd]
            rfl
          rw [Visit.ofPieces, delivered_text rfl hp, ih (p.after piece.source) hcopy,
            delivery_text hp]
      | true =>
          obtain ⟨count, statement, rfl⟩ := Piece.eq_separator hp
          rw [Visit.ofPieces, delivered_separator rfl, ih _ rfl, delivery_separator, batch?, draft,
            ← hd, Piece.source]
          rfl

/-- The batches of a script are those delivered along the passage through it. -/
theorem split_of_passage {o : Options} {script : String} {w : Bool} {rest : List Char}
    {pieces : List Piece} {fault : Option Fault}
    (h : Passage o false script.toList pieces w rest) (hh : Halt o w rest fault) :
    split o script =
      match fault with
      | none => .ok (delivery o {} {} pieces)
      | some fault =>
        .error (.malformed (fault.malformed (({} : Position).after (sources pieces)) rest)) := by
  obtain ⟨hcourse, hsplit⟩ := split_of_halt h hh
  rw [hsplit, segments, hcourse]
  cases fault with
  | none => exact congrArg Except.ok (Segment.delivered_eq_delivery {} pieces rfl)
  | some fault => rfl

/-- A script that can be split is read to its end. -/
theorem exists_passage_of_split {o : Options} {script : String} {batches : List Batch}
    (h : split o script = .ok batches) :
    ∃ pieces w, Passage o false script.toList pieces w [] ∧ batches = delivery o {} {} pieces := by
  obtain ⟨pieces, w, hp, -, -⟩ := passage_of_split h
  rw [split_of_passage hp .finished] at h
  exact ⟨pieces, w, hp, (Except.ok.inj h).symm⟩

/-! ### Pieces of text -/

/-- What a piece adds to the text of a batch. -/
def Piece.copied (o : Options) (piece : Piece) : List Char :=
  (piece.region.copied o.keepComments).toList

/-- What pieces add to the text of a batch together. -/
def copied (o : Options) (pieces : List Piece) : List Char :=
  pieces.flatMap (Piece.copied o)

@[simp] theorem copied_nil (o : Options) : copied o [] = [] := rfl

@[simp] theorem copied_cons (o : Options) (piece : Piece) (pieces : List Piece) :
    copied o (piece :: pieces) = piece.copied o ++ copied o pieces := rfl

@[simp] theorem copied_append (o : Options) (pieces more : List Piece) :
    copied o (pieces ++ more) = copied o pieces ++ copied o more := by
  simp [copied]

@[simp] theorem Piece.copied_quoted (o : Options) (text : List Char) :
    (quoted text).copied o = text := by
  simp [copied, region, Region.copied]

@[simp] theorem Piece.copied_blanks (o : Options) (text : List Char) :
    (blanks text).copied o = text := by
  simp [copied, region, Region.copied]

@[simp] theorem Piece.copied_ordinary (o : Options) (c : Char) : (ordinary c).copied o = [c] := by
  simp [copied, region, Region.copied]

theorem Piece.copied_comment (o : Options) (text : List Char) :
    (comment text).copied o = if o.keepComments then text else [] := by
  cases hk : o.keepComments <;> simp [copied, region, Region.copied, hk]

/-- A piece is copied as it stands or not at all. -/
theorem Piece.copied_eq_or (o : Options) (piece : Piece) :
    piece.copied o = piece.source ∨ piece.copied o = [] := by
  cases piece with
  | comment text =>
      rw [copied_comment]
      split
      · exact .inl rfl
      · exact .inr rfl
  | separator count text => exact .inr rfl
  | quoted text => exact .inl (copied_quoted o text)
  | blanks text => exact .inl (copied_blanks o text)
  | ordinary c => exact .inl (copied_ordinary o c)

/-- Pieces of text complete no batch, and their copies make up the draft. -/
theorem deliver_of_text {o : Options} (d : Draft) (p : Position) {pieces : List Piece}
    (hp : ∀ piece ∈ pieces, piece.isSeparator = false) :
    (deliver o d p pieces).2 = [] ∧
      (deliver o d p pieces).1.text = d.text ++ String.ofList (copied o pieces) := by
  induction pieces generalizing d p with
  | nil => simp [deliver]
  | cons piece pieces ih =>
      obtain ⟨hpiece, hpieces⟩ := List.forall_mem_cons.1 hp
      obtain ⟨hnone, htext⟩ :=
        ih (d.add p.line (piece.region.copied o.keepComments)) (p.after piece.source) hpieces
      rw [deliver, Draft.absorb_text hpiece]
      refine ⟨hnone, ?_⟩
      rw [htext, Draft.text_add, copied_cons, String.ofList_append, Piece.copied,
        String.ofList_toList, String.append_assoc]

/-- Pieces are pieces of text alone, or such pieces with a separator statement behind them. -/
theorem exists_stretch (pieces : List Piece) :
    (∀ piece ∈ pieces, piece.isSeparator = false) ∨
      ∃ stretch count statement more,
        pieces = stretch ++ .separator count statement :: more ∧
          ∀ piece ∈ stretch, piece.isSeparator = false := by
  induction pieces with
  | nil => exact .inl (by simp)
  | cons piece pieces ih =>
      cases hp : piece.isSeparator with
      | true =>
          obtain ⟨count, statement, rfl⟩ := Piece.eq_separator hp
          exact .inr ⟨[], count, statement, pieces, rfl, by simp⟩
      | false =>
          rcases ih with hall | ⟨stretch, count, statement, more, rfl, hall⟩
          · exact .inl (List.forall_mem_cons.2 ⟨hp, hall⟩)
          · exact .inr ⟨piece :: stretch, count, statement, more, rfl,
              List.forall_mem_cons.2 ⟨hp, hall⟩⟩

/-! ### The line of a draft -/

namespace Draft

/-- A draft that knows the line of its first character that is not blank, if it has one. -/
def Marked (d : Draft) : Prop :=
  d.line = none → allBlank d.text = true

theorem marked_empty : Marked {} :=
  fun _ => rfl

theorem Marked.add {d : Draft} (h : d.Marked) (line : Nat) (piece : String) :
    (d.add line piece).Marked := by
  intro hnone
  obtain ⟨hline, hpiece⟩ : d.line = none ∧ allBlank piece = true := by
    simpa [Draft.add] using hnone
  rw [text_add, allBlank_append, h hline, hpiece]
  rfl

theorem Marked.absorb {o : Options} {d : Draft} (h : d.Marked) (line : Nat) (piece : Piece) :
    (d.absorb o line piece).1.Marked := by
  cases hp : piece.isSeparator with
  | false =>
      rw [absorb_text hp]
      exact h.add line _
  | true =>
      obtain ⟨count, statement, rfl⟩ := Piece.eq_separator hp
      exact marked_empty

/-- The line of a draft stays what it is once it is known. -/
theorem line_add_of_some {d : Draft} {l : Nat} (h : d.line = some l) (line : Nat)
    (piece : String) : (d.add line piece).line = some l := by
  rw [add, h]
  rfl

end Draft

/-- Pieces of text leave the line of a draft what it is. -/
theorem line_deliver_of_text {o : Options} {d : Draft} {l : Nat} (p : Position)
    {pieces : List Piece} (hp : ∀ piece ∈ pieces, piece.isSeparator = false)
    (hl : d.line = some l) : (deliver o d p pieces).1.line = some l := by
  induction pieces generalizing d p with
  | nil => exact hl
  | cons piece pieces ih =>
      obtain ⟨hpiece, hpieces⟩ := List.forall_mem_cons.1 hp
      rw [deliver, Draft.absorb_text hpiece]
      exact ih (p.after piece.source) hpieces (Draft.line_add_of_some hl _ _)

/-- A draft that is not blank becomes the first batch to be delivered: more text is added to it, and
what is delivered behind it does not depend on it. -/
theorem delivery_of_open (o : Options) (pieces : List Piece) :
    ∃ added count passed more, ∀ d l p, allBlank d.text = false → d.line = some l →
      delivery o d p pieces =
        .finish o (d.text ++ added) count l :: delivery o {} (p.after passed) more := by
  have hfinish (stretch : List Piece) (hs : ∀ piece ∈ stretch, piece.isSeparator = false)
      (count : RepeatCount) (d : Draft) (l : Nat) (p : Position) (hd : allBlank d.text = false)
      (hl : d.line = some l) :
      (deliver o d p stretch).1.finish? o count =
        some (.finish o (d.text ++ String.ofList (copied o stretch)) count l) := by
    have htext := (deliver_of_text (o := o) d p hs).2
    have hline := line_deliver_of_text (o := o) p hs hl
    rw [Draft.finish?, htext, allBlank_append, hd, hline]
    rfl
  rcases exists_stretch pieces with hs | ⟨stretch, count, statement, more, rfl, hs⟩
  · refine ⟨String.ofList (copied o pieces), .once, [], [], fun d l p hd hl => ?_⟩
    rw [delivery, (deliver_of_text d p hs).1, hfinish pieces hs .once d l p hd hl]
    rfl
  · refine ⟨String.ofList (copied o stretch), count, sources stretch ++ statement, more,
      fun d l p hd hl => ?_⟩
    rw [delivery_append, (deliver_of_text d p hs).1, delivery_separator,
      hfinish stretch hs count d l p hd hl, Position.after_append]
    rfl

/-! ### Further down in a script -/

/-- The position in a script at which a text begins, and one in the text: where that is in the
script. -/
def Position.shift (p q : Position) : Position :=
  { offset := p.offset + q.offset, line := p.line - 1 + q.line,
    column := if q.line = 1 then p.column - 1 + q.column else q.column }

namespace Position

/-- Moving on leads down as many lines as there are line feeds on the way. -/
theorem line_after (p : Position) (text : List Char) :
    (p.after text).line = p.line + text.count '\n' := by
  induction text generalizing p with
  | nil => rfl
  | cons c text ih =>
      rw [after_cons, ih, advance, List.count_cons]
      split
      · rename_i hc
        simp only [hc, beq_self_eq_true, if_true]
        omega
      · rename_i hc
        simp [hc]

theorem one_le_column_after {p : Position} (hp : 1 ≤ p.column) (text : List Char) :
    1 ≤ (p.after text).column := by
  induction text generalizing p with
  | nil => exact hp
  | cons c text ih =>
      refine ih ?_
      rw [advance]
      split <;> simp only <;> omega

/-- Lines and columns are counted from one. -/
theorem one_le_after (text : List Char) :
    1 ≤ (({} : Position).after text).line ∧ 1 ≤ (({} : Position).after text).column := by
  rw [line_after]
  exact ⟨Nat.le_add_right 1 _, one_le_column_after (Nat.le_refl 1) text⟩

theorem shift_start {p : Position} (hp : 1 ≤ p.line ∧ 1 ≤ p.column) : p.shift {} = p := by
  simp only [shift, Nat.add_zero, if_true, Nat.sub_add_cancel hp.1, Nat.sub_add_cancel hp.2]

theorem advance_shift (p : Position) {q : Position} (hq : 1 ≤ q.line) (c : Char) :
    (p.shift q).advance c = p.shift (q.advance c) := by
  simp only [shift, advance]
  split
  · have hline : ¬ q.line + 1 = 1 := by omega
    simp only [hline, if_false, Nat.add_assoc]
  · split <;> simp only [Nat.add_assoc]

/-- Moving on in a text is moving on in the script. -/
theorem after_shift (p : Position) {q : Position} (hq : 1 ≤ q.line) (text : List Char) :
    (p.shift q).after text = p.shift (q.after text) := by
  induction text generalizing q with
  | nil => rfl
  | cons c text ih =>
      have hq' : 1 ≤ (q.after [c]).line := by
        rw [line_after]
        exact Nat.le_add_right_of_le hq
      rw [after_cons, advance_shift p hq]
      exact ih hq'

end Position

/-- A batch so many lines further down. -/
def Batch.shift (lines : Nat) (b : Batch) : Batch :=
  { b with line := lines + b.line }

theorem Batch.shift_finish (o : Options) (lines : Nat) (body : String) (count : RepeatCount)
    (line : Nat) : (finish o body count line).shift lines = finish o body count (lines + line) := by
  simp only [finish]
  split <;> rfl

namespace Draft

/-- A draft so many lines further down. -/
def shift (lines : Nat) (d : Draft) : Draft :=
  { d with line := d.line.map (lines + ·) }

theorem shift_add (lines : Nat) (d : Draft) (line : Nat) (piece : String) :
    (d.shift lines).add (lines + line) piece = (d.add line piece).shift lines := by
  simp only [shift, add]
  rcases d.line with _ | l
  · split <;> rfl
  · rfl

theorem finish?_shift {d : Draft} (h : d.Marked) (lines : Nat) (o : Options)
    (count : RepeatCount) :
    (d.shift lines).finish? o count = (d.finish? o count).map (Batch.shift lines) := by
  cases hb : allBlank d.text with
  | true => simp only [finish?, shift, hb, if_true, Option.map_none]
  | false =>
      obtain ⟨l, hl⟩ : ∃ l, d.line = some l := by
        rw [← Option.ne_none_iff_exists']
        intro hnone
        rw [h hnone] at hb
        cases hb
      simp [finish?, shift, hb, hl, Batch.shift_finish]

theorem absorb_shift {o : Options} {d : Draft} (h : d.Marked) (lines line : Nat)
    (piece : Piece) :
    (d.shift lines).absorb o (lines + line) piece =
      ((d.absorb o line piece).1.shift lines,
        (d.absorb o line piece).2.map (Batch.shift lines)) := by
  cases hp : piece.isSeparator with
  | false => simp only [absorb_text hp, shift_add, Option.map_none]
  | true =>
      obtain ⟨count, statement, rfl⟩ := Piece.eq_separator hp
      simp only [absorb, finish?_shift h]
      rfl

end Draft

/-- Pieces further down in a script make the same batches on lower lines. -/
theorem deliver_shift {o : Options} {d : Draft} (hd : d.Marked) (p : Position) {q : Position}
    (hq : 1 ≤ q.line) (pieces : List Piece) :
    deliver o (d.shift (p.line - 1)) (p.shift q) pieces =
      ((deliver o d q pieces).1.shift (p.line - 1),
        (deliver o d q pieces).2.map (Batch.shift (p.line - 1))) ∧
      (deliver o d q pieces).1.Marked := by
  induction pieces generalizing d q with
  | nil => exact ⟨rfl, hd⟩
  | cons piece pieces ih =>
      have hq' : 1 ≤ (q.after piece.source).line := by
        rw [Position.line_after]
        exact Nat.le_add_right_of_le hq
      obtain ⟨heq, hmarked⟩ := ih (hd.absorb q.line piece) hq'
      have habsorb := Draft.absorb_shift (o := o) hd (p.line - 1) q.line piece
      have hline : (p.shift q).line = p.line - 1 + q.line := rfl
      refine ⟨?_, hmarked⟩
      simp only [deliver, Position.after_shift p hq, hline, habsorb, heq, List.map_append,
        Option.toList_map]

/-- The batches that follow a separator statement are those of the rest by itself, on lower
lines. -/
theorem delivery_shift {o : Options} {p : Position} (hp : 1 ≤ p.line ∧ 1 ≤ p.column)
    (pieces : List Piece) :
    delivery o {} p pieces = (delivery o {} {} pieces).map (Batch.shift (p.line - 1)) := by
  obtain ⟨heq, hmarked⟩ := deliver_shift (o := o) Draft.marked_empty p (q := {}) (by decide) pieces
  have hempty : Draft.shift (p.line - 1) {} = {} := rfl
  rw [hempty, Position.shift_start hp] at heq
  rw [delivery, delivery, heq, Draft.finish?_shift hmarked, List.map_append, Option.toList_map]

end BatchScript
