import BatchScript.Proofs.Passage
import BatchScript.Split

/-!
# The course of a split

What a stream of batches does on its way through a script. `BatchStream.visits` steps the stream to
its end and notes every region that it reads, with the position where the region begins and the
text that it covers; `course` is this list for a whole script, and `segments` groups it by the
separator statements.

A stream is then tied to passages: along a passage its steps read exactly the pieces, and its
batches are those of the segments.

## Main results

* `BatchStream.travels_of_passage` — along a passage a stream travels over its pieces.
* `split_of_halt` — a passage to where reading stops says what a script is split into, or why it is
  not split.
* `passage_of_split` — a script that can be split is split along a passage to its end, and its
  batches are those that its segments make.
-/

namespace BatchScript

/-! ### Visits -/

/-- A region read on the way through a script. -/
structure Visit where
  /-- Where it begins. -/
  position : Position
  /-- What is read. -/
  region : Region
  /-- The text that it covers. -/
  text : List Char
deriving DecidableEq, Repr

/-- Whether a separator statement is read. -/
def Visit.isStatement (visit : Visit) : Bool :=
  match visit.region with
  | .separator _ => true
  | _ => false

namespace BatchStream

/-- The region that the next step of a stream reads, if it reads one. -/
def visit? (s : BatchStream) : Option Visit :=
  match s.reading.cursor.peek with
  | none => none
  | some first =>
    match Scan.region s.options s.afterWord first s.reading with
    | .ok region r =>
      some
        { position := s.reading.cursor.position, region,
          text := s.reading.cursor.ahead.take (s.remaining - r.cursor.ahead.length) }
    | .error _ _ => none

/-- The regions that a stream reads until it ends or fails, in order. -/
def visits (s : BatchStream) : List Visit :=
  match _h : s.step with
  | .more rest => s.visit?.toList ++ rest.visits
  | .batch _ rest => s.visit?.toList ++ rest.visits
  | .done _ => []
  | .failed _ _ => []
termination_by (s.weight, s.remaining)
decreasing_by
  · have hr := remaining_of_more _h
    rcases Nat.lt_or_eq_of_le (weight_of_more _h) with hw | hw
    · exact .left _ _ hw
    · rw [hw]
      exact .right _ hr
  · exact .left _ _ (weight_of_batch _h)

end BatchStream

/-- The regions read on the way through a script. -/
def course (o : Options) (script : String) : List Visit :=
  (BatchStream.ofString o script).visits

/-- The visits that pieces make from a position on. -/
def Visit.ofPieces : Position → List Piece → List Visit
  | _, [] => []
  | p, piece :: pieces =>
    { position := p, region := piece.region, text := piece.source } ::
      ofPieces (p.after piece.source) pieces

theorem Visit.ofPieces_append (p : Position) (pieces more : List Piece) :
    ofPieces p (pieces ++ more) =
      ofPieces p pieces ++ ofPieces (p.after (sources pieces)) more := by
  induction pieces generalizing p with
  | nil => rfl
  | cons piece pieces ih => simp [ofPieces, ih]

/-! ### Segments -/

/-- A stretch of a script between two separator statements: the regions in it, and the count of the
statement that closes it. -/
structure Segment where
  visits : List Visit
  count : RepeatCount

/-- Groups visits into segments, with those already in the first one. The end closes the last
segment with a single run. -/
def Segment.ofVisits (before : List Visit) : List Visit → List Segment
  | [] => [{ visits := before, count := .once }]
  | visit :: visits =>
    match visit.region with
    | .separator count => { visits := before, count } :: ofVisits [] visits
    | _ => ofVisits (before ++ [visit]) visits

/-- The segments of a script. -/
def segments (o : Options) (script : String) : List Segment :=
  Segment.ofVisits [] (course o script)

namespace Segment

/-- Copies a region into a draft. -/
def copy (keepComments : Bool) (d : Draft) (visit : Visit) : Draft :=
  d.add visit.position.line (visit.region.copied keepComments)

/-- The draft that a segment fills. -/
def draft (keepComments : Bool) (s : Segment) : Draft :=
  s.visits.foldl (copy keepComments) {}

/-- The batch that a segment makes, unless its draft is blank. -/
def batch? (o : Options) (s : Segment) : Option Batch :=
  (s.draft o.keepComments).finish? o s.count

/-- The batches of the segments that visits fall into, with those already in the first one. -/
def delivered (o : Options) (before visits : List Visit) : List Batch :=
  (ofVisits before visits).filterMap (batch? o)

variable {o : Options}

/-- The visits held make the last batch. -/
theorem delivered_nil (before : List Visit) :
    delivered o before [] =
      ((before.foldl (copy o.keepComments) {}).finish? o .once).toList := by
  simp only [delivered, ofVisits, List.filterMap_cons, List.filterMap_nil, batch?, draft]
  split <;> simp_all

/-- A region of text goes into the first segment. -/
theorem ofVisits_text {before visits : List Visit} {visit : Visit} {piece : Piece}
    (hv : visit.region = piece.region) (hp : piece.isSeparator = false) :
    ofVisits before (visit :: visits) = ofVisits (before ++ [visit]) visits := by
  cases piece with
  | separator count text => cases hp
  | _ =>
      rw [Piece.region] at hv
      simp only [ofVisits, hv]

theorem delivered_text {before visits : List Visit} {visit : Visit} {piece : Piece}
    (hv : visit.region = piece.region) (hp : piece.isSeparator = false) :
    delivered o before (visit :: visits) = delivered o (before ++ [visit]) visits := by
  rw [delivered, delivered, ofVisits_text hv hp]

/-- A separator statement closes the first segment. -/
theorem delivered_separator {before visits : List Visit} {visit : Visit} {count : RepeatCount}
    (hv : visit.region = .separator count) :
    delivered o before (visit :: visits) =
      (batch? o { visits := before, count }).toList ++ delivered o [] visits := by
  simp only [delivered, ofVisits, hv]
  rcases hb : batch? o { visits := before, count } with _ | b
  · simp [hb]
  · simp [hb]

end Segment

/-! ### Steps along a passage -/

namespace BatchStream

variable {s : BatchStream} {o : Options} {w w' : Bool} {text rest : List Char}
  {pieces : List Piece}

/-- A stream that stands before a text in a state. -/
structure Before (s : BatchStream) (o : Options) (w : Bool) (text : List Char) : Prop where
  options : s.options = o
  afterWord : s.afterWord = w
  ahead : s.reading.cursor.ahead = text
  finished : s.finished = false

theorem before_ofString (o : Options) (script : String) :
    (ofString o script).Before o false script.toList :=
  ⟨rfl, rfl, rfl, rfl⟩

/-- What a step reads where a piece stands, and where it stands then. -/
theorem step_of_piece {piece : Piece} (hs : s.Before o w text)
    (h : Outlook.Shows o w text (.piece piece rest)) :
    ∃ log, s.step =
        absorb { s with reading := { cursor := s.reading.cursor.skip piece.source.length, log } }
          s.reading.cursor.position.line piece.region ∧
      s.visit? = some
        { position := s.reading.cursor.position, region := piece.region, text := piece.source } ∧
      (s.reading.cursor.skip piece.source.length).ahead = rest ∧
      (s.reading.cursor.skip piece.source.length).position =
        s.reading.cursor.position.after piece.source ∧
      log.toList = s.reading.log.toList ++ (Outlook.rejected? o w text).toList := by
  obtain ⟨rfl, rfl, rfl, hf⟩ := hs
  have htext := Outlook.text_eq h
  obtain ⟨first, hfirst⟩ : ∃ first, s.reading.cursor.peek = some first := by
    rw [Cursor.peek, htext]
    rcases hp : piece.source with _ | ⟨first, tail⟩
    · exact absurd hp (Outlook.source_ne_nil h)
    · exact ⟨first, rfl⟩
  obtain ⟨log, hrun, hlog⟩ := Scan.region_of_piece h hfirst
  have hahead : (s.reading.cursor.skip piece.source.length).ahead = rest := by
    rw [Cursor.ahead_skip, htext, List.drop_left]
  refine ⟨log, ?_, ?_, hahead, ?_, hlog⟩
  · simp only [step, hfirst, hrun]
  · have hlen : s.remaining - rest.length = piece.source.length := by
      rw [remaining, htext, List.length_append, Nat.add_sub_cancel]
    simp only [visit?, hfirst, hrun, hahead, hlen]
    rw [htext, List.take_left]
  · rw [Cursor.position_skip, htext, List.take_left]

/-- A step that goes on, and the batch that it completes, if it does. -/
def Moves (s : BatchStream) : Option Batch → BatchStream → Prop
  | none, s' => s.step = .more s'
  | some b, s' => s.step = .batch b s'

theorem visits_of_moves {s' : BatchStream} {b : Option Batch} (h : s.Moves b s') :
    s.visits = s.visit?.toList ++ s'.visits := by
  rw [visits]
  rcases b with _ | b
  · rw [Moves] at h
    split <;> simp_all
  · rw [Moves] at h
    split <;> simp_all

theorem next_of_finished (hf : s.finished = true) : s.next = (none, s) := by
  rw [next, if_pos hf]

theorem next_eq_run (hf : s.finished = false) : s.next = s.run := by
  simp only [next, hf, Bool.false_eq_true, if_false]

theorem next_of_more {s' : BatchStream} (hf : s.finished = false) (hf' : s'.finished = false)
    (h : s.step = .more s') : s.next = s'.next := by
  have hrun : s.run = s'.run := by
    rw [run]
    split <;> simp_all
  rw [next_eq_run hf, next_eq_run hf', hrun]

theorem next_of_batch {s' : BatchStream} {b : Batch} (hf : s.finished = false)
    (h : s.step = .batch b s') : s.next = (some (.ok b), s') := by
  have hrun : s.run = (some (.ok b), s') := by
    rw [run]
    split <;> simp_all
  rw [next_eq_run hf, hrun]

theorem next_of_done {s' : BatchStream} (hf : s.finished = false) (h : s.step = .done s') :
    s.next = (none, s') := by
  have hrun : s.run = (none, s') := by
    rw [run]
    split <;> simp_all
  rw [next_eq_run hf, hrun]

theorem next_of_failed {s' : BatchStream} {failure : Failure} (hf : s.finished = false)
    (h : s.step = .failed failure s') : s.next = (some (.error failure), s') := by
  have hrun : s.run = (some (.error failure), s') := by
    rw [run]
    split <;> simp_all
  rw [next_eq_run hf, hrun]

theorem collect_eq (s : BatchStream) :
    s.collect =
      match s.next with
      | (none, rest) => (.ok [], rest)
      | (some (.error failure), rest) => (.error failure, rest)
      | (some (.ok b), rest) => (rest.collect.1.map (b :: ·), rest.collect.2) := by
  rw [collect]
  split <;> simp_all

/-- What is collected from a stream is what a step completes, and what is collected then. -/
theorem collect_of_moves {s' : BatchStream} {b : Option Batch} (hf : s.finished = false)
    (hf' : s'.finished = false) (h : s.Moves b s') :
    s.collect.1 = s'.collect.1.map (b.toList ++ ·) := by
  rcases b with _ | b
  · rw [collect_eq s, next_of_more hf hf' h, ← collect_eq s']
    cases s'.collect.1 <;> rfl
  · rw [collect_eq s, next_of_batch hf h]
    rfl

/-- A region of text is copied into the draft. -/
theorem absorb_text {piece : Piece} (h : piece.region.WellFormed) (hp : piece.isSeparator = false)
    (s : BatchStream) (line : Nat) :
    s.absorb line piece.region = .more (s.extend line piece.region) := by
  rw [absorb_of_wellFormed h]
  cases piece with
  | separator count text => cases hp
  | _ => rfl

/-- Where a region of text stands, the next step copies it into the draft. -/
theorem moves_of_text {piece : Piece} (hs : s.Before o w text)
    (h : Outlook.Shows o w text (.piece piece rest)) (hp : piece.isSeparator = false) :
    ∃ s', s.Moves none s' ∧ s'.Before o piece.endsInWord rest ∧
      s'.reading.cursor.position = s.reading.cursor.position.after piece.source ∧
      s'.draft = s.draft.add s.reading.cursor.position.line
        (piece.region.copied o.keepComments) := by
  obtain ⟨log, hstep, -, hahead, hpos, -⟩ := step_of_piece hs h
  rw [absorb_text (Outlook.wellFormed_of_shows h) hp] at hstep
  refine ⟨_, hstep, ⟨hs.options, rfl, hahead, hs.finished⟩, hpos, ?_⟩
  simp only [extend, hs.options]

/-- Where a separator statement stands, the next step closes the draft. -/
theorem moves_of_separator {count : RepeatCount} {statement : List Char} (hs : s.Before o w text)
    (h : Outlook.Shows o w text (.piece (.separator count statement) rest)) :
    ∃ s', s.Moves (s.draft.finish? o count) s' ∧ s'.Before o false rest ∧
      s'.reading.cursor.position = s.reading.cursor.position.after statement ∧
      s'.draft = {} := by
  obtain ⟨log, hstep, -, hahead, hpos, -⟩ := step_of_piece hs h
  simp only [Piece.region, absorb, separate, close, noteSeparator, hs.options] at hstep
  cases hb : s.draft.finish? o count with
  | none =>
      simp only [hb] at hstep
      exact ⟨_, hstep, ⟨rfl, rfl, hahead, hs.finished⟩, hpos, rfl⟩
  | some b =>
      simp only [hb] at hstep
      exact ⟨_, hstep, ⟨rfl, rfl, hahead, hs.finished⟩, hpos, rfl⟩

theorem peek_of_end (hs : s.Before o w []) : s.reading.cursor.peek = none := by
  rw [Cursor.peek, hs.ahead]
  rfl

/-- At the end of the script a blank draft is dropped, and the next step ends the stream. -/
theorem step_of_blank_end (hs : s.Before o w []) (hb : s.draft.finish? o .once = none) :
    s.step = .done { s with draft := {}, finished := true } := by
  simp only [step, peek_of_end hs, conclude, close, hs.options, hb]

/-- At the end of the script a blank draft ends the stream. -/
theorem next_of_blank_end (hs : s.Before o w []) (hb : s.draft.finish? o .once = none) :
    (∃ rest, s.next = (none, rest) ∧ rest.finished = true) ∧ s.visits = [] := by
  have hstep := step_of_blank_end hs hb
  refine ⟨⟨_, next_of_done hs.finished hstep, rfl⟩, ?_⟩
  rw [visits]
  split <;> simp_all

/-- A draft that is not blank makes the last batch before that. -/
theorem moves_of_end {b : Batch} (hs : s.Before o w []) (hb : s.draft.finish? o .once = some b) :
    ∃ s', s.Moves (some b) s' ∧ s'.Before o s.afterWord [] ∧ s'.draft = {} ∧
      s'.reading = s.reading.note (.batch b.line b.repeatCount) := by
  refine ⟨{ s with reading := s.reading.note (.batch b.line b.repeatCount), draft := {} },
    ?_, ⟨hs.options, rfl, hs.ahead, hs.finished⟩, rfl, rfl⟩
  simp only [Moves, step, peek_of_end hs, conclude, close, hs.options, hb]

/-- At the end of the script the draft is closed, and nothing follows. -/
theorem collect_of_end (hs : s.Before o w []) :
    s.collect.1 = .ok (s.draft.finish? o .once).toList ∧ s.visits = [] := by
  cases hb : s.draft.finish? o .once with
  | none =>
      obtain ⟨⟨rest, hnext, -⟩, hvisits⟩ := next_of_blank_end hs hb
      exact ⟨by rw [collect_eq, hnext]; rfl, hvisits⟩
  | some b =>
      obtain ⟨s', hmoves, hs', hd, -⟩ := moves_of_end hs hb
      have hblank : s'.draft.finish? o .once = none := by rw [hd]; rfl
      obtain ⟨⟨rest, hnext, -⟩, hvisits⟩ := next_of_blank_end hs' hblank
      constructor
      · rw [collect_of_moves hs.finished hs'.finished hmoves, collect_eq, hnext]
        rfl
      · have hv : s.visit? = none := by simp only [visit?, peek_of_end hs]
        rw [visits_of_moves hmoves, hv, hvisits]
        rfl

/-- Before a construct left open the next step fails at its opener, and reports it. -/
theorem step_of_fault {fault : Fault} (hs : s.Before o w text)
    (h : Outlook.Shows o w text (.fault fault)) :
    ∃ r event, s.step = .failed (.malformed (fault.malformed s.reading.cursor.position text))
        { s with reading := r, finished := true } ∧
      r.log = s.reading.log.push event ∧
      fault.Reported o s.reading.cursor.position text event := by
  obtain ⟨rfl, rfl, rfl, -⟩ := hs
  obtain ⟨first, hfirst⟩ : ∃ first, s.reading.cursor.peek = some first := by
    rw [Cursor.peek]
    rcases ht : s.reading.cursor.ahead with _ | ⟨first, tail⟩
    · rw [ht] at h
      cases h
    · exact ⟨first, rfl⟩
  obtain ⟨r, event, hregion, hlog, hreported⟩ := Scan.region_of_fault h hfirst
  refine ⟨r, event, ?_, hlog, hreported⟩
  simp only [step, hfirst, hregion]

/-- So the stream fails there, and gives nothing more. -/
theorem next_of_fault {fault : Fault} (hs : s.Before o w text)
    (h : Outlook.Shows o w text (.fault fault)) :
    (∃ rest, s.next =
        (some (.error (.malformed (fault.malformed s.reading.cursor.position text))), rest) ∧
      rest.finished = true) ∧ s.visits = [] := by
  obtain ⟨r, -, hstep, -⟩ := step_of_fault hs h
  refine ⟨⟨_, next_of_failed hs.finished hstep, rfl⟩, ?_⟩
  rw [visits]
  split <;> simp_all

/-- So nothing can be collected. -/
theorem collect_of_fault {fault : Fault} (hs : s.Before o w text)
    (h : Outlook.Shows o w text (.fault fault)) :
    s.collect.1 =
        .error (.malformed (fault.malformed s.reading.cursor.position text)) ∧
      s.visits = [] := by
  obtain ⟨⟨rest, hnext, -⟩, hvisits⟩ := next_of_fault hs h
  exact ⟨by rw [collect_eq, hnext], hvisits⟩

/-! ### Whole passages -/

/-- How a stream gets from one stand to another over pieces: what it visits and which batches it
completes on the way. The visits before and after are those that the drafts hold. -/
structure Travels (o : Options) (s : BatchStream) (before : List Visit) (pieces : List Piece)
    (batches : List Batch) (s' : BatchStream) (after : List Visit) : Prop where
  position : s'.reading.cursor.position = s.reading.cursor.position.after (sources pieces)
  visits : s.visits = Visit.ofPieces s.reading.cursor.position pieces ++ s'.visits
  collect : s.collect.1 = s'.collect.1.map (batches ++ ·)
  delivered : ∀ more,
    Segment.delivered o before (Visit.ofPieces s.reading.cursor.position pieces ++ more) =
      batches ++ Segment.delivered o after more

theorem Travels.stay (o : Options) (s : BatchStream) (before : List Visit) :
    Travels o s before [] [] s before := by
  refine ⟨rfl, rfl, ?_, fun more => rfl⟩
  cases s.collect.1 <;> rfl

/-- Ways are joined. -/
theorem Travels.trans {s₁ s₂ s₃ : BatchStream} {before middle after : List Visit}
    {more : List Piece} {batches batches' : List Batch}
    (h : Travels o s₁ before pieces batches s₂ middle)
    (h' : Travels o s₂ middle more batches' s₃ after) :
    Travels o s₁ before (pieces ++ more) (batches ++ batches') s₃ after := by
  refine ⟨?_, ?_, ?_, fun rest => ?_⟩
  · rw [h'.position, h.position, sources_append, Position.after_append]
  · rw [h.visits, h'.visits, h.position, Visit.ofPieces_append, List.append_assoc]
  · rw [h.collect, h'.collect]
    cases s₃.collect.1 with
    | error e => rfl
    | ok bs => simp [Except.map]
  · rw [Visit.ofPieces_append, List.append_assoc, h.delivered, ← h.position, h'.delivered,
      List.append_assoc]

/-- The visits that a draft holds. -/
def Holds (o : Options) (s : BatchStream) (before : List Visit) : Prop :=
  s.draft = before.foldl (Segment.copy o.keepComments) {}

theorem travels_of_text {piece : Piece} {before : List Visit} (hs : s.Before o w text)
    (hd : Holds o s before) (h : Outlook.Shows o w text (.piece piece rest))
    (hp : piece.isSeparator = false) :
    ∃ s' after, Travels o s before [piece] [] s' after ∧ s'.Before o piece.endsInWord rest ∧
      Holds o s' after := by
  obtain ⟨-, -, hvisit, -⟩ := step_of_piece hs h
  obtain ⟨s', hmoves, hs', hpos, hd'⟩ := moves_of_text hs h hp
  refine ⟨s', before ++ Visit.ofPieces s.reading.cursor.position [piece], ⟨?_, ?_, ?_, ?_⟩, hs', ?_⟩
  · rw [hpos, sources_cons, sources_nil, List.append_nil]
  · rw [visits_of_moves hmoves, hvisit]
    rfl
  · exact collect_of_moves hs.finished hs'.finished hmoves
  · intro more
    exact Segment.delivered_text rfl hp
  · rw [Holds, hd', hd, List.foldl_append]
    rfl

theorem travels_of_separator {count : RepeatCount} {statement : List Char} {before : List Visit}
    (hs : s.Before o w text) (hd : Holds o s before)
    (h : Outlook.Shows o w text (.piece (.separator count statement) rest)) :
    ∃ s', Travels o s before [.separator count statement] (s.draft.finish? o count).toList s' [] ∧
      s'.Before o false rest ∧ Holds o s' [] := by
  obtain ⟨-, -, hvisit, -⟩ := step_of_piece hs h
  obtain ⟨s', hmoves, hs', hpos, hd'⟩ := moves_of_separator hs h
  refine ⟨s', ⟨?_, ?_, ?_, ?_⟩, hs', hd'⟩
  · rw [hpos, sources_cons, sources_nil, List.append_nil]
    rfl
  · rw [visits_of_moves hmoves, hvisit]
    rfl
  · exact collect_of_moves hs.finished hs'.finished hmoves
  · intro more
    rw [hd]
    exact Segment.delivered_separator rfl

/-- Along a passage a stream travels over its pieces. -/
theorem travels_of_passage {before : List Visit} (h : Passage o w text pieces w' rest)
    (hs : s.Before o w text) (hd : Holds o s before) :
    ∃ s' after batches, Travels o s before pieces batches s' after ∧ s'.Before o w' rest ∧
      Holds o s' after := by
  induction h generalizing s before with
  | stay w text => exact ⟨s, before, [], .stay o s before, hs, hd⟩
  | @step w w' text rest rest' piece pieces shows tail ih =>
      cases hp : piece.isSeparator with
      | false =>
          obtain ⟨s₁, middle, h₁, hs₁, hd₁⟩ := travels_of_text hs hd shows hp
          obtain ⟨s', after, batches, h', hs', hd'⟩ := ih hs₁ hd₁
          exact ⟨s', after, _, h₁.trans h', hs', hd'⟩
      | true =>
          obtain ⟨count, statement, rfl⟩ := Piece.eq_separator hp
          obtain ⟨s₁, h₁, hs₁, hd₁⟩ := travels_of_separator hs hd shows
          obtain ⟨s', after, batches, h', hs', hd'⟩ := ih hs₁ hd₁
          exact ⟨s', after, _, h₁.trans h', hs', hd'⟩

/-- At the end of the script the visits held make the last batch. -/
theorem collect_eq_delivered {before : List Visit} (hs : s.Before o w [])
    (hd : Holds o s before) : s.collect.1 = .ok (Segment.delivered o before []) := by
  rw [(collect_of_end hs).1, Segment.delivered_nil, hd]

end BatchStream

/-! ### Whole scripts -/

/-- A passage to where reading stops says what a script is split into, or why it is not split. -/
theorem split_of_halt {o : Options} {script : String} {w : Bool} {rest : List Char}
    {pieces : List Piece} {fault : Option Fault}
    (h : Passage o false script.toList pieces w rest) : Halt o w rest fault →
    course o script = Visit.ofPieces {} pieces ∧
      split o script =
        match fault with
        | none => .ok ((segments o script).filterMap (Segment.batch? o))
        | some fault =>
          .error (.malformed
            (fault.malformed (({} : Position).after (sources pieces)) rest)) := by
  intro hh
  obtain ⟨s', after, batches, ht, hs', hd'⟩ :=
    BatchStream.travels_of_passage h (BatchStream.before_ofString o script)
      (show BatchStream.Holds o (.ofString o script) [] from rfl)
  have hvisits : course o script = Visit.ofPieces {} pieces ++ s'.visits := ht.visits
  have hsplit : split o script = s'.collect.1.map (batches ++ ·) := ht.collect
  cases hh with
  | finished =>
      rw [(BatchStream.collect_of_end hs').2, List.append_nil] at hvisits
      refine ⟨hvisits, ?_⟩
      have hlast := ht.delivered []
      rw [List.append_nil] at hlast
      rw [hsplit, BatchStream.collect_eq_delivered hs' hd', segments, hvisits]
      exact congrArg Except.ok hlast.symm
  | fault shows =>
      obtain ⟨hend, hv⟩ := BatchStream.collect_of_fault hs' shows
      rw [hv, List.append_nil] at hvisits
      refine ⟨hvisits, ?_⟩
      rw [hsplit, hend, ht.position]
      rfl

/-- A script that can be split is split along a passage to its end. -/
theorem passage_of_split {o : Options} {script : String} {batches : List Batch}
    (h : split o script = .ok batches) :
    ∃ pieces w, Passage o false script.toList pieces w [] ∧
      course o script = Visit.ofPieces {} pieces ∧
      batches = (segments o script).filterMap (Segment.batch? o) := by
  obtain ⟨pieces, w, rest, fault, hp, hh⟩ := exists_passage o false script.toList
  obtain ⟨hcourse, hsplit⟩ := split_of_halt hp hh
  rw [h] at hsplit
  cases hh with
  | finished => exact ⟨pieces, w, hp, hcourse, Except.ok.inj hsplit⟩
  | fault shows => cases hsplit

/-- The regions of a script whose pieces are known. -/
theorem course_of_pieces? {o : Options} {script : String} {limit : Nat} {pieces : List Piece}
    (h : pieces? o limit false script.toList = some pieces) :
    course o script = Visit.ofPieces {} pieces := by
  obtain ⟨w, hp⟩ := passage_of_pieces? h
  exact (split_of_halt hp .finished).1

/-- The batches of a script whose pieces are known. -/
theorem split_of_pieces? {o : Options} {script : String} {limit : Nat} {pieces : List Piece}
    (h : pieces? o limit false script.toList = some pieces) :
    split o script = .ok (Segment.delivered o [] (Visit.ofPieces {} pieces)) := by
  obtain ⟨w, hp⟩ := passage_of_pieces? h
  rw [(split_of_halt hp .finished).2, segments, course_of_pieces? h]
  rfl

end BatchScript
