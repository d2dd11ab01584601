import BatchScript.Proofs.Streaming
import Mathlib.Data.List.Flatten

/-!
# Lines of batches

A draft holds characters of the script, each copied from its place. The line of the draft is the
line of the first of them that is not blank. So it is in every state that a stream gets to, and so
it stays when the draft becomes a batch: a batch never lacks a line, and its line is that of its
first character that is not blank. Comments count if they are kept, and do not if they are dropped.

## Main results

* `line_foldl_copy` — the line of a draft is that of its first character that is not blank.
* `BatchStream.Reaches.standing` — in every state that a stream gets to, it stands behind a passage
  and the draft holds regions of it.
* `pairwise_lines_deliver` — batches are delivered with ever lower lines of the script.
* `attributed_of_reaches` — where the text of drafts and batches comes from.
-/

namespace BatchScript

/-! ### Characters and their places -/

/-- The characters of a text that begins at a position, each with its place. -/
def stamp : Position → List Char → List (Char × Position)
  | _, [] => []
  | p, c :: text => (c, p) :: stamp (p.advance c) text

theorem stamp_append (p : Position) (s t : List Char) :
    stamp p (s ++ t) = stamp p s ++ stamp (p.after s) t := by
  induction s generalizing p with
  | nil => rfl
  | cons c s ih => simp [stamp, ih]

@[simp] theorem map_fst_stamp (p : Position) (text : List Char) :
    (stamp p text).map Prod.fst = text := by
  induction text generalizing p with
  | nil => rfl
  | cons c text ih => simp [stamp, ih]

/-- A character stands behind the text before it. -/
theorem exists_of_mem_stamp {p q : Position} {c : Char} {text : List Char}
    (h : (c, q) ∈ stamp p text) :
    ∃ before behind, text = before ++ c :: behind ∧ q = p.after before := by
  induction text generalizing p with
  | nil => cases h
  | cons d text ih =>
      rcases List.mem_cons.1 h with h | h
      · cases h
        exact ⟨[], text, rfl, rfl⟩
      · obtain ⟨before, behind, rfl, rfl⟩ := ih h
        exact ⟨d :: before, behind, rfl, rfl⟩

/-- The line of the first character that is not blank. -/
def firstLine? (characters : List (Char × Position)) : Option Nat :=
  (characters.find? fun e => !isBlank e.1).map fun e => e.2.line

theorem firstLine?_append (s t : List (Char × Position)) :
    firstLine? (s ++ t) = (firstLine? s <|> firstLine? t) := by
  rw [firstLine?, List.find?_append]
  cases h : s.find? fun e => !isBlank e.1 <;> simp [firstLine?, h]

theorem firstLine?_eq_none_iff {characters : List (Char × Position)} :
    firstLine? characters = none ↔ ∀ c ∈ characters.map Prod.fst, isBlank c = true := by
  simp [firstLine?]

/-! ### What regions add to a draft -/

/-- The characters that a region read adds to a draft, each with its place in the script. A comment
that is dropped adds none, and neither does a separator statement. -/
def Visit.origins (keepComments : Bool) (visit : Visit) : List (Char × Position) :=
  match visit.region with
  | .comment _ => if keepComments then stamp visit.position visit.text else []
  | .separator _ => []
  | _ => stamp visit.position visit.text

/-- The characters that regions read add to a draft together. -/
def origins (keepComments : Bool) (visits : List Visit) : List (Char × Position) :=
  visits.flatMap (Visit.origins keepComments)

/-- The visit that a piece makes at a position. -/
def Visit.ofPiece (p : Position) (piece : Piece) : Visit :=
  { position := p, region := piece.region, text := piece.source }

/-- What a piece adds to a draft, character by character. -/
theorem map_fst_origins (keepComments : Bool) (p : Position) (piece : Piece) :
    ((Visit.ofPiece p piece).origins keepComments).map Prod.fst =
      (piece.region.copied keepComments).toList := by
  cases piece with
  | comment text =>
      cases keepComments <;>
        simp [Visit.ofPiece, Visit.origins, Piece.region, Piece.source, Region.copied]
  | _ => simp [Visit.ofPiece, Visit.origins, Piece.region, Piece.source, Region.copied]

/-- A piece is copied from where it stands, or not at all. -/
theorem origins_eq_or (keepComments : Bool) (p : Position) (piece : Piece) :
    (Visit.ofPiece p piece).origins keepComments = [] ∨
      piece.isSeparator = false ∧
        (Visit.ofPiece p piece).origins keepComments = stamp p piece.source := by
  cases piece with
  | comment text =>
      cases keepComments with
      | false => exact .inl rfl
      | true => exact .inr ⟨rfl, rfl⟩
  | separator count text => exact .inl rfl
  | _ => exact .inr ⟨rfl, rfl⟩

/-- What pieces add to drafts stands in the script in the same order. -/
theorem origins_sublist_stamp (keepComments : Bool) (p : Position) (pieces : List Piece) :
    (origins keepComments (Visit.ofPieces p pieces)).Sublist (stamp p (sources pieces)) := by
  induction pieces generalizing p with
  | nil => exact .slnil
  | cons piece pieces ih =>
      have hpiece : ((Visit.ofPiece p piece).origins keepComments).Sublist
          (stamp p piece.source) := by
        rcases origins_eq_or keepComments p piece with h | ⟨-, h⟩
        · rw [h]
          exact List.nil_sublist _
        · rw [h]
      rw [sources_cons, stamp_append]
      exact hpiece.append (ih (p.after piece.source))

/-- The line of the first character that is not blank is where the piece begins: no piece of text
has blanks in front of such a character. -/
theorem blank_or_head_of_shows {o : Options} {w : Bool} {text rest : List Char} {piece : Piece}
    (h : Outlook.Shows o w text (.piece piece rest)) (hp : piece.isSeparator = false) :
    (∀ c ∈ piece.source, isBlank c = true) ∨ ∃ c ∈ piece.source.head?, isBlank c = false := by
  cases h with
  | @comment first rest n hh =>
      obtain ⟨m, rfl⟩ : ∃ m, n = m + 1 :=
        ⟨n - 1, by have := (Hiding.bounds_of_comment hh).1; omega⟩
      exact .inr ⟨first, rfl, Hiding.isBlank_of_comment hh⟩
  | @quoted first rest n hh =>
      obtain ⟨m, rfl⟩ : ∃ m, n = m + 1 :=
        ⟨n - 1, by have := (Hiding.bounds_of_quoted hh).1; omega⟩
      exact .inr ⟨first, rfl, Hiding.isBlank_of_quoted hh⟩
  | separator => cases hp
  | @blanks first rest hh hw hv hl =>
      refine .inl fun c hc => isBlank_of_isLinear ?_
      exact List.all_eq_true.1 (List.all_takeWhile (l := first :: rest)) c hc
  | @word first rest | @ordinary first rest =>
      cases hb : isBlank first with
      | true => exact .inl fun c hc => by rwa [List.mem_singleton.1 hc]
      | false => exact .inr ⟨first, rfl, hb⟩

namespace Visit

/-- A region read whose copy can be told from its places: the copy is made of their characters, and
if it is not blank the first character that is not stands where the region begins. -/
structure Placed (keepComments : Bool) (visit : Visit) : Prop where
  copied : (visit.origins keepComments).map Prod.fst = (visit.region.copied keepComments).toList
  line : firstLine? (visit.origins keepComments) =
    if allBlank (visit.region.copied keepComments) then none else some visit.position.line

theorem placed_of_shows {o : Options} {w : Bool} {text rest : List Char} {piece : Piece}
    (h : Outlook.Shows o w text (.piece piece rest)) (keepComments : Bool) (p : Position) :
    (ofPiece p piece).Placed keepComments := by
  have hcopied := map_fst_origins keepComments p piece
  refine ⟨hcopied, ?_⟩
  split
  · rename_i hblank
    rw [firstLine?_eq_none_iff, hcopied]
    exact List.all_eq_true.1 hblank
  · rename_i hblank
    rcases origins_eq_or keepComments p piece with hnil | ⟨hp, hstamp⟩
    · refine absurd ?_ hblank
      rw [hnil] at hcopied
      simp only [ofPiece, allBlank, ← hcopied]
      rfl
    · rw [hstamp, map_fst_stamp] at hcopied
      rcases blank_or_head_of_shows h hp with hall | ⟨c, hc, hnot⟩
      · refine absurd ?_ hblank
        simp only [ofPiece, allBlank, ← hcopied]
        exact List.all_eq_true.2 hall
      · obtain ⟨tail, htail⟩ := List.head?_eq_some_iff.1 hc
        rw [hstamp, htail]
        simp [firstLine?, stamp, hnot, ofPiece]

theorem placed_of_passage {o : Options} {w w' : Bool} {text rest : List Char}
    {pieces : List Piece} (h : Passage o w text pieces w' rest) (keepComments : Bool)
    (p : Position) : ∀ visit ∈ ofPieces p pieces, visit.Placed keepComments := by
  induction h generalizing p with
  | stay => exact fun _ hv => nomatch hv
  | step shows _ ih => exact List.forall_mem_cons.2 ⟨placed_of_shows shows _ p, ih _⟩

end Visit

/-- The text of a draft is made of the characters that the regions in it add. -/
theorem map_fst_foldl_copy {keepComments : Bool} {visits : List Visit} (d : Draft)
    (h : ∀ visit ∈ visits, visit.Placed keepComments) :
    (visits.foldl (Segment.copy keepComments) d).text.toList =
      d.text.toList ++ (origins keepComments visits).map Prod.fst := by
  induction visits generalizing d with
  | nil => simp [origins]
  | cons visit visits ih =>
      obtain ⟨hvisit, hvisits⟩ := List.forall_mem_cons.1 h
      rw [List.foldl_cons, ih _ hvisits, Segment.copy, Draft.text_add, String.toList_append,
        ← hvisit.copied]
      simp [origins]

/-- The line of a draft is that of its first character that is not blank. -/
theorem line_foldl_copy {keepComments : Bool} {visits : List Visit} (d : Draft)
    (h : ∀ visit ∈ visits, visit.Placed keepComments) :
    (visits.foldl (Segment.copy keepComments) d).line =
      (d.line <|> firstLine? (origins keepComments visits)) := by
  induction visits generalizing d with
  | nil => simp [origins, firstLine?]
  | cons visit visits ih =>
      obtain ⟨hvisit, hvisits⟩ := List.forall_mem_cons.1 h
      have hcons : origins keepComments (visit :: visits) =
          visit.origins keepComments ++ origins keepComments visits := rfl
      rw [List.foldl_cons, ih _ hvisits, hcons, firstLine?_append, hvisit.line, Segment.copy,
        Draft.add]
      cases d.line <;> rfl

/-! ### The states of a stream -/

namespace BatchStream

/-- The regions of text in the draft once a step has read a region, if it has read one. -/
def hold (held : List Visit) : Option Visit → List Visit
  | none => held
  | some visit => if visit.isStatement then [] else held ++ [visit]

/-- The states that a stream over a script gets to, step by step, with the regions of text in the
draft. A stream that has ended or failed takes no further step. -/
inductive Reaches (o : Options) (script : String) : BatchStream → List Visit → Prop
  | start : Reaches o script (ofString o script) []
  | more {s s' : BatchStream} {held : List Visit} (reached : Reaches o script s held)
      (goesOn : s.finished = false) (step : s.step = .more s') :
      Reaches o script s' (hold held s.visit?)
  | batch {s s' : BatchStream} {held : List Visit} {b : Batch} (reached : Reaches o script s held)
      (goesOn : s.finished = false) (step : s.step = .batch b s') : Reaches o script s' []
  | done {s s' : BatchStream} {held : List Visit} (reached : Reaches o script s held)
      (goesOn : s.finished = false) (step : s.step = .done s') : Reaches o script s' []
  | failed {s s' : BatchStream} {held : List Visit} {failure : Failure}
      (reached : Reaches o script s held) (goesOn : s.finished = false)
      (step : s.step = .failed failure s') : Reaches o script s' held

/-- Where a stream stands in the middle of its script: behind a passage, some regions of which make
up its draft. -/
structure Standing (o : Options) (script : String) (s : BatchStream) (held : List Visit) :
    Prop where
  exists_passage : ∃ pieces w rest, Passage o false script.toList pieces w rest ∧
    held.Sublist (Visit.ofPieces {} pieces) ∧
    (s.finished = false → s.Before o w rest ∧
      s.reading.cursor.position = ({} : Position).after (sources pieces))
  holds : Holds o s held

variable {o : Options} {script : String} {s s' : BatchStream} {held : List Visit}

/-- What a draft holds behind a piece. -/
theorem holds_absorb {piece : Piece} (hd : Holds o s held) (p : Position) :
    (s.draft.absorb o p.line piece).1 =
      (hold held (some (Visit.ofPiece p piece))).foldl (Segment.copy o.keepComments) {} := by
  cases hp : piece.isSeparator with
  | true =>
      obtain ⟨count, statement, rfl⟩ := Piece.eq_separator hp
      rfl
  | false =>
      have hstatement : (Visit.ofPiece p piece).isStatement = false := by
        cases piece with
        | separator count text => cases hp
        | _ => rfl
      rw [Draft.absorb_text hp, hold, hstatement, hd]
      simp [Segment.copy, Visit.ofPiece]

/-- The regions held behind a piece stand in the passage with the piece. -/
theorem hold_sublist {pieces : List Piece} (h : held.Sublist (Visit.ofPieces {} pieces))
    (piece : Piece) :
    (hold held (some (Visit.ofPiece (({} : Position).after (sources pieces)) piece))).Sublist
      (Visit.ofPieces {} (pieces ++ [piece])) := by
  rw [Visit.ofPieces_append, hold]
  split
  · exact List.nil_sublist _
  · exact h.append (List.Sublist.refl _)

/-- What the next step of a stream comes to, and where the stream stands then. -/
theorem Standing.step_cases (h : Standing o script s held) (hf : s.finished = false) :
    (∃ s', s.step = .more s' ∧ Standing o script s' (hold held s.visit?)) ∨
      (∃ b s', s.step = .batch b s' ∧ Standing o script s' []) ∨
      (∃ s', s.step = .done s' ∧ Standing o script s' []) ∨
      ∃ failure s', s.step = .failed failure s' ∧ Standing o script s' held := by
  obtain ⟨⟨pieces, w, rest, hp, hsub, hopen⟩, hd⟩ := h
  obtain ⟨hs, hpos⟩ := hopen hf
  have hshows := Outlook.shows_ofText o w rest
  cases hk : Outlook.ofText o w rest with
  | piece piece rest' =>
      rw [hk] at hshows
      obtain ⟨-, -, hvisit, -⟩ := step_of_piece hs hshows
      obtain ⟨s', hmoves, hs', hpos', hd'⟩ := moves_of_piece hs hshows
      have hheld : s'.draft =
          (hold held s.visit?).foldl (Segment.copy o.keepComments) {} := by
        rw [hd', hvisit]
        exact holds_absorb hd _
      have hstanding : Standing o script s' (hold held s.visit?) := by
        refine ⟨⟨pieces ++ [piece], _, rest', hp.append (.step hshows (.stay _ _)), ?_, fun _ =>
          ⟨hs', ?_⟩⟩, hheld⟩
        · rw [hvisit, hpos]
          exact hold_sublist hsub piece
        · rw [hpos', hpos, sources_append, Position.after_append, sources_cons, sources_nil,
            List.append_nil]
      cases hb : (s.draft.absorb o s.reading.cursor.position.line piece).2 with
      | none =>
          rw [hb] at hmoves
          exact .inl ⟨s', hmoves, hstanding⟩
      | some b =>
          rw [hb] at hmoves
          have hstatement : hold held s.visit? = [] := by
            obtain ⟨count, statement, rfl⟩ := Piece.eq_separator (Draft.absorb_eq_some hb).1
            rw [hvisit]
            rfl
          exact .inr (.inl ⟨b, s', hmoves, hstatement ▸ hstanding⟩)
  | finished =>
      rw [hk] at hshows
      cases hshows
      cases hb : s.draft.finish? o .once with
      | none =>
          refine .inr (.inr (.inl ⟨_, step_of_blank_end hs hb, ?_⟩))
          exact ⟨⟨pieces, w, [], hp, List.nil_sublist _, fun h => nomatch h⟩, rfl⟩
      | some b =>
          obtain ⟨s', hmoves, hs', hd', hreading⟩ := moves_of_end hs hb
          have hpos' : s'.reading.cursor.position = s.reading.cursor.position := by
            rw [hreading]
            rfl
          refine .inr (.inl ⟨b, s', hmoves, ?_⟩)
          refine ⟨⟨pieces, w, [], hp, List.nil_sublist _, fun _ => ⟨?_, hpos'.trans hpos⟩⟩, hd'⟩
          rwa [hs.afterWord] at hs'
  | fault fault =>
      rw [hk] at hshows
      obtain ⟨r, -, hstep, -⟩ := step_of_fault hs hshows
      refine .inr (.inr (.inr ⟨_, _, hstep, ?_⟩))
      exact ⟨⟨pieces, w, rest, hp, hsub, fun h => nomatch h⟩, hd⟩

/-- In every state that a stream gets to it stands behind a passage. -/
theorem Reaches.standing (h : Reaches o script s held) : Standing o script s held := by
  induction h with
  | start =>
      exact ⟨⟨[], false, script.toList, .stay _ _, .slnil, fun _ =>
        ⟨before_ofString o script, rfl⟩⟩, rfl⟩
  | more _ goesOn step ih =>
      obtain ⟨s', hstep, h⟩ | ⟨b, s', hstep, -⟩ | ⟨s', hstep, -⟩ | ⟨failure, s', hstep, -⟩ :=
        ih.step_cases goesOn <;> cases step.symm.trans hstep
      exact h
  | batch _ goesOn step ih =>
      obtain ⟨s', hstep, -⟩ | ⟨b, s', hstep, h⟩ | ⟨s', hstep, -⟩ | ⟨failure, s', hstep, -⟩ :=
        ih.step_cases goesOn <;> cases step.symm.trans hstep
      exact h
  | done _ goesOn step ih =>
      obtain ⟨s', hstep, -⟩ | ⟨b, s', hstep, -⟩ | ⟨s', hstep, h⟩ | ⟨failure, s', hstep, -⟩ :=
        ih.step_cases goesOn <;> cases step.symm.trans hstep
      exact h
  | failed _ goesOn step ih =>
      obtain ⟨s', hstep, -⟩ | ⟨b, s', hstep, -⟩ | ⟨s', hstep, -⟩ | ⟨failure, s', hstep, h⟩ :=
        ih.step_cases goesOn <;> cases step.symm.trans hstep
      exact h

/-! ### The batches that a stream hands out -/

/-- Closing the draft hands it out. -/
theorem finish?_of_close {count : RepeatCount} {b : Batch} (h : s.close count = (some b, s')) :
    s.draft.finish? s.options count = some b := by
  rw [close] at h
  split at h
  · rename_i hb
    cases h
    exact hb
  · cases h

/-- A batch that a step completes is the draft, closed with some count. -/
theorem finish?_of_step {b : Batch} (h : s.step = .batch b s') :
    ∃ count, s.draft.finish? s.options count = some b := by
  rw [step] at h
  split at h
  · rw [conclude] at h
    split at h
    · rename_i hc
      cases h
      exact ⟨_, finish?_of_close hc⟩
    · cases h
  · split at h
    · obtain ⟨count, -, hc⟩ := close_of_absorb h
      have hb := finish?_of_close hc
      exact ⟨count, hb⟩
    · cases h

theorem finished_close (s : BatchStream) (count : RepeatCount) :
    (s.close count).2.finished = s.finished := by
  rw [close]
  split <;> rfl

/-- A stream that goes on has not ended. -/
theorem finished_of_more (h : s.step = .more s') : s'.finished = s.finished := by
  rw [step] at h
  split at h
  · rw [conclude] at h
    split at h <;> cases h
  · split at h
    · obtain ⟨count, -, hc⟩ | ⟨d, w, rfl⟩ := close_or_copy_of_absorb h
      · exact (congrArg (·.2.finished) hc).symm.trans (finished_close _ _)
      · rfl
    · cases h

/-- The batches that a stream gives to so many calls. -/
def emitted (s : BatchStream) (calls : Nat) : List Batch :=
  (s.take calls).filterMap fun item => item.bind Except.toOption

/-- What the next call does to a stream that gets to a state: it gets to another one, and a batch is
given where a step completes it. -/
theorem Reaches.run (h : Reaches o script s held) (hf : s.finished = false) :
    (∃ held', Reaches o script s.run.2 held') ∧
      ∀ b, s.run.1 = some (.ok b) →
        ∃ t t' held', Reaches o script t held' ∧ t.finished = false ∧ t.step = .batch b t' := by
  fun_induction BatchStream.run s generalizing held with
  | case1 s rest hs ih => exact ih (.more h hf hs) ((finished_of_more hs).trans hf)
  | case2 s b rest hs =>
      refine ⟨⟨[], .batch h hf hs⟩, fun b' hb => ?_⟩
      cases hb
      exact ⟨s, rest, held, h, hf, hs⟩
  | case3 s rest hs => exact ⟨⟨[], .done h hf hs⟩, fun b hb => by cases hb⟩
  | case4 s failure rest hs => exact ⟨⟨held, .failed h hf hs⟩, fun b hb => by cases hb⟩

theorem Reaches.next (h : Reaches o script s held) :
    (∃ held', Reaches o script s.next.2 held') ∧
      ∀ b, s.next.1 = some (.ok b) →
        ∃ t t' held', Reaches o script t held' ∧ t.finished = false ∧ t.step = .batch b t' := by
  rw [BatchStream.next]
  split
  · exact ⟨⟨held, h⟩, fun b hb => by cases hb⟩
  · rename_i hf
    exact h.run (by simpa using hf)

/-- The states that calls lead to are states that a stream gets to. -/
theorem Reaches.drop (h : Reaches o script s held) (calls : Nat) :
    ∃ held', Reaches o script (s.drop calls) held' := by
  induction calls generalizing s held with
  | zero => exact ⟨held, h⟩
  | succ calls ih =>
      obtain ⟨held', h'⟩ := h.next.1
      exact ih h'

/-- A batch given is completed by a step in a state that the stream gets to. -/
theorem Reaches.emitted (h : Reaches o script s held) {calls : Nat} {b : Batch}
    (hb : b ∈ s.emitted calls) :
    ∃ t t' held', Reaches o script t held' ∧ t.finished = false ∧ t.step = .batch b t' := by
  induction calls generalizing s held with
  | zero => cases hb
  | succ calls ih =>
      obtain ⟨⟨held', h'⟩, hnext⟩ := h.next
      rw [BatchStream.emitted, take_succ, List.filterMap_cons] at hb
      split at hb
      · exact ih h' hb
      · rename_i b' hitem
        rcases List.mem_cons.1 hb with rfl | hb
        · refine hnext b ?_
          rcases hn : s.next.1 with _ | failure | b' <;> simp_all [Except.toOption]
        · exact ih h' hb

end BatchStream

/-! ### The lines of the batches -/

/-- The line of a batch is that of the draft, if the draft knows its line. -/
theorem Draft.Marked.finish? {o : Options} {d : Draft} (hd : d.Marked) {count : RepeatCount}
    {b : Batch} (h : d.finish? o count = some b) :
    allBlank d.text = false ∧ d.line = some b.line ∧ b = .finish o d.text count b.line := by
  rw [Draft.finish?] at h
  split at h
  · cases h
  · rename_i hblank
    have hblank := Bool.eq_false_iff.2 hblank
    obtain ⟨l, hl⟩ : ∃ l, d.line = some l := by
      rw [← Option.ne_none_iff_exists']
      intro hnone
      rw [hd hnone] at hblank
      cases hblank
    cases h
    rw [hl, Option.getD_some, Batch.line_finish]
    exact ⟨hblank, rfl, rfl⟩

namespace Draft

/-- A draft that knows its line, and whose line is between two others. -/
structure Within (d : Draft) (top bottom : Nat) : Prop where
  marked : d.Marked
  le : top ≤ bottom
  line : ∀ l, d.line = some l → top ≤ l ∧ l ≤ bottom

theorem within_empty {top bottom : Nat} (h : top ≤ bottom) : Within {} top bottom :=
  ⟨marked_empty, h, fun _ hl => nomatch hl⟩

theorem Within.lower {d : Draft} {top bottom next : Nat} (h : d.Within top bottom)
    (hnext : bottom ≤ next) : d.Within top next :=
  ⟨h.marked, Nat.le_trans h.le hnext, fun l hl =>
    ⟨(h.line l hl).1, Nat.le_trans (h.line l hl).2 hnext⟩⟩

theorem Within.add {d : Draft} {top bottom : Nat} (h : d.Within top bottom) (piece : String) :
    (d.add bottom piece).Within top bottom := by
  refine ⟨h.marked.add bottom piece, h.le, fun l hl => ?_⟩
  rcases hd : d.line with _ | k
  · obtain ⟨-, rfl⟩ : allBlank piece = false ∧ bottom = l := by simpa [Draft.add, hd] using hl
    exact ⟨h.le, Nat.le_refl _⟩
  · rw [line_add_of_some hd] at hl
    exact h.line l (hd.trans hl)

theorem Within.finish? {o : Options} {d : Draft} {top bottom : Nat} (h : d.Within top bottom)
    {count : RepeatCount} {b : Batch} (hb : d.finish? o count = some b) :
    top ≤ b.line ∧ b.line ≤ bottom :=
  h.line _ (h.marked.finish? hb).2.1

end Draft

/-- Batches are delivered with ever lower lines of the script, and what is left of the draft, like
what is still to be read, is not above the last of them. -/
theorem pairwise_lines_deliver {o : Options} {d : Draft} {p : Position} {top : Nat}
    (h : d.Within top p.line) (pieces : List Piece) :
    ∃ last, (deliver o d p pieces).1.Within last (p.after (sources pieces)).line ∧
      (top :: ((deliver o d p pieces).2.map Batch.line ++ [last])).Pairwise (· ≤ ·) := by
  induction pieces generalizing d p top with
  | nil => exact ⟨top, h, by simp [deliver]⟩
  | cons piece pieces ih =>
      have hnext : p.line ≤ (p.after piece.source).line := by
        rw [Position.line_after]
        exact Nat.le_add_right _ _
      rw [sources_cons, Position.after_append]
      cases hp : piece.isSeparator with
      | false =>
          simp only [deliver, Draft.absorb_text hp, Option.toList_none, List.nil_append]
          exact ih ((h.add _).lower hnext)
      | true =>
          obtain ⟨count, statement, rfl⟩ := Piece.eq_separator hp
          simp only [deliver, Draft.absorb]
          cases hb : d.finish? o count with
          | none => exact ih (Draft.within_empty (Nat.le_trans h.le hnext))
          | some b =>
              obtain ⟨htop, hbottom⟩ := h.finish? hb
              obtain ⟨last, hlast, hlines⟩ :=
                ih (Draft.within_empty (Nat.le_trans hbottom hnext))
              refine ⟨last, hlast, List.pairwise_cons.2 ⟨fun l hl => ?_, hlines⟩⟩
              rcases List.mem_cons.1 hl with rfl | hl
              · exact htop
              · exact Nat.le_trans htop ((List.pairwise_cons.1 hlines).1 l hl)

/-- With the batch that the end of the script closes the lines never go up either. -/
theorem pairwise_lines_delivery (o : Options) (pieces : List Piece) :
    ((delivery o {} {} pieces).map Batch.line ++
      [(({} : Position).after (sources pieces)).line]).Pairwise (· ≤ ·) := by
  obtain ⟨last, hlast, hlines⟩ :=
    pairwise_lines_deliver (o := o) (p := {}) (Draft.within_empty (Nat.le_refl 1)) pieces
  obtain ⟨hsorted, -, hle⟩ := List.pairwise_append.1 (List.pairwise_cons.1 hlines).2
  have hle (l : Nat) (hl : l ∈ (deliver o {} {} pieces).2.map Batch.line) : l ≤ last :=
    hle l hl last (List.mem_singleton_self last)
  rw [delivery, List.map_append, List.append_assoc]
  cases hb : (deliver o {} {} pieces).1.finish? o .once with
  | none =>
      refine List.pairwise_append.2 ⟨hsorted, by simp, fun l hl k hk => ?_⟩
      obtain rfl : k = _ := by simpa using hk
      exact Nat.le_trans (hle l hl) hlast.le
  | some b =>
      obtain ⟨hlow, hhigh⟩ := hlast.finish? hb
      refine List.pairwise_append.2 ⟨hsorted, by simpa using hhigh, fun l hl k hk => ?_⟩
      have hk : k = b.line ∨ k = (({} : Position).after (sources pieces)).line := by
        simpa using hk
      have := hle l hl
      omega

namespace BatchStream

/-- The batches given to so many calls are those among the outcomes, as far as they are given. -/
theorem filterMap_given_sublist (items : List (Except Failure Batch)) (calls : Nat) :
    ((given items calls).filterMap fun item => item.bind Except.toOption).Sublist
      (items.filterMap Except.toOption) := by
  induction calls generalizing items with
  | zero => cases items <;> exact List.nil_sublist _
  | succ calls ih =>
      cases items with
      | nil => exact ih []
      | cons item items =>
          have hrest := ih items
          cases item with
          | error failure => exact hrest
          | ok b => exact hrest.cons_cons b

theorem filterMap_given_length (batches : List Batch) :
    ((given (batches.map .ok) batches.length).filterMap fun item =>
      item.bind Except.toOption) = batches := by
  have hgiven := given_length (batches.map (.ok : Batch → Except Failure Batch))
  rw [List.length_map] at hgiven
  rw [hgiven]
  simp [List.filterMap_map, Function.comp_def, Except.toOption]

/-- The batches among the outcomes are delivered. -/
theorem filterMap_outcomes_sublist (o : Options) (d : Draft) (p : Position) (pieces : List Piece)
    (rest : List Char) (fault : Option Fault) :
    ((outcomes o d p pieces rest fault).filterMap Except.toOption).Sublist
      (delivery o d p pieces) := by
  have hok (batches : List Batch) :
      (batches.map .ok : List (Except Failure Batch)).filterMap Except.toOption = batches := by
    simp [List.filterMap_map, Function.comp_def, Except.toOption]
  cases fault with
  | none => rw [outcomes, hok]
  | some fault =>
      rw [outcomes, List.filterMap_append, hok, delivery]
      exact (List.Sublist.refl _).append (List.nil_sublist _)

end BatchStream

/-! ### Where lines come from -/

/-- Where the text of a draft comes from: every character of it from a place in the script, and the
line from the first that is not blank. -/
structure Attributed (o : Options) (script : String) (d : Draft) (held : List Visit) : Prop where
  /-- The draft is made of characters added by the regions that it holds. -/
  text_eq : (origins o.keepComments held).map Prod.fst = d.text.toList
  /-- They stand in the script, in the same order. -/
  placed : (origins o.keepComments held).Sublist (stamp {} script.toList)
  /-- A line is known when not all of them are blank. -/
  marked_iff : d.line.isSome = true ↔ ∃ c ∈ d.text.toList, isBlank c = false
  /-- It is counted in line feeds before the first that is not. -/
  line_eq : ∀ l, d.line = some l → ∃ blanks c others before behind,
    origins o.keepComments held = blanks ++ (c, ({} : Position).after before) :: others ∧
      (∀ e ∈ blanks, isBlank e.1 = true) ∧ isBlank c = false ∧
      script.toList = before ++ c :: behind ∧ l = 1 + before.count '\n'

theorem BatchStream.Standing.attributed {o : Options} {script : String} {s : BatchStream}
    {held : List Visit} (h : Standing o script s held) : Attributed o script s.draft held := by
  obtain ⟨⟨pieces, w, rest, hp, hsub, -⟩, hd⟩ := h
  have hplaced : ∀ visit ∈ held, visit.Placed o.keepComments := fun visit hv =>
    Visit.placed_of_passage hp _ _ visit (hsub.subset hv)
  have htext : (origins o.keepComments held).map Prod.fst = s.draft.text.toList := by
    rw [hd, map_fst_foldl_copy {} hplaced]
    rfl
  have hline : s.draft.line = firstLine? (origins o.keepComments held) := by
    rw [hd, line_foldl_copy {} hplaced]
    rfl
  have hstamp : (origins o.keepComments held).Sublist (stamp {} script.toList) := by
    rw [hp.text_eq, stamp_append]
    refine List.Sublist.trans ?_ (List.sublist_append_left _ _)
    exact (hsub.flatMap _).trans (origins_sublist_stamp o.keepComments {} pieces)
  refine ⟨htext, hstamp, ?_, fun l hl => ?_⟩
  · have hnone := @firstLine?_eq_none_iff (origins o.keepComments held)
    rw [← hline, htext] at hnone
    rw [← Option.ne_none_iff_isSome, ne_eq, hnone]
    simp
  · rw [hline, firstLine?, Option.map_eq_some_iff] at hl
    obtain ⟨⟨c, q⟩, hfind, rfl⟩ := hl
    obtain ⟨hc, blanks, others, heq, hblanks⟩ := List.find?_eq_some_iff_append.1 hfind
    obtain ⟨before, behind, hscript, rfl⟩ :=
      exists_of_mem_stamp (hstamp.subset (heq ▸ List.mem_append_right blanks List.mem_cons_self))
    refine ⟨blanks, c, others, before, behind, heq, ?_, ?_, hscript, ?_⟩
    · simpa using hblanks
    · simpa using hc
    · rw [Position.line_after]

/-- **Attribution.** In every state that a stream over a script gets to, the draft knows a line
exactly if it is not blank, and the line is that of the place in the script that its first character
not blank is copied from. Every batch given is the draft of such a state, which is not blank, under
its line. The lines of the batches never go up, and none is below the last line of the script. -/
theorem attributed_of_reaches (o : Options) (script : String) :
    (∀ s held, BatchStream.Reaches o script s held → Attributed o script s.draft held) ∧
      (∀ calls, ∃ held,
        BatchStream.Reaches o script ((BatchStream.ofString o script).drop calls) held) ∧
      (∀ calls, ∀ b ∈ (BatchStream.ofString o script).emitted calls,
        ∃ s s' held count, BatchStream.Reaches o script s held ∧ s.step = .batch b s' ∧
          allBlank s.draft.text = false ∧ s.draft.line = some b.line ∧
          b = .finish o s.draft.text count b.line) ∧
      (∀ calls,
        (((BatchStream.ofString o script).emitted calls).map Batch.line).Pairwise (· ≤ ·) ∧
          ∀ b ∈ (BatchStream.ofString o script).emitted calls,
            b.line ≤ 1 + script.toList.count '\n') ∧
      ∀ batches, split o script = .ok batches →
        (BatchStream.ofString o script).emitted batches.length = batches := by
  have hattributed : ∀ s held, BatchStream.Reaches o script s held →
      Attributed o script s.draft held := fun s held h => h.standing.attributed
  refine ⟨hattributed, BatchStream.Reaches.start.drop, fun calls b hb => ?_, fun calls => ?_,
    fun batches hsplit => ?_⟩
  · obtain ⟨s, s', held, hreached, hf, hstep⟩ := BatchStream.Reaches.start.emitted hb
    obtain ⟨count, hfinish⟩ := BatchStream.finish?_of_step hstep
    obtain ⟨_, _, _, -, -, hopen⟩ := hreached.standing.exists_passage
    rw [(hopen hf).1.options] at hfinish
    have hmarked : s.draft.Marked := by
      intro hnone
      have hblank := (hattributed s held hreached).marked_iff.not.1 (by simp [hnone])
      rw [allBlank, List.all_eq_true]
      simpa using hblank
    obtain ⟨hblank, hline, hb⟩ := hmarked.finish? hfinish
    exact ⟨s, s', held, count, hreached, hstep, hblank, hline, hb⟩
  · obtain ⟨pieces, w, rest, fault, hp, hh⟩ := exists_passage o false script.toList
    have hsub : ((BatchStream.ofString o script).emitted calls).Sublist
        (delivery o {} {} pieces) := by
      rw [BatchStream.emitted,
        BatchStream.take_of_halt (BatchStream.before_ofString o script) hp hh]
      exact (BatchStream.filterMap_given_sublist _ _).trans
        (BatchStream.filterMap_outcomes_sublist o {} {} pieces rest fault)
    obtain ⟨hsorted, -, hle⟩ := List.pairwise_append.1 (pairwise_lines_delivery o pieces)
    refine ⟨hsorted.sublist (hsub.map _), fun b hb => ?_⟩
    have hbottom := hle b.line (List.mem_map_of_mem (hsub.subset hb)) _ (List.mem_singleton_self _)
    rw [Position.line_after] at hbottom
    rw [hp.text_eq, List.count_append]
    exact Nat.le_trans hbottom (by simp)
  · obtain ⟨pieces, w, hp, rfl⟩ := exists_passage_of_split hsplit
    rw [BatchStream.emitted,
      BatchStream.take_of_halt (BatchStream.before_ofString o script) hp .finished]
    exact BatchStream.filterMap_given_length (delivery o {} {} pieces)

/-- The comment in front of the first batch is dropped, and so the batch is on the line of the
statement behind it; the line feed before the comment stays in its text and does not count. -/
theorem attributed_of_dropped_comment :
    split { repetition := .delegate } "\n/*c*/ a\ngo 2\nb" =
        .ok [⟨"\n a\n", ⟨2, by decide, by decide⟩, 2, false⟩, ⟨"\nb", .once, 4, false⟩] ∧
      ∃ s s' held,
        BatchStream.Reaches { repetition := .delegate } "\n/*c*/ a\ngo 2\nb" s held ∧
        s.step = .batch ⟨"\n a\n", ⟨2, by decide, by decide⟩, 2, false⟩ s' ∧
        s.draft.line = some 2 ∧
        Attributed { repetition := .delegate } "\n/*c*/ a\ngo 2\nb" s.draft held := by
  have hpieces : pieces? { repetition := .delegate } 12 false "\n/*c*/ a\ngo 2\nb".toList =
      some
        [.ordinary '\n', .comment "/*c*/".toList, .blanks " ".toList, .ordinary 'a',
          .ordinary '\n', .separator ⟨2, by decide, by decide⟩ "go 2".toList, .ordinary '\n',
          .ordinary 'b'] := by
    decide +kernel
  have hsplit : split { repetition := .delegate } "\n/*c*/ a\ngo 2\nb" =
      .ok [⟨"\n a\n", ⟨2, by decide, by decide⟩, 2, false⟩, ⟨"\nb", .once, 4, false⟩] := by
    rw [split_of_pieces? hpieces]
    rfl
  obtain ⟨hattributed, -, hgiven, -, hall⟩ :=
    attributed_of_reaches { repetition := .delegate } "\n/*c*/ a\ngo 2\nb"
  have hmem : (⟨"\n a\n", ⟨2, by decide, by decide⟩, 2, false⟩ : Batch) ∈
      (BatchStream.ofString { repetition := .delegate } "\n/*c*/ a\ngo 2\nb").emitted 2 := by
    have hemitted := hall _ hsplit
    rw [List.length_cons, List.length_singleton] at hemitted
    rw [hemitted]
    exact List.mem_cons_self
  obtain ⟨s, s', held, -, hreached, hstep, -, hline, -⟩ := hgiven 2 _ hmem
  exact ⟨hsplit, s, s', held, hreached, hstep, hline, hattributed s held hreached⟩

end BatchScript
