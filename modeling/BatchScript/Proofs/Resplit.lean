import BatchScript.Proofs.KeepComments
import BatchScript.Proofs.Unbroken

/-!
# Splitting batches again

The text of a batch, split again under the same options, is one batch. No separator statement
survives in it: what stood before it and behind it in the script is not there any more, but neither
its first nor its last characters are read as anything else without their neighbours. The loop that
repeats a batch holds no separator either, and a batch in it is read as it is without the loop.

## Main results

* `unbroken_of_mem_bodies` — every body that a script falls into is unbroken.
* `unbroken_wrapRepeat` — and so is the loop around it.
* `split_of_unbroken` — an unbroken text is one batch.
* `split_text_of_mem` — every batch of a script is one batch when it is split again.
-/

namespace BatchScript

/-! ### Bodies -/

/-- A stretch of pieces of text that begins and ends at separator statements, or where the pieces
do. -/
structure IsStretch (pieces before stretch after : List Piece) : Prop where
  eq_append : pieces = before ++ (stretch ++ after)
  isSeparator_eq : ∀ piece ∈ stretch, piece.isSeparator = false
  isSeparator_before : ∀ piece ∈ before.getLast?, piece.isSeparator = true
  isSeparator_after : ∀ piece ∈ after.head?, piece.isSeparator = true

/-- With nothing but text before the first statement, that is the first stretch. -/
theorem IsStretch.first {stretch after : List Piece}
    (hs : ∀ piece ∈ stretch, piece.isSeparator = false)
    (ha : ∀ piece ∈ after.head?, piece.isSeparator = true) :
    IsStretch (stretch ++ after) [] stretch after :=
  ⟨rfl, hs, by simp, ha⟩

/-- Stretches behind a statement are stretches of the whole. -/
theorem IsStretch.behind {pieces before stretch after : List Piece}
    (h : IsStretch pieces before stretch after) (taken : List Piece) (count : RepeatCount)
    (statement : List Char) :
    IsStretch (taken ++ .separator count statement :: pieces)
      (taken ++ .separator count statement :: before) stretch after := by
  refine ⟨?_, h.isSeparator_eq, fun piece hlast => ?_, h.isSeparator_after⟩
  · rw [h.eq_append, List.append_assoc, List.cons_append]
  · rw [List.getLast?_append_of_ne_nil _ (by simp), List.getLast?_cons] at hlast
    cases hb : before.getLast? with
    | none =>
        obtain rfl : _ = piece := by simpa [hb] using hlast
        rfl
    | some last =>
        obtain rfl : last = piece := by simpa [hb] using hlast
        exact h.isSeparator_before last hb

/-- A stretch is read with no word open, up to the end of the script or to a statement. -/
theorem IsStretch.exists_passage {o : Options} {text : List Char} {w : Bool}
    {pieces before stretch after : List Piece} (h : IsStretch pieces before stretch after)
    (hp : Passage o false text pieces w []) :
    ∃ text' w' behind, Passage o false text' stretch w' behind ∧
      (behind = [] ∨ ∃ piece rest, piece.isSeparator = true ∧
        Outlook.Shows o w' behind (.piece piece rest)) := by
  rw [h.eq_append] at hp
  obtain ⟨w₁, text₁, hfirst, hrest⟩ := hp.split
  obtain ⟨w₂, text₂, hmiddle, hlast⟩ := hrest.split
  -- The stretch begins with no word open, at the beginning or behind a statement.
  have hw₁ : w₁ = false := by
    rw [hfirst.endsInWord_eq]
    cases hb : before.getLast? with
    | none => rfl
    | some piece =>
        obtain ⟨count, statement, rfl⟩ := Piece.eq_separator (h.isSeparator_before piece hb)
        rfl
  rw [hw₁] at hmiddle
  refine ⟨text₁, w₂, text₂, hmiddle, ?_⟩
  cases hlast with
  | stay => exact .inl rfl
  | step shows tail => exact .inr ⟨_, _, h.isSeparator_after _ rfl, shows⟩

/-- A body is what a stretch covers. -/
theorem Cut.exists_stretch {body : List Char × RepeatCount} {taken pieces : List Piece}
    (ht : ∀ piece ∈ taken, piece.isSeparator = false)
    (h : body ∈ bodies (ofPieces (sources taken) pieces).1 (ofPieces (sources taken) pieces).2) :
    ∃ before stretch after, IsStretch (taken ++ pieces) before stretch after ∧
      body.1 = sources stretch := by
  induction pieces generalizing taken with
  | nil =>
      obtain rfl : body = (sources taken, .once) := by simpa [ofPieces, bodies] using h
      exact ⟨[], taken, [], .first ht (by simp), rfl⟩
  | cons piece pieces ih =>
      cases hp : piece.isSeparator with
      | false =>
          have hsources : sources taken ++ piece.source = sources (taken ++ [piece]) := by simp
          rw [ofPieces_text hp, hsources] at h
          have hmore : ∀ p ∈ taken ++ [piece], p.isSeparator = false := by
            simpa [or_imp, forall_and, hp] using ht
          simpa using ih hmore h
      | true =>
          obtain ⟨count, statement, rfl⟩ := Piece.eq_separator hp
          simp only [ofPieces, bodies, List.map_cons, List.cons_append, List.mem_cons] at h
          rcases h with rfl | h
          · exact ⟨[], taken, .separator count statement :: pieces, .first ht (by simp [hp]), rfl⟩
          · have hnone : ∀ piece ∈ ([] : List Piece), piece.isSeparator = false := by simp
            obtain ⟨before, stretch, after, hstretch, hbody⟩ := ih hnone h
            exact ⟨_, stretch, after, hstretch.behind taken count statement, hbody⟩

/-- Every body that a script falls into is unbroken. -/
theorem unbroken_of_mem_bodies {o : Options} {text : List Char} {pieces : List Piece} {w : Bool}
    (hg : SeparatesByGo o) (h : Passage o false text pieces w [])
    {body : List Char × RepeatCount}
    (hbody : body ∈ Cut.bodies (Cut.ofPieces [] pieces).1 (Cut.ofPieces [] pieces).2) :
    Unbroken o false body.1 := by
  have hnone : ∀ piece ∈ ([] : List Piece), piece.isSeparator = false := by simp
  obtain ⟨before, stretch, after, hstretch, hsources⟩ := Cut.exists_stretch hnone hbody
  rw [List.nil_append] at hstretch
  obtain ⟨text', w', behind, hpassage, hend⟩ := hstretch.exists_passage h
  rw [hsources]
  exact unbroken_of_passage hg hpassage hstretch.isSeparator_eq hend

/-! ### The repetition loop -/

/-- The loop around an unbroken text is unbroken. -/
theorem unbroken_wrapRepeat {o : Options} {body counter : String} (hg : SeparatesByGo o)
    (hc : counter.toList.all isSilent = true) (h : Unbroken o false body.toList)
    (count : RepeatCount) : Unbroken o false (wrapRepeat body count counter).toList := by
  have hdigits : (Nat.toDigits 10 count.val).all isSilent = true := by
    refine List.all_eq_true.2 fun c hc => isSilent_of_isDigit ?_
    exact Nat.isDigit_of_mem_toDigits (by decide) (by decide) hc
  rw [toList_wrapRepeat]
  refine .append_newline hg (.of_isSilent hg ?_) ?_
  · simp only [List.all_append, hc]
    decide
  refine .append_newline hg (.of_isSilent hg ?_) ?_
  · simp only [List.all_append, hc, hdigits]
    decide
  refine .append_newline hg (.of_isSilent hg (by decide)) ?_
  refine .append_newline hg (h.stripLineBreaks hg) ?_
  refine .append_newline hg (.of_isSilent hg ?_) (.of_isSilent hg (by decide))
  simp only [List.all_append, hc]
  decide

/-- What a batch holds of an unbroken body is unbroken. -/
theorem unbroken_rendered {o : Options} {body : List Char × RepeatCount} (hg : SeparatesByGo o)
    (hc : o.counterVariable.toList.all isSilent = true) (h : Unbroken o false body.1) :
    Unbroken o false (rendered o body).1.toList := by
  rw [← String.toList_ofList (l := body.1)] at h
  rw [rendered]
  split
  · exact unbroken_wrapRepeat hg hc h body.2
  · exact h

/-- And it is not blank if the body is not. -/
theorem allBlank_rendered {o : Options} {body : List Char × RepeatCount}
    (h : isSolid body = true) : allBlank (rendered o body).1 = false := by
  rw [isSolid, Bool.not_eq_true'] at h
  rw [rendered]
  split
  · rw [allBlank, toList_wrapRepeat]
    rfl
  · rwa [allBlank, String.toList_ofList]

/-! ### Splitting again -/

/-- Pieces of text make a single segment. -/
theorem Segment.ofVisits_ofPieces (before : List Visit) (p : Position) {pieces : List Piece}
    (hp : ∀ piece ∈ pieces, piece.isSeparator = false) :
    ofVisits before (Visit.ofPieces p pieces) =
      [{ visits := before ++ Visit.ofPieces p pieces, count := .once }] := by
  induction pieces generalizing before p with
  | nil => simp [Visit.ofPieces, ofVisits]
  | cons piece pieces ih =>
      obtain ⟨hpiece, hpieces⟩ := List.forall_mem_cons.1 hp
      rw [Visit.ofPieces, ofVisits_text rfl hpiece, ih _ _ hpieces, List.append_assoc,
        List.singleton_append]

/-- An unbroken text that is not blank is one batch, to be run once. -/
theorem split_of_unbroken {o : Options} {text : String} (hk : o.keepComments = true)
    (h : Unbroken o false text.toList) (hb : allBlank text = false) :
    ∃ b, split o text = .ok [b] ∧ b.text = text ∧ b.repeatCount = .once ∧ b.wrapped = false := by
  obtain ⟨pieces, w, hpassage, hpieces⟩ := h.exists_passage
  obtain ⟨hcourse, hsplit⟩ := split_of_halt hpassage .finished
  have hvisits := Segment.ofVisits_ofPieces [] {} hpieces
  rw [List.nil_append] at hvisits
  obtain ⟨s, hs⟩ : ∃ s : Segment, s = { visits := Visit.ofPieces {} pieces, count := .once } :=
    ⟨_, rfl⟩
  have hmem : s ∈ segments o text := by rw [segments, hcourse, hvisits, hs, List.mem_singleton]
  have hdraft : (s.draft o.keepComments).text = text := by
    have hkept := (show Segment.Stripped o s from stripped_of_mem_segments hcourse hmem).kept_text
    have htext := hpassage.text_eq
    rw [List.append_nil] at htext
    rw [hk, ← String.toList_inj, hkept, htext, hs, Segment.text, Visit.flatMap_text_ofPieces]
  have hbatch : s.batch? o =
      some (.finish o text .once ((s.draft o.keepComments).line.getD 1)) := by
    rw [Segment.batch?, Draft.finish?, hdraft, hb, hs]
    rfl
  refine ⟨.finish o text .once ((s.draft o.keepComments).line.getD 1), ?_, ?_, ?_, ?_⟩
  · rw [hsplit, segments, hcourse, hvisits, ← hs]
    simp only [List.filterMap_cons, hbatch, List.filterMap_nil]
  · simp [Batch.finish]
  · simp
  · simp [Batch.finish]

/-- **Splitting again.** With comments kept and the usual keyword, every batch of a script, in a
loop or not, is one batch when its text is split again, with the same text, to be run once. -/
theorem split_text_of_mem {o : Options} {script : String} {batches : List Batch} {b : Batch}
    (hs : o.separator = ({} : Options).separator)
    (hl : o.lookalikes = ({} : Options).lookalikes)
    (hc : o.counterVariable = ({} : Options).counterVariable) (hk : o.keepComments = true)
    (h : split o script = .ok batches) (hb : b ∈ batches) :
    ∃ b', split o b.text = .ok [b'] ∧ b'.text = b.text ∧ b'.repeatCount = .once ∧
      b'.wrapped = false := by
  have hg : SeparatesByGo o := ⟨hs, hl⟩
  obtain ⟨pieces, w, hpassage, hcourse, rfl⟩ := passage_of_split h
  have hempty : (([] : List Visit).foldl (Segment.copy o.keepComments) {}).text =
      String.ofList [] := rfl
  have hrendered := delivered_eq_rendered hk {} pieces hempty
  rw [Segment.delivered, ← hcourse, ← segments] at hrendered
  obtain ⟨body, hbody, htext⟩ : ∃ body ∈ (Cut.bodies (Cut.ofPieces [] pieces).1
      (Cut.ofPieces [] pieces).2).filter isSolid, rendered o body = (b.text, b.repeatCount) := by
    rw [← List.mem_map, ← hrendered]
    exact List.mem_map_of_mem hb
  obtain ⟨hmem, hsolid⟩ := List.mem_filter.1 hbody
  have hunbroken := unbroken_of_mem_bodies hg hpassage hmem
  have hbtext : (rendered o body).1 = b.text := by rw [htext]
  rw [← hbtext]
  exact split_of_unbroken hk (unbroken_rendered hg (by rw [hc]; decide) hunbroken)
    (allBlank_rendered hsolid)

/-- A batch that ends in a line comment, put into a loop without the line break that the comment
takes in. -/
theorem split_text_of_loop :
    ∃ b b', split { keepComments := true } "a--\r\ngo 2" = .ok [b] ∧
      b.text = wrapRepeat "a--\r\n" ⟨2, by decide, by decide⟩ "@__batch_repeat" ∧
      b.wrapped = true ∧ split { keepComments := true } b.text = .ok [b'] ∧ b'.text = b.text ∧
      b'.repeatCount = .once ∧ b'.wrapped = false := by
  have hpieces : pieces? { keepComments := true } 9 false "a--\r\ngo 2".toList =
      some
        [.ordinary 'a', .comment ['-', '-', '\r'], .ordinary '\n',
          .separator ⟨2, by decide, by decide⟩ ['g', 'o', ' ', '2']] := by
    decide +kernel
  obtain ⟨b, hb⟩ : ∃ b : Batch, b =
      { text := wrapRepeat "a--\r\n" ⟨2, by decide, by decide⟩ "@__batch_repeat",
        repeatCount := ⟨2, by decide, by decide⟩, line := 1, wrapped := true } := ⟨_, rfl⟩
  have h : split { keepComments := true } "a--\r\ngo 2" = .ok [b] := by
    rw [split_of_pieces? hpieces, hb]
    exact congrArg Except.ok (by decide +kernel)
  obtain ⟨b', hsplit, htext, hcount, hwrapped⟩ :=
    split_text_of_mem (o := { keepComments := true }) rfl rfl rfl rfl h (List.mem_singleton.2 rfl)
  exact ⟨b, b', h, by rw [hb], by rw [hb], hsplit, htext, hcount, hwrapped⟩

end BatchScript
