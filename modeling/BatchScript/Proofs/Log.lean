import BatchScript.Proofs.Delivery

/-!
# What a split reports

The log of a split, read off the pieces of the script. Where a piece of text is read in place of a
statement, a count that cannot be used is reported; a separator statement is reported, and behind it
the batch that it closes; and at the place where reading stops, the last batch or what is left open.
`chronicle` puts this together for pieces from a position on.

A count that cannot be used may be reported twice, on the blanks before its keyword and on the
keyword: a statement is looked for at both. What is left open is reported once, for it ends the
split.

## Main results

* `forall_mem_chronicle` — what is reported on pieces.
* `BatchStream.events_of_moves` — what one step reports.
* `BatchStream.events_of_halt` — what a stream reports up to where reading stops.
* `splitLogged_of_halt` — the log of a split.
* `unclosed_of_fault` — a script that is malformed reports one construct left open.
-/

namespace BatchScript

/-! ### Reports on pieces -/

/-- The report on a batch that is handed out. -/
def Batch.event (b : Batch) : Event :=
  .batch b.line b.repeatCount

/-- The report on a piece at a position, if it is a separator statement. -/
def Piece.event? (p : Position) : Piece → Option Event
  | .separator count statement => some (.separator (p.after statement).line count)
  | _ => none

/-- What is reported on pieces from a position on, with the rest of the script behind them: for each
a count that cannot be used, the statement, and the batch that it completes. -/
def chronicle (o : Options) (rest : List Char) : Draft → Position → Bool → List Piece → List Event
  | _, _, _, [] => []
  | d, p, w, piece :: pieces =>
    let r := d.absorb o p.line piece
    (Outlook.rejected? o w (sources (piece :: pieces) ++ rest)).toList ++
      ((piece.event? p).toList ++ (r.2.toList.map Batch.event ++
        chronicle o rest r.1 (p.after piece.source) piece.endsInWord pieces))

/-- What is reported where reading stops: the batch that the end of the script completes, or the
construct that is left open. -/
inductive Closes (o : Options) (d : Draft) (p : Position) (rest : List Char) :
    Option Fault → List Event → Prop
  | finished : Closes o d p rest none ((d.finish? o .once).toList.map Batch.event)
  | fault {fault : Fault} {event : Event} (reported : fault.Reported o p rest event) :
      Closes o d p rest (some fault) [event]

/-- In place of a statement nothing is reported but a count that cannot be used. -/
theorem Outlook.exists_of_rejected? {o : Options} {w : Bool} {text : List Char} {event : Event}
    (h : rejected? o w text = some event) :
    ∃ digits, Verdict.ofText o text = .unusable digits ∧
      event = .unusableCount (String.ofList digits) := by
  rw [rejected?] at h
  split at h
  · split at h
    · cases h
    · cases hv : Verdict.ofText o text with
      | unusable digits =>
          rw [hv] at h
          exact ⟨digits, rfl, (Option.some.inj h).symm⟩
      | _ =>
          rw [hv] at h
          cases h
  · cases h

/-- What holds of the three kinds of reports on pieces holds of all that is reported on them. -/
theorem forall_mem_chronicle {P : Event → Prop} {o : Options} {rest : List Char} {d : Draft}
    {p : Position} {w : Bool} {pieces : List Piece}
    (hcount : ∀ text digits, Verdict.ofText o text = .unusable digits →
      P (.unusableCount (String.ofList digits)))
    (hseparator : ∀ line count, P (.separator line count))
    (hbatch : ∀ line count, P (.batch line count)) :
    ∀ event ∈ chronicle o rest d p w pieces, P event := by
  induction pieces generalizing d p w with
  | nil => simp [chronicle]
  | cons piece pieces ih =>
      intro event he
      simp only [chronicle, List.mem_append, Option.mem_toList] at he
      rcases he with hrejected | hstatement | hcompleted | htail
      · obtain ⟨digits, hv, rfl⟩ := Outlook.exists_of_rejected? hrejected
        exact hcount _ digits hv
      · cases piece with
        | separator count statement =>
            cases hstatement
            exact hseparator _ _
        | _ => cases hstatement
      · obtain ⟨b, -, rfl⟩ := List.mem_map.1 hcompleted
        exact hbatch _ _
      · exact ih event htail

theorem Piece.event?_text {piece : Piece} (hp : piece.isSeparator = false) (p : Position) :
    piece.event? p = none := by
  cases piece with
  | separator count text => cases hp
  | _ => rfl

namespace BatchStream

variable {s s' : BatchStream} {o : Options} {w w' : Bool} {text rest : List Char}
  {pieces : List Piece}

/-- What a stream has reported. -/
def events (s : BatchStream) : List Event :=
  s.reading.log.toList

/-- What a step over a piece reports. -/
theorem events_of_moves {piece : Piece} (hs : s.Before o w text)
    (h : Outlook.Shows o w text (.piece piece rest))
    (hm : s.Moves (s.draft.absorb o s.reading.cursor.position.line piece).2 s') :
    s'.events = s.events ++ ((Outlook.rejected? o w text).toList ++
      ((piece.event? s.reading.cursor.position).toList ++
        (s.draft.absorb o s.reading.cursor.position.line piece).2.toList.map Batch.event)) := by
  obtain ⟨log, hstep, -, -, hpos, hlog⟩ := step_of_piece hs h
  cases hp : piece.isSeparator with
  | false =>
      rw [Draft.absorb_text hp, Moves, hstep,
        absorb_text (Outlook.wellFormed_of_shows h) hp, Step.more.injEq] at hm
      rw [Draft.absorb_text hp, Piece.event?_text hp, ← hm]
      simpa [events, extend] using hlog
  | true =>
      obtain ⟨count, statement, rfl⟩ := Piece.eq_separator hp
      simp only [Piece.region, absorb, separate, close, noteSeparator, hs.options, hpos] at hstep
      cases hb : s.draft.finish? o count with
      | none =>
          simp only [hb] at hstep
          simp only [Draft.absorb, hb, Moves, hstep, Step.more.injEq] at hm
          rw [← hm]
          simp [events, Reading.note, hlog, Draft.absorb, hb, Piece.event?, Piece.source]
      | some b =>
          simp only [hb] at hstep
          simp only [Draft.absorb, hb, Moves, hstep, Step.batch.injEq, true_and] at hm
          rw [← hm]
          simp [events, Reading.note, hlog, Draft.absorb, hb, Piece.event?, Piece.source,
            Batch.event]

/-- A step that goes on leaves the last stream as it is. -/
theorem collect_snd_of_moves {b : Option Batch} (hf : s.finished = false)
    (hf' : s'.finished = false) (h : s.Moves b s') : s.collect.2 = s'.collect.2 := by
  rcases b with _ | b
  · rw [collect_eq s, next_of_more hf hf' h, ← collect_eq s']
  · rw [collect_eq s, next_of_batch hf h]

/-- What the end of the script reports. -/
theorem events_of_end (hs : s.Before o w []) :
    s.collect.2.events = s.events ++ (s.draft.finish? o .once).toList.map Batch.event := by
  have hblank {t : BatchStream} {w : Bool} (ht : t.Before o w [])
      (hb : t.draft.finish? o .once = none) : t.collect.2.events = t.events := by
    rw [collect_eq, next_of_done ht.finished (step_of_blank_end ht hb)]
    rfl
  cases hb : s.draft.finish? o .once with
  | none => rw [hblank hs hb, Option.toList_none, List.map_nil, List.append_nil]
  | some b =>
      obtain ⟨s', hmoves, hs', hd, hreading⟩ := moves_of_end hs hb
      have hempty : s'.draft.finish? o .once = none := by rw [hd]; rfl
      rw [collect_snd_of_moves hs.finished hs'.finished hmoves, hblank hs' hempty, events, hreading]
      exact Array.toList_push

/-- And a construct left open. -/
theorem events_of_fault {fault : Fault} (hs : s.Before o w text)
    (h : Outlook.Shows o w text (.fault fault)) :
    ∃ event, fault.Reported o s.reading.cursor.position text event ∧
      s.collect.2.events = s.events ++ [event] := by
  obtain ⟨r, event, hstep, hlog, hreported⟩ := step_of_fault hs h
  refine ⟨event, hreported, ?_⟩
  rw [collect_eq, next_of_failed hs.finished hstep, events, hlog]
  exact Array.toList_push

/-- What a stream reports along a passage up to where reading stops. -/
theorem events_of_halt {fault : Option Fault} (hs : s.Before o w text)
    (h : Passage o w text pieces w' rest) (hh : Halt o w' rest fault) :
    ∃ closing,
      Closes o (deliver o s.draft s.reading.cursor.position pieces).1
        (s.reading.cursor.position.after (sources pieces)) rest fault closing ∧
      s.collect.2.events =
        s.events ++ (chronicle o rest s.draft s.reading.cursor.position w pieces ++ closing) := by
  induction h generalizing s with
  | stay w text =>
      cases hh with
      | finished => exact ⟨_, .finished, events_of_end hs⟩
      | fault shows =>
          obtain ⟨event, hreported, hevents⟩ := events_of_fault hs shows
          exact ⟨[event], .fault hreported, hevents⟩
  | step shows tail ih =>
      obtain ⟨s', hmoves, hs', hpos, hd⟩ := moves_of_piece hs shows
      obtain ⟨closing, hcloses, hevents⟩ := ih hs' hh
      rw [hpos, hd] at hcloses hevents
      rw [← Position.after_append] at hcloses
      refine ⟨closing, hcloses, ?_⟩
      rw [collect_snd_of_moves hs.finished hs'.finished hmoves, hevents,
        events_of_moves hs shows hmoves, chronicle, sources_cons,
        List.append_assoc (Piece.source _), ← tail.text_eq, ← Outlook.text_eq shows]
      simp only [List.append_assoc]

end BatchStream

/-! ### The log of a split -/

/-- The report that closes a log, if the script is split. -/
def Event.summary : Except Failure (List Batch) → List Event
  | .ok batches => [.finished batches.length]
  | .error _ => []

/-- The log of a split. -/
theorem splitLogged_of_halt {o : Options} {script : String} {w : Bool} {rest : List Char}
    {pieces : List Piece} {fault : Option Fault}
    (h : Passage o false script.toList pieces w rest) (hh : Halt o w rest fault) :
    ∃ closing,
      Closes o (deliver o {} {} pieces).1 (({} : Position).after (sources pieces)) rest fault
        closing ∧
      (splitLogged o script).2 =
        .opened script.utf8ByteSize ::
          (chronicle o rest {} {} false pieces ++ closing ++ Event.summary (split o script)) := by
  obtain ⟨closing, hcloses, hevents⟩ :=
    BatchStream.events_of_halt (BatchStream.before_ofString o script) h hh
  have hlog : (BatchStream.ofString o script).collect.2.reading.log.toList =
      chronicle o rest {} {} false pieces ++ closing := hevents
  have hlogged : (splitLogged o script).2 = .opened script.utf8ByteSize ::
      ((BatchStream.ofString o script).collect.2.reading.log.toList ++
        Event.summary (split o script)) := by
    rw [splitLogged, split]
    rcases (BatchStream.ofString o script).collect with ⟨outcome | batches, last⟩ <;> rfl
  exact ⟨closing, hcloses, by rw [hlogged, hlog]⟩

/-- Whether a construct left open is reported. -/
def Event.isUnclosed : Event → Bool
  | .unclosedComment _ _ _ | .unclosedQuote _ _ _ => true
  | _ => false

theorem Fault.Reported.isUnclosed {o : Options} {fault : Fault} {p : Position} {text : List Char}
    {event : Event} (h : fault.Reported o p text event) : event.isUnclosed = true := by
  cases h <;> rfl

section Unclosed

variable {o : Options} {rest : List Char} {d : Draft} {p : Position} {w : Bool}
  {pieces : List Piece} {fault : Fault}

/-- Of no construct that is passed over it is reported that it is left open. -/
theorem isUnclosed_chronicle :
    ∀ event ∈ chronicle o rest d p w pieces, event.isUnclosed = false :=
  forall_mem_chronicle (fun _ _ _ => rfl) (fun _ _ => rfl) fun _ _ => rfl

/-- So where reading stops at one, it is the only one reported. -/
theorem filter_isUnclosed_of_reported {q : Position} {text : List Char} {event : Event}
    (h : fault.Reported o q text event) (size : Nat) :
    (.opened size :: (chronicle o rest d p w pieces ++ [event])).filter Event.isUnclosed =
      [event] := by
  have hopened : ¬ (Event.opened size).isUnclosed = true := by simp [Event.isUnclosed]
  have hnone : (chronicle o rest d p w pieces).filter Event.isUnclosed = [] := by
    refine List.filter_eq_nil_iff.2 fun event he => ?_
    rw [isUnclosed_chronicle event he]
    exact Bool.false_ne_true
  rw [List.filter_cons_of_neg hopened, List.filter_append, hnone, List.nil_append,
    List.filter_cons_of_pos h.isUnclosed, List.filter_nil]

/-- A script that is malformed reports one construct left open, the one that it fails on. -/
theorem unclosed_of_fault {script : String} (h : Passage o false script.toList pieces w rest)
    (hh : Halt o w rest (some fault)) :
    ∃ event, fault.Reported o (({} : Position).after (sources pieces)) rest event ∧
      (splitLogged o script).2.filter Event.isUnclosed = [event] := by
  obtain ⟨closing, hcloses, hlog⟩ := splitLogged_of_halt h hh
  cases hcloses with
  | @fault _ event hreported =>
      refine ⟨event, hreported, ?_⟩
      rw [hlog, split_of_passage h hh, Event.summary, List.append_nil]
      exact filter_isUnclosed_of_reported hreported _

end Unclosed

end BatchScript
