import BatchScript.Proofs.Log
import Mathlib.Data.List.Chain

/-!
# The log as an account of the outcome

Whoever reads only the log of a split learns what the split came to. The entries on batches are the
batches in order, each of them right behind the entry on the statement that closes it, but for the
batch that the end of the script closes. A split that succeeds is summed up at the end, and leaves
nothing open; one that fails ends with the construct that it fails on, and is not summed up.

Entries are reported by scans that are undone again, too. That a construct left open is reported
once is due to its ending the split; a count that cannot be used may be reported twice.

## Main results

* `uncountable_of_unusable` — the digits of a count that cannot be used.
* `filterMap_handed?_chronicle` — the entries on batches are the batches delivered.
* `isChain_chronicle` — an entry on a batch stands right behind one on a separator statement.
* `exists_segments_eq` — the batches that statements close are those of all segments but the last.
* `splitLogged_account` — the log of a split is an account of its outcome.
-/

namespace BatchScript

/-! ### Counts that cannot be used -/

/-- Digits that write no count: a number that is zero, or does not fit thirty-two bits. -/
structure Uncountable (digits : List Char) : Prop where
  ne_nil : digits ≠ []
  isDigit : ∀ c ∈ digits, c.isDigit = true
  out_of_bounds : Nat.ofDigitChars 10 digits 0 = 0 ∨ 4294967295 < Nat.ofDigitChars 10 digits 0

theorem RepeatCount.uncountable_of_ofDigits? {digits : List Char}
    (hd : ∀ c ∈ digits, c.isDigit = true) (h : ofDigits? digits = none) : Uncountable digits := by
  rw [ofDigits?] at h
  split at h
  · cases h
  · rename_i hne
    exact ⟨by simpa using hne, hd, ofNat?_eq_none_iff.1 h⟩

namespace Verdict

variable {o : Options} {text digits : List Char}

theorem shift_eq_unusable {v : Verdict} {k : Nat} :
    v.shift k = .unusable digits ↔ v = .unusable digits := by
  cases v <;> simp [shift]

/-- The digits of a count that cannot be used. -/
theorem uncountable_of_unusable (h : ofText o text = .unusable digits) : Uncountable digits := by
  rcases ofText_eq_absent_or o text with ha | ⟨blanks, keyword, tail, rfl, hk⟩
  · rw [ha] at h
    cases h
  · rw [ofText_of_keyed hk, shift_eq_unusable] at h
    by_cases hj : joined o tail = true
    · rw [ofTail_of_joined hj] at h
      cases h
    · have htail := tail_ofTail (Bool.not_eq_true _ ▸ hj)
      rw [h] at htail
      cases htail with
      | unusable hgap hline hcount =>
          exact RepeatCount.uncountable_of_ofDigits?
            (fun c hc => List.all_eq_true.1 List.all_takeWhile c hc) hcount

end Verdict

/-! ### Entries on the way -/

namespace Event

/-- The line and the count of the batch that an entry is on. -/
def handed? : Event → Option (Nat × RepeatCount)
  | .batch line count => some (line, count)
  | _ => none

/-- Whether an entry sums a split up. -/
def isSummary : Event → Bool
  | .finished _ => true
  | _ => false

/-- If the second entry is on a batch, then the first is on a separator statement with its count. -/
def Leads (e e' : Event) : Prop :=
  ∀ line count, e' = .batch line count → ∃ behind, e = .separator behind count

theorem leads_of_handed? {e e' : Event} (h : e'.handed? = none) : e.Leads e' := by
  rintro line count rfl
  cases h

/-- What may be reported while the pieces of a script are read. -/
inductive Passing : Event → Prop
  | unusableCount {digits : List Char} (h : Uncountable digits) :
      Passing (.unusableCount (String.ofList digits))
  | separator (line : Nat) (count : RepeatCount) : Passing (.separator line count)
  | batch (line : Nat) (count : RepeatCount) : Passing (.batch line count)

theorem Passing.isSummary {e : Event} (h : e.Passing) : e.isSummary = false := by
  cases h <;> rfl

theorem Passing.uncountable {digits : String} (h : Passing (.unusableCount digits)) :
    Uncountable digits.toList := by
  generalize he : Event.unusableCount digits = e at h
  cases h with
  | unusableCount hd =>
      cases he
      rwa [String.toList_ofList]
  | _ => cases he

end Event

/-- The line and the count of a batch, which is what the log tells of it. -/
def Batch.told (b : Batch) : Nat × RepeatCount :=
  (b.line, b.repeatCount)

theorem map_handed?_event (batches : List Batch) :
    (batches.map Batch.event).filterMap Event.handed? = batches.map Batch.told := by
  rw [List.filterMap_map, ← List.filterMap_eq_map]
  rfl

theorem Draft.repeatCount_of_finish? {d : Draft} {o : Options} {count : RepeatCount} {b : Batch}
    (h : d.finish? o count = some b) : b.repeatCount = count := by
  rw [finish?] at h
  split at h
  · cases h
  · rw [← Option.some.inj h, Batch.repeatCount_finish]

section Chronicle

variable {o : Options} {rest : List Char} {d : Draft} {p : Position} {w : Bool}
  {pieces : List Piece}

/-- While pieces are read nothing else is reported. -/
theorem passing_of_mem_chronicle {e : Event} (h : e ∈ chronicle o rest d p w pieces) :
    e.Passing :=
  forall_mem_chronicle (fun _ _ hv => .unusableCount (Verdict.uncountable_of_unusable hv))
    .separator .batch e h

/-- The entries on batches are the batches delivered. -/
theorem filterMap_handed?_chronicle :
    (chronicle o rest d p w pieces).filterMap Event.handed? =
      (deliver o d p pieces).2.map Batch.told := by
  induction pieces generalizing d p w with
  | nil => rfl
  | cons piece pieces ih =>
      have hrejected : (Outlook.rejected? o w (sources (piece :: pieces) ++ rest)).toList.filterMap
          Event.handed? = [] := by
        refine List.filterMap_eq_nil_iff.2 fun e he => ?_
        obtain ⟨digits, -, rfl⟩ := Outlook.exists_of_rejected? (Option.mem_toList.1 he)
        rfl
      have hstatement : (piece.event? p).toList.filterMap Event.handed? = [] := by
        cases piece <;> rfl
      simp only [chronicle, deliver, List.filterMap_append, hrejected, hstatement,
        map_handed?_event, ih, List.map_append, List.nil_append]

/-- An entry on a batch stands right behind one on a separator statement with its count, whatever
is reported before. The induction is on the pieces; only a statement completes a batch. -/
theorem isChain_chronicle (before : Event) :
    (before :: chronicle o rest d p w pieces).IsChain Event.Leads := by
  induction pieces generalizing before d p w with
  | nil => exact .singleton before
  | cons piece pieces ih =>
      have hpiece (e : Event) :
          (e :: ((piece.event? p).toList ++ ((d.absorb o p.line piece).2.toList.map Batch.event ++
            chronicle o rest (d.absorb o p.line piece).1 (p.after piece.source) piece.endsInWord
              pieces))).IsChain Event.Leads := by
        by_cases hp : piece.isSeparator = true
        · obtain ⟨count, statement, rfl⟩ := Piece.eq_separator hp
          refine List.isChain_cons_cons.2 ⟨Event.leads_of_handed? rfl, ?_⟩
          rcases hb : (d.absorb o p.line (.separator count statement)).2 with _ | b
          · exact ih _
          · refine List.isChain_cons_cons.2 ⟨?_, ih _⟩
            rintro line count' he
            obtain ⟨-, rfl⟩ := Event.batch.inj he
            have hcount : b.repeatCount = count := Draft.repeatCount_of_finish? hb
            exact ⟨_, by rw [hcount]⟩
        · have hp : piece.isSeparator = false := Bool.not_eq_true _ ▸ hp
          rw [Piece.event?_text hp, Draft.absorb_text hp]
          exact ih e
      -- A count that cannot be used comes first, and so never between a statement and its batch.
      rw [chronicle]
      rcases hr : Outlook.rejected? o w (sources (piece :: pieces) ++ rest) with _ | e
      · exact hpiece before
      · obtain ⟨digits, -, rfl⟩ := Outlook.exists_of_rejected? hr
        exact List.isChain_cons_cons.2 ⟨Event.leads_of_handed? rfl, hpiece _⟩

end Chronicle

/-! ### Which batches are closed by a statement -/

/-- The batches of a script that separator statements close. -/
def closedBatches (o : Options) (script : String) : List Batch :=
  (segments o script).dropLast.filterMap (Segment.batch? o)

/-- The batch of a script that its end closes, unless that is blank. -/
def endBatch? (o : Options) (script : String) : Option Batch :=
  (segments o script).getLast?.bind (Segment.batch? o)

/-- The last segment is closed by the end and holds the draft; the others make the batches that are
delivered. -/
theorem exists_segments_eq {o : Options} {d : Draft} (p : Position) (before : List Visit)
    (pieces : List Piece) (hd : d = before.foldl (Segment.copy o.keepComments) {}) :
    ∃ closed last, Segment.ofVisits before (Visit.ofPieces p pieces) = closed ++ [last] ∧
      closed.filterMap (Segment.batch? o) = (deliver o d p pieces).2 ∧
      last.batch? o = (deliver o d p pieces).1.finish? o .once := by
  induction pieces generalizing before d p with
  | nil => exact ⟨[], ⟨before, .once⟩, rfl, rfl, by rw [hd]; rfl⟩
  | cons piece pieces ih =>
      by_cases hp : piece.isSeparator = true
      · obtain ⟨count, statement, rfl⟩ := Piece.eq_separator hp
        obtain ⟨closed, last, hsegments, hclosed, hlast⟩ :=
          ih (p.after statement) [] rfl
        refine ⟨⟨before, count⟩ :: closed, last, ?_, ?_, hlast⟩
        · simp only [Visit.ofPieces, Segment.ofVisits, Piece.region, Piece.source, hsegments,
            List.cons_append]
        · have hbatch : Segment.batch? o ⟨before, count⟩ = d.finish? o count := by
            rw [hd]
            rfl
          rw [List.filterMap_cons, hclosed, hbatch, deliver, Draft.absorb]
          cases d.finish? o count <;> rfl
      · have hp : piece.isSeparator = false := Bool.not_eq_true _ ▸ hp
        rw [Visit.ofPieces, Segment.ofVisits_text rfl hp, deliver, Draft.absorb_text hp]
        refine ih (p.after piece.source) _ ?_
        rw [List.foldl_append, ← hd]
        rfl

/-- What a passage delivers, in the batches of a script. -/
theorem closedBatches_eq {o : Options} {script : String} {w : Bool} {rest : List Char}
    {pieces : List Piece} {fault : Option Fault}
    (h : Passage o false script.toList pieces w rest) (hh : Halt o w rest fault) :
    closedBatches o script = (deliver o {} {} pieces).2 ∧
      endBatch? o script = (deliver o {} {} pieces).1.finish? o .once := by
  obtain ⟨hcourse, -⟩ := split_of_halt h hh
  obtain ⟨closed, last, hsegments, hclosed, hlast⟩ :=
    exists_segments_eq (o := o) {} [] pieces rfl
  rw [closedBatches, endBatch?, segments, hcourse, hsegments, List.dropLast_concat,
    List.getLast?_concat]
  exact ⟨hclosed, hlast⟩

/-! ### The account -/

/-- What the log of every split keeps to: the entries on the way, of which those on batches are on
the batches that statements close, each right behind its statement. -/
structure Event.Orderly (o : Options) (script : String) (entries : List Event) : Prop where
  chained : entries.IsChain Leads
  handed : entries.filterMap handed? = (closedBatches o script).map Batch.told

/-- An entry that names the construct and the position of an error. -/
inductive Event.Names (o : Options) : Event → Malformed → Prop
  | comment (line column depth : Nat) :
      Names o (.unclosedComment line column depth) ⟨.blockComment, line, column⟩
  | quote (line column : Nat) {q : Quotation} (hq : Quotation.ofOpener? o q.opener = some q) :
      Names o (.unclosedQuote line column q.opener) ⟨q.construct, line, column⟩

theorem Fault.Reported.names {o : Options} {fault : Fault} {p : Position} {text : List Char}
    {e : Event} (h : fault.Reported o p text e) : e.Names o (fault.malformed p text) := by
  cases h with
  | comment construct =>
      rw [malformed, construct]
      exact .comment _ _ _
  | quote construct hq =>
      rw [malformed, construct]
      exact .quote _ _ hq

/-- How the log of a script that is split ends, and what it tells as a whole. -/
structure Event.TellsBatches (o : Options) (script : String) (batches : List Batch)
    (closing log : List Event) : Prop where
  /-- The end of the script closes at most one batch, which is the last. -/
  closing_eq :
    closing = (endBatch? o script).toList.map Batch.event ++ [.finished batches.length]
  once : ∀ b ∈ endBatch? o script, b.repeatCount = .once
  handed : log.filterMap handed? = batches.map Batch.told
  getLast? : log.getLast? = some (.finished batches.length)
  nothing_unclosed : ∀ e ∈ log, e.isUnclosed = false

/-- How the log of a script that cannot be split ends, and what it tells as a whole. -/
structure Event.TellsFailure (o : Options) (error : Malformed) (closing log : List Event) :
    Prop where
  closing_eq : ∃ e, e.Names o error ∧ closing = [e] ∧ log.filter isUnclosed = [e]
  getLast? : log.getLast? = closing.getLast?
  no_summary : ∀ e ∈ log, e.isSummary = false

section Account

variable {o : Options} {script : String} {w : Bool} {rest : List Char} {pieces : List Piece}
  {fault : Option Fault}

/-- The entries on the way through a script, behind the one that opens the log. -/
theorem orderly_chronicle (h : Passage o false script.toList pieces w rest)
    (hh : Halt o w rest fault) :
    Event.Orderly o script
      (.opened script.utf8ByteSize :: chronicle o rest {} {} false pieces) := by
  refine ⟨isChain_chronicle _, ?_⟩
  have hopened : (Event.opened script.utf8ByteSize).handed? = none := rfl
  rw [(closedBatches_eq h hh).1, List.filterMap_cons_none hopened, filterMap_handed?_chronicle]

/-- Where the script ends the last batch is told, and then their number. -/
theorem tellsBatches_of_finished (h : Passage o false script.toList pieces w []) :
    Event.TellsBatches o script (delivery o {} {} pieces)
      ((endBatch? o script).toList.map Batch.event ++ [.finished (delivery o {} {} pieces).length])
      (.opened script.utf8ByteSize :: chronicle o [] {} {} false pieces ++
        ((endBatch? o script).toList.map Batch.event ++
          [.finished (delivery o {} {} pieces).length])) := by
  have hend := (closedBatches_eq h .finished).2
  refine ⟨rfl, ?_, ?_, ?_, ?_⟩
  · intro b hb
    rw [hend] at hb
    exact Draft.repeatCount_of_finish? hb
  · have hopened : (Event.opened script.utf8ByteSize).handed? = none := rfl
    have hsummary : (Event.finished (delivery o {} {} pieces).length).handed? = none := rfl
    rw [List.cons_append, List.filterMap_cons_none hopened, List.filterMap_append,
      List.filterMap_append, List.filterMap_cons_none hsummary, List.filterMap_nil,
      List.append_nil, filterMap_handed?_chronicle, map_handed?_event, hend, delivery,
      List.map_append]
  · rw [← List.append_assoc, List.getLast?_concat]
  · intro e he
    simp only [List.cons_append, List.mem_cons, List.mem_append, List.mem_map, List.not_mem_nil,
      or_false] at he
    rcases he with rfl | he | ⟨b, -, rfl⟩ | rfl
    · rfl
    · exact isUnclosed_chronicle e he
    · rfl
    · rfl

/-- Where a construct is left open its entry is the last. -/
theorem tellsFailure_of_fault {fault : Fault} {e : Event}
    (hreported : fault.Reported o (({} : Position).after (sources pieces)) rest e) :
    Event.TellsFailure o (fault.malformed (({} : Position).after (sources pieces)) rest) [e]
      (.opened script.utf8ByteSize :: chronicle o rest {} {} false pieces ++ [e]) := by
  have hunclosed := hreported.isUnclosed
  refine ⟨⟨e, hreported.names, rfl, filter_isUnclosed_of_reported hreported _⟩, ?_, ?_⟩
  · rw [List.getLast?_concat]
    rfl
  · intro event he
    simp only [List.cons_append, List.mem_cons, List.mem_append, List.not_mem_nil, or_false] at he
    rcases he with rfl | he | rfl
    · rfl
    · exact (passing_of_mem_chronicle he).isSummary
    · cases event with
      | finished batches => cases hunclosed
      | _ => rfl

/-- A count that cannot be used is reported as it is written. -/
theorem uncountable_of_mem_splitLogged {digits : String}
    (h : .unusableCount digits ∈ (splitLogged o script).2) : Uncountable digits.toList := by
  obtain ⟨pieces, w, rest, fault, hp, hh⟩ := exists_passage o false script.toList
  obtain ⟨closing, hcloses, hlog⟩ := splitLogged_of_halt hp hh
  rw [hlog, List.mem_cons, List.mem_append, List.mem_append] at h
  rcases h with hopened | (hentry | hclosing) | hsummary
  · cases hopened
  · exact (passing_of_mem_chronicle hentry).uncountable
  · cases hcloses with
    | finished =>
        obtain ⟨b, -, hb⟩ := List.mem_map.1 hclosing
        cases hb
    | fault hreported =>
        obtain rfl := List.mem_singleton.1 hclosing
        cases hreported
  · cases hsplit : split o script with
    | ok batches =>
        rw [hsplit, Event.summary, List.mem_singleton] at hsummary
        cases hsummary
    | error failure =>
        rw [hsplit] at hsummary
        cases hsummary

end Account

/-- **The account.** The log of a split consists of orderly entries and what closes it. It tells
the batches of a script that is split, and of one that is not, the construct that is left open.
Counts are reported that cannot be used, and no others. -/
theorem splitLogged_account (o : Options) (script : String) :
    ∃ entries closing, (splitLogged o script).2 = entries ++ closing ∧
      Event.Orderly o script entries ∧
      (∀ digits, .unusableCount digits ∈ (splitLogged o script).2 → Uncountable digits.toList) ∧
      ((∃ batches, (splitLogged o script).1 = .ok batches ∧
          Event.TellsBatches o script batches closing (splitLogged o script).2) ∨
        ∃ error, (splitLogged o script).1 = .error (.malformed error) ∧
          Event.TellsFailure o error closing (splitLogged o script).2) := by
  obtain ⟨pieces, w, rest, fault, hp, hh⟩ := exists_passage o false script.toList
  obtain ⟨closing, hcloses, hlog⟩ := splitLogged_of_halt hp hh
  have hsplit := split_of_passage hp hh
  have horderly := orderly_chronicle hp hh
  have huncountable (digits : String) (h : .unusableCount digits ∈ (splitLogged o script).2) :=
    uncountable_of_mem_splitLogged h
  rw [fst_splitLogged, hsplit]
  rw [hsplit] at hlog
  cases hcloses with
  | finished =>
      cases hh
      rw [← (closedBatches_eq hp .finished).2] at hlog
      simp only [Event.summary, List.append_assoc, ← List.cons_append] at hlog
      rw [hlog]
      exact ⟨_, _, rfl, horderly, hlog ▸ huncountable,
        .inl ⟨_, rfl, tellsBatches_of_finished hp⟩⟩
  | @fault fault e hreported =>
      simp only [Event.summary, List.append_nil, ← List.cons_append] at hlog
      rw [hlog]
      exact ⟨_, _, rfl, horderly, hlog ▸ huncountable,
        .inr ⟨_, rfl, tellsFailure_of_fault hreported⟩⟩

end BatchScript
