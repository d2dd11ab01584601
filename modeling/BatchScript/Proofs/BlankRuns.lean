import BatchScript.Proofs.Blind
import BatchScript.Proofs.Delivery
import Mathlib.Logic.Relation

/-!
# Runs of blanks read at once

Where no separator statement begins at a blank, the whole run of blanks is read as one region. Here
the same is done without that shortcut: `Scan.regionByCharacter` reads a blank like any other
character of ordinary text, so that a comment, quoted text and a separator statement are looked for
again at every blank of the run.

Read by character a stream takes several steps where otherwise it takes one, and then stands where
it would stand otherwise, with the same draft. So it gives the same batches, and fails alike; only
the log can tell the two apart, since a count that cannot be used is reported again at each blank.

## Main results

* `Scan.regionByCharacter_eq` — reading by character differs at runs of blanks only.
* `BatchStream.strides_of_blanks` — a run of blanks is passed over one blank after the other.
* `BatchStream.Abreast.keepsUp` — a step of the one stream, and the steps by character that lead to
  where it leads.
* `BatchStream.Level.run` — run to the next batch, the streams come to the same.
* `split_byCharacter` — scripts are split alike in both ways.
-/

namespace BatchScript

/-! ### Reading by character -/

namespace Scan

/-- Passes over the region that begins with the given character at the cursor, as `region` does,
but over blanks one by one. -/
def regionByCharacter (o : Options) (afterWord : Bool) (first : Char) : Scan Region := do
  let start ← cursor
  if ← comment then
    return .comment (← sliceFrom start.position.offset)
  else
    match Quotation.ofOpener? o first with
    | some q => do
      quoted q
      return .quoted (← sliceFrom start.position.offset)
    | none =>
      if o.wordBoundaries && afterWord then
        ordinary first
      else do
        match ← separator o with
        | some count => return .separator count
        | none => ordinary first

/-- The two ways of reading differ at runs of blanks, and nowhere else. -/
theorem regionByCharacter_eq (o : Options) (afterWord : Bool) (first : Char) (r : Reading) :
    regionByCharacter o afterWord first r =
      match region o afterWord first r with
      | .ok (.blanks _) r' => .ok (.ordinary first) { r' with cursor := r.cursor.skip 1 }
      | result => result := by
  simp only [regionByCharacter, region, cursor, Bind.bind, EStateM.bind]
  cases hc : comment r with
  | error e r₁ => rfl
  | ok isComment r₁ =>
      cases isComment with
      | true =>
          simp only [if_true, EStateM.bind]
          cases sliceFrom r.cursor.position.offset r₁ <;> rfl
      | false =>
          obtain rfl := comment_false hc
          simp only [Bool.false_eq_true, if_false]
          cases Quotation.ofOpener? o first with
          | some q =>
              simp only [EStateM.bind]
              cases quoted q r₁ with
              | error e r₂ => rfl
              | ok u r₂ =>
                  simp only
                  cases sliceFrom r₁.cursor.position.offset r₂ <;> rfl
          | none =>
              simp only
              split
              · rfl
              · simp only [EStateM.bind]
                cases hs : separator o r₁ with
                | error e r₂ => rfl
                | ok answer r₂ =>
                    cases answer with
                    | some count => rfl
                    | none =>
                        simp only [← separator_none hs]
                        cases isLinear first <;> rfl

end Scan

namespace BatchStream

/-- Reads one region by character, or ends the script. -/
def stepByCharacter (s : BatchStream) : Step :=
  match s.reading.cursor.peek with
  | none => s.conclude
  | some first =>
    match Scan.regionByCharacter s.options s.afterWord first s.reading with
    | .ok region reading => absorb { s with reading } s.reading.cursor.position.line region
    | .error failure reading => .failed failure { s with reading, finished := true }

/-- The stream behind one blank that is read by itself. -/
def passBlank (s : BatchStream) (first : Char) (log : Array Event) : BatchStream :=
  copyOrdinary { s with reading := { cursor := s.reading.cursor.skip 1, log } }
    s.reading.cursor.position.line first

/-- A step by character is the same step, unless that reads a run of blanks. Then it reads the first
of them. -/
theorem stepByCharacter_eq (s : BatchStream) :
    s.stepByCharacter = s.step ∨
      ∃ first log, s.reading.cursor.peek = some first ∧
        s.stepByCharacter = .more (s.passBlank first log) := by
  rw [stepByCharacter, step]
  cases hfirst : s.reading.cursor.peek with
  | none => exact .inl rfl
  | some first =>
      simp only [Scan.regionByCharacter_eq]
      cases Scan.region s.options s.afterWord first s.reading with
      | error failure r => exact .inl rfl
      | ok region r =>
          cases region with
          | blanks text => exact .inr ⟨first, r.log, rfl, rfl⟩
          | _ => exact .inl rfl

theorem remaining_passBlank {s : BatchStream} {first : Char} (log : Array Event)
    (h : s.reading.cursor.peek = some first) :
    (s.passBlank first log).remaining < s.remaining := by
  obtain ⟨rest, hrest⟩ : ∃ rest, s.reading.cursor.ahead = first :: rest := by
    simpa [Cursor.peek, List.head?_eq_some_iff] using h
  simp [passBlank, remaining, copyOrdinary, hrest]

/-- A step that goes on leaves fewer characters. -/
theorem remaining_of_moreByCharacter {s s' : BatchStream} (h : s.stepByCharacter = .more s') :
    s'.remaining < s.remaining := by
  rcases s.stepByCharacter_eq with heq | ⟨first, log, hfirst, heq⟩
  · exact remaining_of_more (heq.symm.trans h)
  · cases heq.symm.trans h
    exact remaining_passBlank log hfirst

/-- A step that completes a batch makes the stream lighter. -/
theorem weight_of_batchByCharacter {s s' : BatchStream} {b : Batch}
    (h : s.stepByCharacter = .batch b s') : s'.weight < s.weight := by
  rcases s.stepByCharacter_eq with heq | ⟨first, log, -, heq⟩
  · exact weight_of_batch (heq.symm.trans h)
  · cases heq.symm.trans h

/-- Steps by character until a batch is complete or nothing more is to come. -/
def runByCharacter (s : BatchStream) : Option (Except Failure Batch) × BatchStream :=
  match _h : s.stepByCharacter with
  | .more rest => runByCharacter rest
  | .batch b rest => (some (.ok b), rest)
  | .done rest => (none, rest)
  | .failed failure rest => (some (.error failure), rest)
termination_by s.remaining
decreasing_by exact remaining_of_moreByCharacter _h

theorem runByCharacter_eq (s : BatchStream) :
    s.runByCharacter =
      match s.stepByCharacter with
      | .more rest => rest.runByCharacter
      | .batch b rest => (some (.ok b), rest)
      | .done rest => (none, rest)
      | .failed failure rest => (some (.error failure), rest) := by
  rw [runByCharacter]
  split <;> simp_all

/-- What `next` is, read by character. -/
def nextByCharacter (s : BatchStream) : Option (Except Failure Batch) × BatchStream :=
  if s.finished then (none, s) else s.runByCharacter

theorem weight_of_runByCharacter {s s' : BatchStream} {b : Batch}
    (h : s.runByCharacter = (some (.ok b), s')) : s'.weight < s.weight := by
  fun_induction runByCharacter s with
  | case1 s rest hs ih =>
      have hless := ih h
      have hremaining := remaining_of_moreByCharacter hs
      have hdraft := rest.draft.weight_le_one
      simp only [weight] at hless ⊢
      omega
  | case2 s b rest hs =>
      cases h
      exact weight_of_batchByCharacter hs
  | case3 s rest hs => cases h
  | case4 s failure rest hs => cases h

theorem weight_of_nextByCharacter {s s' : BatchStream} {b : Batch}
    (h : s.nextByCharacter = (some (.ok b), s')) : s'.weight < s.weight := by
  rw [nextByCharacter] at h
  split at h
  · cases h
  · exact weight_of_runByCharacter h

/-- What `collect` is, read by character. -/
def collectByCharacter (s : BatchStream) : Except Failure (List Batch) × BatchStream :=
  match _h : s.nextByCharacter with
  | (none, rest) => (.ok [], rest)
  | (some (.error failure), rest) => (.error failure, rest)
  | (some (.ok b), rest) =>
    let (batches, last) := collectByCharacter rest
    (batches.map (b :: ·), last)
termination_by s.weight
decreasing_by exact weight_of_nextByCharacter _h

theorem collectByCharacter_eq (s : BatchStream) :
    s.collectByCharacter =
      match s.nextByCharacter with
      | (none, rest) => (.ok [], rest)
      | (some (.error failure), rest) => (.error failure, rest)
      | (some (.ok b), rest) =>
        (rest.collectByCharacter.1.map (b :: ·), rest.collectByCharacter.2) := by
  rw [collectByCharacter]
  split <;> simp_all

/-- What `take` is, read by character. -/
def takeByCharacter (s : BatchStream) : Nat → List (Option (Except Failure Batch))
  | 0 => []
  | calls + 1 =>
    let (item, rest) := s.nextByCharacter
    item :: rest.takeByCharacter calls

end BatchStream

/-- Splits a script into its batches, read by character. -/
def splitByCharacter (o : Options) (script : String) : Except Failure (List Batch) :=
  (BatchStream.ofString o script).collectByCharacter.1

/-! ### Over a run of blanks -/

namespace BatchStream

variable {s t t' : BatchStream} {o : Options} {w : Bool} {text rest : List Char}

/-- Some steps by character, each of which goes on. -/
def Strides : BatchStream → BatchStream → Prop :=
  Relation.ReflTransGen fun t t' => t.stepByCharacter = .more t'

/-- Steps that go on do not change what the stream comes to. -/
theorem runByCharacter_of_strides (h : t.Strides t') : t.runByCharacter = t'.runByCharacter := by
  induction h with
  | refl => rfl
  | tail _ hstep ih => rw [ih, runByCharacter_eq, hstep]

/-- Where no statement begins at a blank, it is passed over by itself. -/
theorem stepByCharacter_of_blank {c : Char} (ht : t.Before o w (c :: text))
    (hc : isLinear c = true) (hw : (o.wordBoundaries && w) = false)
    (hv : (Verdict.ofText o (c :: text)).isNone = true) :
    ∃ t', t.stepByCharacter = .more t' ∧ t'.Before o false text ∧
      t'.reading.cursor.position = t.reading.cursor.position.after [c] ∧
      t'.draft = { t.draft with text := t.draft.text ++ String.ofList [c] } := by
  obtain ⟨rfl, rfl, hahead, hf⟩ := ht
  have hshows : Outlook.Shows t.options t.afterWord (c :: text)
      (.piece (.blanks ((c :: text).takeWhile isLinear)) ((c :: text).dropWhile isLinear)) :=
    .blanks (Hiding.hides_of_isInert (isInert_of_isLinear hc) text) hw hv hc
  have hfirst : t.reading.cursor.peek = some c := by rw [Cursor.peek, hahead]; rfl
  obtain ⟨log, hregion, -⟩ := Scan.region_of_piece (hahead ▸ hshows) hfirst
  refine ⟨t.passBlank c log, ?_, ⟨rfl, isWord_of_isLinear hc, ?_, hf⟩, ?_, ?_⟩
  · simp only [stepByCharacter, hfirst, Scan.regionByCharacter_eq, hregion, Piece.region]
    rfl
  · simp [passBlank, copyOrdinary, hahead]
  · simp [passBlank, copyOrdinary, hahead]
  · simp [passBlank, copyOrdinary, Draft.push, isBlank_of_isLinear hc]

/-- Where no statement begins at a run of blanks, it is passed over one blank after the other. -/
theorem strides_of_blanks {run : List Char} (ht : t.Before o w (run ++ rest)) (hne : run ≠ [])
    (hrun : ∀ c ∈ run, isLinear c = true) (hw : (o.wordBoundaries && w) = false)
    (hv : (Verdict.ofText o (run ++ rest)).isNone = true) :
    ∃ t', t.Strides t' ∧ t'.Before o false rest ∧
      t'.reading.cursor.position = t.reading.cursor.position.after run ∧
      t'.draft = { t.draft with text := t.draft.text ++ String.ofList run } := by
  induction run generalizing t w with
  | nil => exact absurd rfl hne
  | cons c run ih =>
      obtain ⟨hc, hrun⟩ := List.forall_mem_cons.1 hrun
      obtain ⟨t₁, hstep, ht₁, hpos, hdraft⟩ := stepByCharacter_of_blank ht hc hw hv
      rcases run with _ | ⟨d, run⟩
      · exact ⟨t₁, .single hstep, ht₁, hpos, hdraft⟩
      -- No statement begins behind the blank either, for the matcher passes over blanks first.
      have hv₁ : (Verdict.ofText o (d :: run ++ rest)).isNone = true := by
        rw [← hv]
        exact (Verdict.isNone_cons_of_isLinear o hc _).symm
      obtain ⟨t', hstrides, ht', hpos', hdraft'⟩ :=
        ih ht₁ (by simp) hrun (Bool.and_false _) hv₁
      refine ⟨t', .head hstep hstrides, ht', ?_, ?_⟩
      · rw [hpos', hpos, ← Position.after_append, List.singleton_append]
      · rw [hdraft', hdraft, String.append_assoc, ← String.ofList_append, List.singleton_append]

/-- A step by character reads what a step reads where no run of blanks stands. -/
theorem stepByCharacter_of_shows {k : Outlook} (ht : t.Before o w text)
    (h : Outlook.Shows o w text k) (hk : ∀ run rest, k ≠ .piece (.blanks run) rest) :
    t.stepByCharacter = t.step := by
  obtain ⟨rfl, rfl, rfl, -⟩ := ht
  rw [stepByCharacter, step]
  cases hfirst : t.reading.cursor.peek with
  | none => rfl
  | some first =>
      simp only [Scan.regionByCharacter_eq]
      cases k with
      | finished =>
          rw [Cursor.peek] at hfirst
          generalize t.reading.cursor.ahead = text at h hfirst
          cases h
          cases hfirst
      | fault fault =>
          obtain ⟨r, event, hregion, -⟩ := Scan.region_of_fault h hfirst
          rw [hregion]
      | piece piece rest =>
          obtain ⟨log, hregion, -⟩ := Scan.region_of_piece h hfirst
          rw [hregion]
          cases piece with
          | blanks run => exact absurd rfl (hk run rest)
          | _ => rfl

/-! ### Two streams abreast -/

/-- Two streams that stand before the same text with the same draft. Their logs may differ. -/
structure Abreast (o : Options) (w : Bool) (text : List Char) (s t : BatchStream) : Prop where
  left : s.Before o w text
  right : t.Before o w text
  position : s.reading.cursor.position = t.reading.cursor.position
  draft : s.draft = t.draft

/-- What can be seen of two streams is the same: they stand abreast, or both have ended. -/
inductive Level (s t : BatchStream) : Prop
  | abreast {o : Options} {w : Bool} {text : List Char} (h : Abreast o w text s t)
  | ended (left : s.finished = true) (right : t.finished = true)

theorem level_ofString (o : Options) (script : String) :
    (ofString o script).Level (ofString o script) :=
  .abreast ⟨before_ofString o script, before_ofString o script, rfl, rfl⟩

/-- How a stream that is read by character keeps up with a step of another: it goes on for some
steps until the two are level again, or it does the same in one step. -/
inductive KeepsUp (t : BatchStream) : Step → Prop
  | more {s' t' : BatchStream} (strides : t.Strides t') (open_right : t'.finished = false)
      (level : s'.Level t') : KeepsUp t (.more s')
  | batch {b : Batch} {s' t' : BatchStream} (step : t.stepByCharacter = .batch b t')
      (level : s'.Level t') : KeepsUp t (.batch b s')
  | done {s' t' : BatchStream} (step : t.stepByCharacter = .done t') (level : s'.Level t') :
      KeepsUp t (.done s')
  | failed {failure : Failure} {s' t' : BatchStream}
      (step : t.stepByCharacter = .failed failure t') (level : s'.Level t') :
      KeepsUp t (.failed failure s')

namespace Abreast

/-- At the end of the script both close the draft. -/
theorem keepsUp_of_end (h : Abreast o w [] s t) : t.KeepsUp s.step := by
  obtain ⟨hs, ht, hpos, hdraft⟩ := h
  have hstep := stepByCharacter_of_shows ht .finished (by simp)
  cases hb : s.draft.finish? o .once with
  | none =>
      rw [step_of_blank_end hs hb]
      exact .done (hstep.trans (step_of_blank_end ht (hdraft ▸ hb))) (.ended rfl rfl)
  | some b =>
      obtain ⟨s', hs', hbefore, hd, hreading⟩ := moves_of_end hs hb
      obtain ⟨t', ht', hbefore', hd', hreading'⟩ := moves_of_end ht (hdraft ▸ hb)
      rw [hs.afterWord] at hbefore
      rw [ht.afterWord] at hbefore'
      rw [Moves] at hs' ht'
      rw [hs']
      refine .batch (hstep.trans ht') (.abreast ⟨hbefore, hbefore', ?_, hd.trans hd'.symm⟩)
      rw [hreading, hreading']
      exact hpos

/-- Before a construct left open both fail. -/
theorem keepsUp_of_fault {fault : Fault} (h : Abreast o w text s t)
    (hshows : Outlook.Shows o w text (.fault fault)) : t.KeepsUp s.step := by
  have hstep := stepByCharacter_of_shows h.right hshows (by simp)
  obtain ⟨r, -, hs, -⟩ := step_of_fault h.left hshows
  obtain ⟨r', -, ht, -⟩ := step_of_fault h.right hshows
  rw [hs, h.position]
  exact .failed (hstep.trans ht) (.ended rfl rfl)

/-- Where no run of blanks stands both read the same piece. -/
theorem keepsUp_of_piece {piece : Piece} (h : Abreast o w text s t)
    (hshows : Outlook.Shows o w text (.piece piece rest)) (hp : ∀ run, piece ≠ .blanks run) :
    t.KeepsUp s.step := by
  have hstep := stepByCharacter_of_shows h.right hshows (by simpa using hp)
  obtain ⟨s', hs', hbefore, hpos, hd⟩ := moves_of_piece h.left hshows
  obtain ⟨t', ht', hbefore', hpos', hd'⟩ := moves_of_piece h.right hshows
  rw [← h.draft, ← h.position] at ht' hd'
  rw [← h.position] at hpos'
  have hlevel : s'.Level t' :=
    .abreast ⟨hbefore, hbefore', hpos.trans hpos'.symm, hd.trans hd'.symm⟩
  cases hb : (s.draft.absorb o s.reading.cursor.position.line piece).2 with
  | none =>
      rw [hb, Moves] at hs' ht'
      rw [hs']
      exact .more (.single (hstep.trans ht')) hbefore'.finished hlevel
  | some b =>
      rw [hb, Moves] at hs' ht'
      rw [hs']
      exact .batch (hstep.trans ht') hlevel

/-- A run of blanks that one reads at once the other reads blank by blank. -/
theorem keepsUp_of_blanks {run : List Char} (h : Abreast o w text s t)
    (hshows : Outlook.Shows o w text (.piece (.blanks run) rest)) : t.KeepsUp s.step := by
  obtain ⟨s', hs', hbefore, hpos, hd⟩ := moves_of_text h.left hshows rfl
  have htext := Outlook.text_eq hshows
  have hne := Outlook.source_ne_nil hshows
  obtain ⟨hrun, hw, hv⟩ : (∀ c ∈ run, isLinear c = true) ∧ (o.wordBoundaries && w) = false ∧
      (Verdict.ofText o text).isNone = true := by
    cases hshows with
    | blanks hh hw hv hl => exact ⟨List.all_eq_true.1 List.all_takeWhile, hw, hv⟩
  rw [Piece.source] at htext hne hpos
  have ht := h.right
  rw [htext] at ht hv
  obtain ⟨t', hstrides, hbefore', hpos', hd'⟩ := strides_of_blanks ht hne hrun hw hv
  have hblank : allBlank (String.ofList run) = true := by
    rw [allBlank, String.toList_ofList, List.all_eq_true]
    exact fun c hc => isBlank_of_isLinear (hrun c hc)
  rw [Moves] at hs'
  rw [hs']
  refine .more hstrides hbefore'.finished (.abreast ⟨hbefore, hbefore', ?_, ?_⟩)
  · rw [hpos, hpos', h.position]
  · rw [hd, hd', ← h.draft]
    exact Draft.add_of_allBlank _ _ hblank

/-- Streams abreast keep up with each other. -/
theorem keepsUp (h : Abreast o w text s t) : t.KeepsUp s.step := by
  have hshows := Outlook.shows_ofText o w text
  cases hk : Outlook.ofText o w text with
  | finished =>
      rw [hk] at hshows
      cases hshows
      exact h.keepsUp_of_end
  | fault fault => exact h.keepsUp_of_fault (hk ▸ hshows)
  | piece piece rest =>
      rw [hk] at hshows
      by_cases hblanks : ∃ run, piece = .blanks run
      · obtain ⟨run, rfl⟩ := hblanks
        exact h.keepsUp_of_blanks hshows
      · exact h.keepsUp_of_piece hshows (by simpa using hblanks)

end Abreast

/-! ### Whole streams -/

/-- Streams that are level have both ended, or neither. -/
theorem Level.finished_eq (h : s.Level t) : s.finished = t.finished := by
  cases h with
  | abreast h => rw [h.left.finished, h.right.finished]
  | ended left right => rw [left, right]

/-- Streams that are level and have not ended keep up with each other. -/
theorem Level.keepsUp (h : s.Level t) (hs : s.finished = false) : t.KeepsUp s.step := by
  cases h with
  | abreast h => exact h.keepsUp
  | ended left => exact absurd (hs.symm.trans left) (by decide)

/-- Streams abreast come to the same, and are level again then. -/
theorem Level.run (h : s.Level t) (hf : s.finished = false) :
    s.run.1 = t.runByCharacter.1 ∧ s.run.2.Level t.runByCharacter.2 := by
  fun_induction BatchStream.run s generalizing t with
  | case1 s rest hs ih =>
      have hkeeps := h.keepsUp hf
      rw [hs] at hkeeps
      cases hkeeps with
      | more strides hright level =>
          rw [runByCharacter_of_strides strides]
          exact ih level (level.finished_eq.trans hright)
  | case2 s b rest hs =>
      have hkeeps := h.keepsUp hf
      rw [hs] at hkeeps
      cases hkeeps with
      | batch step level =>
          rw [runByCharacter_eq, step]
          exact ⟨rfl, level⟩
  | case3 s rest hs =>
      have hkeeps := h.keepsUp hf
      rw [hs] at hkeeps
      cases hkeeps with
      | done step level =>
          rw [runByCharacter_eq, step]
          exact ⟨rfl, level⟩
  | case4 s failure rest hs =>
      have hkeeps := h.keepsUp hf
      rw [hs] at hkeeps
      cases hkeeps with
      | failed step level =>
          rw [runByCharacter_eq, step]
          exact ⟨rfl, level⟩

/-- So the next batch is the same, and the streams are level behind it. -/
theorem Level.next (h : s.Level t) :
    s.next.1 = t.nextByCharacter.1 ∧ s.next.2.Level t.nextByCharacter.2 := by
  rw [BatchStream.next, nextByCharacter, ← h.finished_eq]
  cases hf : s.finished with
  | true => exact ⟨rfl, h⟩
  | false => exact h.run hf

/-- And so is every batch asked for. -/
theorem Level.take (h : s.Level t) (calls : Nat) : t.takeByCharacter calls = s.take calls := by
  induction calls generalizing s t with
  | zero => rfl
  | succ calls ih =>
      obtain ⟨hitem, hlevel⟩ := h.next
      rw [takeByCharacter, BatchStream.take]
      simp only [hitem, ih hlevel]

/-- And so are all of them together. -/
theorem Level.collect (h : s.Level t) : t.collectByCharacter.1 = s.collect.1 := by
  fun_induction BatchStream.collect s generalizing t with
  | case1 s rest hs =>
      have hitem := h.next.1
      rw [hs] at hitem
      rw [collectByCharacter_eq, ← Prod.eta t.nextByCharacter, ← hitem]
  | case2 s failure rest hs =>
      have hitem := h.next.1
      rw [hs] at hitem
      rw [collectByCharacter_eq, ← Prod.eta t.nextByCharacter, ← hitem]
  | case3 s b rest hs batches last hrest ih =>
      obtain ⟨hitem, hlevel⟩ := h.next
      rw [hs] at hitem hlevel
      have hbatches := ih hlevel
      rw [hrest] at hbatches
      rw [collectByCharacter_eq, ← Prod.eta t.nextByCharacter, ← hitem]
      simp only [hbatches]

end BatchStream

/-- **The shortcut over blanks.** Reading a run of blanks at once, where no statement begins at the
first of them, changes nothing: a script is split into the same batches, or fails in the same way,
as when every blank is read by itself. And so is a stream that is asked for one batch after the
other. -/
theorem split_byCharacter (o : Options) (script : String) :
    splitByCharacter o script = split o script ∧
      ∀ calls, (BatchStream.ofString o script).takeByCharacter calls =
        (BatchStream.ofString o script).take calls :=
  ⟨(BatchStream.level_ofString o script).collect, (BatchStream.level_ofString o script).take⟩

end BatchScript
