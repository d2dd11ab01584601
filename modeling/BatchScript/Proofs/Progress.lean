import BatchScript.Proofs.Attribution
import BatchScript.Proofs.Nesting
import BatchScript.Proofs.Speculation

/-!
# Progress

Four loops read a script: one follows a block comment to its closer, one follows quoted text to its
end, one passes over a gap, and one puts a batch together. A turn of any of them that goes on has
taken at least one character, whatever the options are; for a separator statement takes at least
its keyword, and an attempt at one that comes to nothing leaves the cursor to the other branches,
which all take something. So every loop is over after no more turns than there are characters, and
its result is that of the function which reads in its place.

What is bounded is then counted over any number of calls: the turns of the loop that puts batches
together, and the batches that come of them.

## Main results

* `Terminates.of_unfolds` — a loop that takes a character in every turn that goes on is over.
* `Comment.terminates_blockFrom`, `Quoted.terminates_bodyFrom`, `Scan.terminates_gap`,
  `BatchStream.terminates_run` — so are the four loops.
* `BatchStream.step_proceeds` — what a step comes to, from any state.
* `BatchStream.length_headsIn_le` — all calls together take no more turns than there are characters.
* `BatchStream.length_emitted_le` — they give at most one batch more than there are statements.
* `stream_progress` — all of this of the stream over a script.
-/

namespace BatchScript

/-! ### Loops -/

/-- What a turn of a loop comes to. -/
inductive Turn (σ ρ : Type)
  /-- The loop goes on from a state. -/
  | again (next : σ)
  /-- The loop is over. -/
  | stop (result : ρ)

/-- What comes of a turn in the end, where it is known what comes of the states to go on from. -/
def Turn.result {σ ρ : Type} (value : σ → ρ) : Turn σ ρ → ρ
  | .again next => value next
  | .stop result => result

/-- A loop that goes around so many times from a state, and is over then. -/
inductive Loop {σ ρ : Type} (turn : σ → Turn σ ρ) : σ → Nat → ρ → Prop
  | stop {s : σ} {result : ρ} (last : turn s = .stop result) : Loop turn s 0 result
  | again {s next : σ} {turns : Nat} {result : ρ} (first : turn s = .again next)
      (rest : Loop turn next turns result) : Loop turn s (turns + 1) result

/-- At least one character of a text is passed, and the rest is left. -/
def Takes (text rest : List Char) : Prop :=
  ∃ passed, passed ≠ [] ∧ text = passed ++ rest

theorem Takes.length_lt {text rest : List Char} (h : Takes text rest) :
    rest.length < text.length := by
  obtain ⟨passed, hne, rfl⟩ := h
  have := List.length_pos_iff.2 hne
  rw [List.length_append]
  omega

theorem takes_drop {text : List Char} {n : Nat} (hn : 1 ≤ n) (htext : text ≠ []) :
    Takes text (text.drop n) := by
  refine ⟨text.take n, ?_, (List.take_append_drop n text).symm⟩
  have hpos : n ≠ 0 := by omega
  simp [hpos, htext]

/-- A loop over a text that comes to an end from every state: a turn that goes on takes at least one
character, so that there are no more turns than characters. -/
structure Terminates {σ ρ : Type} (turn : σ → Turn σ ρ) (ahead : σ → List Char) (value : σ → ρ) :
    Prop where
  takes : ∀ s next, turn s = .again next → Takes (ahead s) (ahead next)
  ends : ∀ s, ∃ turns ≤ (ahead s).length, Loop turn s turns (value s)

/-- A loop that takes a character in every turn that goes on is over in the end, with the result
that unfolds as the loop does. -/
theorem Terminates.of_unfolds {σ ρ : Type} {turn : σ → Turn σ ρ} {ahead : σ → List Char}
    {value : σ → ρ} (takes : ∀ s next, turn s = .again next → Takes (ahead s) (ahead next))
    (unfolds : ∀ s, value s = (turn s).result value) : Terminates turn ahead value := by
  refine ⟨takes, ?_⟩
  intro s
  -- the induction is on the characters ahead, for these are what a turn takes
  induction hn : (ahead s).length using Nat.strongRecOn generalizing s with
  | ind n ih =>
      have hvalue := unfolds s
      cases hturn : turn s with
      | stop result =>
          rw [hturn] at hvalue
          refine ⟨0, Nat.zero_le _, ?_⟩
          rw [hvalue]
          exact .stop hturn
      | again next =>
          rw [hturn] at hvalue
          have hlt := (takes s next hturn).length_lt
          obtain ⟨turns, hturns, hloop⟩ := ih _ (by omega) next rfl
          refine ⟨turns + 1, by omega, ?_⟩
          rw [hvalue]
          exact .again hturn hloop

/-! ### The loop over a block comment -/

namespace Comment

/-- A turn of the loop behind the opener of a block comment, with so many comments around it and so
many characters passed: an opener, a closer, or any other character is passed. -/
def turn : Nat × Nat × List Char → Turn (Nat × Nat × List Char) Extent
  | (outer, passed, '/' :: '*' :: rest) => .again (outer + 1, passed + 2, rest)
  | (0, passed, '*' :: '/' :: _) => .stop (.closed (passed + 2))
  | (outer + 1, passed, '*' :: '/' :: rest) => .again (outer, passed + 2, rest)
  | (outer, passed, _ :: rest) => .again (outer, passed + 1, rest)
  | (outer, _, []) => .stop (.unclosed (outer + 1))

/-- Following a block comment comes to an end. -/
theorem terminates_blockFrom :
    Terminates turn (fun s => s.2.2) fun s => blockFrom s.1 s.2.1 s.2.2 := by
  refine .of_unfolds ?_ ?_
  · intro s next h
    rw [turn.eq_def] at h
    split at h
    · cases h
      exact ⟨['/', '*'], by simp, rfl⟩
    · cases h
    · cases h
      exact ⟨['*', '/'], by simp, rfl⟩
    · rename_i c rest _ _ _
      cases h
      exact ⟨[c], by simp, rfl⟩
    · cases h
  · intro s
    rw [turn.eq_def]
    split
    · rw [blockFrom]
      rfl
    · rw [blockFrom]
      rfl
    · rw [blockFrom]
      rfl
    · rw [blockFrom] <;> simp_all [Turn.result]
    · rw [blockFrom]
      rfl

end Comment

/-! ### The loop over quoted text -/

namespace Quoted

/-- A turn of the loop behind the opener of quoted text, with so many characters passed: a character
is passed, or a doubled delimiter. A delimiter that is not doubled ends it. -/
def turn (close : Char) : Nat × List Char → Turn (Nat × List Char) (Option Nat)
  | (_, []) => .stop none
  | (passed, c :: rest) =>
    if c = close then
      if rest.head? = some close then .again (passed + 2, rest.tail)
      else .stop (some (passed + 1))
    else
      .again (passed + 1, rest)

/-- Following quoted text comes to an end. -/
theorem terminates_bodyFrom (close : Char) :
    Terminates (turn close) Prod.snd fun s => bodyFrom close s.1 s.2 := by
  refine .of_unfolds ?_ ?_
  · rintro ⟨passed, text⟩ next h
    rcases text with _ | ⟨c, rest⟩
    · cases h
    · rw [turn] at h
      split at h
      · split at h
        · rename_i hd
          obtain ⟨tail, rfl⟩ := List.head?_eq_some_iff.1 hd
          cases h
          exact ⟨[c, close], by simp, rfl⟩
        · cases h
      · cases h
        exact ⟨[c], by simp, rfl⟩
  · rintro ⟨passed, text⟩
    rcases text with _ | ⟨c, _ | ⟨d, rest⟩⟩
    · rfl
    · by_cases hc : c = close
      · simp [turn, bodyFrom, Turn.result, hc]
      · simp [turn, bodyFrom, Turn.result, hc]
    · by_cases hc : c = close
      · by_cases hd : d = close
        · simp [turn, bodyFrom, Turn.result, hc, hd]
        · simp [turn, bodyFrom, Turn.result, hc, hd]
      · simp [turn, bodyFrom, Turn.result, hc]

end Quoted

/-! ### The loop over a gap -/

namespace Gap

/-- Spaces and tabs in front of a gap belong to it. -/
theorem length_eq_add_drop (text : List Char) :
    length text = (text.takeWhile isLinear).length +
      length (text.drop (text.takeWhile isLinear).length) := by
  induction text with
  | nil => simp
  | cons c rest ih =>
      by_cases hc : isLinear c = true
      · simp only [List.takeWhile_cons_of_pos hc, List.length_cons, List.drop_succ_cons]
        rw [length_cons_of_isLinear hc, ih]
        omega
      · simp [hc]

/-- Where no block comment is behind them they are all of it. -/
theorem length_eq_takeWhile {text : List Char}
    (h : ∀ n, Comment.block? (text.drop (text.takeWhile isLinear).length) ≠ some (.closed n)) :
    length text = (text.takeWhile isLinear).length := by
  induction text with
  | nil => simp
  | cons c rest ih =>
      by_cases hc : isLinear c = true
      · simp only [List.takeWhile_cons_of_pos hc, List.length_cons, List.drop_succ_cons] at h ⊢
        rw [length_cons_of_isLinear hc, ih h]
      · simp only [List.takeWhile_cons_of_neg hc, List.length_nil, List.drop_zero] at h ⊢
        exact length_eq_zero (by simpa using hc) h

end Gap

namespace Scan

/-- A turn of the loop over a gap: a run of spaces and tabs, and a block comment behind it. The gap
is over where there is neither. -/
def gapTurn (r : Reading) : Turn Reading (EStateM.Result Failure Reading Unit) :=
  let blanks := (r.cursor.ahead.takeWhile isLinear).length
  match blockComment (r.skip blanks) with
  | .ok found r' => if blanks = 0 ∧ found = false then .stop (.ok () r') else .again r'
  | .error failure r' => .stop (.error failure r')

/-- A gap is passed over, and a block comment behind it is not closed. -/
theorem gap_eq (r : Reading) :
    gap r =
      match blockComment (r.skip (Gap.length r.cursor.ahead)) with
      | .ok _ r' => .ok () r'
      | .error failure r' => .error failure r' := by
  simp only [gap, cursor, skip, Bind.bind, EStateM.bind]
  cases blockComment (r.skip (Gap.length r.cursor.ahead)) <;> rfl

/-- What is left of a gap behind a part of it comes to what the gap comes to. -/
theorem gap_skip {r : Reading} {n : Nat}
    (h : Gap.length r.cursor.ahead = n + Gap.length (r.cursor.ahead.drop n)) :
    gap (r.skip n) = gap r := by
  rw [gap_eq, gap_eq, Reading.ahead_skip, Reading.skip_skip, h]

/-- A turn that goes on has passed over a part of the gap. -/
theorem exists_skip_of_gapTurn {r next : Reading} (h : gapTurn r = .again next) :
    ∃ n, 1 ≤ n ∧ n ≤ r.cursor.ahead.length ∧ next = r.skip n ∧
      Gap.length r.cursor.ahead = n + Gap.length (r.cursor.ahead.drop n) := by
  have hlength := Gap.length_eq_add_drop r.cursor.ahead
  have hle := (List.takeWhile_prefix (p := isLinear) (l := r.cursor.ahead)).length_le
  simp only [gapTurn, blockComment_run, Reading.ahead_skip] at h
  generalize (r.cursor.ahead.takeWhile isLinear).length = blanks at h hlength hle
  cases hb : Comment.block? (r.cursor.ahead.drop blanks) with
  | none =>
      rw [hb] at h
      by_cases hblanks : blanks = 0
      · simp [hblanks] at h
      · simp only [hblanks, false_and, if_false, Turn.again.injEq] at h
        exact ⟨blanks, by omega, hle, h.symm, hlength⟩
  | some extent =>
      rw [hb] at h
      cases extent with
      | closed n =>
          simp only [Bool.true_eq_false, and_false, if_false, Turn.again.injEq,
            Reading.skip_skip] at h
          have hn := Comment.four_le_of_block? hb
          have hcomment := Comment.block?_le hb
          rw [List.length_drop] at hcomment
          rw [Gap.length_of_closed hb, List.drop_drop] at hlength
          exact ⟨blanks + n, by omega, by omega, h.symm, by omega⟩
      | unclosed depth => cases h

/-- A turn that ends the loop has found what the gap comes to. -/
theorem gap_of_stop {r : Reading} {result : EStateM.Result Failure Reading Unit}
    (h : gapTurn r = .stop result) : gap r = result := by
  have hclosed : ∀ n, Comment.block?
      (r.cursor.ahead.drop (r.cursor.ahead.takeWhile isLinear).length) ≠ some (.closed n) := by
    intro n hn
    simp [gapTurn, blockComment_run, hn] at h
  rw [gap_eq, Gap.length_eq_takeWhile hclosed]
  rw [gapTurn] at h
  cases hrun : blockComment (r.skip (r.cursor.ahead.takeWhile isLinear).length) with
  | ok found r' =>
      simp only [hrun] at h
      split at h
      · cases h
        rfl
      · cases h
  | error failure r' =>
      simp only [hrun] at h
      cases h
      rfl

/-- Passing over a gap comes to an end. -/
theorem terminates_gap : Terminates gapTurn (fun r => r.cursor.ahead) gap := by
  refine .of_unfolds ?_ ?_
  · intro r next h
    obtain ⟨n, hn, hle, rfl, -⟩ := exists_skip_of_gapTurn h
    have hne : r.cursor.ahead ≠ [] := List.ne_nil_of_length_pos (by omega)
    rw [Reading.ahead_skip]
    exact takes_drop hn hne
  · intro r
    cases hturn : gapTurn r with
    | again next =>
        obtain ⟨n, -, -, rfl, hlength⟩ := exists_skip_of_gapTurn hturn
        exact (gap_skip hlength).symm
    | stop result => exact gap_of_stop hturn

end Scan

/-! ### The loop over regions -/

/-- The stream behind a step that has read something stands further right. -/
structure BatchStream.Advances (s next : BatchStream) : Prop where
  /-- It has moved forward, and holds the checkpoints that it held. -/
  forward : ∃ n, next.reading.cursor = s.reading.cursor.skip n
  /-- It has passed over something. -/
  takes : Takes s.reading.cursor.ahead next.reading.cursor.ahead
  /-- So it stands at a later byte of the script. -/
  offset_lt : s.reading.cursor.position.offset < next.reading.cursor.position.offset

namespace BatchStream

variable {s next : BatchStream}

theorem Advances.remaining_lt (h : s.Advances next) : next.remaining < s.remaining :=
  h.takes.length_lt

theorem ahead_ne_nil (begun : s.reading.cursor.peek ≠ none) : s.reading.cursor.ahead ≠ [] := by
  intro hnil
  exact begun (by rw [Cursor.peek, hnil]; rfl)

theorem advances_of_skip {n : Nat} (begun : s.reading.cursor.peek ≠ none) (hn : 1 ≤ n)
    (h : next.reading.cursor = s.reading.cursor.skip n) : s.Advances next := by
  have hne := ahead_ne_nil begun
  have hpos : n ≠ 0 := by omega
  have hbytes : 0 < bytes (s.reading.cursor.ahead.take n) := bytes_pos (by simp [hpos, hne])
  refine ⟨⟨n, h⟩, ?_, ?_⟩
  · rw [h, Cursor.ahead_skip]
    exact takes_drop hn hne
  · rw [h, Cursor.position_skip, Position.offset_after_bytes]
    omega

/-- A turn of the loop that puts a batch together: one step. -/
def turn (s : BatchStream) : Turn BatchStream (Option (Except Failure Batch) × BatchStream) :=
  match s.step with
  | .more rest => .again rest
  | last => .stop (last.item, last.rest)

/-- Whether the next step of a stream reads a separator statement. -/
def readsStatement (s : BatchStream) : Bool :=
  s.visit?.any Visit.isStatement

/-- What a step from a state comes to. -/
inductive Proceeds (s : BatchStream) : Step → Prop
  /-- A region is read that completes no batch, and the stream stands further right. It may be a
  statement that closes a blank draft. -/
  | more {rest : BatchStream} (begun : s.reading.cursor.peek ≠ none) (advances : s.Advances rest)
      (goesOn : rest.finished = s.finished) : Proceeds s (.more rest)
  /-- A statement is read that closes a batch, and the stream stands further right. -/
  | closed {b : Batch} {rest : BatchStream} (begun : s.reading.cursor.peek ≠ none)
      (statement : s.readsStatement = true) (advances : s.Advances rest) :
      Proceeds s (.batch b rest)
  /-- The end of the script closes a batch, and leaves a blank draft there. -/
  | last {b : Batch} {rest : BatchStream} (atEnd : s.reading.cursor.peek = none)
      (stays : rest.reading.cursor = s.reading.cursor) (blank : rest.draft = {}) :
      Proceeds s (.batch b rest)
  /-- The script ends, and the stream with it. -/
  | done {rest : BatchStream} (atEnd : s.reading.cursor.peek = none)
      (finished : rest.finished = true) : Proceeds s (.done rest)
  /-- The script cannot be split, and the stream ends. -/
  | failed {failure : Failure} {rest : BatchStream} (begun : s.reading.cursor.peek ≠ none)
      (finished : rest.finished = true) : Proceeds s (.failed failure rest)

theorem conclude_proceeds (hpeek : s.reading.cursor.peek = none) : s.Proceeds s.conclude := by
  have hcursor := s.cursor_close .once
  have hdraft := s.draft_close .once
  rw [conclude]
  rcases hclose : s.close .once with ⟨_ | b, rest⟩
  · exact .done hpeek rfl
  · rw [hclose] at hcursor hdraft
    exact .last hpeek hcursor hdraft

/-- What follows a region just read. The stream stands behind it, whatever comes of it. -/
theorem absorb_proceeds {first : Char} {region : Region} {reading : Reading} {line : Nat}
    (hpeek : s.reading.cursor.peek = some first)
    (hrun : Scan.region s.options s.afterWord first s.reading = .ok region reading) :
    s.Proceeds (absorb { s with reading } line region) := by
  have hbegun : s.reading.cursor.peek ≠ none := by simp [hpeek]
  obtain ⟨n, hn, hcursor⟩ := Scan.region_ok hpeek hrun
  have hadvances {rest : BatchStream} (h : rest.reading.cursor = reading.cursor) :
      s.Advances rest := advances_of_skip hbegun hn (h.trans hcursor)
  cases region with
  | separator count =>
      have hstatement : s.readsStatement = true := by
        simp [readsStatement, visit?, hpeek, hrun, Visit.isStatement]
      have hclosed := cursor_close (noteSeparator { s with reading } count) count
      have hgoesOn := finished_close (noteSeparator { s with reading } count) count
      rw [absorb, separate]
      rcases hclose : (noteSeparator { s with reading } count).close count with ⟨_ | b, rest⟩
      · rw [hclose] at hclosed hgoesOn
        exact .more hbegun (hadvances hclosed) hgoesOn
      · rw [hclose] at hclosed
        exact .closed hbegun hstatement (hadvances hclosed)
  | _ => exact .more hbegun (hadvances rfl) rfl

/-- What a step comes to, from any state. -/
theorem step_proceeds (s : BatchStream) : s.Proceeds s.step := by
  rw [step]
  cases hpeek : s.reading.cursor.peek with
  | none => exact conclude_proceeds hpeek
  | some first =>
      simp only
      cases hrun : Scan.region s.options s.afterWord first s.reading with
      | ok region reading => exact absorb_proceeds hpeek hrun
      | error failure reading => exact .failed (by simp [hpeek]) rfl

/-- Putting a batch together comes to an end. -/
theorem terminates_run : Terminates turn (fun s => s.reading.cursor.ahead) run := by
  refine .of_unfolds ?_ ?_
  · intro s next h
    have hstep := s.step_proceeds
    rw [turn] at h
    split at h
    · rename_i hs
      cases h
      rw [hs] at hstep
      cases hstep with
      | more _ advances _ => exact advances.takes
    · cases h
  · intro s
    rw [run, turn]
    cases s.step <;> rfl

/-! ### Turns in all calls together -/

/-- The states at the head of each turn that reads a region, up to the next batch or to where
reading stops. -/
def heads (s : BatchStream) : List BatchStream :=
  match s.reading.cursor.peek with
  | none => []
  | some _ =>
    s :: match _h : s.step with
      | .more rest => rest.heads
      | _ => []
termination_by s.remaining
decreasing_by exact remaining_of_more _h

theorem heads_of_atEnd (h : s.reading.cursor.peek = none) : s.heads = [] := by
  rw [heads, h]

theorem heads_of_more (begun : s.reading.cursor.peek ≠ none) (h : s.step = .more next) :
    s.heads = s :: next.heads := by
  rw [heads]
  split
  · contradiction
  · split <;> simp_all

theorem heads_of_stop (begun : s.reading.cursor.peek ≠ none) (h : ∀ rest, s.step ≠ .more rest) :
    s.heads = [s] := by
  rw [heads]
  split
  · contradiction
  · split <;> simp_all

/-- The states at the head of each turn, in so many calls. A stream that has ended takes none. -/
def headsIn (s : BatchStream) : Nat → List BatchStream
  | 0 => []
  | calls + 1 => (if s.finished then [] else s.heads) ++ s.next.2.headsIn calls

/-- How many characters a stream may still read: none once it has ended. -/
def unread (s : BatchStream) : Nat :=
  if s.finished then 0 else s.remaining

theorem unread_of_finished (hf : s.finished = true) : s.unread = 0 := if_pos hf

theorem unread_eq_remaining (hf : s.finished = false) : s.unread = s.remaining := by
  simp only [unread, hf, Bool.false_eq_true, if_false]

theorem unread_le_remaining (s : BatchStream) : s.unread ≤ s.remaining := by
  rw [unread]
  split <;> omega

/-- Nothing more comes of a stream: it has ended, or stands at the end of the script with a blank
draft. -/
def Spent (s : BatchStream) : Prop :=
  s.finished = true ∨ s.reading.cursor.peek = none ∧ s.draft = {}

/-- What a call comes to, with the states at the head of its turns: each turn has a character to
itself; there is a statement among what is read, or nothing more comes of the stream; and where no
batch is given the stream ends. -/
structure Answers (s : BatchStream) (heads : List BatchStream)
    (item : Option (Except Failure Batch)) (rest : BatchStream) : Prop where
  length_le : heads.length + rest.unread ≤ s.unread
  closed_or_spent : 0 < heads.countP readsStatement ∨ rest.Spent
  finished : (∀ b, item ≠ some (.ok b)) → rest.finished = true

theorem run_answers (hf : s.finished = false) : s.Answers s.heads s.run.1 s.run.2 := by
  have hstep := s.step_proceeds
  have hunread := unread_eq_remaining hf
  fun_induction run s with
  | case1 s rest hs ih =>
      rw [hs] at hstep
      cases hstep with
      | more begun advances goesOn =>
          have hrest := goesOn.trans hf
          have hunread' := unread_eq_remaining hrest
          have hlt := advances.remaining_lt
          obtain ⟨hlength, hclosed, hfinished⟩ := ih hrest rest.step_proceeds hunread'
          rw [heads_of_more begun hs]
          refine ⟨?_, ?_, hfinished⟩
          · rw [List.length_cons]
            omega
          · refine hclosed.imp_left fun hpos => ?_
            rw [List.countP_cons]
            omega
  | case2 s b rest hs =>
      have hle := rest.unread_le_remaining
      rw [hs] at hstep
      change s.Answers s.heads (some (.ok b)) rest
      cases hstep with
      | closed begun statement advances =>
          have hlt := advances.remaining_lt
          rw [heads_of_stop begun (by simp [hs])]
          refine ⟨?_, .inl ?_, fun h => absurd rfl (h b)⟩
          · rw [List.length_singleton]
            omega
          · rw [List.countP_singleton, if_pos statement]
            exact Nat.one_pos
      | last atEnd stays blank =>
          have hremaining : rest.remaining = s.remaining := by rw [remaining, remaining, stays]
          rw [heads_of_atEnd atEnd]
          refine ⟨?_, .inr (.inr ⟨by rw [stays, atEnd], blank⟩), fun h => absurd rfl (h b)⟩
          rw [List.length_nil]
          omega
  | case3 s rest hs =>
      rw [hs] at hstep
      change s.Answers s.heads none rest
      cases hstep with
      | done atEnd finished =>
          have hnone := unread_of_finished finished
          rw [heads_of_atEnd atEnd]
          refine ⟨?_, .inr (.inl finished), fun _ => finished⟩
          rw [List.length_nil]
          omega
  | case4 s failure rest hs =>
      rw [hs] at hstep
      change s.Answers s.heads (some (.error failure)) rest
      cases hstep with
      | failed begun finished =>
          have hnone := unread_of_finished finished
          have hpos : 0 < s.remaining := List.length_pos_iff.2 (ahead_ne_nil begun)
          rw [heads_of_stop begun (by simp [hs])]
          refine ⟨?_, .inr (.inl finished), fun _ => finished⟩
          rw [List.length_singleton]
          omega

/-- What a call comes to. -/
theorem next_answers (s : BatchStream) :
    s.Answers (if s.finished then [] else s.heads) s.next.1 s.next.2 := by
  cases hf : s.finished with
  | true =>
      rw [next_of_finished hf]
      exact ⟨by simp, .inr (.inl hf), fun _ => hf⟩
  | false =>
      rw [next_eq_run hf]
      exact run_answers hf

/-- All calls together take no more turns than there are characters to read. -/
theorem length_headsIn_le (s : BatchStream) (calls : Nat) :
    (s.headsIn calls).length ≤ s.unread := by
  induction calls generalizing s with
  | zero => exact Nat.zero_le _
  | succ calls ih =>
      have hcall := s.next_answers.length_le
      have hrest := ih s.next.2
      rw [headsIn, List.length_append]
      omega

/-! ### What calls give -/

theorem eq_none_of_mem_given {item : Option (Except Failure Batch)} {calls : Nat}
    (h : item ∈ given [] calls) : item = none := by
  induction calls with
  | zero => cases h
  | succ calls ih =>
      rcases List.mem_cons.1 h with h | h
      · exact h
      · exact ih h

/-- A stream of which nothing more comes gives nothing. -/
theorem take_of_spent (h : s.Spent) (calls : Nat) : s.take calls = given [] calls := by
  cases hf : s.finished with
  | true => exact take_of_finished hf calls
  | false =>
      rcases h with h | ⟨hpeek, hdraft⟩
      · rw [hf] at h
        cases h
      · have hblank : s.draft.finish? s.options .once = none := by
          rw [hdraft]
          rfl
        have hstep : s.step = .done { s with draft := {}, finished := true } := by
          simp only [step, hpeek, conclude, close, hblank]
        exact take_of_next (next_of_done hf hstep) rfl calls

theorem emitted_of_spent (h : s.Spent) (calls : Nat) : s.emitted calls = [] := by
  rw [emitted, take_of_spent h, List.filterMap_eq_nil_iff]
  intro item hitem
  rw [eq_none_of_mem_given hitem]
  rfl

/-- A batch is closed by a statement, or it is the last. -/
theorem length_emitted_le (s : BatchStream) (calls : Nat) :
    (s.emitted calls).length ≤ (s.headsIn calls).countP readsStatement + 1 := by
  induction calls generalizing s with
  | zero => exact Nat.zero_le _
  | succ calls ih =>
      have hone : (s.emitted (calls + 1)).length ≤ 1 + (s.next.2.emitted calls).length := by
        rw [emitted, take_succ, List.filterMap_cons]
        split
        · exact Nat.le_add_left _ _
        · rw [List.length_cons, Nat.add_comm]
          exact Nat.le_refl _
      rw [headsIn, List.countP_append]
      rcases s.next_answers.closed_or_spent with hclosed | hspent
      · have hrest := ih s.next.2
        omega
      · rw [emitted_of_spent hspent] at hone
        rw [List.length_nil] at hone
        omega

/-- Once no batch has been given nothing is given. -/
theorem eq_none_of_take {calls : Nat} {before after : List (Option (Except Failure Batch))}
    {item : Option (Except Failure Batch)} (h : s.take calls = before ++ item :: after)
    (hitem : ∀ b, item ≠ some (.ok b)) : ∀ later ∈ after, later = none := by
  induction calls generalizing s before with
  | zero => simp [take] at h
  | succ calls ih =>
      rw [take_succ] at h
      cases before with
      | nil =>
          obtain ⟨rfl, rfl⟩ := List.cons.inj h
          rw [take_of_finished (s.next_answers.finished hitem)]
          intro later hlater
          exact eq_none_of_mem_given hlater
      | cons first before => exact ih (List.cons.inj h).2

end BatchStream

/-- **Progress.** Every turn that goes on takes at least one character: of the loop that follows a
block comment, whatever stands around it; of the loop over quoted text, whatever its delimiter; of
the loop over a gap, and of the loop over regions, from any reading and any state of a stream, under
any options. So each of them comes to an end, with the result that is read in its place. Of the
steps of a stream, only one that ends it, or that closes the last batch at the end of the script,
may leave it where it was. Whatever the number of calls, together they take no more turns than the
script has characters, and give at most one batch more than they read statements; and once one of
them has given none, or a failure, all that follow give none. -/
theorem stream_progress (o : Options) (script : String) :
    Terminates Comment.turn (fun s => s.2.2) (fun s => Comment.blockFrom s.1 s.2.1 s.2.2) ∧
      (∀ close, Terminates (Quoted.turn close) Prod.snd fun s => Quoted.bodyFrom close s.1 s.2) ∧
      Terminates Scan.gapTurn (fun r => r.cursor.ahead) Scan.gap ∧
      Terminates BatchStream.turn (fun s => s.reading.cursor.ahead) BatchStream.run ∧
      (∀ s : BatchStream, s.Proceeds s.step) ∧
      ∀ calls,
        ((BatchStream.ofString o script).headsIn calls).length ≤ script.length ∧
          ((BatchStream.ofString o script).emitted calls).length ≤
            ((BatchStream.ofString o script).headsIn calls).countP BatchStream.readsStatement + 1 ∧
          ∀ before item after,
            (BatchStream.ofString o script).take calls = before ++ item :: after →
              (∀ b, item ≠ some (.ok b)) → ∀ later ∈ after, later = none := by
  refine ⟨Comment.terminates_blockFrom, Quoted.terminates_bodyFrom, Scan.terminates_gap,
    BatchStream.terminates_run, BatchStream.step_proceeds, ?_⟩
  intro calls
  refine ⟨?_, BatchStream.length_emitted_le _ calls, ?_⟩
  · have hunread : (BatchStream.ofString o script).unread = script.length := by
      rw [← String.length_toList]
      rfl
    rw [← hunread]
    exact BatchStream.length_headsIn_le _ calls
  · intro before item after htake hitem
    exact BatchStream.eq_none_of_take htake hitem

end BatchScript
