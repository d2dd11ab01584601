import BatchScript.Proofs.Truncation

/-!
# Streams cut between two batches

A stream that has given some batches stands behind the separator statement that closed the last of
them, or at the end of the script, and remembers nothing of what is before it. What it gives from
there on is what a fresh stream over the rest of the script gives, with lines and columns counted
from where the rest begins. And the batches that it has given do not depend on the rest.

## Main results

* `take_of_halt` — what a stream gives along a passage to where reading stops.
* `exists_cut` — where a stream stands behind some batches, and how they were delivered.
* `outcomes_shift` — further down in a script the same is given, on lower lines.
* `exists_cut_of_take` — a script can be cut where a stream stands, and both parts read alone.
-/

namespace BatchScript

/-! ### What a stream gives -/

namespace BatchStream

/-- The stream behind so many outcomes. -/
def drop (s : BatchStream) : Nat → BatchStream
  | 0 => s
  | calls + 1 => s.next.2.drop calls

end BatchStream

/-- What is given to so many calls out of some outcomes: one after the other, and then nothing. -/
def given : List (Except Failure Batch) → Nat → List (Option (Except Failure Batch))
  | _, 0 => []
  | [], calls + 1 => none :: given [] calls
  | item :: outcomes, calls + 1 => some item :: given outcomes calls

theorem given_map (f : Except Failure Batch → Except Failure Batch)
    (outcomes : List (Except Failure Batch)) (calls : Nat) :
    given (outcomes.map f) calls = (given outcomes calls).map (Option.map f) := by
  induction calls generalizing outcomes with
  | zero => cases outcomes <;> rfl
  | succ calls ih =>
      cases outcomes with
      | nil => simpa [given] using ih []
      | cons item outcomes => simp [given, ih]

/-- What is given to as many calls as there are outcomes. -/
theorem given_length (items : List (Except Failure Batch)) :
    given items items.length = items.map some := by
  induction items with
  | nil => rfl
  | cons item items ih => rw [List.length_cons, given, ih, List.map_cons]

/-- What pieces give before reading stops: the batches that they complete, and the last batch or the
failure behind them. -/
def outcomes (o : Options) (d : Draft) (p : Position) (pieces : List Piece) (rest : List Char) :
    Option Fault → List (Except Failure Batch)
  | none => (delivery o d p pieces).map .ok
  | some fault =>
    (deliver o d p pieces).2.map .ok ++
      [.error (.malformed (fault.malformed (p.after (sources pieces)) rest))]

theorem outcomes_nil (o : Options) (d : Draft) (p : Position) :
    outcomes o d p [] [] none = (d.finish? o .once).toList.map .ok := rfl

theorem outcomes_cons (o : Options) (d : Draft) (p : Position) (piece : Piece)
    (pieces : List Piece) (rest : List Char) (fault : Option Fault) :
    outcomes o d p (piece :: pieces) rest fault =
      (d.absorb o p.line piece).2.toList.map .ok ++
        outcomes o (d.absorb o p.line piece).1 (p.after piece.source) pieces rest fault := by
  cases fault <;> simp [outcomes, delivery, deliver]

/-- A piece that completes a batch is a separator statement, and leaves an empty draft. -/
theorem Draft.absorb_eq_some {o : Options} {d : Draft} {line : Nat} {piece : Piece} {b : Batch}
    (h : (d.absorb o line piece).2 = some b) :
    piece.isSeparator = true ∧ (d.absorb o line piece).1 = {} := by
  cases hp : piece.isSeparator with
  | false =>
      rw [absorb_text hp] at h
      cases h
  | true =>
      obtain ⟨count, statement, rfl⟩ := Piece.eq_separator hp
      exact ⟨rfl, rfl⟩

namespace BatchStream

variable {s s' : BatchStream} {o : Options} {w w' : Bool} {text rest : List Char}
  {pieces : List Piece}

theorem take_succ (s : BatchStream) (calls : Nat) :
    s.take (calls + 1) = s.next.1 :: s.next.2.take calls := rfl

/-- What a stream gives is what a step completes, and what it gives then. -/
theorem take_of_moves {b : Option Batch} {items : List (Except Failure Batch)}
    (hf : s.finished = false) (hf' : s'.finished = false) (h : s.Moves b s')
    (hs' : ∀ calls, s'.take calls = given items calls) (calls : Nat) :
    s.take calls = given (b.toList.map .ok ++ items) calls := by
  rcases b with _ | b
  · rw [Option.toList_none, List.map_nil, List.nil_append, ← hs' calls]
    cases calls with
    | zero => rfl
    | succ calls => rw [take_succ, take_succ, next_of_more hf hf' h]
  · cases calls with
    | zero => rfl
    | succ calls =>
        rw [take_succ, next_of_batch hf h, Option.toList_some, List.map_singleton,
          List.singleton_append, given, hs']

/-- A stream that has ended gives nothing. -/
theorem take_of_finished (hf : s.finished = true) (calls : Nat) :
    s.take calls = given [] calls := by
  induction calls with
  | zero => rfl
  | succ calls ih =>
      rw [take_succ, next_of_finished hf, given, ih]

/-- What is given last. -/
theorem take_of_next {item : Option (Except Failure Batch)} {rest : BatchStream}
    (h : s.next = (item, rest)) (hf : rest.finished = true) (calls : Nat) :
    s.take calls = given item.toList calls := by
  cases calls with
  | zero => cases item <;> rfl
  | succ calls =>
      rw [take_succ, h, take_of_finished hf]
      cases item <;> rfl

/-- What a stream gives along a passage to where reading stops. -/
theorem take_of_halt {fault : Option Fault} (hs : s.Before o w text)
    (h : Passage o w text pieces w' rest) (hh : Halt o w' rest fault) (calls : Nat) :
    s.take calls =
      given (outcomes o s.draft s.reading.cursor.position pieces rest fault) calls := by
  induction h generalizing s calls with
  | stay w text =>
      cases hh with
      | fault shows =>
          obtain ⟨⟨last, hnext, hf⟩, -⟩ := next_of_fault hs shows
          exact take_of_next hnext hf calls
      | finished =>
          cases hb : s.draft.finish? o .once with
          | none =>
              obtain ⟨⟨last, hnext, hf⟩, -⟩ := next_of_blank_end hs hb
              rw [take_of_next hnext hf, outcomes_nil, hb]
              rfl
          | some b =>
              obtain ⟨s', hmoves, hs', hd, -⟩ := moves_of_end hs hb
              have hblank : s'.draft.finish? o .once = none := by rw [hd]; rfl
              obtain ⟨⟨last, hnext, hf⟩, -⟩ := next_of_blank_end hs' hblank
              rw [take_of_moves hs.finished hs'.finished hmoves (take_of_next hnext hf),
                outcomes_nil, hb]
              rfl
  | step shows _ ih =>
      obtain ⟨s', hmoves, hs', hpos, hd⟩ := moves_of_piece hs shows
      have hrest := ih hs' hh
      rw [hpos, hd] at hrest
      rw [outcomes_cons]
      exact take_of_moves hs.finished hs'.finished hmoves hrest calls

/-! ### Where a stream stands behind its batches -/

/-- Where a stream stands behind its next batch: behind the statement that closes it, or at the end
of the script. Its draft is empty there. -/
theorem exists_cut_of_next {b : Batch} (hs : s.Before o w text) (h : s.next = (some (.ok b), s')) :
    ∃ pieces w' rest, Passage o w text pieces w' rest ∧ s'.Before o w' rest ∧ s'.draft = {} ∧
      s'.reading.cursor.position = s.reading.cursor.position.after (sources pieces) ∧
      ((deliver o s.draft s.reading.cursor.position pieces = ({}, [b]) ∧
          ∃ piece ∈ pieces.getLast?, piece.isSeparator = true) ∨
        (rest = [] ∧ delivery o s.draft s.reading.cursor.position pieces = [b])) := by
  obtain ⟨pieces, w', rest, fault, hp, hh⟩ := exists_passage o w text
  induction hp generalizing s with
  | stay w text =>
      cases hh with
      | fault shows =>
          obtain ⟨⟨last, hnext, -⟩, -⟩ := next_of_fault hs shows
          rw [h] at hnext
          cases hnext
      | finished =>
          cases hb : s.draft.finish? o .once with
          | none =>
              obtain ⟨⟨last, hnext, -⟩, -⟩ := next_of_blank_end hs hb
              rw [h] at hnext
              cases hnext
          | some b' =>
              obtain ⟨s₁, hmoves, hs₁, hd, hreading⟩ := moves_of_end hs hb
              rw [next_of_batch hs.finished hmoves] at h
              cases h
              refine ⟨[], _, [], .stay w [], by rwa [hs.afterWord] at hs₁, hd,
                by rw [hreading]; rfl,
                .inr ⟨rfl, ?_⟩⟩
              rw [delivery, deliver, hb]
              rfl
  | @step _ _ _ _ _ piece pieces shows _ ih =>
      obtain ⟨s₁, hmoves, hs₁, hpos, hd⟩ := moves_of_piece hs shows
      cases hb : (s.draft.absorb o s.reading.cursor.position.line piece).2 with
      | some b' =>
          rw [hb] at hmoves
          rw [next_of_batch hs.finished hmoves] at h
          cases h
          obtain ⟨hsep, hempty⟩ := Draft.absorb_eq_some hb
          refine ⟨[piece], _, _, .step shows (.stay _ _), hs₁, hd.trans hempty, ?_,
            .inl ⟨?_, piece, rfl, hsep⟩⟩
          · rw [hpos, sources_cons, sources_nil, List.append_nil]
          · simp only [deliver, hb, hempty, Option.toList_some, List.append_nil]
      | none =>
          rw [hb] at hmoves
          rw [next_of_more hs.finished hs₁.finished hmoves] at h
          obtain ⟨more, w', rest, hmore, hs', hd', hpos', hcut⟩ := ih hs₁ h hh
          refine ⟨piece :: more, w', rest, .step shows hmore, hs', hd', ?_, ?_⟩
          · rw [hpos', hpos, sources_cons, Position.after_append]
          · rw [hpos, hd] at hcut
            have hdeliver : deliver o s.draft s.reading.cursor.position (piece :: more) =
                deliver o (s.draft.absorb o s.reading.cursor.position.line piece).1
                  (s.reading.cursor.position.after piece.source) more := by
              simp only [deliver, hb, Option.toList_none, List.nil_append]
            rw [delivery, hdeliver, ← delivery]
            rcases hcut with ⟨hcut, last, hlast, hsep⟩ | hcut
            · refine .inl ⟨hcut, last, ?_, hsep⟩
              rw [List.getLast?_cons, Option.mem_def.1 hlast]
              rfl
            · exact .inr hcut

/-- Where a stream stands behind some batches, and how they were delivered. -/
theorem exists_cut {batches : List Batch} (hs : s.Before o w text) (hd : s.draft = {})
    (h : s.take batches.length = batches.map fun b => some (.ok b)) :
    ∃ pieces w' rest, Passage o w text pieces w' rest ∧ (s.drop batches.length).Before o w' rest ∧
      (s.drop batches.length).draft = {} ∧
      (s.drop batches.length).reading.cursor.position =
        s.reading.cursor.position.after (sources pieces) ∧
      ((deliver o {} s.reading.cursor.position pieces = ({}, batches) ∧
          ∀ piece ∈ pieces.getLast?, piece.isSeparator = true) ∨
        (rest = [] ∧ delivery o {} s.reading.cursor.position pieces = batches)) := by
  induction batches generalizing s w text with
  | nil => exact ⟨[], w, text, .stay w text, hs, hd, rfl, .inl ⟨rfl, by simp⟩⟩
  | cons b batches ih =>
      rw [List.length_cons, take_succ, List.map_cons, List.cons.injEq] at h
      obtain ⟨pieces, w₁, rest₁, hp, hs₁, hd₁, hpos, hcut⟩ :=
        exists_cut_of_next hs (show s.next = (some (.ok b), s.next.2) by rw [← h.1])
      obtain ⟨more, w₂, rest₂, hmore, hs₂, hd₂, hpos₂, hcut₂⟩ := ih hs₁ hd₁ h.2
      rw [hd] at hcut
      rw [hpos] at hpos₂ hcut₂
      refine ⟨pieces ++ more, w₂, rest₂, hp.append hmore, hs₂, hd₂, ?_, ?_⟩
      · rw [List.length_cons, drop, hpos₂, sources_append, Position.after_append]
      rcases hcut with ⟨hfirst, last, hlast, hsep⟩ | ⟨rfl, hfirst⟩
      · rcases hcut₂ with ⟨hsecond, hlast₂⟩ | ⟨hrest, hsecond⟩
        · refine .inl ⟨?_, fun piece hpiece => ?_⟩
          · rw [deliver_append, hfirst]
            simp only [hsecond, List.singleton_append]
          · rw [List.getLast?_append] at hpiece
            cases hmorelast : more.getLast? with
            | some piece' =>
                rw [hmorelast, Option.some_or, Option.mem_some_iff] at hpiece
                exact hlast₂ piece (by rw [hmorelast, hpiece]; rfl)
            | none =>
                rw [hmorelast, Option.none_or, Option.mem_def.1 hlast,
                  Option.mem_some_iff] at hpiece
                rwa [← hpiece]
        · refine .inr ⟨hrest, ?_⟩
          rw [delivery_append, hfirst]
          simp only [hsecond, List.singleton_append]
      · obtain rfl := hmore.eq_nil_of_nil
        have hnone : batches = [] := by
          rcases hcut₂ with ⟨hsecond, -⟩ | ⟨-, hsecond⟩
          · exact (Prod.mk.inj hsecond).2.symm
          · exact hsecond.symm
        cases hmore
        rw [List.append_nil, hnone]
        exact .inr ⟨rfl, hfirst⟩

end BatchStream

/-! ### Lower lines -/

/-- An error found in a text that begins at a position in a script: where it is in the script. -/
def Malformed.shift (p : Position) (e : Malformed) : Malformed :=
  { e with
    line := p.line - 1 + e.line,
    column := if e.line = 1 then p.column - 1 + e.column else e.column }

/-- What a text that begins at a position in a script gives: as it is given by the script. -/
def shiftOutcome (p : Position) : Except Failure Batch → Except Failure Batch
  | .ok b => .ok (b.shift (p.line - 1))
  | .error (.malformed e) => .error (.malformed (e.shift p))
  | .error (.misuse m) => .error (.misuse m)

theorem Fault.malformed_shift (fault : Fault) (p : Position) {q : Position} (hq : 1 ≤ q.line)
    (text : List Char) :
    fault.malformed (p.shift q) text = (fault.malformed q text).shift p := by
  simp only [Fault.malformed, Malformed.shift, Position.after_shift p hq]
  rfl

/-- Further down in a script the same is given, on lower lines. -/
theorem outcomes_shift {o : Options} {p : Position} (hp : 1 ≤ p.line ∧ 1 ≤ p.column)
    (pieces : List Piece) (rest : List Char) (fault : Option Fault) :
    outcomes o {} p pieces rest fault =
      (outcomes o {} {} pieces rest fault).map (shiftOutcome p) := by
  cases fault with
  | none =>
      rw [outcomes, outcomes, delivery_shift hp, List.map_map, List.map_map]
      rfl
  | some fault =>
      have hdeliver := (deliver_shift (o := o) Draft.marked_empty p (q := {}) (by decide) pieces).1
      have hafter := Position.after_shift p (q := {}) (by decide) (sources pieces)
      have hfault := fault.malformed_shift p (Position.one_le_after (sources pieces)).1 rest
      have hempty : Draft.shift (p.line - 1) {} = {} := rfl
      rw [hempty, Position.shift_start hp] at hdeliver
      rw [Position.shift_start hp] at hafter
      rw [outcomes, outcomes, hdeliver, hafter, hfault, List.map_append, List.map_map, List.map_map]
      rfl

/-! ### Cutting a script where a stream stands -/

/-- A stream with an empty draft and no word open, or nothing left to read, gives what a fresh
stream over the text before it gives, on lower lines. -/
theorem BatchStream.take_eq_of_before {s : BatchStream} {o : Options} {w : Bool} {back : String}
    (hs : s.Before o w back.toList) (hw : w = false ∨ back.toList = []) (hd : s.draft = {})
    (hp : 1 ≤ s.reading.cursor.position.line ∧ 1 ≤ s.reading.cursor.position.column)
    (calls : Nat) :
    s.take calls =
      ((BatchStream.ofString o back).take calls).map
        (Option.map (shiftOutcome s.reading.cursor.position)) := by
  obtain ⟨pieces, w₁, w₂, rest, fault, hpassage, hhalt, hfresh, hhalt'⟩ :
      ∃ pieces w₁ w₂ rest fault, Passage o w back.toList pieces w₁ rest ∧ Halt o w₁ rest fault ∧
        Passage o false back.toList pieces w₂ rest ∧ Halt o w₂ rest fault := by
    rcases hw with rfl | hnil
    · obtain ⟨pieces, w₁, rest, fault, hpassage, hhalt⟩ := exists_passage o false back.toList
      exact ⟨pieces, w₁, w₁, rest, fault, hpassage, hhalt, hpassage, hhalt⟩
    · rw [hnil]
      exact ⟨[], w, false, [], none, .stay w [], .finished, .stay false [], .finished⟩
  rw [take_of_halt hs hpassage hhalt, take_of_halt (before_ofString o back) hfresh hhalt', hd,
    outcomes_shift hp, given_map]
  rfl

/-- **Cutting a script.** A script can be cut where a stream stands behind some batches. What the
stream gives from there on is what a fresh stream over the rest gives, counted from there; and with
the usual keyword the text before, read alone, is split into the batches given so far. -/
theorem exists_cut_of_take {o : Options} {script : String} {batches : List Batch}
    (h : (BatchStream.ofString o script).take batches.length =
      batches.map fun b => some (.ok b)) :
    ∃ front back : String, script = front ++ back ∧
      ((BatchStream.ofString o script).drop batches.length).reading.cursor.position =
        ({} : Position).after front.toList ∧
      (({} : Position).after front.toList).offset = front.utf8ByteSize ∧
      (∀ calls,
        ((BatchStream.ofString o script).drop batches.length).take calls =
          ((BatchStream.ofString o back).take calls).map
            (Option.map (shiftOutcome (({} : Position).after front.toList)))) ∧
      (o.separator = ({} : Options).separator → o.lookalikes = ({} : Options).lookalikes →
        split o front = .ok batches) := by
  obtain ⟨pieces, w, rest, hp, hs, hd, hpos, hcut⟩ :=
    BatchStream.exists_cut (BatchStream.before_ofString o script) rfl h
  have hstart : (BatchStream.ofString o script).reading.cursor.position = {} := rfl
  rw [hstart] at hpos hcut
  have hscript : script = String.ofList (sources pieces) ++ String.ofList rest := by
    rw [← String.ofList_append, ← hp.text_eq, String.ofList_toList]
  refine ⟨String.ofList (sources pieces), String.ofList rest, hscript, ?_⟩
  rw [String.toList_ofList]
  have hoffset := Position.offset_after {} (sources pieces)
  rw [Nat.zero_add] at hoffset
  refine ⟨hpos, hoffset, fun calls => ?_, fun hsep hlook => ?_⟩
  · -- a separator statement leaves no word open, and neither does the start of the script
    have hopen : w = false ∨ (String.ofList rest).toList = [] := by
      rw [String.toList_ofList]
      rcases hcut with ⟨-, hlast⟩ | ⟨hrest, -⟩
      · refine .inl ?_
        rw [hp.endsInWord_eq]
        cases hpieces : pieces.getLast? with
        | none => rfl
        | some piece =>
            obtain ⟨count, statement, rfl⟩ := Piece.eq_separator (hlast piece hpieces)
            rfl
      · exact .inr hrest
    rw [← String.toList_ofList (l := rest)] at hs
    rw [← hpos]
    refine BatchStream.take_eq_of_before hs hopen hd ?_ calls
    rw [hpos]
    exact Position.one_le_after (sources pieces)
  · rcases hcut with ⟨hdeliver, hlast⟩ | ⟨rfl, hdelivery⟩
    · have hfront := hp.cut ⟨hsep, hlook⟩ hlast
      rw [← String.toList_ofList (l := sources pieces)] at hfront
      rw [split_of_passage hfront .finished]
      exact congrArg Except.ok (by rw [delivery, hdeliver]; exact List.append_nil batches)
    · rw [String.ofList_nil, String.append_empty] at hscript
      rw [← hscript, split_of_passage hp .finished, ← hdelivery]

/-- A stream of two batches stopped behind the first. The statement `go 2` ends in the middle of a
line, where the rest begins. -/
theorem exists_cut_of_first_of_two :
    (BatchStream.ofString { repetition := .delegate } "a\ngo 2 b").take 1 =
        [some (.ok ⟨"a\n", ⟨2, by decide, by decide⟩, 1, false⟩)] ∧
      ∃ front back : String, "a\ngo 2 b" = front ++ back ∧
        ((BatchStream.ofString { repetition := .delegate } "a\ngo 2 b").drop
            1).reading.cursor.position = ({} : Position).after front.toList ∧
        (({} : Position).after front.toList).offset = front.utf8ByteSize ∧
        (∀ calls,
          ((BatchStream.ofString { repetition := .delegate } "a\ngo 2 b").drop 1).take calls =
            ((BatchStream.ofString { repetition := .delegate } back).take calls).map
              (Option.map (shiftOutcome (({} : Position).after front.toList)))) ∧
        split { repetition := .delegate } front =
          .ok [⟨"a\n", ⟨2, by decide, by decide⟩, 1, false⟩] := by
  have hpieces : pieces? { repetition := .delegate } 6 false "a\ngo 2 b".toList =
      some
        [.ordinary 'a', .ordinary '\n', .separator ⟨2, by decide, by decide⟩ "go 2".toList,
          .blanks " ".toList, .ordinary 'b'] := by
    decide +kernel
  obtain ⟨w, hpassage⟩ := passage_of_pieces? hpieces
  have h : (BatchStream.ofString { repetition := .delegate } "a\ngo 2 b").take 1 =
      [some (.ok ⟨"a\n", ⟨2, by decide, by decide⟩, 1, false⟩)] := by
    rw [BatchStream.take_of_halt (BatchStream.before_ofString _ _) hpassage .finished]
    rfl
  obtain ⟨front, back, hscript, hposition, hoffset, hafter, hbefore⟩ :=
    @exists_cut_of_take _ _ [⟨"a\n", ⟨2, by decide, by decide⟩, 1, false⟩] h
  exact ⟨h, front, back, hscript, hposition, hoffset, hafter, hbefore rfl rfl⟩

end BatchScript
