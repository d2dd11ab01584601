import BatchScript.Proofs.CaseFolding
import BatchScript.Proofs.Grammar
import BatchScript.Proofs.Pointer
import BatchScript.Proofs.Streaming

/-!
# Speculation leaves no trace

A separator statement is read on a checkpoint, and the comment behind its count on one more. Either
is dropped or returned to before the reading goes on, whatever the attempt comes to: a statement, no
statement, or a comment left open. So the checkpoints held before are held behind, in the same
order; and what the cursor would refuse to do is never asked of it.

## Main results

* `Verdict.bytes_le_of_found` — a statement takes at least as many bytes as the keyword.
* `Scan.Forward.settled` — the checkpoint taken for a forward attempt is innermost behind it.
* `Scan.separator_atomic` — reading a separator passes over a statement or moves nowhere.
* `Scan.region_ne_misuse` — reading a region asks nothing of the cursor that it refuses.
* `speculation_atomic` — the same of a whole stream: no checkpoint is left behind by any call.
-/

namespace BatchScript

/-! ### Bytes of the keyword -/

theorem utf8Size_of_isAlpha {c : Char} (h : c.isAlpha = true) : c.utf8Size = 1 := by
  have hcode := toNat_of_isAlpha h
  have hle : c.toNat ≤ 127 := by omega
  exact Char.utf8Size_eq_one_iff.2 (UInt32.le_iff_toNat_le.2 hle)

/-- A character takes as many bytes in lower case: case is folded in ASCII only. -/
theorem utf8Size_toLower (c : Char) : c.toLower.utf8Size = c.utf8Size := by
  cases hc : c.isAlpha with
  | true => rw [utf8Size_of_isAlpha hc, utf8Size_of_isAlpha (AsciiCase.isAlpha_toLower hc)]
  | false => rw [AsciiCase.toLower_of_not_isAlpha hc]

theorem bytes_map_toLower (text : List Char) : bytes (text.map Char.toLower) = bytes text := by
  induction text with
  | nil => rfl
  | cons c text ih => rw [List.map_cons, bytes_cons, bytes_cons, utf8Size_toLower, ih]

/-- A statement takes at least as many bytes as the keyword, and at least one. -/
theorem Verdict.bytes_le_of_found {o : Options} {text : List Char} {count : RepeatCount} {n : Nat}
    (h : ofText o text = .found count n) :
    o.separator.utf8ByteSize ≤ bytes (text.take n) ∧ 1 ≤ bytes (text.take n) := by
  obtain ⟨blanks, keyword, tail, m, rfl, hk, -, -, rfl⟩ := keyed_of_found h
  have htake : (blanks ++ (keyword ++ tail)).take (blanks.length + keyword.length + m) =
      blanks ++ keyword ++ tail.take m := by
    rw [← List.append_assoc, ← List.length_append, List.take_length_add_append]
  have hkeyword : bytes keyword = o.separator.utf8ByteSize := by
    rw [← bytes_map_toLower, hk.toLower, bytes_map_toLower, bytes, String.ofList_toList]
  have hpos := bytes_pos hk.keyword_ne_nil
  rw [htake, bytes_append, bytes_append]
  omega

/-! ### Attempts on a checkpoint -/

namespace Scan

variable {α : Type} {attempt : Scan (Option α)} {o : Options} {r r' : Reading}

/-- An attempt that ends with the checkpoint taken for it innermost. To drop the checkpoint is to go
on from where the attempt came to; to return to it is to be where the attempt began. -/
def Settled (attempt : Scan (Option α)) : Prop :=
  ∀ r : Reading, ∃ n,
    (attempt.finish { r with cursor := r.cursor.save }).cursor.accept = .ok (r.cursor.skip n) ∧
      (attempt.finish { r with cursor := r.cursor.save }).cursor.rollback = .ok r.cursor

theorem Forward.settled (hm : Forward attempt) : Settled attempt := by
  intro r
  obtain ⟨n, hn⟩ := hm { r with cursor := r.cursor.save }
  refine ⟨n, ?_, ?_⟩
  · rw [hn, Cursor.accept_save]
  · rw [hn, Cursor.rollback_save]

/-- What an attempt at a reading may come to. The checkpoints held are those held before. Unless
something is found the cursor stands where it stood, and what is found takes at least so many bytes.
A failure tells of the script and not of the cursor. -/
structure Atomic (least : Nat) (attempt : Scan (Option α)) (r : Reading) : Prop where
  saved : (attempt.finish r).cursor.saved = r.cursor.saved
  found : ∀ a r', attempt r = .ok (some a) r' →
    (∃ n, r'.cursor = r.cursor.skip n) ∧
      r.cursor.position.offset + least ≤ r'.cursor.position.offset ∧
      r.cursor.position.offset < r'.cursor.position.offset
  none : ∀ r', attempt r = .ok none r' → r'.cursor = r.cursor
  error : ∀ failure r', attempt r = .error failure r' →
    r'.cursor = r.cursor ∧ ∃ e, failure = .malformed e

/-- A forward scan keeps the checkpoints. -/
theorem Forward.saved {m : Scan α} (hm : Forward m) (r : Reading) :
    (m.finish r).cursor.saved = r.cursor.saved := by
  obtain ⟨n, hn⟩ := hm r
  rw [hn, Cursor.saved_skip]

/-- Reading a separator passes over a statement or moves nowhere. -/
theorem separator_atomic (o : Options) (r : Reading) :
    Atomic o.separator.utf8ByteSize (separator o) r where
  saved := (Forward.separator o).saved r
  found count r' h := by
    obtain ⟨n, hfound, rfl⟩ := separator_eq_some_iff.1 h
    have hbytes := Verdict.bytes_le_of_found hfound
    refine ⟨⟨n, rfl⟩, ?_⟩
    simp only [Reading.skip, Cursor.position_skip, Position.offset_after_bytes]
    omega
  none r' h := separator_none h
  error failure r' h := by
    refine ⟨cursor_of_separator (.inr ⟨failure, h⟩), ?_⟩
    obtain ⟨e, -, rfl⟩ := separator_eq_error_iff.1 ⟨r', h⟩
    exact ⟨_, rfl⟩

/-- Reading a region asks nothing of the cursor that it refuses. -/
theorem region_ne_misuse {afterWord : Bool} {first : Char} (hfirst : r.cursor.peek = some first)
    (m : Misuse) : region o afterWord first r ≠ .error (.misuse m) r' := by
  intro h
  have hshows := Outlook.shows_ofText o afterWord r.cursor.ahead
  cases hlook : Outlook.ofText o afterWord r.cursor.ahead with
  | finished =>
      rw [hlook] at hshows
      have hnil : r.cursor.ahead = [] := by
        generalize r.cursor.ahead = text at hshows
        cases hshows
        rfl
      simp [Cursor.peek, hnil] at hfirst
  | piece piece rest =>
      rw [hlook] at hshows
      obtain ⟨log, hrun, -⟩ := region_of_piece hshows hfirst
      rw [hrun] at h
      cases h
  | fault fault =>
      rw [hlook] at hshows
      obtain ⟨r₁, event, hrun, -, -⟩ := region_of_fault hshows hfirst
      rw [hrun] at h
      cases h

end Scan

/-- What a cursor consumes is the slice from where it stood. -/
theorem Cursor.sliceFrom_consumeWhile (c : Cursor) (keep : Char → Bool) :
    (c.consumeWhile keep).2.sliceFrom c.position.offset = .ok (c.consumeWhile keep).1 := by
  have htake : c.ahead.take (c.ahead.takeWhile keep).length = c.ahead.takeWhile keep :=
    (List.prefix_iff_eq_take.1 (List.takeWhile_prefix keep)).symm
  rw [consumeWhile, sliceFrom_skip, htake]

/-! ### Streams -/

/-- The stream behind a step. -/
def Step.rest : Step → BatchStream
  | .more rest => rest
  | .batch _ rest => rest
  | .done rest => rest
  | .failed _ rest => rest

/-- What a step gives, if it gives anything. -/
def Step.item : Step → Option (Except Failure Batch)
  | .more _ => none
  | .batch b _ => some (.ok b)
  | .done _ => none
  | .failed failure _ => some (.error failure)

namespace BatchStream

variable {s : BatchStream}

/-- A stream that goes on to another with the checkpoints it held, and what it gives is no misuse of
the cursor. -/
structure Keeps (s : BatchStream) (item : Option (Except Failure Batch)) (rest : BatchStream) :
    Prop where
  saved : rest.reading.cursor.saved = s.reading.cursor.saved
  item_ne_misuse : ∀ m, item ≠ some (.error (.misuse m))

/-- Closing the draft does not touch the cursor. -/
theorem cursor_close (s : BatchStream) (count : RepeatCount) :
    (s.close count).2.reading.cursor = s.reading.cursor := by
  rw [close]
  split <;> rfl

/-- What follows a region does not touch the cursor, and does not fail. -/
theorem absorb_keeps (s : BatchStream) (line : Nat) (region : Region) :
    s.Keeps (s.absorb line region).item (s.absorb line region).rest := by
  cases region with
  | separator count =>
      have hcursor := (s.noteSeparator count).cursor_close count
      rw [absorb, separate]
      rcases hclose : (s.noteSeparator count).close count with ⟨_ | b, rest⟩
      · rw [hclose] at hcursor
        exact ⟨congrArg Cursor.saved hcursor, fun m h => by cases h⟩
      · rw [hclose] at hcursor
        exact ⟨congrArg Cursor.saved hcursor, fun m h => by cases h⟩
  | _ => exact ⟨rfl, fun m h => by cases h⟩

theorem conclude_keeps (s : BatchStream) : s.Keeps s.conclude.item s.conclude.rest := by
  have hcursor := s.cursor_close .once
  rw [conclude]
  rcases hclose : s.close .once with ⟨_ | b, rest⟩
  · rw [hclose] at hcursor
    exact ⟨congrArg Cursor.saved hcursor, fun m h => by cases h⟩
  · rw [hclose] at hcursor
    exact ⟨congrArg Cursor.saved hcursor, fun m h => by cases h⟩

/-- A step keeps the checkpoints, from any state. -/
theorem step_keeps (s : BatchStream) : s.Keeps s.step.item s.step.rest := by
  rw [step]
  cases hpeek : s.reading.cursor.peek with
  | none => exact s.conclude_keeps
  | some first =>
      have hsaved := (Scan.Forward.region s.options s.afterWord first).saved s.reading
      simp only
      cases hrun : Scan.region s.options s.afterWord first s.reading with
      | ok region reading =>
          rw [Scan.finish, hrun] at hsaved
          obtain ⟨hrest, hitem⟩ := absorb_keeps { s with reading } s.reading.cursor.position.line
            region
          exact ⟨hrest.trans hsaved, hitem⟩
      | error failure reading =>
          rw [Scan.finish, hrun] at hsaved
          refine ⟨hsaved, fun m h => ?_⟩
          obtain rfl : failure = .misuse m := by simpa [Step.item] using h
          exact Scan.region_ne_misuse hpeek m hrun

/-- And so does a run, up to the next batch or to the end. -/
theorem run_keeps (s : BatchStream) : s.Keeps s.run.1 s.run.2 := by
  have hstep := s.step_keeps
  fun_induction run s with
  | case1 s rest hs ih =>
      rw [hs] at hstep
      obtain ⟨hsaved, hitem⟩ := ih rest.step_keeps
      exact ⟨hsaved.trans hstep.saved, hitem⟩
  | case2 s b rest hs => rwa [hs] at hstep
  | case3 s rest hs => rwa [hs] at hstep
  | case4 s failure rest hs => rwa [hs] at hstep

theorem next_keeps (s : BatchStream) : s.Keeps s.next.1 s.next.2 := by
  rw [next]
  split
  · exact ⟨rfl, fun m h => by cases h⟩
  · exact s.run_keeps

/-- Whatever is asked of a stream, it holds the checkpoints that it held. -/
theorem saved_drop (s : BatchStream) (calls : Nat) :
    (s.drop calls).reading.cursor.saved = s.reading.cursor.saved := by
  induction calls generalizing s with
  | zero => rfl
  | succ calls ih => rw [drop, ih, s.next_keeps.saved]

/-- No misuse of the cursor is among what a stream gives. -/
theorem misuse_notMem_take (s : BatchStream) (calls : Nat) (m : Misuse) :
    some (.error (.misuse m)) ∉ s.take calls := by
  induction calls generalizing s with
  | zero => exact List.not_mem_nil
  | succ calls ih =>
      rw [take_succ, List.mem_cons, not_or]
      exact ⟨fun h => s.next_keeps.item_ne_misuse m h.symm, ih _⟩

end BatchStream

/-- **Speculation is atomic.** Reading a separator, from any reading, keeps the checkpoints that it
finds. Unless it finds a statement the cursor stands where it stood, and a statement takes at least
the bytes of the keyword and at least one. The two attempts that it makes end with their own
checkpoint innermost, so that there is one to drop or to return to. So no call of a stream, however
many there are, fails for a misuse of the cursor: a checkpoint that is not there, a slice outside
the script or within a character, quoted text read off its opener. And behind every call, be it one
that failed, no checkpoint is held. -/
theorem speculation_atomic (o : Options) :
    (∀ r, Scan.Atomic o.separator.utf8ByteSize (Scan.separator o) r) ∧
      Scan.Settled (Scan.statement o) ∧ Scan.Settled Scan.closingComment ∧
      (∀ (c : Cursor) (keep : Char → Bool),
        (c.consumeWhile keep).2.sliceFrom c.position.offset = .ok (c.consumeWhile keep).1) ∧
      ∀ (script : String) (calls : Nat),
        ((BatchStream.ofString o script).drop calls).reading.cursor.depth = 0 ∧
          ∀ m, some (.error (.misuse m)) ∉ (BatchStream.ofString o script).take calls := by
  refine ⟨Scan.separator_atomic o, (Scan.Forward.statement o).settled,
    Scan.Forward.closingComment.settled, Cursor.sliceFrom_consumeWhile, fun script calls => ?_⟩
  refine ⟨?_, BatchStream.misuse_notMem_take _ calls⟩
  rw [Cursor.depth, BatchStream.saved_drop]
  rfl

end BatchScript
