import BatchScript.Cursor.Command
import Mathlib.Data.List.Induction

/-!
# A cursor as a pointer into its text

A cursor keeps the text on both sides of it, its position, and its checkpoints with all of this
again. All of it can be told from two things: how many characters stand before the cursor, and how
many stood before it at each checkpoint. A `Pointer` holds these numbers and nothing else, and
carries out the commands of a cursor over the list of the characters of a text. Where it stands is
counted anew in the characters before it whenever it is asked.

## Main results

* `after_eq_counted` — the position kept while moving on is the position counted from the start.
* `Pointer.perform_cursor` — a cursor carries out a command as the pointer does that stands for it.
* `Pointer.Stacked.perform` — a command keeps the checkpoints in order before the pointer.
* `Pointer.slice?_eq_some_iff` — from which bytes there is a slice.
* `run_eq_pointer` — whatever commands a cursor is given, it answers as the pointer does.
-/

namespace BatchScript

/-! ### Positions counted from the start -/

/-- How many bytes of UTF-8 a text takes. -/
def bytes (text : List Char) : Nat :=
  (String.ofList text).utf8ByteSize

@[simp] theorem bytes_nil : bytes [] = 0 := rfl

theorem bytes_cons (c : Char) (text : List Char) : bytes (c :: text) = c.utf8Size + bytes text := by
  simp [bytes, String.ofList_cons]

@[simp] theorem bytes_append (s t : List Char) : bytes (s ++ t) = bytes s + bytes t := by
  simp [bytes, String.ofList_append]

theorem bytes_pos {text : List Char} (h : text ≠ []) : 0 < bytes text := by
  obtain ⟨c, rest, rfl⟩ := List.exists_cons_of_ne_nil h
  rw [bytes_cons]
  exact Nat.add_pos_left c.utf8Size_pos _

@[simp] theorem bytes_reverse (text : List Char) : bytes text.reverse = bytes text :=
  Place.utf8ByteSize_reverse text

/-- Moving over a text adds its bytes to the offset. -/
theorem Position.offset_after_bytes (p : Position) (text : List Char) :
    (p.after text).offset = p.offset + bytes text :=
  offset_after p text

/-- The position behind a text, counted in it: its bytes, the line feeds in it, and the characters
behind the last of these. -/
def Position.counted (text : List Char) : Position :=
  { offset := bytes text, line := 1 + text.count '\n',
    column := 1 + (text.reverse.takeWhile (· != '\n')).length }

/-- Moving over a text leads to the position counted in it. -/
theorem after_eq_counted (text : List Char) : ({} : Position).after text = .counted text := by
  induction text using List.reverseRecOn with
  | nil => rfl
  | append_singleton text c ih =>
      have hbytes : bytes [c] = c.utf8Size := by rw [bytes_cons, bytes_nil, Nat.add_zero]
      have hafter : ({} : Position).after (text ++ [c]) = (Position.counted text).advance c := by
        rw [Position.after_append, ih, Position.after_cons, Position.after_nil]
      rw [hafter]
      by_cases hc : c = '\n'
      · subst hc
        simp [Position.counted, Position.advance, hbytes, Nat.add_assoc]
      · simp [Position.counted, Position.advance, hbytes, hc, Nat.add_comm 1]

/-! ### Pointers -/

/-- A place in a text as the number of characters before it, with the checkpoints held, innermost
first. -/
structure Pointer where
  /-- How many characters stand before it. -/
  index : Nat := 0
  /-- How many stood before it at each checkpoint. -/
  saved : List Nat := []
deriving DecidableEq, Repr

namespace Pointer

/-- The characters of a text behind a pointer. -/
def ahead (text : List Char) (p : Pointer) : List Char :=
  text.drop p.index

/-- Where a pointer stands in a text. -/
def position (text : List Char) (p : Pointer) : Position :=
  .counted (text.take p.index)

/-- Whether the characters behind a pointer, as many as a literal has, are those of the literal,
ignoring ASCII case. -/
def sees (text : List Char) (p : Pointer) (literal : String) : Bool :=
  ((p.ahead text).take literal.toList.length).map Char.toLower == literal.toList.map Char.toLower

/-- The pointer so many characters further on. -/
def forward (p : Pointer) (n : Nat) : Pointer :=
  { p with index := p.index + n }

/-- The characters between a byte of the text and a pointer, if the byte is the first of a character
that stands before the pointer, or of the one behind it. -/
def slice? (text : List Char) (p : Pointer) (start : Nat) : Option (List Char) :=
  ((List.range (p.index + 1)).find? fun i => bytes (text.take i) == start).map fun i =>
    (text.take p.index).drop i

/-- Carries out a command. -/
def perform (text : List Char) (p : Pointer) : Command → Except Misuse (Reply × Pointer)
  | .peek => .ok (.char text[p.index]?, p)
  | .read => .ok (.char text[p.index]?, if p.index < text.length then p.forward 1 else p)
  | .matchLiteral literal =>
    .ok (if p.sees text literal then (.truth true, p.forward literal.toList.length)
      else (.truth false, p))
  | .peekLiteral literal => .ok (.truth (p.sees text literal), p)
  | .save => .ok (.done, { p with saved := p.index :: p.saved })
  | .accept =>
    match p.saved with
    | [] => .error .acceptWithoutCheckpoint
    | _ :: saved => .ok (.done, { p with saved })
  | .rollback =>
    match p.saved with
    | [] => .error .rollbackWithoutCheckpoint
    | index :: saved => .ok (.done, { index, saved })
  | .skipLinear =>
    let run := (p.ahead text).takeWhile isLinear
    .ok (.count run.length, p.forward run.length)
  | .consumeWhile keep =>
    let run := (p.ahead text).takeWhile keep
    .ok (.text (String.ofList run), p.forward run.length)
  | .sliceFrom start =>
    match p.slice? text start with
    | some slice => .ok (.text (String.ofList slice), p)
    | none => .error .sliceOutOfBounds

/-- Carries out a command and enters the answer. A refused command changes nothing. -/
def enter (text : List Char) (p : Pointer) (command : Command) : Entry × Pointer :=
  match p.perform text command with
  | .ok (reply, next) => (⟨.ok reply, next.position text, next.saved.length⟩, next)
  | .error misuse => (⟨.error misuse, p.position text, p.saved.length⟩, p)

/-- Carries out commands in order, with an entry for each. -/
def run (text : List Char) : Pointer → List Command → List Entry
  | _, [] => []
  | p, command :: commands =>
    let (entry, next) := p.enter text command
    entry :: run text next commands

/-- The pointer that commands lead to. -/
def reached (text : List Char) : Pointer → List Command → Pointer
  | p, [] => p
  | p, command :: commands => reached text (p.enter text command).2 commands

/-! ### The cursor that a pointer stands for -/

/-- The place behind so many characters of a text. -/
def place (text : List Char) (index : Nat) : Place :=
  { behind := (text.take index).reverse, ahead := text.drop index,
    position := .counted (text.take index) }

/-- The cursor that stands where a pointer does. -/
def cursor (text : List Char) (p : Pointer) : Cursor :=
  { here := place text p.index, saved := p.saved.map (place text) }

variable {text : List Char} {p : Pointer}

theorem cursor_start (script : String) :
    cursor script.toList {} = Cursor.ofString script := rfl

theorem ahead_cursor (text : List Char) (p : Pointer) : (p.cursor text).ahead = p.ahead text := rfl

theorem peek_cursor (text : List Char) (p : Pointer) : (p.cursor text).peek = text[p.index]? := by
  rw [Cursor.peek, ahead_cursor, ahead, List.head?_drop]

/-- Passing over characters adds to their number. -/
theorem skip_place (text : List Char) (index n : Nat) :
    (place text index).skip n = place text (index + n) := by
  have htake : text.take (index + n) = text.take index ++ (text.drop index).take n := List.take_add
  have hposition : (Position.counted (text.take index)).after ((text.drop index).take n) =
      .counted (text.take (index + n)) := by
    rw [← after_eq_counted, ← Position.after_append, ← htake, after_eq_counted]
  rw [Place.skip_eq]
  simp only [place, hposition, List.drop_drop, htake, List.reverse_append]

theorem skip_cursor (text : List Char) (p : Pointer) (n : Nat) :
    (p.cursor text).skip n = (p.forward n).cursor text := by
  simp only [cursor, Cursor.skip, skip_place, forward]

/-- At the end of the text there is nothing to pass over. -/
theorem skip_cursor_of_le (h : text.length ≤ p.index) (n : Nat) :
    (p.cursor text).skip n = p.cursor text := by
  have htake : text.take (p.index + n) = text.take p.index := by
    rw [List.take_of_length_le h, List.take_of_length_le (by omega)]
  have hdrop : text.drop (p.index + n) = text.drop p.index := by
    rw [List.drop_of_length_le h, List.drop_of_length_le (by omega)]
  rw [skip_cursor]
  simp only [cursor, forward, place, htake, hdrop]

/-- A text begins with a literal if its first characters are those of the literal. -/
theorem sees_eq_peekLiteral (text : List Char) (p : Pointer) (literal : String) :
    p.sees text literal = (p.cursor text).peekLiteral literal := by
  rw [Bool.eq_iff_iff, sees, beq_iff_eq, Cursor.peekLiteral, ahead_cursor, AsciiCase.begins_iff]
  constructor
  · intro h
    exact ⟨_, _, (List.take_append_drop _ _).symm, h⟩
  · rintro ⟨taken, rest, htext, hlower⟩
    have hlength : literal.toList.length = taken.length := by
      simpa only [List.length_map] using (congrArg List.length hlower).symm
    rw [htext, hlength, List.take_left, hlower]

/-! ### Slices -/

/-- Walking back over so many bytes succeeds only from one character to another. -/
theorem exists_of_lastBytes? {behind found slice : List Char} {n : Nat}
    (h : Place.lastBytes? behind n found = some slice) :
    ∃ passed before, behind = passed ++ before ∧ n = bytes passed := by
  fun_induction Place.lastBytes? behind n found with
  | case1 behind found => exact ⟨[], behind, rfl, rfl⟩
  | case2 => cases h
  | case3 c behind n found hle ih =>
      obtain ⟨passed, before, rfl, hn⟩ := ih h
      refine ⟨c :: passed, before, rfl, ?_⟩
      rw [bytes_cons]
      omega
  | case4 => cases h

/-- What stands before the pointer is what stands before an earlier place, and what is between. -/
theorem take_index_eq {i : Nat} (hi : i ≤ p.index) :
    text.take p.index = text.take i ++ (text.take p.index).drop i := by
  have htake : (text.take p.index).take i = text.take i := by
    rw [List.take_take, Nat.min_eq_left hi]
  rw [← htake, List.take_append_drop]

/-- Two places before which a text has as many bytes are the same place. -/
theorem index_eq_of_bytes_eq {i j : Nat} (hi : i ≤ j) (hj : j ≤ text.length)
    (h : bytes (text.take i) = bytes (text.take j)) : i = j := by
  have hparts : text.take j = text.take i ++ (text.take j).drop i :=
    take_index_eq (p := { index := j }) hi
  have hzero : bytes ((text.take j).drop i) = 0 := by
    rw [hparts, bytes_append] at h
    omega
  rcases hrest : (text.take j).drop i with _ | ⟨c, rest⟩
  · have hlength := congrArg List.length hrest
    simp only [List.length_drop, List.length_take, List.length_nil] at hlength
    omega
  · have hc := c.utf8Size_pos
    rw [hrest, bytes_cons] at hzero
    omega

/-- A slice begins at a byte at which a character begins that stands before the pointer, or right
behind it, and ends at the pointer. -/
theorem exists_of_slice? {start : Nat} {slice : List Char} (h : p.slice? text start = some slice) :
    ∃ i ≤ p.index, bytes (text.take i) = start ∧ slice = (text.take p.index).drop i := by
  obtain ⟨i, hfind, rfl⟩ := Option.map_eq_some_iff.1 h
  have hmem := List.mem_range.1 (List.mem_of_find?_eq_some hfind)
  have hstart := List.find?_some hfind
  exact ⟨i, by omega, by simpa using hstart, rfl⟩

/-- There is no slice from any other byte. -/
theorem slice?_eq_none_iff {start : Nat} :
    p.slice? text start = none ↔ ¬ ∃ i ≤ p.index, bytes (text.take i) = start := by
  rw [slice?, Option.map_eq_none_iff, List.find?_eq_none]
  constructor
  · rintro h ⟨i, hi, hstart⟩
    exact h i (List.mem_range.2 (by omega)) (by simpa using hstart)
  · intro h i hi hstart
    have := List.mem_range.1 hi
    exact h ⟨i, by omega, by simpa using hstart⟩

/-- And from such a byte there is one only. -/
theorem slice?_eq_some_iff (hp : p.index ≤ text.length) {start : Nat} {slice : List Char} :
    p.slice? text start = some slice ↔
      ∃ i ≤ p.index, bytes (text.take i) = start ∧ slice = (text.take p.index).drop i := by
  refine ⟨exists_of_slice?, ?_⟩
  rintro ⟨i, hi, hstart, rfl⟩
  cases hslice : p.slice? text start with
  | none => exact absurd ⟨i, hi, hstart⟩ (slice?_eq_none_iff.1 hslice)
  | some slice =>
      obtain ⟨j, hj, hstart', rfl⟩ := exists_of_slice? hslice
      have hbytes := hstart.trans hstart'.symm
      rcases Nat.le_total i j with hle | hle
      · rw [index_eq_of_bytes_eq hle (by omega) hbytes]
      · rw [index_eq_of_bytes_eq hle (by omega) hbytes.symm]

/-- Slicing at a cursor finds the slice at the pointer, if there is one. -/
theorem sliceFrom_cursor (text : List Char) (p : Pointer) (start : Nat) :
    (p.cursor text).sliceFrom start =
      match p.slice? text start with
      | some slice => .ok (String.ofList slice)
      | none => .error .sliceOutOfBounds := by
  have hoffset : (p.cursor text).position.offset = bytes (text.take p.index) := rfl
  have hbehind : (p.cursor text).here.behind = (text.take p.index).reverse := rfl
  rw [Cursor.sliceFrom, hoffset, hbehind]
  cases hslice : p.slice? text start with
  | some slice =>
      obtain ⟨i, hi, hstart, rfl⟩ := exists_of_slice? hslice
      have hbytes : bytes (text.take p.index) = start + bytes ((text.take p.index).drop i) := by
        rw [← hstart, ← bytes_append, ← take_index_eq hi]
      have hback := Place.lastBytes?_append ((text.take p.index).drop i).reverse
        (text.take i).reverse []
      rw [← List.reverse_append, ← take_index_eq hi, Place.utf8ByteSize_reverse,
        List.reverse_reverse, List.append_nil] at hback
      have hcount : bytes (text.take p.index) - start =
          (String.ofList ((text.take p.index).drop i)).utf8ByteSize := by
        rw [hbytes, Nat.add_sub_cancel_left, bytes]
      rw [if_pos (by omega), hcount, hback]
  | none =>
      rw [slice?_eq_none_iff] at hslice
      split
      · rename_i hle
        cases hback : Place.lastBytes? (text.take p.index).reverse
            (bytes (text.take p.index) - start) [] with
        | none => rfl
        | some slice =>
            -- What the walk leaves before it would be a place to begin the slice at.
            obtain ⟨passed, before, hsplit, hn⟩ := exists_of_lastBytes? hback
            have hparts : text.take p.index = before.reverse ++ passed.reverse := by
              rw [← List.reverse_append, ← hsplit, List.reverse_reverse]
            have hlength : before.length ≤ p.index := by
              have := congrArg List.length hparts
              simp only [List.length_take, List.length_append, List.length_reverse] at this
              omega
            have hbefore : text.take before.length = before.reverse := by
              have hprefix := congrArg (List.take before.length) hparts
              rwa [List.take_take, Nat.min_eq_left hlength,
                List.take_left' (List.length_reverse ..)] at hprefix
            refine absurd ⟨before.length, hlength, ?_⟩ hslice
            have hbytes := congrArg bytes hparts
            simp only [bytes_append, bytes_reverse] at hbytes
            rw [hbefore, bytes_reverse]
            omega
      · rfl

/-! ### Commands -/

/-- A cursor carries out a command as the pointer does that stands for it. -/
theorem perform_cursor (text : List Char) (p : Pointer) (command : Command) :
    (p.cursor text).perform command =
      (p.perform text command).map fun answer => (answer.1, answer.2.cursor text) := by
  cases command with
  | peek => rw [Cursor.perform, peek_cursor]; rfl
  | read =>
      rw [Cursor.perform, Cursor.read, peek_cursor]
      by_cases h : p.index < text.length
      · simp only [perform, h, if_true, skip_cursor]
        rfl
      · simp only [perform, h, if_false, skip_cursor_of_le (Nat.le_of_not_lt h)]
        rfl
  | matchLiteral literal =>
      rw [Cursor.perform, Cursor.matchLiteral, ← sees_eq_peekLiteral, skip_cursor]
      by_cases h : p.sees text literal = true
      · simp only [perform, h, if_true]
        rfl
      · simp only [perform, h, Bool.false_eq_true, if_false]
        rfl
  | peekLiteral literal => rw [Cursor.perform, ← sees_eq_peekLiteral]; rfl
  | save => rfl
  | accept =>
      rcases hs : p.saved with _ | ⟨index, saved⟩
      · simp [Cursor.perform, Cursor.accept, perform, cursor, hs, Except.map]
      · simp [Cursor.perform, Cursor.accept, perform, cursor, hs, Except.map]
  | rollback =>
      rcases hs : p.saved with _ | ⟨index, saved⟩
      · simp [Cursor.perform, Cursor.rollback, perform, cursor, hs, Except.map]
      · simp [Cursor.perform, Cursor.rollback, perform, cursor, hs, Except.map]
  | skipLinear =>
      simp only [Cursor.perform, Cursor.skipLinear, ahead_cursor, skip_cursor]
      rfl
  | consumeWhile keep =>
      simp only [Cursor.perform, Cursor.consumeWhile, ahead_cursor, skip_cursor]
      rfl
  | sliceFrom start =>
      rw [Cursor.perform, sliceFrom_cursor, perform]
      cases p.slice? text start <;> rfl

theorem enter_cursor (text : List Char) (p : Pointer) (command : Command) :
    (p.cursor text).enter command =
      ((p.enter text command).1, (p.enter text command).2.cursor text) := by
  have hposition (q : Pointer) : (q.cursor text).position = q.position text := rfl
  have hdepth (q : Pointer) : (q.cursor text).depth = q.saved.length := List.length_map ..
  rw [Cursor.enter, enter, perform_cursor]
  cases p.perform text command with
  | ok answer => simp only [Except.map, hposition, hdepth]
  | error misuse => simp only [Except.map, hposition, hdepth]

/-- And so it does with commands one after the other. -/
theorem run_cursor (text : List Char) (p : Pointer) (commands : List Command) :
    (p.cursor text).run commands = p.run text commands := by
  induction commands generalizing p with
  | nil => rfl
  | cons command commands ih => simp only [Cursor.run, run, enter_cursor, ih]

/-! ### The order of checkpoints -/

/-- A pointer within a text, with its checkpoints in order: each as far into the text as those
outside it, and none further than the pointer. -/
structure Stacked (text : List Char) (p : Pointer) : Prop where
  le_length : p.index ≤ text.length
  sorted : (p.index :: p.saved).Pairwise (· ≥ ·)

theorem stacked_start (text : List Char) : Stacked text {} :=
  ⟨Nat.zero_le _, List.pairwise_singleton ..⟩

/-- Moving on keeps the order. -/
theorem Stacked.forward (h : Stacked text p) {n : Nat} (hn : n ≤ (p.ahead text).length) :
    Stacked text (p.forward n) := by
  obtain ⟨hle, hsorted⟩ := h
  rw [List.pairwise_cons] at hsorted
  rw [ahead, List.length_drop] at hn
  refine ⟨by simp only [Pointer.forward]; omega, List.pairwise_cons.2 ⟨?_, hsorted.2⟩⟩
  intro index hindex
  have := hsorted.1 index hindex
  simp only [Pointer.forward]
  omega

/-- Every command keeps it. -/
theorem Stacked.perform (h : Stacked text p) {command : Command} {reply : Reply} {q : Pointer}
    (hq : p.perform text command = .ok (reply, q)) : Stacked text q := by
  have hrun (keep : Char → Bool) :
      Stacked text (p.forward ((p.ahead text).takeWhile keep).length) :=
    h.forward (List.takeWhile_prefix keep).length_le
  cases command with
  | peek | peekLiteral literal =>
      cases hq
      exact h
  | read =>
      obtain ⟨-, rfl⟩ := Prod.mk.inj (Except.ok.inj hq)
      split
      · rename_i hlt
        refine h.forward ?_
        rw [ahead, List.length_drop]
        omega
      · exact h
  | matchLiteral literal =>
      have hq := Except.ok.inj hq
      split at hq
      · rename_i hsees
        obtain ⟨-, rfl⟩ := Prod.mk.inj hq
        rw [sees_eq_peekLiteral, Cursor.peekLiteral, ahead_cursor] at hsees
        exact h.forward (AsciiCase.length_le_of_begins hsees)
      · obtain ⟨-, rfl⟩ := Prod.mk.inj hq
        exact h
  | save =>
      cases hq
      obtain ⟨hle, hsorted⟩ := h
      refine ⟨hle, List.pairwise_cons.2 ⟨?_, hsorted⟩⟩
      intro index hindex
      rcases List.mem_cons.1 hindex with rfl | hindex
      · exact Nat.le_refl _
      · exact (List.pairwise_cons.1 hsorted).1 index hindex
  | accept =>
      obtain ⟨hle, hsorted⟩ := h
      rcases hs : p.saved with _ | ⟨index, saved⟩
      · simp [Pointer.perform, hs] at hq
      · simp only [Pointer.perform, hs, Except.ok.injEq, Prod.mk.injEq] at hq
        obtain ⟨-, rfl⟩ := hq
        rw [hs] at hsorted
        exact ⟨hle, hsorted.sublist (.cons_cons _ (List.sublist_cons_self ..))⟩
  | rollback =>
      obtain ⟨hle, hsorted⟩ := h
      rcases hs : p.saved with _ | ⟨index, saved⟩
      · simp [Pointer.perform, hs] at hq
      · simp only [Pointer.perform, hs, Except.ok.injEq, Prod.mk.injEq] at hq
        obtain ⟨-, rfl⟩ := hq
        rw [hs] at hsorted
        have hindex := (List.pairwise_cons.1 hsorted).1 index (by simp)
        exact ⟨Nat.le_trans hindex hle, hsorted.of_cons⟩
  | skipLinear =>
      cases hq
      exact hrun isLinear
  | consumeWhile keep =>
      cases hq
      exact hrun keep
  | sliceFrom start =>
      rw [Pointer.perform] at hq
      split at hq
      · cases hq
        exact h
      · cases hq

/-- And so does a command that is refused, which changes nothing. -/
theorem Stacked.enter (h : Stacked text p) (command : Command) :
    Stacked text (p.enter text command).2 := by
  rw [Pointer.enter]
  cases hq : p.perform text command with
  | ok answer => exact h.perform hq
  | error misuse => exact h

theorem Stacked.reached (h : Stacked text p) (commands : List Command) :
    Stacked text (p.reached text commands) := by
  induction commands generalizing p with
  | nil => exact h
  | cons command commands ih => exact ih (h.enter command)

/-! ### What is refused -/

theorem accept_refused_iff :
    (∃ misuse, p.perform text .accept = .error misuse) ↔ p.saved = [] := by
  rw [perform]
  rcases p.saved with _ | ⟨index, saved⟩ <;> simp

theorem rollback_refused_iff :
    (∃ misuse, p.perform text .rollback = .error misuse) ↔ p.saved = [] := by
  rw [perform]
  rcases p.saved with _ | ⟨index, saved⟩ <;> simp

/-- A slice is refused unless it begins where a character does, at the pointer or before it. -/
theorem sliceFrom_refused_iff {start : Nat} :
    (∃ misuse, p.perform text (.sliceFrom start) = .error misuse) ↔
      ¬ ∃ i ≤ p.index, bytes (text.take i) = start := by
  rw [← slice?_eq_none_iff, perform]
  cases p.slice? text start <;> simp

/-- Otherwise it is the text from there to the pointer. -/
theorem sliceFrom_answer_iff (hp : p.index ≤ text.length) {start : Nat} {slice : List Char} :
    p.perform text (.sliceFrom start) = .ok (.text (String.ofList slice), p) ↔
      ∃ i ≤ p.index, bytes (text.take i) = start ∧ slice = (text.take p.index).drop i := by
  rw [← slice?_eq_some_iff hp, perform]
  cases p.slice? text start <;> simp [String.ofList_inj]

end Pointer

/-- **Cursors are pointers.** Whatever commands it is given, a cursor before a script answers them
one by one as a pointer into the characters of the script does, each answer with the position
counted in the characters before the pointer and with as many checkpoints. The checkpoints always
stand in order, none behind the pointer. To drop one or return to one is refused where there is
none; a slice is refused unless it begins where a character does, at the pointer or before it, and
otherwise is the text from there to the pointer. -/
theorem run_eq_pointer (script : String) (commands : List Command) :
    (Cursor.ofString script).run commands = Pointer.run script.toList {} commands ∧
      let text := script.toList
      let p := Pointer.reached text {} commands
      p.index ≤ text.length ∧ (p.index :: p.saved).Pairwise (· ≥ ·) ∧
        ((∃ misuse, p.perform text .accept = .error misuse) ↔ p.saved = []) ∧
        ((∃ misuse, p.perform text .rollback = .error misuse) ↔ p.saved = []) ∧
        ∀ start,
          ((∃ misuse, p.perform text (.sliceFrom start) = .error misuse) ↔
            ¬ ∃ i ≤ p.index, bytes (text.take i) = start) ∧
          ∀ slice,
            p.perform text (.sliceFrom start) = .ok (.text (String.ofList slice), p) ↔
              ∃ i ≤ p.index, bytes (text.take i) = start ∧ slice = (text.take p.index).drop i := by
  refine ⟨?_, ?_⟩
  · rw [← Pointer.cursor_start, Pointer.run_cursor]
  · intro text p
    have hp : Pointer.Stacked text p := (Pointer.stacked_start text).reached commands
    refine ⟨hp.le_length, hp.sorted, Pointer.accept_refused_iff, Pointer.rollback_refused_iff, ?_⟩
    intro start
    refine ⟨Pointer.sliceFrom_refused_iff, ?_⟩
    intro slice
    exact Pointer.sliceFrom_answer_iff hp.le_length

end BatchScript
