import BatchScript.Draft
import BatchScript.Region

/-!
# The stream of batches

A script is split one batch at a time. `BatchStream.step` reads one region and adds it to the draft,
or closes the draft at a separator or at the end of the script; `BatchStream.next` steps until a
batch is complete, the script ends, or it turns out malformed. Blank drafts make no batch. A stream
that has ended, or has failed, gives nothing more.

Each kind of region is copied into the draft by a rule of its own. `BatchStream.extend` is one rule
for all of them, which looks at the text and not at the kind.

## Main results

* `absorb_of_wellFormed` — the rules for the kinds of regions come to the one rule.
* `remaining_of_more` — a step that goes on takes at least one character.
* `weight_of_next` — the stream weighs less with every batch, so all its batches are finitely many.
-/

namespace BatchScript

/-- A script being split. -/
structure BatchStream where
  /-- How it is split. -/
  options : Options
  /-- How far it is read, and the log. -/
  reading : Reading
  /-- The batch being put together. -/
  draft : Draft := {}
  /-- Whether the last character read is a word character of ordinary text. -/
  afterWord : Bool := false
  /-- Whether nothing more is to come. -/
  finished : Bool := false

/-- What a step comes to. -/
inductive Step
  /-- The script goes on. -/
  | more (rest : BatchStream)
  /-- A batch is complete. -/
  | batch (batch : Batch) (rest : BatchStream)
  /-- The script ends. -/
  | done (rest : BatchStream)
  /-- The script cannot be split. -/
  | failed (failure : Failure) (rest : BatchStream)

namespace BatchStream

/-- The stream of the batches of a script. -/
def ofString (o : Options) (script : String) : BatchStream :=
  { options := o, reading := .ofString script }

/-- How many characters are not yet read. -/
def remaining (s : BatchStream) : Nat :=
  s.reading.cursor.ahead.length

/-- Closes the draft. Unless it is blank it becomes a batch, which is reported; then a fresh draft
is begun. -/
def close (s : BatchStream) (count : RepeatCount) : Option Batch × BatchStream :=
  match s.draft.finish? s.options count with
  | some b =>
    (some b,
      { s with reading := s.reading.note (.batch b.line b.repeatCount), draft := {} })
  | none => (none, { s with draft := {} })

/-- Reports a separator just read. No word is open behind it. -/
def noteSeparator (s : BatchStream) (count : RepeatCount) : BatchStream :=
  { s with
    reading := s.reading.note (.separator s.reading.cursor.position.line count),
    afterWord := false }

/-- What follows a separator just read: the batch that it closes, if that is not blank. -/
def separate (s : BatchStream) (count : RepeatCount) : Step :=
  match (s.noteSeparator count).close count with
  | (some b, rest) => .batch b rest
  | (none, rest) => .more rest

/-- What follows a comment, which is copied if comments are kept. -/
def copyComment (s : BatchStream) (line : Nat) (text : String) : BatchStream :=
  { s with
    draft := if s.options.keepComments then (s.draft.mark line).push text else s.draft,
    afterWord := false }

/-- What follows quoted text. -/
def copyQuoted (s : BatchStream) (line : Nat) (text : String) : BatchStream :=
  { s with draft := (s.draft.mark line).push text, afterWord := false }

/-- What follows a run of spaces and tabs, which has no line to make known. -/
def copyBlanks (s : BatchStream) (text : String) : BatchStream :=
  { s with draft := s.draft.push text, afterWord := false }

/-- What follows any other character. It may be a blank too, and only here can a word be open. -/
def copyOrdinary (s : BatchStream) (line : Nat) (char : Char) : BatchStream :=
  { s with
    draft := (if isBlank char then s.draft else s.draft.mark line).push char.toString,
    afterWord := isWord char }

/-- What follows a region just read, which began on the given line. -/
def absorb (s : BatchStream) (line : Nat) : Region → Step
  | .comment text => .more (s.copyComment line text)
  | .quoted text => .more (s.copyQuoted line text)
  | .separator count => s.separate count
  | .blanks text => .more (s.copyBlanks text)
  | .ordinary char => .more (s.copyOrdinary line char)

/-- The end of the script closes the last batch as a separator without a count would. -/
def conclude (s : BatchStream) : Step :=
  match s.close .once with
  | (some b, rest) => .batch b rest
  | (none, rest) => .done { rest with finished := true }

/-- Reads one region, or ends the script. -/
def step (s : BatchStream) : Step :=
  match s.reading.cursor.peek with
  | none => s.conclude
  | some first =>
    match Scan.region s.options s.afterWord first s.reading with
    | .ok region reading => absorb { s with reading } s.reading.cursor.position.line region
    | .error failure reading => .failed failure { s with reading, finished := true }

/-! ### One rule for all text -/

/-- What follows a region of text, told from what is copied of it. -/
def extend (s : BatchStream) (line : Nat) (region : Region) : BatchStream :=
  { s with
    draft := s.draft.add line (region.copied s.options.keepComments),
    afterWord := region.endsInWord }

theorem copyComment_eq_extend (s : BatchStream) (line : Nat) {text : String}
    (h : allBlank text = false) : s.copyComment line text = s.extend line (.comment text) := by
  rw [copyComment, extend, Region.copied]
  split
  · rw [Draft.add_of_not_allBlank _ _ h]
    rfl
  · rw [Draft.add_of_allBlank _ _ allBlank_empty, Draft.push, String.append_empty]
    rfl

theorem copyQuoted_eq_extend (s : BatchStream) (line : Nat) {text : String}
    (h : allBlank text = false) : s.copyQuoted line text = s.extend line (.quoted text) := by
  rw [copyQuoted, extend, Region.copied, Draft.add_of_not_allBlank _ _ h]
  rfl

theorem copyBlanks_eq_extend (s : BatchStream) (line : Nat) {text : String}
    (h : allBlank text = true) : s.copyBlanks text = s.extend line (.blanks text) := by
  rw [copyBlanks, extend, Region.copied, Draft.add_of_allBlank _ _ h]
  rfl

theorem copyOrdinary_eq_extend (s : BatchStream) (line : Nat) (char : Char) :
    s.copyOrdinary line char = s.extend line (.ordinary char) := by
  have hblank : allBlank char.toString = isBlank char := by simp [allBlank]
  rw [copyOrdinary, extend, Region.copied]
  cases h : isBlank char with
  | true =>
    rw [Draft.add_of_allBlank _ _ (hblank.trans h)]
    rfl
  | false =>
    rw [Draft.add_of_not_allBlank _ _ (hblank.trans h)]
    rfl

/-- Each kind of region makes its line known by a rule of its own. Where the kind is true to the
text they all come to one rule, which looks at the text alone. -/
theorem absorb_of_wellFormed {region : Region} (h : region.WellFormed) (s : BatchStream)
    (line : Nat) :
    s.absorb line region =
      match region with
      | .separator count => s.separate count
      | region => .more (s.extend line region) := by
  cases region with
  | comment text => exact congrArg Step.more (s.copyComment_eq_extend line h)
  | quoted text => exact congrArg Step.more (s.copyQuoted_eq_extend line h)
  | separator count => rfl
  | blanks text => exact congrArg Step.more (s.copyBlanks_eq_extend line h)
  | ordinary char => exact congrArg Step.more (s.copyOrdinary_eq_extend line char)

/-! ### Progress -/

/-- Bounds the batches still to come: every character may close one, and so may the end. -/
def weight (s : BatchStream) : Nat :=
  s.remaining + s.draft.weight

@[simp] theorem remaining_close (s : BatchStream) (count : RepeatCount) :
    (s.close count).2.remaining = s.remaining := by
  rw [close]
  split <;> rfl

@[simp] theorem draft_close (s : BatchStream) (count : RepeatCount) :
    (s.close count).2.draft = {} := by
  rw [close]
  split <;> rfl

/-- A draft that becomes a batch weighed one. -/
theorem weight_of_close {s s' : BatchStream} {count : RepeatCount} {b : Batch}
    (h : s.close count = (some b, s')) : s'.weight + 1 = s.weight := by
  have hr : s'.remaining = s.remaining := by simpa only [h] using s.remaining_close count
  have hd : s'.draft = {} := by simpa only [h] using s.draft_close count
  have hw : s.draft.weight = 1 := by
    rw [close] at h
    split at h
    · rename_i hf
      exact Draft.weight_of_finish? hf
    · cases h
  simp [weight, hr, hd, hw]

@[simp] theorem weight_noteSeparator (s : BatchStream) (count : RepeatCount) :
    (s.noteSeparator count).weight = s.weight := rfl

@[simp] theorem remaining_noteSeparator (s : BatchStream) (count : RepeatCount) :
    (s.noteSeparator count).remaining = s.remaining := rfl

/-- Reading a region leaves fewer characters. -/
theorem remaining_of_region {s : BatchStream} {first : Char} {found : Region} {r : Reading}
    (hfirst : s.reading.cursor.peek = some first)
    (h : Scan.region s.options s.afterWord first s.reading = .ok found r) :
    r.cursor.ahead.length < s.remaining := by
  obtain ⟨k, hk, hcur⟩ := Scan.region_ok hfirst h
  have : s.reading.cursor.ahead ≠ [] := by
    intro hnil
    simp [Cursor.peek, hnil] at hfirst
  have := List.length_pos_iff.2 this
  simp only [hcur, Cursor.ahead_skip, List.length_drop, remaining]
  omega

/-- A stream that goes on behind a region closed a blank draft there, or copied text. Text changes
nothing but the draft and whether a word is open. -/
theorem close_or_copy_of_absorb {s s' : BatchStream} {line : Nat} {region : Region}
    (h : s.absorb line region = .more s') :
    (∃ count, region = .separator count ∧
        (s.noteSeparator count).close count = (none, s')) ∨
      ∃ d w, s' = { s with draft := d, afterWord := w } := by
  cases region with
  | separator count =>
    rw [absorb, separate] at h
    split at h
    · cases h
    · rename_i hc
      cases h
      exact .inl ⟨count, rfl, hc⟩
  | _ =>
    cases h
    exact .inr ⟨_, _, rfl⟩

/-- A batch that follows a region is the draft that a separator closes. -/
theorem close_of_absorb {s s' : BatchStream} {line : Nat} {region : Region} {b : Batch}
    (h : s.absorb line region = .batch b s') :
    ∃ count, region = .separator count ∧
      (s.noteSeparator count).close count = (some b, s') := by
  cases region with
  | separator count =>
    rw [absorb, separate] at h
    split at h
    · rename_i hc
      cases h
      exact ⟨count, rfl, hc⟩
    · cases h
  | _ => cases h

/-- What follows a region keeps the characters that it left. -/
theorem remaining_of_absorb {s s' : BatchStream} {line : Nat} {region : Region}
    (h : s.absorb line region = .more s') : s'.remaining = s.remaining := by
  obtain ⟨count, -, hc⟩ | ⟨d, w, rfl⟩ := close_or_copy_of_absorb h
  · simpa only [hc, remaining_noteSeparator] using (s.noteSeparator count).remaining_close count
  · rfl

/-- A stream weighs less behind a batch that follows a region. -/
theorem weight_of_absorb {s s' : BatchStream} {line : Nat} {region : Region} {b : Batch}
    (h : s.absorb line region = .batch b s') : s'.weight + 1 = s.weight := by
  obtain ⟨count, -, hc⟩ := close_of_absorb h
  simpa using weight_of_close hc

/-- A step that goes on takes at least one character. -/
theorem remaining_of_more {s s' : BatchStream} (h : s.step = .more s') :
    s'.remaining < s.remaining := by
  rw [step] at h
  split at h
  · rw [conclude] at h
    split at h <;> cases h
  · rename_i first hfirst
    split at h
    · rename_i hr
      rw [remaining_of_absorb h]
      exact remaining_of_region hfirst hr
    · cases h

/-- A step that goes on makes the stream no heavier. -/
theorem weight_of_more {s s' : BatchStream} (h : s.step = .more s') : s'.weight ≤ s.weight := by
  have := remaining_of_more h
  have := s'.draft.weight_le_one
  simp only [weight]
  omega

/-- A step that completes a batch makes the stream lighter. -/
theorem weight_of_batch {s s' : BatchStream} {b : Batch} (h : s.step = .batch b s') :
    s'.weight < s.weight := by
  rw [step] at h
  split at h
  · rw [conclude] at h
    split at h
    · rename_i hc
      cases h
      have := weight_of_close hc
      omega
    · cases h
  · rename_i first hfirst
    split at h
    · rename_i region reading hr
      have hlt := remaining_of_region hfirst hr
      have hw := weight_of_absorb h
      have : ({ s with reading } : BatchStream).weight ≤ s.weight := by
        simp only [weight, remaining] at hlt ⊢
        omega
      omega
    · cases h

/-! ### Running -/

/-- Steps until a batch is complete or nothing more is to come. -/
def run (s : BatchStream) : Option (Except Failure Batch) × BatchStream :=
  match _h : s.step with
  | .more rest => run rest
  | .batch b rest => (some (.ok b), rest)
  | .done rest => (none, rest)
  | .failed failure rest => (some (.error failure), rest)
termination_by s.remaining
decreasing_by exact remaining_of_more _h

/-- The next batch, or why there cannot be one; nothing once the stream has ended or failed. -/
def next (s : BatchStream) : Option (Except Failure Batch) × BatchStream :=
  if s.finished then (none, s) else s.run

theorem weight_of_run {s s' : BatchStream} {b : Batch} (h : s.run = (some (.ok b), s')) :
    s'.weight < s.weight := by
  fun_induction run s with
  | case1 s rest hs ih => exact Nat.lt_of_lt_of_le (ih h) (weight_of_more hs)
  | case2 s b rest hs =>
    cases h
    exact weight_of_batch hs
  | case3 s rest hs => cases h
  | case4 s failure rest hs => cases h

/-- Every batch makes the stream lighter. -/
theorem weight_of_next {s s' : BatchStream} {b : Batch} (h : s.next = (some (.ok b), s')) :
    s'.weight < s.weight := by
  rw [next] at h
  split at h
  · cases h
  · exact weight_of_run h

/-- All batches still to come, unless the script cannot be split, and the stream behind them. -/
def collect (s : BatchStream) : Except Failure (List Batch) × BatchStream :=
  match _h : s.next with
  | (none, rest) => (.ok [], rest)
  | (some (.error failure), rest) => (.error failure, rest)
  | (some (.ok b), rest) =>
    let (batches, last) := collect rest
    (batches.map (b :: ·), last)
termination_by s.weight
decreasing_by exact weight_of_next _h

/-- The outcomes of asking for the next batch so many times. -/
def take (s : BatchStream) : Nat → List (Option (Except Failure Batch))
  | 0 => []
  | calls + 1 =>
    let (item, rest) := s.next
    item :: rest.take calls

end BatchStream

end BatchScript
