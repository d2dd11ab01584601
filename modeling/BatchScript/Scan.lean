import BatchScript.Cursor
import BatchScript.Event
import BatchScript.Failure

/-!
# Scans

A scan reads a script from where the cursor stands, reports to the log, and answers or fails. What
it has read and reported stays so when it fails. A scan that may come to nothing takes a checkpoint
first, and at each of its exits drops it or returns to it. `Scan.speculate` does that for a scan as
a whole, and `settle_bind` carries what it does at the end of the scan to the exits within it.

A scan that moves only forward, and holds on to no checkpoint of its own, is `Forward`. Everything
that scripts are split with is, and speculation on such a scan never asks the cursor for what it
cannot do.

## Main results

* `Forward.bind`, `Forward.speculate` — scans built from forward ones are forward.
* `speculate_none`, `speculate_error` — speculation that finds nothing, or fails, leaves the
  cursor exactly as it was.
* `speculate_some` — speculation that finds something leaves the cursor where the scan left it.
* `settle_bind`, `settle_bind_of_unfailing` — an attempt is ended behind its first step, and before
  that only where this step fails.
-/

namespace BatchScript

/-- A script being read: the cursor in it and the log so far. -/
structure Reading where
  cursor : Cursor
  log : Array Event := #[]

/-- What reads a script. -/
abbrev Scan : Type → Type :=
  EStateM Failure Reading

namespace Reading

/-- A script not yet read. -/
def ofString (script : String) : Reading :=
  { cursor := .ofString script }

/-- Adds an entry to the log. -/
def note (r : Reading) (e : Event) : Reading :=
  { r with log := r.log.push e }

/-- Passes over so many characters. -/
def skip (r : Reading) (n : Nat) : Reading :=
  { r with cursor := r.cursor.skip n }

@[simp] theorem ahead_skip (r : Reading) (n : Nat) :
    (r.skip n).cursor.ahead = r.cursor.ahead.drop n := by
  simp [skip]

@[simp] theorem skip_skip (r : Reading) (m n : Nat) : (r.skip m).skip n = r.skip (m + n) := by
  simp [skip]

end Reading

namespace Scan

variable {α β : Type}

/-! ### Single steps -/

/-- The cursor as it stands. -/
def cursor : Scan Cursor := fun r =>
  .ok r.cursor r

/-- Adds an entry to the log. -/
def note (e : Event) : Scan Unit := fun r =>
  .ok () (r.note e)

/-- Gives up on a construct left open. -/
def malformed (construct : Construct) (opener : Position) : Scan α := fun r =>
  .error (.malformed { construct, line := opener.line, column := opener.column }) r

/-- Gives up on a misuse of the cursor. -/
def misuse (m : Misuse) : Scan α := fun r =>
  .error (.misuse m) r

/-- Passes over so many characters. -/
def skip (n : Nat) : Scan Unit := fun r =>
  .ok () (r.skip n)

/-- Carries out an operation that moves the cursor. -/
def move (f : Cursor → α × Cursor) : Scan α := fun r =>
  let (a, c) := f r.cursor
  .ok a { r with cursor := c }

/-- Carries out an operation that the cursor may refuse. -/
def ask (f : Cursor → Except Misuse Cursor) : Scan Unit := fun r =>
  match f r.cursor with
  | .ok c => .ok () { r with cursor := c }
  | .error m => .error (.misuse m) r

/-- Passes over a literal if it is there, ignoring ASCII case. -/
def matchLiteral (literal : String) : Scan Bool :=
  move (·.matchLiteral literal)

/-- Passes over the longest run of characters of a class and gives it. -/
def consumeWhile (keep : Char → Bool) : Scan String :=
  move (·.consumeWhile keep)

/-- The script from so many bytes into it up to the cursor. -/
def sliceFrom (start : Nat) : Scan String := fun r =>
  match r.cursor.sliceFrom start with
  | .ok text => .ok text r
  | .error m => .error (.misuse m) r

/-- Takes a checkpoint. -/
def save : Scan Unit := fun r =>
  .ok () { r with cursor := r.cursor.save }

/-- Drops the innermost checkpoint. -/
def accept : Scan Unit :=
  ask Cursor.accept

/-- Returns to the innermost checkpoint and drops it. -/
def rollback : Scan Unit :=
  ask Cursor.rollback

/-- Ends an attempt made on a checkpoint: what is found is gone on from, and otherwise the cursor
returns. -/
def settle (attempt : Scan (Option α)) : Scan (Option α) := fun r =>
  match attempt r with
  | .ok (some a) r => (do accept; return some a : Scan (Option α)) r
  | .ok none r => (do rollback; return none : Scan (Option α)) r
  | .error failure r => (do rollback; throw failure : Scan (Option α)) r

/-- Runs a scan that may come to nothing. Unless it finds something, the cursor returns to where
it was. -/
def speculate (attempt : Scan (Option α)) : Scan (Option α) := do
  save
  settle attempt

/-! ### Forward scans -/

/-- The state that a scan ends in, whether it answers or fails. -/
def finish (m : Scan α) (r : Reading) : Reading :=
  match m r with
  | .ok _ r => r
  | .error _ r => r

/-- A scan that does nothing to the cursor but pass over characters. -/
def Forward (m : Scan α) : Prop :=
  ∀ r, ∃ n, (m.finish r).cursor = r.cursor.skip n

theorem Forward.ok {m : Scan α} (hm : Forward m) {r r' : Reading} {a : α} (h : m r = .ok a r') :
    ∃ n, r'.cursor = r.cursor.skip n := by
  simpa only [finish, h] using hm r

theorem Forward.error {m : Scan α} (hm : Forward m) {r r' : Reading} {e : Failure}
    (h : m r = .error e r') : ∃ n, r'.cursor = r.cursor.skip n := by
  simpa only [finish, h] using hm r

/-- A scan that leaves the cursor alone is forward. -/
theorem Forward.of_cursor_eq {m : Scan α} (h : ∀ r, (m.finish r).cursor = r.cursor) :
    Forward m :=
  fun r => ⟨0, h r⟩

theorem Forward.pure (a : α) : Forward (Pure.pure a : Scan α) :=
  .of_cursor_eq fun _ => rfl

theorem Forward.cursor : Forward cursor :=
  .of_cursor_eq fun _ => rfl

theorem Forward.note (e : Event) : Forward (note e) :=
  .of_cursor_eq fun _ => rfl

theorem Forward.malformed (construct : Construct) (p : Position) :
    Forward (malformed construct p : Scan α) :=
  .of_cursor_eq fun _ => rfl

theorem Forward.misuse (m : Misuse) : Forward (misuse m : Scan α) :=
  .of_cursor_eq fun _ => rfl

theorem Forward.skip (n : Nat) : Forward (skip n) :=
  fun _ => ⟨n, rfl⟩

theorem Forward.matchLiteral (literal : String) : Forward (matchLiteral literal) := by
  intro r
  simp only [Scan.matchLiteral, Scan.move, finish, Cursor.matchLiteral]
  split
  · exact ⟨_, rfl⟩
  · exact ⟨0, rfl⟩

theorem Forward.consumeWhile (keep : Char → Bool) : Forward (consumeWhile keep) :=
  fun _ => ⟨_, rfl⟩

theorem Forward.sliceFrom (start : Nat) : Forward (sliceFrom start) := by
  refine .of_cursor_eq fun r => ?_
  simp only [Scan.sliceFrom, finish]
  split <;> rename_i h <;> split at h <;> cases h <;> rfl

/-- One forward scan after another is forward. -/
theorem Forward.bind {m : Scan α} {f : α → Scan β} (hm : Forward m) (hf : ∀ a, Forward (f a)) :
    Forward (m >>= f) := by
  intro r
  obtain ⟨n, hn⟩ := hm r
  cases h : m r with
  | ok a r₁ =>
    simp only [finish, h] at hn
    obtain ⟨k, hk⟩ := hf a r₁
    refine ⟨n + k, ?_⟩
    have : (m >>= f).finish r = (f a).finish r₁ := by
      simp only [finish, Bind.bind, EStateM.bind, h]
    rw [this, hk, hn, Cursor.skip_skip]
  | error e r₁ =>
    simp only [finish, h] at hn
    refine ⟨n, ?_⟩
    have : (m >>= f).finish r = r₁ := by
      simp only [finish, Bind.bind, EStateM.bind, h]
    rw [this, hn]

/-! ### Speculation -/

variable {attempt : Scan (Option α)} {r r' : Reading}

theorem speculate_run (attempt : Scan (Option α)) (r : Reading) :
    speculate attempt r = settle attempt { r with cursor := r.cursor.save } := rfl

/-- What speculation finds, it leaves the cursor behind. -/
theorem speculate_some {a : α} {n : Nat}
    (h : attempt { r with cursor := r.cursor.save } = .ok (some a) r')
    (hn : r'.cursor = r.cursor.save.skip n) :
    speculate attempt r = .ok (some a) { r' with cursor := r.cursor.skip n } := by
  simp [speculate_run, settle, h, accept, ask, hn, Bind.bind, EStateM.bind, Pure.pure,
    EStateM.pure]

/-- Speculation that finds nothing leaves the cursor as it was. -/
theorem speculate_none (hm : Forward attempt)
    (h : attempt { r with cursor := r.cursor.save } = .ok none r') :
    speculate attempt r = .ok none { r' with cursor := r.cursor } := by
  obtain ⟨n, hn⟩ := hm.ok h
  simp [speculate_run, settle, h, rollback, ask, hn, Bind.bind, EStateM.bind, Pure.pure,
    EStateM.pure]

/-- Speculation that fails leaves the cursor as it was. -/
theorem speculate_error (hm : Forward attempt) {e : Failure}
    (h : attempt { r with cursor := r.cursor.save } = .error e r') :
    speculate attempt r = .error e { r' with cursor := r.cursor } := by
  obtain ⟨n, hn⟩ := hm.error h
  have hthrow (r : Reading) : (throw e : Scan (Option α)) r = .error e r := rfl
  simp [speculate_run, settle, h, rollback, ask, hn, Bind.bind, EStateM.bind, hthrow]

/-- Speculation on a forward scan is forward. -/
theorem Forward.speculate (hm : Forward attempt) : Forward (speculate attempt) := by
  intro r
  cases h : attempt { r with cursor := r.cursor.save } with
  | ok found r' =>
    cases found with
    | some a =>
      obtain ⟨n, hn⟩ := hm.ok h
      exact ⟨n, by simp only [finish, speculate_some h hn]⟩
    | none => exact ⟨0, by simp only [finish, speculate_none hm h, Cursor.skip_zero]⟩
  | error e r' => exact ⟨0, by simp only [finish, speculate_error hm h, Cursor.skip_zero]⟩

/-! ### Ending an attempt at each exit -/

/-- A scan that always answers. -/
def Unfailing (m : Scan α) : Prop :=
  ∀ r, ∃ a r', m r = .ok a r'

theorem Unfailing.cursor : Unfailing cursor :=
  fun r => ⟨_, r, rfl⟩

theorem Unfailing.note (e : Event) : Unfailing (note e) :=
  fun _ => ⟨_, _, rfl⟩

theorem Unfailing.move (f : Cursor → α × Cursor) : Unfailing (move f) :=
  fun _ => ⟨_, _, rfl⟩

theorem Unfailing.matchLiteral (literal : String) : Unfailing (matchLiteral literal) :=
  .move _

theorem Unfailing.consumeWhile (keep : Char → Bool) : Unfailing (consumeWhile keep) :=
  .move _

theorem settle_some (a : α) :
    settle (Pure.pure (some a)) = (do accept; return some a : Scan (Option α)) := rfl

theorem settle_none :
    settle (Pure.pure none) = (do rollback; return none : Scan (Option α)) := rfl

theorem tryCatch_run (m : Scan α) (handle : Failure → Scan α) (r : Reading) :
    (tryCatch m handle) r =
      match m r with
      | .ok a r => .ok a r
      | .error failure r => handle failure r := by
  change EStateM.tryCatch m handle r = _
  delta EStateM.tryCatch
  cases m r <;> rfl

/-- An attempt is ended behind its first step, unless this fails: then the cursor returns before the
failure is passed on. -/
theorem settle_bind (m : Scan α) (f : α → Scan (Option β)) :
    settle (m >>= f) =
      (tryCatch m fun failure => do rollback; throw failure) >>= fun a => settle (f a) := by
  funext r
  simp only [settle, Bind.bind, EStateM.bind, tryCatch_run]
  cases m r with
  | ok a r₁ => rfl
  | error failure r₁ =>
    -- nothing comes behind a failure, whatever the cursor says to its return
    dsimp only
    cases rollback r₁ <;> rfl

/-- Behind a step that always answers it is ended as if there had been none. -/
theorem settle_bind_of_unfailing {m : Scan α} (hm : Unfailing m) (f : α → Scan (Option β)) :
    settle (m >>= f) = m >>= fun a => settle (f a) := by
  funext r
  obtain ⟨a, r₁, h⟩ := hm r
  simp only [settle, Bind.bind, EStateM.bind, h]

end Scan

end BatchScript
