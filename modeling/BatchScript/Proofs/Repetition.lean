import BatchScript.Proofs.Course
import Mathlib.Data.List.Forall2

/-!
# Where repetition is applied

Repetition is applied to the text of a batch or left to whoever runs it. The choice changes no cut,
no count and no line: the two runs go through the same regions and close the same drafts, and they
differ in the text that a draft becomes. What is run is the same in the end. A loop is run once and
repeats its body as often as the bound says that is written in it; any other text is run as often
as its count says.

## Main results

* `loopBound?_wrapRepeat` — the bound written in a loop is the count it was made with.
* `Batch.alternates_finish` — the batches that one draft makes, with repetition applied in either
  place.
* `split_repeating` — the two runs over a script fail alike, or make such batches pairwise.
-/

namespace BatchScript

/-- The same options with repetition applied in a given place. -/
def Options.repeating (o : Options) (place : Repetition) : Options :=
  { o with repetition := place }

/-- What a text goes on with does not depend on where repetition is applied. -/
theorem Outlook.ofText_repeating (o : Options) (place place' : Repetition) (w : Bool)
    (text : List Char) :
    ofText (o.repeating place) w text = ofText (o.repeating place') w text := by
  rcases text with _ | ⟨first, rest⟩ <;> rfl

/-! ### The bound of a loop -/

/-- What stands before the bound in a loop that counts in a variable of the given name. -/
def loopHead (counter : String) : List Char :=
  "DECLARE ".toList ++ counter.toList ++ " INT = 0;".toList ++
    '\n' :: ("WHILE ".toList ++ counter.toList ++ " < ".toList)

/-- The bound written in a text, if that is a loop that counts in a variable of the given name. -/
def loopBound? (counter text : String) : Option Nat :=
  ((loopHead counter).isPrefixOf? text.toList).map fun rest =>
    Nat.ofDigitChars 10 (rest.takeWhile Char.isDigit) 0

/-- A loop begins with what stands before its bound, the bound, and the end of the line. -/
theorem exists_loopHead_append (body : String) (count : RepeatCount) (counter : String) :
    ∃ rest, (wrapRepeat body count counter).toList =
      loopHead counter ++ (Nat.toDigits 10 count.val ++ '\n' :: rest) := by
  rw [toList_wrapRepeat]
  unfold loopHead
  simp only [List.append_assoc, List.cons_append]
  exact ⟨_, rfl⟩

/-- The bound written in a loop is the count it was made with. -/
theorem loopBound?_wrapRepeat (body : String) (count : RepeatCount) (counter : String) :
    loopBound? counter (wrapRepeat body count counter) = some count.val := by
  obtain ⟨rest, htext⟩ := exists_loopHead_append body count counter
  have hprefix := List.isPrefixOf?_eq_some_iff_append_eq.2 htext.symm
  have hdigits : (Nat.toDigits 10 count.val ++ '\n' :: rest).takeWhile Char.isDigit =
      Nat.toDigits 10 count.val := by
    rw [List.takeWhile_append_of_pos fun c hc =>
      Nat.isDigit_of_mem_toDigits (by decide) (by decide) hc]
    exact List.append_nil _
  rw [loopBound?, hprefix, Option.map_some, hdigits,
    Nat.ofDigitChars_toDigits (by decide) (by decide)]

namespace Batch

/-- The bound of the loop that a batch is, and a single run if it is none. -/
def bound? (counter : String) (b : Batch) : Option Nat :=
  if b.wrapped then loopBound? counter b.text else some 1

/-! ### Two batches of one draft -/

/-- A batch with repetition put into its text, and one with repetition left to be done. -/
structure Alternates (counter : String) (looped delegated : Batch) : Prop where
  line_eq : looped.line = delegated.line
  repeatCount_eq : looped.repeatCount = delegated.repeatCount
  /-- The text becomes a loop if it is to be run more than once. -/
  text_eq : looped.text =
    if 1 < delegated.repeatCount.val then
      wrapRepeat delegated.text delegated.repeatCount counter
    else
      delegated.text
  wrapped_iff : looped.wrapped = true ↔ 1 < delegated.repeatCount.val
  wrapped_eq_false : delegated.wrapped = false
  executions_looped : looped.executions = 1
  executions_delegated : delegated.executions = delegated.repeatCount.val
  /-- The runs of the text and those of its loop are together as many as the count says. -/
  runs_looped : (looped.bound? counter).map (looped.executions * ·) = some looped.repeatCount.val
  runs_delegated : (delegated.bound? counter).map (delegated.executions * ·) =
    some delegated.repeatCount.val

/-- The batches that one draft makes, with repetition applied in either place. -/
theorem alternates_finish (o : Options) (body : String) (count : RepeatCount) (line : Nat) :
    Alternates o.counterVariable (finish (o.repeating .wrap) body count line)
      (finish (o.repeating .delegate) body count line) := by
  have hdelegated : finish (o.repeating .delegate) body count line =
      { text := body, repeatCount := count, line, wrapped := false } := by
    simp [finish, Options.repeating]
  have hlooped : finish (o.repeating .wrap) body count line =
      { text := if 1 < count.val then wrapRepeat body count o.counterVariable else body,
        repeatCount := count, line, wrapped := decide (1 < count.val) } := by
    by_cases hcount : 1 < count.val <;> simp [finish, Options.repeating, hcount]
  have hone := count.one_le
  rw [hdelegated, hlooped]
  by_cases hcount : 1 < count.val
  · constructor <;> simp [executions, bound?, hcount, loopBound?_wrapRepeat]
  · have hval : count.val = 1 := by omega
    constructor <;> simp [executions, bound?, hval]

end Batch

/-! ### Two runs -/

/-- A segment makes two such batches, or none in either run. -/
theorem Segment.alternates_batch? (o : Options) (s : Segment) :
    Option.Rel (Batch.Alternates o.counterVariable) (s.batch? (o.repeating .wrap))
      (s.batch? (o.repeating .delegate)) := by
  have hdraft (place : Repetition) : s.draft (o.repeating place).keepComments =
      s.draft o.keepComments := rfl
  rw [batch?, batch?, hdraft, hdraft, Draft.finish?, Draft.finish?]
  cases allBlank (s.draft o.keepComments).text with
  | true => exact .none
  | false => exact .some (Batch.alternates_finish o _ s.count _)

/-- The batches of segments are pairwise such batches. -/
theorem Segment.alternates_filterMap (o : Options) (ss : List Segment) :
    List.Forall₂ (Batch.Alternates o.counterVariable)
      (ss.filterMap (batch? (o.repeating .wrap)))
      (ss.filterMap (batch? (o.repeating .delegate))) := by
  induction ss with
  | nil => exact .nil
  | cons s ss ih =>
      have hs := alternates_batch? o s
      rw [List.filterMap_cons, List.filterMap_cons]
      generalize s.batch? (o.repeating .wrap) = looped at hs
      generalize s.batch? (o.repeating .delegate) = delegated at hs
      cases hs with
      | none => exact ih
      | some h => exact .cons h ih

/-- **Repetition.** Whether repetition is put into the text or left to be done, a script fails with
the same error, or is split into as many batches, pairwise on the same lines and with the same
counts. A batch to be run more than once is a loop in the first run, and each batch is run as often
as its count says in both. -/
theorem split_repeating (o : Options) (script : String) :
    (∃ e, split (o.repeating .wrap) script = .error e ∧
        split (o.repeating .delegate) script = .error e) ∨
      ∃ looped delegated, split (o.repeating .wrap) script = .ok looped ∧
        split (o.repeating .delegate) script = .ok delegated ∧
        List.Forall₂ (Batch.Alternates o.counterVariable) looped delegated := by
  obtain ⟨pieces, w, rest, fault, hp, hh⟩ := exists_passage (o.repeating .wrap) false script.toList
  have hofText := Outlook.ofText_repeating o .wrap .delegate
  obtain ⟨hcourse, hlooped⟩ := split_of_halt hp hh
  obtain ⟨hcourse', hdelegated⟩ := split_of_halt (hp.congr hofText) (hh.congr hofText)
  cases fault with
  | some fault => exact .inl ⟨_, hlooped, hdelegated⟩
  | none =>
      have hsegments : segments (o.repeating .delegate) script =
          segments (o.repeating .wrap) script := by
        rw [segments, segments, hcourse, hcourse']
      rw [hsegments] at hdelegated
      exact .inr ⟨_, _, hlooped, hdelegated, Segment.alternates_filterMap o _⟩

end BatchScript
