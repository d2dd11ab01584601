import BatchScript.Proofs.Extent
import BatchScript.Proofs.Repetition
import Mathlib.Data.List.DropRight

/-!
# What a loop keeps of its body

A loop is its head, the bound, the body without the line breaks at its two ends, and a tail that
repeats the name of the counter. The body and that name are any texts, and may hold what looks like
a part of a loop. Nothing is lost all the same: the bound ends where its line ends, so that it can
be read back; then all that stands in front of the body is known, and all that stands behind it.

## Main results

* `isCore_iff` — what is left of a text is what stands between the line breaks at its two ends.
* `toList_wrapRepeat_core` — the parts of a loop.
* `wrapRepeat_eq_iff` — two loops are the same exactly if their bounds and the cores of their bodies
  are.
-/

namespace BatchScript

/-! ### The core of a text -/

/-- What stands between the line breaks at the two ends of a text. It neither begins nor ends with
one, so the runs of line breaks around it are as long as can be. -/
structure IsCore (text core : List Char) : Prop where
  between : ∃ front back, text = front ++ core ++ back ∧ (∀ c ∈ front, isLineBreak c = true) ∧
    ∀ c ∈ back, isLineBreak c = true
  first : ∀ c ∈ core.head?, isLineBreak c = false
  last : ∀ c ∈ core.getLast?, isLineBreak c = false

variable {text core : List Char}

theorem stripLineBreaks_eq_rdropWhile (text : List Char) :
    stripLineBreaks text = (text.dropWhile isLineBreak).rdropWhile isLineBreak := rfl

/-- A run of line breaks in front of what does not begin with one is dropped. -/
theorem dropWhile_lineBreaks {front rest : List Char} (hf : ∀ c ∈ front, isLineBreak c = true)
    (hr : ∀ c ∈ rest.head?, isLineBreak c = false) :
    (front ++ rest).dropWhile isLineBreak = rest := by
  have hfront : front.dropWhile isLineBreak = [] := List.dropWhile_eq_nil_iff.2 hf
  rw [dropWhile_append_of_stop hr, hfront, List.nil_append]

/-- And so is one behind what does not end with one. -/
theorem rdropWhile_lineBreaks {back rest : List Char} (hb : ∀ c ∈ back, isLineBreak c = true)
    (hr : ∀ c ∈ rest.getLast?, isLineBreak c = false) :
    (rest ++ back).rdropWhile isLineBreak = rest := by
  have hback : ∀ c ∈ back.reverse, isLineBreak c = true := fun c hc =>
    hb c (List.mem_reverse.1 hc)
  have hrest : ∀ c ∈ rest.reverse.head?, isLineBreak c = false := fun c hc =>
    hr c (List.head?_reverse ▸ hc)
  rw [List.rdropWhile, List.reverse_append, dropWhile_lineBreaks hback hrest, List.reverse_reverse]

/-- What is left of a text without the line breaks at its two ends is its core. -/
theorem isCore_stripLineBreaks (text : List Char) : IsCore text (stripLineBreaks text) := by
  rw [stripLineBreaks_eq_rdropWhile]
  refine ⟨⟨text.takeWhile isLineBreak, (text.dropWhile isLineBreak).rtakeWhile isLineBreak,
    ?_, ?_, ?_⟩, ?_, ?_⟩
  · rw [List.append_assoc, List.rdropWhile_append_rtakeWhile, List.takeWhile_append_dropWhile]
  · intro c hc
    exact List.mem_takeWhile_imp hc
  · intro c hc
    exact List.mem_rtakeWhile_imp hc
  · -- the core begins what is left behind the line breaks in front
    intro c hc
    obtain ⟨behind, hbehind⟩ :=
      List.rdropWhile_prefix isLineBreak (l := text.dropWhile isLineBreak)
    have hhead : (text.dropWhile isLineBreak).head? = some c := by
      rw [← hbehind, List.head?_append, Option.mem_def.1 hc]
      rfl
    have hnot := List.head?_dropWhile_not isLineBreak text
    rw [hhead] at hnot
    simpa using hnot
  · intro c hc
    have hne : (text.dropWhile isLineBreak).rdropWhile isLineBreak ≠ [] := by
      intro hnil
      rw [hnil] at hc
      cases hc
    have hnot := List.rdropWhile_last_not isLineBreak (text.dropWhile isLineBreak) hne
    rw [List.getLast?_eq_some_getLast hne, Option.mem_some_iff] at hc
    rw [← hc]
    exact Bool.eq_false_iff.2 hnot

/-- What is left of a text is its core, and a text has no other. -/
theorem isCore_iff : IsCore text core ↔ stripLineBreaks text = core := by
  constructor
  · rintro ⟨⟨front, back, rfl, hfront, hback⟩, hfirst, hlast⟩
    rw [stripLineBreaks_eq_rdropWhile, List.append_assoc]
    rcases core with _ | ⟨c, core⟩
    · have hall : ∀ c ∈ front ++ ([] ++ back), isLineBreak c = true := by
        intro c hc
        rw [List.nil_append, List.mem_append] at hc
        exact hc.elim (hfront c) (hback c)
      rw [List.dropWhile_eq_nil_iff.2 hall, List.rdropWhile_nil]
    · have hhead : ∀ d ∈ (c :: core ++ back).head?, isLineBreak d = false := hfirst
      rw [dropWhile_lineBreaks hfront hhead, rdropWhile_lineBreaks hback hlast]
  · rintro rfl
    exact isCore_stripLineBreaks text

/-- Nothing is left of a text exactly if it is made of line breaks. -/
theorem stripLineBreaks_eq_nil_iff :
    stripLineBreaks text = [] ↔ ∀ c ∈ text, isLineBreak c = true := by
  constructor
  · intro hempty c hc
    obtain ⟨front, back, htext, hfront, hback⟩ := (isCore_stripLineBreaks text).between
    rw [hempty, List.append_nil] at htext
    rw [htext, List.mem_append] at hc
    exact hc.elim (hfront c) (hback c)
  · intro hall
    refine isCore_iff.1 ⟨⟨text, [], by simp, hall, ?_⟩, ?_, ?_⟩
    · exact fun c hc => nomatch hc
    · exact fun c hc => nomatch hc
    · exact fun c hc => nomatch hc

/-! ### The parts of a loop -/

/-- What stands behind the bound in a loop, up to the body. -/
def loopOpening : List Char :=
  '\n' :: ("BEGIN".toList ++ ['\n'])

/-- What stands behind the body in a loop that counts in a variable of the given name. -/
def loopTail (counter : String) : List Char :=
  '\n' :: ("SET ".toList ++ counter.toList ++ " = ".toList ++ counter.toList ++ " + 1;".toList ++
    '\n' :: "END".toList)

/-- A loop is its head, the bound, the core of the body and the tail. -/
theorem toList_wrapRepeat_core (body : String) (count : RepeatCount) (counter : String) :
    (wrapRepeat body count counter).toList =
      loopHead counter ++ Nat.toDigits 10 count.val ++ loopOpening ++
        stripLineBreaks body.toList ++ loopTail counter := by
  rw [toList_wrapRepeat]
  unfold loopHead loopOpening loopTail
  simp only [List.append_assoc, List.cons_append, List.nil_append]

/-- Loops with the same bound and the same counter differ in the core of the body only. -/
theorem wrapRepeat_eq_iff_of_count {body body' : String} (count : RepeatCount)
    (counter : String) :
    wrapRepeat body count counter = wrapRepeat body' count counter ↔
      stripLineBreaks body.toList = stripLineBreaks body'.toList := by
  rw [← String.toList_inj, toList_wrapRepeat_core, toList_wrapRepeat_core, List.append_left_inj,
    List.append_right_inj]

/-- **A loop loses nothing but the line breaks around its body.** Two loops that count in a variable
of one name, whatever that is, are the same exactly if they are to run equally often and their
bodies have the same core. The body has one core, which stands in the loop as it is, whatever it
holds; and a body makes the loop of the empty one exactly if it is made of line breaks alone. -/
theorem wrapRepeat_eq_iff (body body' : String) (count count' : RepeatCount) (counter : String) :
    (wrapRepeat body count counter = wrapRepeat body' count' counter ↔
      count = count' ∧ ∃ core, IsCore body.toList core ∧ IsCore body'.toList core) ∧
    (∃! core, IsCore body.toList core ∧
      (wrapRepeat body count counter).toList =
        loopHead counter ++ Nat.toDigits 10 count.val ++ loopOpening ++ core ++
          loopTail counter) ∧
    (wrapRepeat body count counter = wrapRepeat "" count counter ↔
      ∀ c ∈ body.toList, isLineBreak c = true) := by
  refine ⟨?_, ?_, ?_⟩
  · constructor
    · intro h
      have hbound := congrArg (loopBound? counter) h
      rw [loopBound?_wrapRepeat, loopBound?_wrapRepeat, Option.some.injEq] at hbound
      obtain rfl := RepeatCount.ext hbound
      have hcore := (wrapRepeat_eq_iff_of_count count counter).1 h
      exact ⟨rfl, _, isCore_stripLineBreaks body.toList, hcore ▸ isCore_stripLineBreaks _⟩
    · rintro ⟨rfl, core, hcore, hcore'⟩
      exact (wrapRepeat_eq_iff_of_count count counter).2
        ((isCore_iff.1 hcore).trans (isCore_iff.1 hcore').symm)
  · refine ⟨_, ⟨isCore_stripLineBreaks body.toList, toList_wrapRepeat_core body count counter⟩, ?_⟩
    rintro core ⟨hcore, -⟩
    exact (isCore_iff.1 hcore).symm
  · rw [wrapRepeat_eq_iff_of_count]
    exact stripLineBreaks_eq_nil_iff

/-- Blanks at the two ends are kept, and so are the line breaks behind a blank. -/
example : stripLineBreaks "\r\n \nselect 1\nEND \n\r\n".toList = " \nselect 1\nEND ".toList := by
  decide

end BatchScript
