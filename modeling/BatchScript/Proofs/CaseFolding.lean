import BatchScript.Proofs.Transcript

/-!
# The case of letters

Writing a script in lower case is a respelling: no letter is a mark, and of each class of characters
that matters all letters are members or none. With the keywords written in lower case, too, they are
found in the same places. So scripts and options that are the same in lower case are split alike.

## Main results

* `class_toLower` — the class of a letter does not depend on its case.
* `fits_lowerCase` — keywords are found in the same places in lower case.
* `alike_of_lowerCase` — scripts that differ in the case of letters are split alike.
-/

namespace BatchScript

/-! ### Letters -/

section Letters

variable {c : Char}

/-- A class that holds all letters or none does not depend on their case. -/
theorem class_toLower {p : Char → Bool} (b : Bool) (hp : ∀ c, c.isAlpha = true → p c = b)
    (c : Char) : p c.toLower = p c := by
  cases hc : c.isAlpha with
  | true => rw [hp c hc, hp _ (AsciiCase.isAlpha_toLower hc)]
  | false => rw [AsciiCase.toLower_of_not_isAlpha hc]

/-- A letter is none of the characters that are no letters. -/
theorem ne_of_isAlpha (h : c.isAlpha = true) {m : Char} (hm : m.isAlpha = false) : c ≠ m := by
  rintro rfl
  rw [h] at hm
  cases hm

theorem isLinear_of_isAlpha (h : c.isAlpha = true) : isLinear c = false := by
  rw [← Bool.not_eq_true]
  intro hl
  rcases eq_of_isLinear hl with rfl | rfl <;> cases h

theorem isLineBreak_of_isAlpha (h : c.isAlpha = true) : isLineBreak c = false := by
  rw [← Bool.not_eq_true]
  intro hb
  rcases eq_of_isLineBreak hb with rfl | rfl <;> cases h

/-- The codes of the letters. -/
theorem toNat_of_isAlpha (h : c.isAlpha = true) :
    (65 ≤ c.toNat ∧ c.toNat ≤ 90) ∨ (97 ≤ c.toNat ∧ c.toNat ≤ 122) := by
  rcases Bool.or_eq_true_iff.1 h with hu | hl
  · exact .inl (AsciiCase.isUpper_iff.1 hu)
  · exact .inr (AsciiCase.isLower_iff.1 hl)

theorem isBlank_of_isAlpha (h : c.isAlpha = true) : isBlank c = false := by
  have hcode := toNat_of_isAlpha h
  simp only [isBlank, Bool.or_eq_false_iff, Bool.and_eq_false_iff, decide_eq_false_iff_not,
    beq_eq_false_iff_ne]
  omega

theorem isDigit_of_isAlpha (h : c.isAlpha = true) : c.isDigit = false := by
  have hcode := toNat_of_isAlpha h
  rw [← Bool.not_eq_true]
  intro hd
  have hdigit : 48 ≤ c.toNat ∧ c.toNat ≤ 57 := by
    simpa [Char.isDigit, UInt32.le_iff_toNat_le] using hd
  omega

theorem isMark_of_isAlpha (h : c.isAlpha = true) : isMark c = false := by
  simp [isMark, isLinear_of_isAlpha h, isDigit_of_isAlpha h, ne_of_isAlpha h]

theorem isWord_of_isAlpha (h : c.isAlpha = true) : isWord c = true :=
  isWord_of_isAlphanum (by simp [Char.isAlphanum, h])

end Letters

/-! ### Lower case -/

/-- A text in lower case, as far as its ASCII letters go. -/
def lowerCase (text : String) : String :=
  String.ofList (text.toList.map Char.toLower)

@[simp] theorem toList_lowerCase (text : String) :
    (lowerCase text).toList = text.toList.map Char.toLower :=
  String.toList_ofList

theorem isEmpty_lowerCase (text : String) : (lowerCase text).isEmpty = text.isEmpty := by
  rw [Bool.eq_iff_iff, String.isEmpty_iff, String.isEmpty_iff, ← String.toList_eq_nil_iff,
    ← String.toList_eq_nil_iff, toList_lowerCase, List.map_eq_nil_iff]

/-- The same options with their keywords in lower case. -/
def Options.lowerCase (o : Options) : Options :=
  { o with
    separator := BatchScript.lowerCase o.separator
    lookalikes := o.lookalikes.map BatchScript.lowerCase }

/-- What is kept of a text when the case of its letters does not matter. -/
def Blur.letterCase : Blur where
  map := List.map Char.toLower
  append _ _ := List.map_append
  all_isBlank text := by
    have hblank := funext (class_toLower false fun _ => isBlank_of_isAlpha)
    rw [List.all_map]
    exact congrArg (List.all text) hblank
  strip text := by
    have hbreak := funext (class_toLower false fun _ => isLineBreak_of_isAlpha)
    have hdrop (l : List Char) : (l.map Char.toLower).dropWhile isLineBreak =
        (l.dropWhile isLineBreak).map Char.toLower := by
      rw [List.dropWhile_map]
      exact congrArg (fun p => (l.dropWhile p).map Char.toLower) hbreak
    rw [stripLineBreaks, stripLineBreaks, hdrop, ← List.map_reverse, hdrop, List.map_reverse]

/-- Lower case as a respelling. -/
def Respelling.lowerCase : Respelling where
  char := Char.toLower
  lead := []
  char_of_isMark c hc := by
    refine AsciiCase.toLower_of_not_isAlpha (Bool.eq_false_iff.2 fun ha => ?_)
    rw [isMark_of_isAlpha ha] at hc
    cases hc
  isMark_char := class_toLower false fun _ => isMark_of_isAlpha
  isWord_char := class_toLower true fun _ => isWord_of_isAlpha
  isMark_lead := by simp
  isWord_lead := by simp

theorem respell_lowerCase (text : List Char) :
    Respelling.lowerCase.respell text = text.map Char.toLower := by
  induction text with
  | nil => rfl
  | cons c rest ih =>
      by_cases hc : c = '\n'
      · rw [hc, Respelling.respell_newline, ih]
        rfl
      · rw [Respelling.respell_cons hc, ih]
        rfl

/-- Case does not matter for whether a text begins with a literal. -/
theorem begins_toLower (literal text : List Char) :
    AsciiCase.begins (literal.map Char.toLower) (text.map Char.toLower) =
      AsciiCase.begins literal text := by
  induction literal generalizing text with
  | nil => simp
  | cons expected literal ih =>
      rcases text with _ | ⟨found, text⟩
      · rfl
      · simp only [List.map_cons, AsciiCase.begins, AsciiCase.eq, AsciiCase.toLower_toLower, ih]

/-- Keywords in lower case are found in the same places. -/
theorem fits_lowerCase (o : Options) : Respelling.lowerCase.Fits o o.lowerCase where
  eq_with := rfl
  isEmpty_eq := isEmpty_lowerCase o.separator
  begins_eq text := by
    rw [respell_lowerCase, Options.lowerCase, toList_lowerCase, begins_toLower]
  image_eq text h := by
    have hle := AsciiCase.length_le_of_begins h
    rw [Respelling.image, respell_lowerCase, List.length_map, List.length_take,
      Nat.min_eq_left hle, Options.lowerCase, toList_lowerCase, List.length_map]
  lookalikes_eq text := by
    simp only [Options.lowerCase, List.any_map, respell_lowerCase, Function.comp_def,
      toList_lowerCase, begins_toLower]
  isNone_lead := .inl rfl

theorem unseen_lowerCase : Respelling.lowerCase.Unseen .letterCase := by
  intro text
  have htwice : (text.map Char.toLower).map Char.toLower = text.map Char.toLower := by
    rw [List.map_map]
    exact List.map_congr_left fun c _ => AsciiCase.toLower_toLower c
  rw [respell_lowerCase]
  exact htwice

/-! ### Scripts that differ in case -/

/-- **Case.** Scripts that are the same in lower case, split with options that are the same with
their keywords in lower case, fail with the same error, or are split into as many batches, on the
same lines and with the same counts, of texts that are the same in lower case. -/
theorem alike_of_lowerCase {o o' : Options} {script script' : String}
    (ho : o.lowerCase = o'.lowerCase) (hs : lowerCase script = lowerCase script') :
    Outcomes.Alike .letterCase (split o script) (split o' script') := by
  have hlower (o : Options) (script : String) :
      Outcomes.Alike .letterCase (split o script) (split o.lowerCase (lowerCase script)) := by
    have h := alike_respell (fits_lowerCase o) unseen_lowerCase script
    rwa [respell_lowerCase] at h
  have h' := hlower o' script'
  rw [← ho, ← hs] at h'
  exact (hlower o script).trans_symm h'

/-- Keywords, a look-alike and a literal in either case. -/
theorem alike_of_go_in_either_case :
    ∃ batches batches', split {} "A\nGOTO 'x'\nGo 2\nb" = .ok batches ∧
      split { separator := "go", lookalikes := ["Goto"] } "a\ngoto 'X'\ngO 2\nB" = .ok batches' ∧
      batches.length = 2 ∧ List.Forall₂ (Batch.Alike .letterCase) batches batches' := by
  have ho : Options.lowerCase {} =
      Options.lowerCase { separator := "go", lookalikes := ["Goto"] } := by
    decide +kernel
  have hs : lowerCase "A\nGOTO 'x'\nGo 2\nb" = lowerCase "a\ngoto 'X'\ngO 2\nB" := by
    decide +kernel
  have halike := alike_of_lowerCase ho hs
  have hpieces : pieces? {} 13 false "A\nGOTO 'x'\nGo 2\nb".toList =
      some
        [.ordinary 'A', .ordinary '\n', .ordinary 'G', .ordinary 'O', .ordinary 'T',
          .ordinary 'O', .ordinary ' ', .quoted "'x'".toList, .ordinary '\n',
          .separator ⟨2, by decide, by decide⟩ "Go 2".toList, .ordinary '\n', .ordinary 'b'] := by
    decide +kernel
  have hsplit := split_of_pieces? hpieces
  generalize split { separator := "go", lookalikes := ["Goto"] } _ = result at halike ⊢
  rw [hsplit] at halike
  cases halike with
  | split h => exact ⟨_, _, hsplit, rfl, by decide +kernel, h⟩

end BatchScript
