import BatchScript.Proofs.Transcript

/-!
# Line endings

Lines that end in a carriage return and a line feed are read like those that end in a line feed
alone, as long as no keyword reaches over a line. Putting the carriage returns in is a respelling: a
carriage return is no mark and belongs to no word, so it ends words and counts as the line feed
does, and stands in the way of no keyword. It is kept in the text, and may be left out when texts
are compared. Carriage returns that the script has already are text like any other.

## Main results

* `fits_carriageReturns` — keywords are found in the same places.
* `alike_withCarriageReturns` — a script is split alike with either line ending.
-/

namespace BatchScript

/-- A script with a carriage return in front of every line feed. -/
def withCarriageReturns (script : String) : String :=
  String.ofList (script.toList.flatMap fun c => if c = '\n' then ['\r', '\n'] else [c])

/-- Options whose separator and look-alikes stay on a line. -/
structure Options.HasInlineKeywords (o : Options) : Prop where
  separator : ∀ c ∈ o.separator.toList, isLineBreak c = false
  lookalikes : ∀ l ∈ o.lookalikes, ∀ c ∈ l.toList, isLineBreak c = false

instance (o : Options) : Decidable o.HasInlineKeywords :=
  decidable_of_iff
    ((o.separator.toList.all fun c => !isLineBreak c) = true ∧
      (o.lookalikes.all fun l => l.toList.all fun c => !isLineBreak c) = true) <| by
    simp only [List.all_eq_true, Bool.not_eq_true']
    exact ⟨fun h => ⟨h.1, h.2⟩, fun h => ⟨h.separator, h.lookalikes⟩⟩

/-! ### Carriage returns -/

/-- What is kept of a text when carriage returns do not matter. -/
def Blur.carriageReturns : Blur where
  map := List.filter (· != '\r')
  append s t := List.filter_append s t
  all_isBlank text := by
    rw [List.all_filter]
    refine congrArg (List.all text) (funext fun c => ?_)
    by_cases hc : c = '\r'
    · rw [hc]
      rfl
    · simp [hc]
  strip text := by
    have hdrop (l : List Char) : (l.dropWhile isLineBreak).filter (· != '\r') =
        (l.filter (· != '\r')).dropWhile isLineBreak := by
      induction l with
      | nil => rfl
      | cons c rest ih =>
          by_cases hc : c = '\r'
          · rw [hc, List.dropWhile_cons_of_pos rfl, List.filter_cons_of_neg (by simp), ih]
          · rw [List.filter_cons_of_pos (by simpa using hc)]
            by_cases hb : isLineBreak c = true
            · rw [List.dropWhile_cons_of_pos hb, List.dropWhile_cons_of_pos hb, ih]
            · rw [List.dropWhile_cons_of_neg hb, List.dropWhile_cons_of_neg hb,
                List.filter_cons_of_pos (by simpa using hc)]
    rw [stripLineBreaks, stripLineBreaks, List.filter_reverse, hdrop, List.filter_reverse, hdrop]

/-- Carriage returns in front of line feeds as a respelling. -/
def Respelling.carriageReturns : Respelling where
  char := id
  lead := ['\r']
  char_of_isMark _ _ := rfl
  isMark_char _ := rfl
  isWord_char _ := rfl
  isMark_lead := List.forall_mem_singleton.2 rfl
  isWord_lead := List.forall_mem_singleton.2 rfl

theorem respell_carriageReturns (script : String) :
    String.ofList (Respelling.carriageReturns.respell script.toList) =
      withCarriageReturns script := by
  rw [Respelling.respell, withCarriageReturns]
  congr 2
  funext c
  split
  · rename_i hc
    rw [hc]
    rfl
  · rfl

theorem unseen_carriageReturns : Respelling.carriageReturns.Unseen .carriageReturns := by
  intro text
  induction text with
  | nil => rfl
  | cons c rest ih =>
      have hcons (t : List Char) : Blur.carriageReturns.map (c :: t) =
          Blur.carriageReturns.map [c] ++ Blur.carriageReturns.map t :=
        Blur.carriageReturns.append [c] t
      by_cases hc : c = '\n'
      · subst hc
        rw [hcons, ← ih]
        exact hcons _
      · rw [Respelling.respell_cons hc, hcons, ← ih]
        exact hcons _

/-! ### Keywords -/

section Keywords

variable {literal text : List Char} {o : Options}

/-- A line break matches no character of a keyword that stays on a line. -/
theorem eq_lineBreak {c e : Char} (hc : isLineBreak c = true) (he : isLineBreak e = false) :
    AsciiCase.eq c e = false := by
  rw [← Bool.not_eq_true]
  intro h
  have hlower : c.isLower = false ∧ c.toLower = c := by
    rcases eq_of_isLineBreak hc with rfl | rfl <;> decide
  have hfold := AsciiCase.eq_iff.1 h
  rw [hlower.2] at hfold
  rw [AsciiCase.eq_of_toLower hlower.1 hfold.symm, hc] at he
  cases he

theorem begins_carriageReturns (h : ∀ c ∈ literal, isLineBreak c = false) (text : List Char) :
    AsciiCase.begins literal (Respelling.carriageReturns.respell text) =
      AsciiCase.begins literal text := by
  induction literal generalizing text with
  | nil => simp
  | cons e literal ih =>
      obtain ⟨he, hliteral⟩ := List.forall_mem_cons.1 h
      rcases text with _ | ⟨c, rest⟩
      · rfl
      · by_cases hc : c = '\n'
        · subst hc
          rw [Respelling.respell_newline, AsciiCase.begins, eq_lineBreak rfl he]
          exact congrArg (· && _) (eq_lineBreak (c := '\r') rfl he)
        · rw [Respelling.respell_cons hc, AsciiCase.begins, AsciiCase.begins, ih hliteral]
          rfl

/-- No keyword reaches over a line feed. -/
theorem image_carriageReturns (h : ∀ c ∈ literal, isLineBreak c = false)
    (hbegins : AsciiCase.begins literal text = true) :
    Respelling.carriageReturns.image text literal.length = literal.length := by
  induction literal generalizing text with
  | nil => exact Respelling.image_zero
  | cons e literal ih =>
      obtain ⟨he, hliteral⟩ := List.forall_mem_cons.1 h
      rcases text with _ | ⟨c, rest⟩
      · cases hbegins
      · rw [AsciiCase.begins, Bool.and_eq_true] at hbegins
        have hc : c ≠ '\n' := by
          rintro rfl
          rw [eq_lineBreak rfl he] at hbegins
          cases hbegins.1
        rw [List.length_cons, Respelling.image_cons hc, ih hliteral hbegins.2]

/-- A line break begins no statement. -/
theorem Verdict.isNone_of_isLineBreak (ho : o.HasInlineKeywords) {c : Char}
    (hc : isLineBreak c = true) (rest : List Char) : (ofText o (c :: rest)).isNone = true := by
  rcases ofText_eq_absent_or o (c :: rest) with ha | ⟨blanks, keyword, tail, htext, hk⟩
  · rw [ha]
    rfl
  · have hlinear : isLinear c = false := by
      rcases eq_of_isLineBreak hc with rfl | rfl <;> decide
    rcases blanks with _ | ⟨b, blanks⟩
    · have hbegins : AsciiCase.begins o.separator.toList (c :: rest) = true :=
        AsciiCase.begins_iff.2 ⟨keyword, tail, htext, hk.toLower⟩
      rcases hs : o.separator.toList with _ | ⟨e, literal⟩
      · exact absurd hs hk.separator_ne_nil
      · rw [hs, AsciiCase.begins, eq_lineBreak hc (ho.separator e (by simp [hs]))] at hbegins
        cases hbegins
    · have hb := hk.isLinear b (by simp)
      rw [← (List.cons.inj htext).1, hlinear] at hb
      cases hb

/-- Keywords that stay on a line are found in the same places. -/
theorem fits_carriageReturns (ho : o.HasInlineKeywords) : Respelling.carriageReturns.Fits o o where
  eq_with := rfl
  isEmpty_eq := rfl
  begins_eq := begins_carriageReturns ho.separator
  image_eq _ h := image_carriageReturns ho.separator h
  lookalikes_eq text := by
    rw [Bool.eq_iff_iff, List.any_eq_true, List.any_eq_true]
    refine exists_congr fun l => and_congr_right fun hl => ?_
    rw [begins_carriageReturns (ho.lookalikes l hl)]
  isNone_lead := by
    refine .inr fun c hc rest => ?_
    have hbreak : isLineBreak c = true := by
      rcases List.mem_cons.1 hc with rfl | hc
      · rfl
      · rw [List.mem_singleton.1 hc]
        rfl
    exact ⟨Verdict.isNone_of_isLineBreak ho hbreak rest,
      Verdict.isNone_of_isLineBreak ho hbreak rest⟩

end Keywords

/-! ### Scripts with either line ending -/

/-- **Line endings.** With carriage returns in front of its line feeds a script fails with the same
error, or is split into as many batches, on the same lines and with the same counts, of texts that
are the same but for carriage returns. -/
theorem alike_withCarriageReturns {o : Options} (ho : o.HasInlineKeywords) (script : String) :
    Outcomes.Alike .carriageReturns (split o script) (split o (withCarriageReturns script)) := by
  rw [← respell_carriageReturns]
  exact alike_respell (fits_carriageReturns ho) unseen_carriageReturns script

/-- Behind a count and its comment, and in a loop around text that begins with a line break. -/
theorem alike_of_looped_lines :
    ∃ batches batches', split {} "\n'a\nb'\ngo 2 -- x\nc" = .ok batches ∧
      split {} "\r\n'a\r\nb'\r\ngo 2 -- x\r\nc" = .ok batches' ∧
      batches.map Batch.wrapped = [true, false] ∧
      List.Forall₂ (Batch.Alike .carriageReturns) batches batches' := by
  have ho : Options.HasInlineKeywords {} := by decide
  have hscript : withCarriageReturns "\n'a\nb'\ngo 2 -- x\nc" =
      "\r\n'a\r\nb'\r\ngo 2 -- x\r\nc" := by
    decide +kernel
  have halike := alike_withCarriageReturns ho "\n'a\nb'\ngo 2 -- x\nc"
  have hpieces : pieces? {} 7 false "\n'a\nb'\ngo 2 -- x\nc".toList =
      some
        [.ordinary '\n', .quoted "'a\nb'".toList, .ordinary '\n',
          .separator ⟨2, by decide, by decide⟩ "go 2 -- x".toList, .ordinary '\n',
          .ordinary 'c'] := by
    decide +kernel
  have hsplit := split_of_pieces? hpieces
  rw [hscript] at halike
  generalize split {} "\r\n'a\r\nb'\r\ngo 2 -- x\r\nc" = result at halike ⊢
  rw [hsplit] at halike
  cases halike with
  | split h => exact ⟨_, _, hsplit, rfl, by decide +kernel, h⟩

end BatchScript
