import BatchScript.Batch
import BatchScript.Proofs.Extent
import BatchScript.Proofs.Piece
import Mathlib.Data.List.DropRight

/-!
# Seams

Where a text is cut in two, what the first part begins with is told by it alone if the second part
goes on with nothing before it: if it begins with a line break or with the keyword `GO`, blanks
before it aside. Such a second part is behind a seam.

## Main results

* `Verdict.isNone_of_append` — where no statement is found in the whole, none is found in the first
  part, or it leaves a comment open.
* `Verdict.isNone_append` — where none is found before a line feed, none is found with it.
* `Hiding.plain_append_iff`, `Hiding.comment_of_append`, `Hiding.quoted_iff` — what hides before a
  seam hides in the whole.
-/

namespace BatchScript

/-! ### Seams that nothing reaches across -/

/-- A text that goes on with nothing before it: blanks aside, it is empty or begins with a line
break or the first letter of the keyword `GO`. -/
def Seam (behind : List Char) : Prop :=
  ∀ c ∈ (behind.dropWhile isLinear).head?, isLineBreak c = true ∨ c = 'g' ∨ c = 'G'

namespace Seam

/-- The characters that such a text may begin with. -/
def heads : List Char :=
  [' ', '\t', '\n', '\r', 'g', 'G']

variable {behind : List Char}

/-- A text that begins with a line break goes on with nothing before it. -/
theorem of_isLineBreak (h : ∀ c ∈ behind.head?, isLineBreak c = true) : Seam behind := by
  rcases behind with _ | ⟨c, rest⟩
  · simp [Seam]
  · have hc : isLineBreak c = true := h c rfl
    have hlinear : isLinear c = false := by
      rcases eq_of_isLineBreak hc with rfl | rfl <;> rfl
    simp [Seam, hlinear, hc]

theorem newline (rest : List Char) : Seam ('\n' :: rest) :=
  of_isLineBreak (by rintro c ⟨⟩; rfl)

/-- It begins with one of them, or is empty. -/
theorem mem_of_head? (h : Seam behind) {c : Char} (hc : c ∈ behind.head?) :
    c ∈ heads := by
  rcases behind with _ | ⟨d, rest⟩
  · cases hc
  obtain rfl : d = c := by simpa using hc
  cases hl : isLinear d with
  | true => rcases eq_of_isLinear hl with rfl | rfl <;> decide
  | false =>
      rcases h d (by simp [hl]) with hb | rfl | rfl
      · rcases eq_of_isLineBreak hb with rfl | rfl <;> decide
      · decide
      · decide

/-- No other character is the first. -/
theorem head?_ne (h : Seam behind) {c : Char} (hc : c ∉ heads) :
    behind.head? ≠ some c :=
  fun hb => hc (h.mem_of_head? hb)

/-- What follows the blanks begins like this too. -/
theorem dropWhile (h : Seam behind) : Seam (behind.dropWhile isLinear) := by
  rwa [Seam, List.dropWhile_idempotent]

/-- It begins with no digit. -/
theorem isDigit_head? (h : Seam behind) : ∀ c ∈ behind.head?, c.isDigit = false := by
  intro c hc
  have hall : heads.all (!·.isDigit) = true := by decide
  simpa using List.all_eq_true.1 hall c (h.mem_of_head? hc)

end Seam

/-! ### Gaps and digits -/

namespace Gap

variable {behind : List Char}

/-- Behind a seam a gap is blanks alone. -/
theorem drop_length_of_seam (h : Seam behind) :
    behind.drop (length behind) = behind.dropWhile isLinear := by
  induction behind with
  | nil => simp
  | cons c rest ih =>
      cases hc : isLinear c with
      | true =>
          have hrest : Seam rest := by simpa [Seam, hc] using h
          rw [length_cons_of_isLinear hc, List.drop_succ_cons, ih hrest,
            List.dropWhile_cons_of_pos hc]
      | false =>
          have hblock (n : Nat) : Comment.block? (c :: rest) ≠ some (.closed n) := by
            have hslash : c ≠ '/' := by
              rintro rfl
              exact h.head?_ne (by decide) rfl
            rw [Comment.block?.eq_def]
            split
            · rename_i heq
              exact absurd (List.cons.inj heq).1 hslash
            · simp
          rw [length_eq_zero hc hblock, List.drop_zero, List.dropWhile_cons_of_neg (by simp [hc])]

end Gap

namespace Verdict

variable {o : Options} {text behind : List Char}

/-- A text that begins with no digit. -/
theorem digits_eq_nil (ht : ∀ c ∈ text.head?, c.isDigit = false) : digits text = [] := by
  have h : ([] ++ text).takeWhile Char.isDigit = [] := takeWhile_append_of_stop ht
  rwa [List.nil_append] at h

/-- Digits that end at the seam end there in the whole. -/
theorem digits_append (hb : ∀ c ∈ behind.head?, c.isDigit = false) :
    digits (text ++ behind) = digits text :=
  takeWhile_append_of_stop hb

/-- A line break does not go on with the keyword before it. -/
theorem joined_of_isLineBreak (o : Options) (h : ∀ c ∈ text.head?, isLineBreak c = true) :
    joined o text = false := by
  rcases text with _ | ⟨c, rest⟩
  · simp [joined]
  · have hc : isLineBreak c = true := h c rfl
    have hword : continuesKeyword c = false := by
      rcases eq_of_isLineBreak hc with rfl | rfl <;> decide
    simp [joined, hword]

/-- A verdict finds no statement behind a keyword exactly where digits write no count. -/
theorem isNone_ofTail_iff (hj : joined o text = false) :
    (ofTail o text).isNone = true ↔
      ∃ g, Gap.read text = .ok g ∧ Comment.line? (text.drop g) = none ∧
        RepeatCount.ofDigits? (digits (text.drop g)) = none := by
  have ht := tail_ofTail hj
  constructor
  · intro hnone
    cases hv : ofTail o text with
    | absent => rw [hv] at ht; cases ht
    | found count n => rw [hv] at hnone; cases hnone
    | unclosed e => rw [hv] at hnone; cases hnone
    | unusable ds =>
        rw [hv] at ht
        cases ht with
        | unusable hgap hline hcount => exact ⟨_, hgap, hline, hcount⟩
  · rintro ⟨g, hgap, hline, hcount⟩
    rw [(Tail.unusable hgap hline hcount).eq_ofTail hj]
    rfl

/-- The verdict behind a keyword does not depend on what is behind the seam, where no comment
reaches across it. -/
theorem isNone_ofTail_append {g : Nat} (hs : Seam behind) (hj : joined o text = false)
    (hj' : joined o (text ++ behind) = false) (hgap : Gap.read text = .ok g) :
    (ofTail o (text ++ behind)).isNone = (ofTail o text).isNone := by
  obtain ⟨rfl, hblock⟩ := Gap.read_eq_ok.1 hgap
  rw [Bool.eq_iff_iff, isNone_ofTail_iff hj', isNone_ofTail_iff hj]
  rcases Nat.lt_or_eq_of_le (Gap.length_le text) with hlt | heq
  · -- The gap ends before the seam, and what decides stands there.
    have hne : text.drop (Gap.length text) ≠ [] := by simpa using hlt
    have hlength := Gap.length_append_of_lt (hs.head?_ne (by decide)) hlt hblock
    have hdrop : (text ++ behind).drop (Gap.length text) =
        text.drop (Gap.length text) ++ behind := List.drop_append_of_le_length (Gap.length_le text)
    have hblock' := (Comment.block?_append_eq_none hne (hs.head?_ne (by decide))).2 hblock
    have hgap' : Gap.read (text ++ behind) = .ok (Gap.length text) := by
      rw [Gap.read_eq_ok, hlength, hdrop]
      exact ⟨rfl, hblock'⟩
    simp only [hgap, hgap', Except.ok.injEq, exists_eq_left', hdrop, digits_append hs.isDigit_head?,
      Comment.line?_append_eq_none hne (hs.head?_ne (by decide))]
  · -- The gap reaches the seam, and no digits follow it, with what is behind it or without.
    have hdigits : digits (text.drop (Gap.length text)) = [] := by
      rw [heq, List.drop_length]
      rfl
    have hdrop : (text ++ behind).drop (Gap.length (text ++ behind)) =
        behind.dropWhile isLinear := by
      rw [Gap.length_append_of_eq heq, ← List.drop_drop, List.drop_left, Gap.drop_length_of_seam hs]
    have hdigits' : digits ((text ++ behind).drop (Gap.length (text ++ behind))) = [] := by
      rw [hdrop]
      exact digits_eq_nil hs.dropWhile.isDigit_head?
    constructor
    · rintro ⟨g, hread, -, hcount⟩
      obtain ⟨rfl, -⟩ := Gap.read_eq_ok.1 hread
      rw [hdigits', RepeatCount.ofDigits?_nil] at hcount
      cases hcount
    · rintro ⟨g, hread, -, hcount⟩
      obtain ⟨rfl, -⟩ := Gap.read_eq_ok.1 hread
      rw [hdigits, RepeatCount.ofDigits?_nil] at hcount
      cases hcount

end Verdict

/-! ### The keyword -/

/-- A literal is not found across a seam whose first character it does not hold. -/
theorem AsciiCase.begins_append {literal text behind : List Char}
    (hb : ∀ c ∈ behind.head?, ∀ d ∈ literal, c.toLower ≠ d.toLower) :
    begins literal (text ++ behind) = begins literal text := by
  induction literal generalizing text with
  | nil => rw [begins_nil, begins_nil]
  | cons d literal ih =>
      rcases text with _ | ⟨c, text⟩
      · rcases behind with _ | ⟨c, behind⟩
        · rfl
        · have hne : eq c d = false := by
            rw [eq, beq_eq_false_iff_ne]
            exact hb c rfl d (by simp)
          simp [begins, hne]
      · rw [List.cons_append, begins, begins, ih fun c hc e he => hb c hc e (by simp [he])]

/-- Behind at least one character the first one of the literal does not count. -/
theorem AsciiCase.begins_append_of_ne_nil {literal text behind : List Char} (ht : text ≠ [])
    (hb : ∀ c ∈ behind.head?, ∀ d ∈ literal.tail, c.toLower ≠ d.toLower) :
    begins literal (text ++ behind) = begins literal text := by
  obtain ⟨c, text, rfl⟩ := List.exists_cons_of_ne_nil ht
  rcases literal with _ | ⟨d, literal⟩
  · rw [begins_nil, begins_nil]
  · rw [List.tail_cons] at hb
    rw [List.cons_append, begins, begins, begins_append hb]

/-- Options with the usual keyword and its usual look-alike. -/
structure SeparatesByGo (o : Options) : Prop where
  separator : o.separator = "GO"
  lookalikes : o.lookalikes = ["GOTO"]

namespace Verdict.Keyed

variable {o : Options} {blanks keyword tail behind : List Char}

/-- The keyword is the two letters, in either case. -/
theorem eq_go (h : Keyed o blanks keyword tail) (hg : SeparatesByGo o) :
    ∃ c d, keyword = [c, d] ∧ (c = 'g' ∨ c = 'G') ∧ (d = 'o' ∨ d = 'O') := by
  have hfold : keyword.map Char.toLower = ['g', 'o'] := by
    rw [h.toLower, hg.separator]
    rfl
  rcases keyword with _ | ⟨c, _ | ⟨d, _ | ⟨e, keyword⟩⟩⟩
  · cases hfold
  · simp at hfold
  · simp only [List.map_cons, List.map_nil, List.cons.injEq, and_true] at hfold
    exact ⟨c, d, rfl, AsciiCase.eq_or_eq_toUpper_of_toLower hfold.1,
      AsciiCase.eq_or_eq_toUpper_of_toLower hfold.2⟩
  · simp at hfold

/-- What is behind a seam in the tail does not count for the keyword. -/
theorem append_iff (hg : SeparatesByGo o) (hs : Seam behind) :
    Keyed o blanks keyword (tail ++ behind) ↔ Keyed o blanks keyword tail := by
  have hlookalikes (hne : keyword ++ tail ≠ []) : ∀ l ∈ o.lookalikes,
      AsciiCase.begins l.toList (keyword ++ (tail ++ behind)) =
        AsciiCase.begins l.toList (keyword ++ tail) := by
    intro l hl
    rw [hg.lookalikes, List.mem_singleton] at hl
    rw [← List.append_assoc]
    refine AsciiCase.begins_append_of_ne_nil hne fun c hc d hd => ?_
    have hall : Seam.heads.all
        (fun c => "GOTO".toList.tail.all fun d => c.toLower != d.toLower) = true := by decide
    have hc := List.all_eq_true.1 hall c (hs.mem_of_head? hc)
    simpa using List.all_eq_true.1 hc d (hl ▸ hd)
  constructor
  · intro h
    obtain ⟨c, d, rfl, -, -⟩ := h.eq_go hg
    refine ⟨h.isLinear, h.maximal, h.separator_ne_nil, h.toLower, fun l hl => ?_⟩
    rw [← hlookalikes (by simp) l hl, h.lookalikes l hl]
  · intro h
    obtain ⟨c, d, rfl, -, -⟩ := h.eq_go hg
    refine ⟨h.isLinear, h.maximal, h.separator_ne_nil, h.toLower, fun l hl => ?_⟩
    rw [hlookalikes (by simp) l hl, h.lookalikes l hl]

end Verdict.Keyed

/-- A separator statement goes on with nothing before it. -/
theorem Seam.of_found {o : Options} {text : List Char} {count : RepeatCount} {n : Nat}
    (hg : SeparatesByGo o) (h : Verdict.ofText o text = .found count n) : Seam text := by
  obtain ⟨blanks, keyword, tail, m, rfl, hk, -, -, -⟩ := Verdict.keyed_of_found h
  obtain ⟨c, d, rfl, hc, -⟩ := hk.eq_go hg
  have hlinear : isLinear c = false := hk.maximal c rfl
  intro e he
  rw [List.dropWhile_append_of_pos hk.isLinear, List.cons_append,
    List.dropWhile_cons_of_neg (by simp [hlinear])] at he
  obtain rfl : c = e := by simpa using he
  exact .inr hc

namespace Verdict

variable {o : Options} {text behind : List Char}

/-- Where no statement is found in the whole, none is found before the seam, or it leaves a comment
open there. -/
theorem isNone_of_append (hg : SeparatesByGo o) (hs : Seam behind)
    (hw : ∀ c ∈ text.getLast?, isWord c = true → joined o behind = false)
    (h : (ofText o (text ++ behind)).isNone = true) :
    (ofText o text).isNone = true ∨ ∃ e, ofText o text = .unclosed e := by
  cases hv : ofText o text with
  | absent => exact .inl rfl
  | unusable ds => exact .inl rfl
  | unclosed e => exact .inr ⟨e, rfl⟩
  | found count n =>
      obtain ⟨blanks, keyword, tail, m, rfl, hk, hj, ht, -⟩ := keyed_of_found hv
      have hk' := (Keyed.append_iff hg hs).2 hk
      have hj' : joined o (tail ++ behind) = false := by
        rcases tail with _ | ⟨c, tail⟩
        · obtain ⟨c, d, rfl, -, hd⟩ := hk.eq_go hg
          refine hw d (by simp) ?_
          rcases hd with rfl | rfl <;> decide
        · exact hj
      have hgap : ∃ g, Gap.read tail = .ok g := by
        cases ht with
        | comment hgap => exact ⟨_, hgap⟩
        | count hgap => exact ⟨_, hgap⟩
      obtain ⟨g, hgap⟩ := hgap
      have hsame := isNone_ofTail_append hs hj hj' hgap
      rw [ht.eq_ofTail hj] at hsame
      rw [List.append_assoc, List.append_assoc, ofText_of_keyed hk', isNone_shift, hsame] at h
      cases h

/-- Neither the blanks nor the keyword reach across a line feed. -/
theorem Keyed.exists_tail {blanks keyword tail rest : List Char} (hg : SeparatesByGo o)
    (hk : Keyed o blanks keyword tail) (h : text ++ '\n' :: rest = blanks ++ (keyword ++ tail)) :
    ∃ front, text = blanks ++ (keyword ++ front) ∧ tail = front ++ '\n' :: rest := by
  rw [← List.append_assoc] at h
  rcases List.append_eq_append_iff.1 h with ⟨a, ha, hrest⟩ | ⟨front, rfl, htail⟩
  · rcases a with _ | ⟨c, a⟩
    · exact ⟨[], by simpa using ha.symm, hrest.symm⟩
    · obtain ⟨rfl, -⟩ := List.cons.inj hrest
      have hmem : '\n' ∈ blanks ++ keyword := by simp [ha]
      obtain ⟨c, d, rfl, hc, hd⟩ := hk.eq_go hg
      rcases List.mem_append.1 hmem with hmem | hmem
      · have := hk.isLinear _ hmem
        cases this
      · rcases hc with rfl | rfl <;> rcases hd with rfl | rfl <;> simp at hmem
  · exact ⟨front, by rw [List.append_assoc], htail⟩

/-- Where no statement is found at a keyword before a seam, none is found there in the whole. -/
theorem isNone_append_of_keyed {blanks keyword front : List Char} (hg : SeparatesByGo o)
    (hs : Seam behind) (hk : Keyed o blanks keyword (front ++ behind))
    (h : (ofText o (blanks ++ (keyword ++ front))).isNone = true) :
    (ofText o (blanks ++ (keyword ++ (front ++ behind)))).isNone = true := by
  rw [ofText_of_keyed ((Keyed.append_iff hg hs).1 hk), isNone_shift] at h
  rw [ofText_of_keyed hk, isNone_shift]
  cases hj : joined o (front ++ behind) with
  | true =>
      rw [ofTail_of_joined hj]
      rfl
  | false =>
      have hj' : joined o front = false := by
        rcases front with _ | ⟨c, front⟩
        · simp [joined]
        · exact hj
      cases hgap : Gap.read front with
      | ok g => rw [isNone_ofTail_append hs hj' hj hgap, h]
      | error e =>
          rw [(Tail.openGap hgap).eq_ofTail hj'] at h
          cases h

/-- Where no statement is found before a line feed, none is found with it. -/
theorem isNone_append (hg : SeparatesByGo o) (rest : List Char)
    (h : (ofText o text).isNone = true) : (ofText o (text ++ '\n' :: rest)).isNone = true := by
  rcases ofText_eq_absent_or o (text ++ '\n' :: rest) with ha | ⟨blanks, keyword, tail, htext, hk⟩
  · rw [ha]
    rfl
  obtain ⟨front, rfl, rfl⟩ := hk.exists_tail hg htext
  rw [htext]
  exact isNone_append_of_keyed hg (.newline rest) hk h

end Verdict

/-! ### What hides separators -/

/-- A closing delimiter does not go on across a seam. -/
theorem Seam.head?_ne_close {o : Options} {first : Char} {q : Quotation} {behind : List Char}
    (hs : Seam behind) (hq : Quotation.ofOpener? o first = some q) :
    behind.head? ≠ some q.close := by
  have hclose : q.close ∈ ['\'', '"', ']'] := Quotation.close_of_ofOpener? hq
  have hall : ['\'', '"', ']'].all (fun c => !heads.contains c) = true := by decide
  have hnot := List.all_eq_true.1 hall _ hclose
  exact hs.head?_ne (by simpa using hnot)

namespace Hiding

variable {o : Options} {text behind : List Char} {n : Nat}

/-- Where nothing hides in the longer text nothing hides in the text. -/
theorem plain_of_append (ht : text ≠ []) (h : Hides o (text ++ behind) .plain) :
    Hides o text .plain := by
  obtain ⟨first, rest, rfl⟩ := List.exists_cons_of_ne_nil ht
  cases h with
  | plain hl hb hq =>
      exact .plain (Comment.line?_eq_none_of_append hl) (Comment.block?_eq_none_of_append hb) hq

/-- Nothing hides at a character for what is behind a seam. -/
theorem plain_append_iff (hs : Seam behind) (ht : text ≠ []) :
    Hides o (text ++ behind) .plain ↔ Hides o text .plain := by
  refine ⟨plain_of_append ht, ?_⟩
  have hline := Comment.line?_append_eq_none ht (hs.head?_ne (c := '-') (by decide))
  have hblock := Comment.block?_append_eq_none ht (hs.head?_ne (c := '*') (by decide))
  obtain ⟨first, rest, rfl⟩ := List.exists_cons_of_ne_nil ht
  rintro (_ | _ | _ | _ | _ | ⟨hl, hb, hq⟩)
  exact .plain (hline.2 hl) (hblock.2 hb) hq

/-- A comment that ends before a seam. -/
theorem comment_of_append (h : Hides o (text ++ behind) (.comment n)) (hn : n ≤ text.length) :
    Hides o text (.comment n) := by
  rcases comment_iff.1 h with hl | hb
  · exact .line (Comment.line?_of_append hl hn)
  · exact .block ((Comment.block?_eq_closed_iff _).2 ⟨hb, hn⟩)

/-- A comment before a line feed. -/
theorem comment_append (rest : List Char) (h : Hides o text (.comment n)) :
    Hides o (text ++ '\n' :: rest) (.comment n) := by
  rcases comment_iff.1 h with hl | hb
  · exact .line (Comment.line?_append rest hl)
  · exact .block ((Comment.block?_eq_closed_iff _).1 hb).1

/-- Quoted text that lies within the text. -/
theorem quoted_of_append (h : Hides o (text ++ behind) (.quoted n)) (hn : n ≤ text.length) :
    Hides o text (.quoted n) := by
  have htwo := (bounds_of_quoted h).1
  obtain ⟨first, rest, rfl⟩ := List.exists_cons_of_length_pos (show 0 < text.length by omega)
  cases h with
  | quoted hq hm => exact .quoted hq (Quoted.body?_of_append hm (by simpa using hn))

/-- Quoted text that ends before a seam. -/
theorem quoted_iff (hs : Seam behind) :
    Hides o text (.quoted n) ↔ Hides o (text ++ behind) (.quoted n) ∧ n ≤ text.length := by
  constructor
  · intro h
    refine ⟨?_, (bounds_of_quoted h).2⟩
    cases h with
    | quoted hq hn =>
        exact .quoted hq ((Quoted.body?_eq_some_iff (hs.head?_ne_close hq)).1 hn).1
  · rintro ⟨h, hn⟩
    exact quoted_of_append h hn

end Hiding

end BatchScript
