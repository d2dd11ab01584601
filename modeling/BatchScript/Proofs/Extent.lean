import BatchScript.Proofs.Verdict
import BatchScript.Text.Quoted

/-!
# Constructs in a longer text

How far a construct reaches that a text begins with, seen with and without the text behind it. What
ends within the text is the same in both, and what is left open or reaches the end of the text
depends on a few characters behind it at most.

## Main results

* `Comment.line?_of_append`, `Comment.line?_append` — line comments in a text and in a longer one.
* `Comment.block?_eq_closed_iff` — a block comment closed in the text is closed in the longer one.
* `Quoted.body?_eq_some_iff` — quoted text that ends in the text ends there in the longer one.
* `Comment.blockFrom_append_blank` — a block comment left open goes on behind a blank.
* `Quoted.body?_append_close` — quoted text that more of its kind follows on goes on with it.
* `Quoted.body?_append_delimiter` — quoted text left open ends at a delimiter behind it.
* `Gap.length_append`, `Gap.length_of_append` — a gap of the longer text, and one that lies within
  the text.
-/

namespace BatchScript

/-! ### Runs of a class -/

section Runs

variable {p : Char → Bool} {text behind : List Char}

/-- A run of a class ends at a seam that the class does not go on behind. -/
theorem takeWhile_append_of_stop (hb : ∀ c ∈ behind.head?, p c = false) :
    (text ++ behind).takeWhile p = text.takeWhile p := by
  have hstop : behind.takeWhile p = [] := by
    rcases behind with _ | ⟨c, rest⟩
    · rfl
    · simp [hb c rfl]
  rw [List.takeWhile_append]
  split
  · rename_i hall
    rw [hstop, List.append_nil]
    exact ((List.takeWhile_prefix p).eq_of_length hall).symm
  · rfl

theorem dropWhile_append_of_stop (hb : ∀ c ∈ behind.head?, p c = false) :
    (text ++ behind).dropWhile p = text.dropWhile p ++ behind := by
  rw [← drop_length_takeWhile, takeWhile_append_of_stop hb,
    List.drop_append_of_le_length (List.takeWhile_prefix p).length_le, drop_length_takeWhile]

end Runs

/-! ### Comments -/

namespace Comment

variable {text behind : List Char} {n : Nat}

/-- A line comment that ends before the seam. -/
theorem line?_of_append (h : line? (text ++ behind) = some n) (hn : n ≤ text.length) :
    line? text = some n := by
  have htwo := two_le_of_line? h
  rcases text with _ | ⟨c, _ | ⟨d, rest⟩⟩
  · simp at hn
    omega
  · simp at hn
    omega
  rw [line?.eq_def] at h ⊢
  split at h
  · rename_i rest' heq
    obtain ⟨rfl, rfl, rfl⟩ : c = '-' ∧ d = '-' ∧ rest ++ behind = rest' := by simpa using heq
    simp only [Option.some.injEq] at h ⊢
    rw [List.takeWhile_append] at h
    split at h
    · simp only [List.length_append, List.length_cons] at h hn
      omega
    · exact h
  · cases h

/-- A line comment that reaches the seam. -/
theorem line?_of_le (ht : text ≠ []) (hb : behind.head? ≠ some '-')
    (h : line? (text ++ behind) = some n) (hn : text.length ≤ n) :
    line? text = some text.length := by
  rcases text with _ | ⟨c, _ | ⟨d, rest⟩⟩
  · exact absurd rfl ht
  · rcases behind with _ | ⟨e, behind⟩
    · simp [line?] at h
    · have he : e ≠ '-' := by simpa using hb
      simp [line?, he] at h
  rw [line?.eq_def] at h
  split at h
  · rename_i rest' heq
    obtain ⟨rfl, rfl, rfl⟩ : c = '-' ∧ d = '-' ∧ rest ++ behind = rest' := by simpa using heq
    simp only [Option.some.injEq, List.takeWhile_append] at h
    split at h
    · rename_i hall
      simp only [line?, hall, List.length_cons, Nat.add_comm 2]
    · rename_i hall
      have hle := (List.takeWhile_prefix (p := (· != '\n')) (l := rest)).length_le
      simp only [List.length_cons] at hn
      omega
  · cases h

/-- A line comment ends before a line feed, or where the text ends. -/
theorem head?_drop_of_line? (h : line? text = some n) : ∀ c ∈ (text.drop n).head?, c = '\n' := by
  rw [line?.eq_def] at h
  split at h
  · rename_i rest
    obtain rfl := Option.some.inj h
    intro c hc
    have hnot := List.head?_dropWhile_not (· != '\n') rest
    rw [Nat.add_comm, List.drop_succ_cons, List.drop_succ_cons, drop_length_takeWhile] at hc
    rw [Option.mem_def.1 hc] at hnot
    simpa using hnot
  · cases h

/-- Before a line feed a line comment ends as it does at the end of the text. -/
theorem line?_append (rest : List Char) (h : line? text = some n) :
    line? (text ++ '\n' :: rest) = some n := by
  rw [line?.eq_def] at h
  split at h
  · rename_i body
    simp only [Option.some.injEq] at h
    simp only [List.cons_append, line?, Option.some.injEq, List.takeWhile_append,
      List.takeWhile_cons]
    split
    · simpa [*] using h
    · exact h
  · cases h

/-- A line comment that ends within the text ends there whatever is behind it. -/
theorem line?_append_of_lt (behind : List Char) (h : line? text = some n) (hn : n < text.length) :
    line? (text ++ behind) = some n := by
  rw [line?.eq_def] at h
  split at h
  · rename_i body
    simp only [Option.some.injEq] at h
    simp only [List.cons_append, line?, Option.some.injEq, List.takeWhile_append]
    split
    · simp only [List.length_cons] at hn
      omega
    · exact h
  · cases h

/-- Two characters tell whether a line comment begins. -/
theorem line?_eq_none_iff {c d : Char} {rest : List Char} :
    line? (c :: d :: rest) = none ↔ ¬ (c = '-' ∧ d = '-') := by
  rw [line?.eq_def]
  split
  · rename_i h
    simp_all
  · rename_i h
    simp only [true_iff]
    rintro ⟨rfl, rfl⟩
    exact h rest rfl

/-- A text that does not end in a dash begins with a line comment by itself or not at all. -/
theorem line?_append_eq_none (ht : text ≠ []) (hb : behind.head? ≠ some '-') :
    line? (text ++ behind) = none ↔ line? text = none := by
  rcases text with _ | ⟨c, _ | ⟨d, rest⟩⟩
  · exact absurd rfl ht
  · rcases behind with _ | ⟨e, behind⟩
    · simp
    · have he : e ≠ '-' := by simpa using hb
      simp [line?, he]
  · rw [List.cons_append, List.cons_append, line?_eq_none_iff, line?_eq_none_iff]

/-- Where no line comment begins in the longer text none begins in the text. -/
theorem line?_eq_none_of_append (h : line? (text ++ behind) = none) : line? text = none := by
  rcases text with _ | ⟨c, _ | ⟨d, rest⟩⟩
  · rfl
  · simp [line?]
  · rw [List.cons_append, List.cons_append, line?_eq_none_iff] at h
    exact line?_eq_none_iff.2 h

/-- Two characters tell whether a block comment begins. -/
theorem block?_eq_none_iff {c d : Char} {rest : List Char} :
    block? (c :: d :: rest) = none ↔ ¬ (c = '/' ∧ d = '*') := by
  rw [block?.eq_def]
  split
  · rename_i h
    simp_all
  · rename_i h
    simp only [true_iff]
    rintro ⟨rfl, rfl⟩
    exact h rest rfl

/-- Where two characters are no delimiter the first of them is passed. -/
theorem blockFrom_cons {outer passed : Nat} {c d : Char} (rest : List Char)
    (hopen : c = '/' → d ≠ '*') (hclose : c = '*' → d ≠ '/') :
    blockFrom outer passed (c :: d :: rest) = blockFrom outer (passed + 1) (d :: rest) := by
  rw [blockFrom]
  · rintro rest' hc ⟨rfl, -⟩
    exact hopen hc rfl
  · rintro rest' - hc ⟨rfl, -⟩
    exact hclose hc rfl
  · rintro outer' rest' - hc ⟨rfl, -⟩
    exact hclose hc rfl

/-- A block comment closed before the seam, followed from within: the same in the text and in the
whole. -/
theorem blockFrom_eq_closed_iff {outer passed : Nat} (behind : List Char) :
    blockFrom outer passed text = .closed n ↔
      blockFrom outer passed (text ++ behind) = .closed n ∧ n ≤ passed + text.length := by
  fun_induction blockFrom outer passed text with
  | case1 outer passed rest ih =>
      rw [ih, List.cons_append, List.cons_append, blockFrom]
      simp only [List.length_cons, Nat.add_assoc, Nat.reduceAdd, Nat.add_comm 2]
  | case2 passed rest =>
      simp only [List.cons_append, blockFrom, Extent.closed.injEq, List.length_cons]
      omega
  | case3 outer passed rest ih =>
      rw [ih, List.cons_append, List.cons_append, blockFrom]
      simp only [List.length_cons, Nat.add_assoc, Nat.reduceAdd, Nat.add_comm 2]
  | case4 outer passed c rest h₁ h₂ h₃ ih =>
      rcases rest with _ | ⟨d, rest⟩
      · -- Nothing is closed by one character, with the text behind the seam or without it.
        constructor
        · intro h
          have := bounds_of_blockFrom h
          simp at this
          omega
        · rintro ⟨h, hn⟩
          have := bounds_of_blockFrom h
          simp at hn
          omega
      · have hopen : c = '/' → d ≠ '*' := by
          rintro hc rfl
          exact h₁ rest hc rfl
        have hclose : c = '*' → d ≠ '/' := by
          rintro hc rfl
          cases outer with
          | zero => exact h₂ rest rfl hc rfl
          | succ outer => exact h₃ outer rest rfl hc rfl
        simp only [ih, List.cons_append, blockFrom_cons _ hopen hclose, List.length_cons,
          Nat.add_assoc, Nat.reduceAdd, Nat.add_comm 1]
  | case5 outer passed =>
      constructor
      · intro h
        cases h
      · rintro ⟨h, hn⟩
        have := bounds_of_blockFrom h
        simp at hn
        omega

/-- A block comment closed before the seam is the same in the text and in the whole. -/
theorem block?_eq_closed_iff (behind : List Char) :
    block? text = some (.closed n) ↔
      block? (text ++ behind) = some (.closed n) ∧ n ≤ text.length := by
  rcases text with _ | ⟨c, _ | ⟨d, rest⟩⟩
  · constructor
    · intro h
      cases h
    · rintro ⟨h, hn⟩
      have := four_le_of_block? h
      simp at hn
      omega
  · constructor
    · intro h
      have hle := block?_le h
      have hfour := four_le_of_block? h
      simp at hle
      omega
    · rintro ⟨h, hn⟩
      have := four_le_of_block? h
      simp at hn
      omega
  · by_cases hopen : c = '/' ∧ d = '*'
    · obtain ⟨rfl, rfl⟩ := hopen
      simp only [List.cons_append, block?, Option.some.injEq, List.length_cons]
      rw [blockFrom_eq_closed_iff behind, Nat.add_comm 2]
    · simp [block?_eq_none_iff.2 hopen]

/-- Where no block comment begins in the longer text none begins in the text. -/
theorem block?_eq_none_of_append (h : block? (text ++ behind) = none) : block? text = none := by
  rcases text with _ | ⟨c, _ | ⟨d, rest⟩⟩
  · rfl
  · simp [block?]
  · rw [List.cons_append, List.cons_append, block?_eq_none_iff] at h
    exact block?_eq_none_iff.2 h

/-- A block comment ends in a slash. -/
theorem getElem?_of_blockFrom {outer passed : Nat} (h : blockFrom outer passed text = .closed n) :
    text[n - passed - 1]? = some '/' := by
  fun_induction blockFrom outer passed text with
  | case1 outer passed rest ih =>
      have hn := bounds_of_blockFrom h
      have hindex : n - passed - 1 = n - (passed + 2) - 1 + 2 := by omega
      simpa [hindex] using ih h
  | case2 passed rest =>
      cases h
      simp
  | case3 outer passed rest ih =>
      have hn := bounds_of_blockFrom h
      have hindex : n - passed - 1 = n - (passed + 2) - 1 + 2 := by omega
      simpa [hindex] using ih h
  | case4 outer passed c rest _ _ _ ih =>
      have hn := bounds_of_blockFrom h
      have hindex : n - passed - 1 = n - (passed + 1) - 1 + 1 := by omega
      simpa [hindex] using ih h
  | case5 outer passed => cases h

theorem getElem?_of_block? (h : block? text = some (.closed n)) : text[n - 1]? = some '/' := by
  rw [block?.eq_def] at h
  split at h
  · rename_i rest
    have hn := bounds_of_blockFrom (Option.some.inj h)
    have hindex : n - 1 = n - 2 - 1 + 2 := by omega
    simpa [hindex] using getElem?_of_blockFrom (Option.some.inj h)
  · cases h

/-- A block comment left open is as deep at least as it is nested. -/
theorem exists_depth_of_blockFrom {outer passed depth : Nat}
    (h : blockFrom outer passed text = .unclosed depth) : ∃ inner, depth = inner + 1 := by
  fun_induction blockFrom outer passed text with
  | case1 outer passed rest ih => exact ih h
  | case2 passed rest => cases h
  | case3 outer passed rest ih => exact ih h
  | case4 outer passed c rest _ _ _ ih => exact ih h
  | case5 outer passed =>
      cases h
      exact ⟨outer, rfl⟩

/-- A block comment left open goes on behind a blank, where no delimiter of it goes on. -/
theorem blockFrom_append_blank {outer passed depth : Nat}
    (h : blockFrom outer passed text = .unclosed (depth + 1)) (behind : List Char) :
    blockFrom outer passed (text ++ ' ' :: behind) =
      blockFrom depth (passed + (text.length + 1)) behind := by
  fun_induction blockFrom outer passed text with
  | case1 outer passed rest ih =>
      rw [List.cons_append, List.cons_append, blockFrom, ih h]
      congr 1
      simp only [List.length_cons]
      omega
  | case2 passed rest => cases h
  | case3 outer passed rest ih =>
      rw [List.cons_append, List.cons_append, blockFrom, ih h]
      congr 1
      simp only [List.length_cons]
      omega
  | case4 outer passed c rest h₁ h₂ h₃ ih =>
      obtain ⟨d, more, hmore, hopen, hclose⟩ : ∃ d more, rest ++ ' ' :: behind = d :: more ∧
          (c = '/' → d ≠ '*') ∧ (c = '*' → d ≠ '/') := by
        rcases rest with _ | ⟨d, rest⟩
        · exact ⟨' ', behind, rfl, by simp, by simp⟩
        · refine ⟨d, rest ++ ' ' :: behind, rfl, ?_, ?_⟩
          · rintro hc rfl
            exact h₁ rest hc rfl
          · rintro hc rfl
            cases outer with
            | zero => exact h₂ rest rfl hc rfl
            | succ outer => exact h₃ outer rest rfl hc rfl
      have ih := ih h
      rw [hmore] at ih
      rw [List.cons_append, hmore, blockFrom_cons _ hopen hclose, ih]
      congr 1
      simp only [List.length_cons]
      omega
  | case5 outer passed =>
      cases h
      rw [List.nil_append, blockFrom]
      · rfl
      all_goals simp

/-- A text that does not end in a slash begins with a block comment by itself or not at all. -/
theorem block?_append_eq_none (ht : text ≠ []) (hb : behind.head? ≠ some '*') :
    block? (text ++ behind) = none ↔ block? text = none := by
  rcases text with _ | ⟨c, _ | ⟨d, rest⟩⟩
  · exact absurd rfl ht
  · rcases behind with _ | ⟨e, behind⟩
    · simp
    · have he : e ≠ '*' := by simpa using hb
      simp [block?, he]
  · rw [List.cons_append, List.cons_append, block?_eq_none_iff, block?_eq_none_iff]

end Comment

/-! ### Quoted text -/

namespace Quoted

variable {close : Char} {text body behind : List Char} {n : Nat}

/-- Quoted text that ends before the seam, followed from within: the same in the text and in the
whole, unless its delimiter is doubled across the seam. -/
theorem bodyFrom_eq_some_iff {passed : Nat} (hb : behind.head? ≠ some close) :
    bodyFrom close passed text = some n ↔
      bodyFrom close passed (text ++ behind) = some n ∧ n ≤ passed + text.length := by
  fun_induction bodyFrom close passed text with
  | case1 passed =>
      constructor
      · intro h
        cases h
      · rintro ⟨h, hn⟩
        have := bounds_of_bodyFrom h
        simp at hn
        omega
  | case2 passed =>
      rcases behind with _ | ⟨d, behind⟩
      · simp [bodyFrom]
        omega
      · have hd : d ≠ close := by simpa using hb
        simp [bodyFrom, hd]
        omega
  | case3 passed c hc =>
      constructor
      · intro h
        cases h
      · rintro ⟨h, hn⟩
        rcases behind with _ | ⟨d, behind⟩
        · simp [bodyFrom, hc] at h
        · rw [List.singleton_append, bodyFrom, if_neg hc] at h
          have := bounds_of_bodyFrom h
          simp at hn
          omega
  | case4 passed rest ih =>
      simp only [ih, List.cons_append, bodyFrom, if_true, List.length_cons, Nat.add_assoc,
        Nat.reduceAdd, Nat.add_comm 2]
  | case5 passed d rest hd =>
      simp only [List.cons_append, bodyFrom, if_true, hd, if_false, List.length_cons,
        Option.some.injEq]
      omega
  | case6 passed c d rest hc ih =>
      simp only [ih, List.cons_append, bodyFrom, hc, if_false, List.length_cons, Nat.add_assoc,
        Nat.reduceAdd, Nat.add_comm 1]

/-- Quoted text that ends before the last character ends there whatever is behind it. -/
theorem bodyFrom_eq_some_iff_of_lt {passed : Nat} (behind : List Char)
    (hn : n < passed + text.length) :
    bodyFrom close passed text = some n ↔ bodyFrom close passed (text ++ behind) = some n := by
  fun_induction bodyFrom close passed text with
  | case1 passed =>
      constructor
      · intro h
        cases h
      · intro h
        have := bounds_of_bodyFrom h
        simp at hn
        omega
  | case2 passed =>
      constructor
      · intro h
        simp at hn h
        omega
      · intro h
        have := bounds_of_bodyFrom h
        simp at hn
        omega
  | case3 passed c hc =>
      constructor
      · intro h
        cases h
      · intro h
        have := bounds_of_bodyFrom h
        simp at hn
        omega
  | case4 passed rest ih =>
      simp only [List.length_cons] at hn
      rw [ih (by omega), List.cons_append, List.cons_append, bodyFrom, if_pos rfl, if_pos rfl]
  | case5 passed d rest hd =>
      rw [List.cons_append, List.cons_append, bodyFrom, if_pos rfl, if_neg hd]
  | case6 passed c d rest hc ih =>
      simp only [List.length_cons] at hn ih
      simp only [ih (by omega), List.cons_append, bodyFrom, hc, if_false]

/-- Quoted text left open ends at a delimiter behind it. -/
theorem bodyFrom_append_delimiter {passed : Nat} (h : bodyFrom close passed text = none) :
    bodyFrom close passed (text ++ [close]) = some (passed + text.length + 1) := by
  fun_induction bodyFrom close passed text with
  | case1 passed => simp [bodyFrom]
  | case2 passed => cases h
  | case3 passed c hc => simp [bodyFrom, hc]
  | case4 passed rest ih =>
      rw [List.cons_append, List.cons_append, bodyFrom, if_pos rfl, if_pos rfl, ih h]
      simp only [List.length_cons, Option.some.injEq]
      omega
  | case5 passed d rest hd => cases h
  | case6 passed c d rest hc ih =>
      rw [List.cons_append] at ih
      rw [List.cons_append, List.cons_append, bodyFrom, if_neg hc, ih h]
      simp only [List.length_cons, Option.some.injEq]
      omega

theorem body?_append_delimiter (h : body? close text = none) :
    body? close (text ++ [close]) = some (text.length + 1) := by
  rw [body?, bodyFrom_append_delimiter h, Nat.zero_add]

/-- Quoted text ends in its closing delimiter. -/
theorem getElem?_of_bodyFrom {passed : Nat} (h : bodyFrom close passed text = some n) :
    text[n - passed - 1]? = some close := by
  fun_induction bodyFrom close passed text with
  | case1 => cases h
  | case2 =>
      cases h
      simp
  | case3 => cases h
  | case4 passed rest ih =>
      have hn := bounds_of_bodyFrom h
      have hindex : n - passed - 1 = n - (passed + 2) - 1 + 2 := by omega
      simpa [hindex] using ih h
  | case5 =>
      cases h
      simp
  | case6 passed c d rest hc ih =>
      have hn := bounds_of_bodyFrom h
      have hindex : n - passed - 1 = n - (passed + 1) - 1 + 1 := by omega
      simpa [hindex] using ih h

/-- And so it does with its opener. -/
theorem getLast?_take {first : Char} (h : body? close text = some n) :
    ((first :: text).take (n + 1)).getLast? = some close := by
  have hn := bounds_of_bodyFrom h
  have hlast : (first :: text)[n + 1 - 1]? = some close := by
    have hindex : n + 1 - 1 = n - 0 - 1 + 1 := by omega
    rw [hindex, List.getElem?_cons_succ, getElem?_of_bodyFrom h]
  rw [List.getLast?_take, if_neg (by omega), hlast, Option.some_or]

theorem body?_eq_some_iff (hb : behind.head? ≠ some close) :
    body? close text = some n ↔
      body? close (text ++ behind) = some n ∧ n ≤ text.length := by
  rw [body?, bodyFrom_eq_some_iff hb, Nat.zero_add]
  rfl

theorem body?_eq_some_iff_of_lt (behind : List Char) (hn : n < text.length) :
    body? close text = some n ↔ body? close (text ++ behind) = some n :=
  bodyFrom_eq_some_iff_of_lt behind (by omega)

/-- Behind quoted text its delimiter does not stand once more. -/
theorem head?_drop_ne_of_bodyFrom {passed : Nat} (h : bodyFrom close passed text = some n) :
    (text.drop (n - passed)).head? ≠ some close := by
  fun_induction bodyFrom close passed text with
  | case1 => cases h
  | case2 passed =>
      cases h
      simp
  | case3 => cases h
  | case4 passed rest ih =>
      have hn := bounds_of_bodyFrom h
      have hindex : n - passed = n - (passed + 2) + 2 := by omega
      rw [hindex, List.drop_succ_cons, List.drop_succ_cons]
      exact ih h
  | case5 passed d rest hd =>
      cases h
      simpa using hd
  | case6 passed c d rest hc ih =>
      have hn := bounds_of_bodyFrom h
      have hindex : n - passed = n - (passed + 1) + 1 := by omega
      rw [hindex, List.drop_succ_cons]
      exact ih h

theorem head?_drop_ne (h : body? close text = some n) : (text.drop n).head? ≠ some close :=
  head?_drop_ne_of_bodyFrom h

/-- Quoted text that lies within the text ends there in the text. -/
theorem body?_of_append (h : body? close (text ++ behind) = some n) (hn : n ≤ text.length) :
    body? close text = some n := by
  rcases Nat.lt_or_eq_of_le hn with hlt | rfl
  · exact (body?_eq_some_iff_of_lt behind hlt).2 h
  · have hb := head?_drop_ne h
    rw [List.drop_left] at hb
    exact (body?_eq_some_iff hb).2 ⟨h, Nat.le_refl _⟩

/-- Quoted text goes on behind a delimiter that is doubled. -/
theorem bodyFrom_append_close {passed : Nat}
    (h : bodyFrom close passed body = some (passed + body.length)) (text : List Char) :
    bodyFrom close passed (body ++ close :: text) =
      bodyFrom close (passed + (body.length + 1)) text := by
  fun_induction bodyFrom close passed body with
  | case1 => cases h
  | case2 passed => simp [bodyFrom]
  | case3 => cases h
  | case4 passed rest ih =>
      have hih := ih (by rw [h, List.length_cons, List.length_cons]; congr 1; omega)
      rw [List.cons_append, List.cons_append, bodyFrom, if_pos rfl, if_pos rfl, hih]
      congr 1
      simp only [List.length_cons]
      omega
  | case5 passed d rest hd =>
      simp at h
  | case6 passed c d rest hc ih =>
      have hih := ih (by rw [h, List.length_cons]; congr 1; simp only [List.length_cons]; omega)
      rw [List.cons_append] at hih
      rw [List.cons_append, List.cons_append, bodyFrom, if_neg hc, hih]
      congr 1
      simp only [List.length_cons]
      omega

theorem body?_append_close (h : body? close body = some body.length) (text : List Char) :
    body? close (body ++ close :: text) = (body? close text).map (· + (body.length + 1)) := by
  have hfrom : bodyFrom close 0 body = some (0 + body.length) := by rwa [Nat.zero_add]
  rw [body?, bodyFrom_append_close hfrom, bodyFrom_add]
  rfl

end Quoted

/-! ### Gaps -/

namespace Gap

variable {text behind : List Char}

/-- A gap is the gap of the text, and what goes on with it behind that. -/
theorem length_append (text behind : List Char) :
    length (text ++ behind) = length text + length (text.drop (length text) ++ behind) := by
  induction text using Gap.induction with
  | nil => simp
  | linear c rest hc ih =>
      rw [List.cons_append, length_cons_of_isLinear hc, length_cons_of_isLinear hc, ih,
        List.drop_succ_cons, Nat.add_right_comm]
  | comment text n hn ih =>
      have happend := (Comment.block?_eq_closed_iff behind).1 hn
      rw [length_of_closed happend.1, length_of_closed hn,
        List.drop_append_of_le_length happend.2, ih, List.drop_drop, Nat.add_assoc]
  | other c rest hc hn => rw [length_eq_zero hc hn, List.drop_zero, Nat.zero_add]

/-- A gap that ends before the seam. -/
theorem length_append_of_lt (hb : behind.head? ≠ some '*') (hlt : length text < text.length)
    (hnone : Comment.block? (text.drop (length text)) = none) :
    length (text ++ behind) = length text := by
  obtain ⟨c, rest, hrest⟩ := List.exists_cons_of_ne_nil
    (show text.drop (length text) ≠ [] by simpa using hlt)
  have hwhole := (Comment.block?_append_eq_none (by simp [hrest]) hb).2 hnone
  rw [hrest, List.cons_append] at hwhole
  rw [length_append, hrest, List.cons_append,
    length_eq_zero (isLinear_drop_length hrest) (by simp [hwhole]), Nat.add_zero]

/-- A gap that reaches the seam goes on behind it. -/
theorem length_append_of_eq (heq : length text = text.length) :
    length (text ++ behind) = text.length + length behind := by
  rw [length_append, heq, List.drop_length, List.nil_append]

/-- A gap that lies within the text is the gap of the text. -/
theorem length_of_append (h : length (text ++ behind) ≤ text.length) :
    length (text ++ behind) = length text := by
  have happend := length_append text behind
  rcases hrest : text.drop (length text) with _ | ⟨c, rest⟩
  · have hle := List.drop_eq_nil_iff.1 hrest
    have hge := length_le text
    omega
  · have hlength := congrArg List.length hrest
    rw [List.length_drop] at hlength
    have hnone (n : Nat) : Comment.block? (c :: (rest ++ behind)) ≠ some (.closed n) := by
      intro hn
      have hgap := length_of_closed hn
      rw [← List.cons_append, ← hrest] at hn hgap
      have hclosed := (Comment.block?_eq_closed_iff behind).2
        ⟨hn, by rw [List.length_drop]; omega⟩
      exact block?_drop_length text n hclosed
    rw [happend, hrest, List.cons_append, length_eq_zero (isLinear_drop_length hrest) hnone,
      Nat.add_zero]

/-- A gap that lies within the text is read there as it is in the longer text. -/
theorem read_of_append {g : Nat} (h : read (text ++ behind) = .ok g) (hg : g ≤ text.length) :
    read text = .ok g := by
  obtain ⟨rfl, hblock⟩ := read_eq_ok.1 h
  have hlength := length_of_append hg
  rw [hlength] at hblock ⊢
  rw [List.drop_append_of_le_length (length_le text)] at hblock
  exact read_eq_ok.2 ⟨rfl, Comment.block?_eq_none_of_append hblock⟩

/-- A gap that is blanks alone. -/
theorem length_of_isLinear {blanks rest : List Char} {c : Char}
    (hb : ∀ b ∈ blanks, isLinear b = true) (hc : isLinear c = false)
    (hn : ∀ n, Comment.block? (c :: rest) ≠ some (.closed n)) :
    length (blanks ++ c :: rest) = blanks.length := by
  induction blanks with
  | nil => exact length_eq_zero hc hn
  | cons b blanks ih =>
      rw [List.cons_append, length_cons_of_isLinear (hb b (by simp)),
        ih fun b hb' => hb b (by simp [hb']), List.length_cons]

/-- A digit ends the blanks of a gap, and opens no comment. -/
theorem read_of_isDigit {blanks : List Char} {c : Char} (hb : ∀ b ∈ blanks, isLinear b = true)
    (hc : c.isDigit = true) (rest : List Char) :
    read (blanks ++ c :: rest) = .ok blanks.length ∧ Comment.line? (c :: rest) = none := by
  have hlinear : isLinear c = false := by
    rw [Bool.eq_false_iff]
    intro hl
    rcases eq_of_isLinear hl with rfl | rfl <;> cases hc
  obtain ⟨hline, hblock⟩ :
      Comment.line? (c :: rest) = none ∧ Comment.block? (c :: rest) = none := by
    rcases rest with _ | ⟨d, rest⟩
    · simp [Comment.line?, Comment.block?]
    · rw [Comment.line?_eq_none_iff, Comment.block?_eq_none_iff]
      constructor
      · rintro ⟨rfl, -⟩
        cases hc
      · rintro ⟨rfl, -⟩
        cases hc
  have hlength : length (blanks ++ c :: rest) = blanks.length :=
    length_of_isLinear hb hlinear (by simp [hblock])
  refine ⟨read_eq_ok.2 ⟨hlength.symm, ?_⟩, hline⟩
  rwa [List.drop_left]

end Gap

end BatchScript
