import BatchScript.Statement.Verdict

/-!
# What a verdict says about its text

A verdict is computed front to back: the blanks, the keyword, the gap, the count, the comment
behind the count. Here each part is turned around: from the verdict to the parts that the text is
made of.

## Main results

* `ofText_eq_absent_or` — a verdict other than `absent` is the verdict behind a keyword.
* `ofText_of_keyed` — and behind a keyword the verdict is that on the tail.
* `ofTail_eq_iff` — unless the keyword goes on as a longer word, the verdict on the tail is told by
  its gap, its line comment, its digits and what trails them.
* `bounds_of_found` — a statement takes at least one character and lies within the text.
-/

namespace BatchScript

/-- What is left behind the longest run of a class is what dropping the class leaves. -/
theorem drop_length_takeWhile (p : Char → Bool) (text : List Char) :
    text.drop (text.takeWhile p).length = text.dropWhile p := by
  have h := congrArg (List.drop (text.takeWhile p).length)
    (List.takeWhile_append_dropWhile (p := p) (l := text))
  rw [List.drop_left] at h
  exact h.symm

/-! ### Gaps -/

namespace Gap

/-- A gap is read when what follows it opens no block comment. -/
theorem read_eq_ok {text : List Char} {g : Nat} :
    read text = .ok g ↔ g = length text ∧ Comment.block? (text.drop g) = none := by
  have hclosed := block?_drop_length text
  rw [read.eq_def]
  constructor
  · intro h
    rcases hb : Comment.block? (text.drop (length text)) with _ | n | depth
    · simp only [hb, Except.ok.injEq] at h
      exact ⟨h.symm, h ▸ hb⟩
    · exact absurd hb (hclosed n)
    · simp only [hb, reduceCtorEq] at h
  · rintro ⟨rfl, hb⟩
    simp only [hb]

/-- A gap is not read when a block comment behind it is left open. -/
theorem read_eq_error {text : List Char} {e : Opening} :
    read text = .error e ↔
      e.before = length text ∧
        Comment.block? (text.drop e.before) = some (.unclosed e.depth) := by
  rw [read.eq_def]
  constructor
  · intro h
    split at h
    · rename_i depth hb
      cases h
      exact ⟨rfl, hb⟩
    · cases h
  · rintro ⟨he, hb⟩
    obtain ⟨before, depth⟩ := e
    obtain rfl := he
    simp only [hb]

end Gap

namespace Verdict

variable {o : Options}

/-! ### Shifted verdicts -/

theorem shift_eq_found {v : Verdict} {k n : Nat} {count : RepeatCount} :
    v.shift k = .found count n ↔ ∃ m, v = .found count m ∧ n = k + m := by
  cases v <;> simp [shift, eq_comm, and_assoc]

theorem shift_eq_unclosed {v : Verdict} {k : Nat} {e : Opening} :
    v.shift k = .unclosed e ↔ ∃ e', v = .unclosed e' ∧ e = e'.shift k := by
  cases v <;> simp [shift, eq_comm]

/-- Whether a verdict finds no statement, and none with a comment left open. -/
def isNone : Verdict → Bool
  | .absent => true
  | .unusable _ => true
  | .found _ _ => false
  | .unclosed _ => false

@[simp] theorem isNone_shift (n : Nat) (v : Verdict) : (v.shift n).isNone = v.isNone := by
  cases v <;> rfl

/-- Blanks do not count for whether a statement is found behind them. -/
theorem isNone_cons_of_isLinear (o : Options) {c : Char} (hc : isLinear c = true)
    (text : List Char) : (ofText o (c :: text)).isNone = (ofText o text).isNone := by
  simp only [ofText, List.takeWhile_cons_of_pos hc, List.length_cons, List.drop_succ_cons]
  split
  · rfl
  · split
    · rw [isNone_shift, isNone_shift]
    · rfl

/-! ### The keyword -/

/-- A text that begins with the keyword: the blanks of its line before it, the keyword, and what
follows it. No look-alike stands in its place. -/
structure Keyed (o : Options) (blanks keyword tail : List Char) : Prop where
  isLinear : ∀ c ∈ blanks, isLinear c = true
  maximal : ∀ c ∈ (keyword ++ tail).head?, BatchScript.isLinear c = false
  separator_ne_nil : o.separator.toList ≠ []
  toLower : keyword.map Char.toLower = o.separator.toList.map Char.toLower
  lookalikes : ∀ l ∈ o.lookalikes, AsciiCase.begins l.toList (keyword ++ tail) = false

theorem Keyed.length {blanks keyword tail : List Char} (h : Keyed o blanks keyword tail) :
    keyword.length = o.separator.toList.length := by
  simpa only [List.length_map] using congrArg List.length h.toLower

theorem Keyed.keyword_ne_nil {blanks keyword tail : List Char}
    (h : Keyed o blanks keyword tail) : keyword ≠ [] := by
  rw [← List.length_pos_iff, h.length, List.length_pos_iff]
  exact h.separator_ne_nil

/-- The run of blanks is taken up to the keyword. -/
theorem Keyed.takeWhile {blanks keyword tail : List Char} (h : Keyed o blanks keyword tail) :
    (blanks ++ (keyword ++ tail)).takeWhile BatchScript.isLinear = blanks := by
  have hstop : (keyword ++ tail).takeWhile BatchScript.isLinear = [] := by
    rcases hk : keyword ++ tail with _ | ⟨c, rest⟩
    · rfl
    · have := h.maximal c (by rw [hk]; rfl)
      simp [this]
  rw [List.takeWhile_append_of_pos h.isLinear, hstop, List.append_nil]

/-- Behind a keyword the verdict is that on the tail. -/
theorem ofText_of_keyed {blanks keyword tail : List Char} (h : Keyed o blanks keyword tail) :
    ofText o (blanks ++ (keyword ++ tail)) =
      (ofTail o tail).shift (blanks.length + keyword.length) := by
  have hne : o.separator.isEmpty = false := by
    rw [Bool.eq_false_iff]
    intro he
    exact h.separator_ne_nil (by simpa [String.isEmpty_iff] using he)
  have hlook : (o.lookalikes.any fun l => AsciiCase.begins l.toList (keyword ++ tail)) = false := by
    simpa using h.lookalikes
  have hbegins : AsciiCase.begins o.separator.toList (keyword ++ tail) = true :=
    AsciiCase.begins_iff.2 ⟨keyword, tail, rfl, h.toLower⟩
  simp only [ofText, h.takeWhile, List.drop_left, hne, hlook, Bool.or_self, Bool.false_eq_true,
    if_false, hbegins, if_true, ← h.length]

/-- A verdict other than `absent` is given behind a keyword. -/
theorem ofText_eq_absent_or (o : Options) (text : List Char) :
    ofText o text = .absent ∨
      ∃ blanks keyword tail, text = blanks ++ (keyword ++ tail) ∧ Keyed o blanks keyword tail := by
  by_cases hne : o.separator.toList = []
  · have : o.separator.isEmpty = true := by simpa [String.isEmpty_iff] using hne
    simp [ofText, this]
  obtain ⟨blanks, hblanks⟩ : ∃ blanks, blanks = text.takeWhile BatchScript.isLinear := ⟨_, rfl⟩
  have hdrop : text.drop blanks.length = text.dropWhile BatchScript.isLinear := by
    rw [hblanks, drop_length_takeWhile]
  cases hlook : o.lookalikes.any fun l =>
      AsciiCase.begins l.toList (text.drop blanks.length) with
  | true => simp only [ofText, ← hblanks, hlook, Bool.or_true, if_true, true_or]
  | false =>
      cases hbegins : AsciiCase.begins o.separator.toList (text.drop blanks.length) with
      | false => simp [ofText, ← hblanks, hbegins]
      | true =>
          obtain ⟨keyword, tail, hkey, hlower⟩ := AsciiCase.begins_iff.1 hbegins
          refine .inr ⟨blanks, keyword, tail, ?_, ?_, ?_, hne, hlower, ?_⟩
          · rw [← hkey, hdrop, hblanks, List.takeWhile_append_dropWhile]
          · intro c hc
            exact List.all_eq_true.1 (List.all_takeWhile (l := text)) c (hblanks ▸ hc)
          · intro c hc
            rw [← hkey, hdrop] at hc
            have := List.head?_dropWhile_not BatchScript.isLinear text
            rw [Option.mem_def.1 hc] at this
            simpa using this
          · simpa [hkey] using hlook

/-! ### The tail -/

/-- What trails the count is a gap and a line comment, or it is left alone. -/
theorem trailing_eq_ok {text : List Char} {n : Nat} :
    trailing text = .ok n ↔
      ∃ g, Gap.read text = .ok g ∧
        ((∃ m, Comment.line? (text.drop g) = some m ∧ n = g + m) ∨
          (Comment.line? (text.drop g) = none ∧ n = 0)) := by
  rw [trailing.eq_def]
  rcases hg : Gap.read text with e | g
  · simp
  · rcases hl : Comment.line? (text.drop g) with _ | m <;> simp [hl, eq_comm]

/-- Nothing trails the count when a comment in the gap is left open. -/
theorem trailing_eq_error {text : List Char} {e : Opening} :
    trailing text = .error e ↔ Gap.read text = .error e := by
  rw [trailing.eq_def]
  rcases hg : Gap.read text with e' | g
  · simp
  · rcases hl : Comment.line? (text.drop g) with _ | m <;> simp [hl]

/-- The digits that a text begins with. -/
def digits (text : List Char) : List Char :=
  text.takeWhile Char.isDigit

theorem length_digits_le (text : List Char) : (digits text).length ≤ text.length :=
  (List.takeWhile_prefix _).length_le

theorem ofCount_eq (text : List Char) :
    ofCount text =
      match RepeatCount.ofDigits? (digits text) with
      | none => .unusable (digits text)
      | some count =>
        match trailing (text.drop (digits text).length) with
        | .ok n => .found count ((digits text).length + n)
        | .error e => .unclosed (e.shift (digits text).length) := rfl

/-- The verdict on what follows a keyword that stands as a word of its own, with the parts that
decide it. -/
inductive Tail (text : List Char) : Verdict → Prop
  | openGap {e : Opening} (hgap : Gap.read text = .error e) : Tail text (.unclosed e)
  | comment {g n : Nat} (hgap : Gap.read text = .ok g)
      (hline : Comment.line? (text.drop g) = some n) : Tail text (.found .once (g + n))
  | unusable {g : Nat} (hgap : Gap.read text = .ok g)
      (hline : Comment.line? (text.drop g) = none)
      (hcount : RepeatCount.ofDigits? (digits (text.drop g)) = none) :
      Tail text (.unusable (digits (text.drop g)))
  | openTrail {g : Nat} {count : RepeatCount} {e : Opening} (hgap : Gap.read text = .ok g)
      (hline : Comment.line? (text.drop g) = none)
      (hcount : RepeatCount.ofDigits? (digits (text.drop g)) = some count)
      (htrail : trailing ((text.drop g).drop (digits (text.drop g)).length) = .error e) :
      Tail text (.unclosed ((e.shift (digits (text.drop g)).length).shift g))
  | count {g n : Nat} {count : RepeatCount} (hgap : Gap.read text = .ok g)
      (hline : Comment.line? (text.drop g) = none)
      (hcount : RepeatCount.ofDigits? (digits (text.drop g)) = some count)
      (htrail : trailing ((text.drop g).drop (digits (text.drop g)).length) = .ok n) :
      Tail text (.found count (g + ((digits (text.drop g)).length + n)))

/-- Whether the keyword before a text goes on as a longer word. -/
def joined (o : Options) (text : List Char) : Bool :=
  o.wordBoundaries && text.head?.any continuesKeyword

theorem ofTail_of_joined {text : List Char} (h : joined o text = true) :
    ofTail o text = .absent := by
  rw [joined] at h
  simp only [ofTail, h, if_true]

/-- Where the keyword stands by itself, its tail is what the verdict says. -/
theorem tail_ofTail {text : List Char} (h : joined o text = false) :
    Tail text (ofTail o text) := by
  rw [joined] at h
  simp only [ofTail, ofCount_eq, h, Bool.false_eq_true, if_false]
  cases hgap : Gap.read text with
  | error e => exact .openGap hgap
  | ok g =>
      simp only
      cases hline : Comment.line? (text.drop g) with
      | some n => exact .comment hgap hline
      | none =>
          simp only
          cases hcount : RepeatCount.ofDigits? (digits (text.drop g)) with
          | none => exact .unusable hgap hline hcount
          | some count =>
              simp only
              cases htrail : trailing ((text.drop g).drop (digits (text.drop g)).length) with
              | error e => exact .openTrail hgap hline hcount htrail
              | ok n => exact .count hgap hline hcount htrail

theorem Tail.eq_ofTail {text : List Char} {v : Verdict} (h : joined o text = false)
    (ht : Tail text v) : ofTail o text = v := by
  rw [joined] at h
  simp only [ofTail, ofCount_eq, h, Bool.false_eq_true, if_false]
  cases ht with
  | openGap hgap => simp only [hgap]
  | comment hgap hline => simp only [hgap, hline]
  | unusable hgap hline hcount => simp only [hgap, hline, hcount, shift]
  | openTrail hgap hline hcount htrail => simp only [hgap, hline, hcount, htrail, shift]
  | count hgap hline hcount htrail => simp only [hgap, hline, hcount, htrail, shift]

theorem ofTail_eq_iff {text : List Char} {v : Verdict} (h : joined o text = false) :
    ofTail o text = v ↔ Tail text v :=
  ⟨fun hv => hv ▸ tail_ofTail h, Tail.eq_ofTail h⟩

/-! ### Statements lie within the text -/

theorem trailing_le {text : List Char} {n : Nat} (h : trailing text = .ok n) :
    n ≤ text.length := by
  obtain ⟨g, hgap, ⟨m, hm, rfl⟩ | ⟨-, rfl⟩⟩ := trailing_eq_ok.1 h
  · obtain ⟨rfl, -⟩ := Gap.read_eq_ok.1 hgap
    have hg := Gap.length_le text
    have hm := Comment.line?_le hm
    simp only [List.length_drop] at hm
    omega
  · omega

theorem Tail.le_of_found {text : List Char} {count : RepeatCount} {n : Nat}
    (h : Tail text (.found count n)) : n ≤ text.length := by
  cases h with
  | @comment g m hgap hline =>
      obtain ⟨rfl, -⟩ := Gap.read_eq_ok.1 hgap
      have hg := Gap.length_le text
      have hm := Comment.line?_le hline
      simp only [List.length_drop] at hm
      omega
  | @count g m count hgap hline hcount htrail =>
      obtain ⟨rfl, -⟩ := Gap.read_eq_ok.1 hgap
      have hg := Gap.length_le text
      have hm := trailing_le htrail
      have hd := length_digits_le (text.drop (Gap.length text))
      simp only [List.length_drop] at hm hd
      omega

/-- A statement is a keyword with a tail that makes one. -/
theorem keyed_of_found {text : List Char} {count : RepeatCount} {n : Nat}
    (h : ofText o text = .found count n) :
    ∃ blanks keyword tail m, text = blanks ++ (keyword ++ tail) ∧ Keyed o blanks keyword tail ∧
      joined o tail = false ∧ Tail tail (.found count m) ∧
      n = blanks.length + keyword.length + m := by
  rcases ofText_eq_absent_or o text with ha | ⟨blanks, keyword, tail, rfl, hk⟩
  · rw [ha] at h
    cases h
  · rw [ofText_of_keyed hk, shift_eq_found] at h
    obtain ⟨m, hm, rfl⟩ := h
    have hj : joined o tail = false := by
      rw [← Bool.not_eq_true]
      intro hj
      rw [ofTail_of_joined hj] at hm
      cases hm
    exact ⟨blanks, keyword, tail, m, rfl, hk, hj, (ofTail_eq_iff hj).1 hm, rfl⟩

/-- A comment left open in a statement stands in the tail behind its keyword. -/
theorem keyed_of_unclosed {text : List Char} {e : Opening} (h : ofText o text = .unclosed e) :
    ∃ blanks keyword tail e', text = blanks ++ (keyword ++ tail) ∧ Keyed o blanks keyword tail ∧
      joined o tail = false ∧ Tail tail (.unclosed e') ∧
      e = e'.shift (blanks.length + keyword.length) := by
  rcases ofText_eq_absent_or o text with ha | ⟨blanks, keyword, tail, rfl, hk⟩
  · rw [ha] at h
    cases h
  · rw [ofText_of_keyed hk, shift_eq_unclosed] at h
    obtain ⟨e', he, rfl⟩ := h
    have hj : joined o tail = false := by
      rw [← Bool.not_eq_true]
      intro hj
      rw [ofTail_of_joined hj] at he
      cases he
    exact ⟨blanks, keyword, tail, e', rfl, hk, hj, (ofTail_eq_iff hj).1 he, rfl⟩

/-- What a tail leaves open opens there. -/
theorem Tail.block?_of_unclosed {text : List Char} {e : Opening} (h : Tail text (.unclosed e)) :
    Comment.block? (text.drop e.before) = some (.unclosed e.depth) := by
  cases h with
  | openGap hgap => exact (Gap.read_eq_error.1 hgap).2
  | openTrail hgap hline hcount htrail =>
      have hb := (Gap.read_eq_error.1 (trailing_eq_error.1 htrail)).2
      rwa [List.drop_drop, List.drop_drop] at hb

/-- And so does what a statement leaves open. -/
theorem block?_of_unclosed {text : List Char} {e : Opening} (h : ofText o text = .unclosed e) :
    Comment.block? (text.drop e.before) = some (.unclosed e.depth) := by
  obtain ⟨blanks, keyword, tail, e, rfl, -, -, ht, rfl⟩ := keyed_of_unclosed h
  have hdrop : (blanks ++ (keyword ++ tail)).drop
      (e.shift (blanks.length + keyword.length)).before = tail.drop e.before := by
    rw [Opening.shift, ← List.drop_drop, ← List.append_assoc, ← List.length_append, List.drop_left]
  rw [hdrop]
  exact ht.block?_of_unclosed

/-- A statement takes at least one character and lies within the text. -/
theorem bounds_of_found {text : List Char} {count : RepeatCount} {n : Nat}
    (h : ofText o text = .found count n) : 1 ≤ n ∧ n ≤ text.length := by
  obtain ⟨blanks, keyword, tail, m, rfl, hk, -, ht, rfl⟩ := keyed_of_found h
  have hpos : 0 < keyword.length := by
    rw [hk.length]
    exact List.length_pos_iff.2 hk.separator_ne_nil
  have := ht.le_of_found
  simp only [List.length_append]
  omega

end Verdict

end BatchScript
