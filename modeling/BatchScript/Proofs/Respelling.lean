import BatchScript.Proofs.Blind
import BatchScript.Proofs.Extent

/-!
# Scripts spelled in another way

A respelling puts a character in the place of each character of a text, and it may put some more in
front of each line feed. What scanning goes by it leaves alone: the delimiters of comments and of
quoted text, the blanks of a line, digits and line feeds are marks, which stand for themselves and
for which nothing else stands. So whatever is found in a text is found in the respelled one, of the
length that the respelling makes of it.

Line comments are the exception. They reach up to the line feed, and so they take what is put in
front of it with them. A statement that ends in a line comment does so, too.

## Main results

* `drop_image`, `image_add` — lengths in the respelled text.
* `takeWhile_respell` — runs of marks in it.
* `Comment.block?_respell`, `Quoted.body?_respell`, `Gap.read_respell` — what is scanned in it.
* `Comment.exists_line?_respell` — a line comment in it.
* `Hiding.Hides.exists_comment_respell`, `Hiding.Hides.quoted_respell` — what hides separators in
  it.
* `Verdict.echo_ofTail` — what follows a keyword in it.
-/

namespace BatchScript

/-- A character that scanning goes by. -/
def isMark (c : Char) : Bool :=
  isLinear c || c.isDigit || ['-', '/', '*', '\'', '"', '[', ']', '\n'].contains c

/-- A way to spell texts: what stands for each character, and what is put in front of a line
feed. -/
structure Respelling where
  char : Char → Char
  lead : List Char
  char_of_isMark : ∀ c, isMark c = true → char c = c
  isMark_char : ∀ c, isMark (char c) = isMark c
  isWord_char : ∀ c, isWord (char c) = isWord c
  isMark_lead : ∀ c ∈ lead, isMark c = false
  isWord_lead : ∀ c ∈ lead, isWord c = false

namespace Respelling

variable {r : Respelling} {text rest : List Char} {c m : Char} {n : Nat}

/-- The text that a respelling makes of a text. -/
def respell (r : Respelling) (text : List Char) : List Char :=
  text.flatMap fun c => if c = '\n' then r.lead ++ [c] else [r.char c]

@[simp] theorem respell_nil : r.respell [] = [] := rfl

@[simp] theorem respell_append (s t : List Char) :
    r.respell (s ++ t) = r.respell s ++ r.respell t := by
  simp [respell]

theorem respell_newline (rest : List Char) :
    r.respell ('\n' :: rest) = r.lead ++ '\n' :: r.respell rest := by
  simp [respell]

theorem respell_cons (hc : c ≠ '\n') (rest : List Char) :
    r.respell (c :: rest) = r.char c :: r.respell rest := by
  simp [respell, hc]

theorem respell_mark (hm : isMark m = true) (hn : m ≠ '\n') (rest : List Char) :
    r.respell (m :: rest) = m :: r.respell rest := by
  rw [respell_cons hn, r.char_of_isMark m hm]

/-- Nothing but a mark stands for a mark. -/
theorem char_eq_iff (hm : isMark m = true) : r.char c = m ↔ c = m := by
  constructor
  · intro h
    have hc : isMark c = true := by rwa [← r.isMark_char, h]
    rwa [r.char_of_isMark c hc] at h
  · rintro rfl
    exact r.char_of_isMark c hm

/-- A respelled text begins with a mark where the text does. -/
theorem respell_eq_cons_iff (hm : isMark m = true) (hn : m ≠ '\n') {rest' : List Char} :
    r.respell text = m :: rest' ↔ ∃ rest, text = m :: rest ∧ r.respell rest = rest' := by
  constructor
  · intro h
    rcases text with _ | ⟨c, rest⟩
    · cases h
    · by_cases hc : c = '\n'
      · rw [hc, respell_newline] at h
        rcases hl : r.lead with _ | ⟨d, lead⟩
        · rw [hl] at h
          exact absurd (List.cons.inj h).1.symm hn
        · rw [hl] at h
          have hd := r.isMark_lead d (by simp [hl])
          rw [(List.cons.inj h).1, hm] at hd
          cases hd
      · rw [respell_cons hc, List.cons.injEq, char_eq_iff hm] at h
        obtain ⟨rfl, hrest⟩ := h
        exact ⟨rest, rfl, hrest⟩
  · rintro ⟨rest, rfl, rfl⟩
    exact respell_mark hm hn rest

/-- Two marks of a line are left as they are. -/
theorem respell_pair {m' : Char}
    (h : (isMark m = true ∧ m ≠ '\n') ∧ isMark m' = true ∧ m' ≠ '\n') (rest : List Char) :
    r.respell (m :: m' :: rest) = m :: m' :: r.respell rest := by
  obtain ⟨⟨hm, hn⟩, hm', hn'⟩ := h
  rw [respell_mark hm hn, respell_mark hm' hn']

/-- A respelled text begins with two marks of a line only if the text does. -/
theorem respell_ne_pair {m' : Char}
    (h : (isMark m = true ∧ m ≠ '\n') ∧ isMark m' = true ∧ m' ≠ '\n')
    (hne : ∀ rest, text ≠ m :: m' :: rest) (rest' : List Char) :
    r.respell text ≠ m :: m' :: rest' := by
  obtain ⟨⟨hm, hn⟩, hm', hn'⟩ := h
  intro heq
  obtain ⟨_, rfl, htail⟩ := (respell_eq_cons_iff hm hn).1 heq
  obtain ⟨rest, rfl, -⟩ := (respell_eq_cons_iff hm' hn').1 htail
  exact hne rest rfl

/-- Marks of a line are left as they are. -/
theorem respell_of_isMark {run : List Char} (h : ∀ c ∈ run, isMark c = true ∧ c ≠ '\n') :
    r.respell run = run := by
  induction run with
  | nil => rfl
  | cons c run ih =>
      obtain ⟨⟨hm, hn⟩, hrun⟩ := List.forall_mem_cons.1 h
      rw [respell_mark hm hn, ih hrun]

/-! ### Lengths -/

/-- The length, in the respelled text, of the first characters of a text. -/
def image (r : Respelling) (text : List Char) (n : Nat) : Nat :=
  (r.respell (text.take n)).length

@[simp] theorem image_zero : r.image text 0 = 0 := by
  simp [image]

theorem take_image (r : Respelling) (text : List Char) (n : Nat) :
    (r.respell text).take (r.image text n) = r.respell (text.take n) := by
  have h := congrArg r.respell (List.take_append_drop n text)
  rw [respell_append] at h
  rw [← h, image, List.take_left]

theorem drop_image (r : Respelling) (text : List Char) (n : Nat) :
    (r.respell text).drop (r.image text n) = r.respell (text.drop n) := by
  have h := congrArg r.respell (List.take_append_drop n text)
  rw [respell_append] at h
  rw [← h, image, List.drop_left]

theorem image_add (r : Respelling) (text : List Char) (m n : Nat) :
    r.image text (m + n) = r.image text m + r.image (text.drop m) n := by
  rw [image, image, image, List.take_add, respell_append, List.length_append]

theorem image_left (r : Respelling) (front rest : List Char) :
    r.image (front ++ rest) front.length = (r.respell front).length := by
  rw [image, List.take_left]

/-- Past some characters, lengths are counted in what follows them. -/
theorem image_behind (r : Respelling) (front rest : List Char) {passed : Nat}
    (hn : passed + front.length ≤ n) (passed' : Nat) :
    passed' + (r.respell front).length + r.image rest (n - (passed + front.length)) =
      passed' + r.image (front ++ rest) (n - passed) := by
  have hlength : n - passed = front.length + (n - (passed + front.length)) := by omega
  rw [hlength, r.image_add, List.drop_left, r.image_left, Nat.add_assoc]

theorem image_cons (hc : c ≠ '\n') (rest : List Char) (n : Nat) :
    r.image (c :: rest) (n + 1) = r.image rest n + 1 := by
  rw [image, List.take_succ_cons, respell_cons hc, List.length_cons, image]

/-- Marks of a line are as many in the respelled text. -/
theorem image_of_isMark (r : Respelling) (run rest : List Char)
    (h : ∀ c ∈ run, isMark c = true ∧ c ≠ '\n') :
    r.image (run ++ rest) run.length = run.length := by
  rw [image_left, respell_of_isMark h]

/-- Where something ends in a text, and where it ends in the respelled text: at the same place, or
where that is before a line feed, behind what is put in front of the line feed. -/
def Ends (r : Respelling) (text : List Char) (n n' : Nat) : Prop :=
  n' = r.image text n ∨
    ∃ rest, text.drop n = '\n' :: rest ∧ n' = r.image text n + r.lead.length

theorem Ends.add {m n n' : Nat} (h : r.Ends (text.drop m) n n') :
    r.Ends text (m + n) (r.image text m + n') := by
  rw [Ends, List.drop_drop] at h
  rcases h with rfl | ⟨rest, hrest, rfl⟩
  · exact .inl (r.image_add text m n).symm
  · exact .inr ⟨rest, hrest, by rw [r.image_add text m n, Nat.add_assoc]⟩

/-- What lies before the end and behind it. -/
theorem Ends.cases {n' : Nat} (h : r.Ends text n n') :
    ((r.respell text).take n' = r.respell (text.take n) ∧
        (r.respell text).drop n' = r.respell (text.drop n)) ∨
      ∃ rest, r.lead ≠ [] ∧ text.drop n = '\n' :: rest ∧
        (r.respell text).take n' = r.respell (text.take n) ++ r.lead ∧
        (r.respell text).drop n' = '\n' :: r.respell rest := by
  rcases h with rfl | ⟨rest, hrest, rfl⟩
  · exact .inl ⟨r.take_image text n, r.drop_image text n⟩
  · by_cases hlead : r.lead = []
    · rw [hlead, List.length_nil, Nat.add_zero]
      exact .inl ⟨r.take_image text n, r.drop_image text n⟩
    · refine .inr ⟨rest, hlead, hrest, ?_, ?_⟩
      · rw [List.take_add, r.take_image, r.drop_image, hrest, respell_newline, List.take_left]
      · rw [← List.drop_drop, r.drop_image, hrest, respell_newline, List.drop_left]

/-! ### Runs of a class -/

section Runs

variable {p : Char → Bool}

/-- A class of marks has what stands for a character as a member where it has the character. -/
theorem class_char (hp : ∀ c, p c = true → isMark c = true) (r : Respelling) (c : Char) :
    p (r.char c) = p c := by
  by_cases hm : isMark c = true
  · rw [r.char_of_isMark c hm]
  · have hm' : ¬ isMark (r.char c) = true := by rwa [r.isMark_char]
    rw [Bool.eq_iff_iff]
    exact ⟨fun h => absurd (hp _ h) hm', fun h => absurd (hp _ h) hm⟩

/-- A respelled text begins with a mark of a line where the text does, and with the same one. -/
theorem any_head?_respell (hp : ∀ c, p c = true → isMark c = true ∧ c ≠ '\n') (r : Respelling)
    (text : List Char) : (r.respell text).head?.any p = text.head?.any p := by
  rcases text with _ | ⟨c, rest⟩
  · rfl
  · by_cases hc : p c = true
    · rw [respell_mark (hp c hc).1 (hp c hc).2]
      rfl
    · rw [List.head?_cons, Option.any_some, eq_false_of_ne_true hc]
      rcases hr : r.respell (c :: rest) with _ | ⟨d, more⟩
      · rfl
      · rw [List.head?_cons, Option.any_some, ← Bool.not_eq_true]
        intro hd
        obtain ⟨_, heq, -⟩ := (respell_eq_cons_iff (hp d hd).1 (hp d hd).2).1 hr
        exact hc ((List.cons.inj heq).1 ▸ hd)

/-- A run of marks of a line is the same in the respelled text. -/
theorem takeWhile_respell (hp : ∀ c, p c = true → isMark c = true ∧ c ≠ '\n') (text : List Char) :
    (r.respell text).takeWhile p = text.takeWhile p ∧
      (r.respell text).dropWhile p = r.respell (text.dropWhile p) := by
  induction text with
  | nil => exact ⟨rfl, rfl⟩
  | cons c rest ih =>
      by_cases hc : p c = true
      · obtain ⟨hm, hn⟩ := hp c hc
        rw [respell_mark hm hn, List.takeWhile_cons_of_pos hc, List.takeWhile_cons_of_pos hc,
          List.dropWhile_cons_of_pos hc, List.dropWhile_cons_of_pos hc, ih.1]
        exact ⟨rfl, ih.2⟩
      · rw [List.takeWhile_cons_of_neg hc, List.dropWhile_cons_of_neg hc]
        have hhead := any_head?_respell hp r (c :: rest)
        rcases hr : r.respell (c :: rest) with _ | ⟨d, more⟩
        · exact ⟨rfl, rfl⟩
        · rw [hr] at hhead
          have hd : ¬ p d = true := fun hd => hc (hhead.symm.trans hd)
          rw [List.takeWhile_cons_of_neg hd, List.dropWhile_cons_of_neg hd]
          exact ⟨rfl, rfl⟩

/-- So it is as long there. -/
theorem image_takeWhile (hp : ∀ c, p c = true → isMark c = true ∧ c ≠ '\n') (r : Respelling)
    (text : List Char) :
    r.image text (text.takeWhile p).length = (text.takeWhile p).length := by
  have h := r.image_of_isMark (text.takeWhile p) (text.dropWhile p) fun c hc =>
    hp c (List.all_eq_true.1 List.all_takeWhile c hc)
  rwa [List.takeWhile_append_dropWhile] at h

/-- And what follows it is respelled. -/
theorem drop_takeWhile_respell (hp : ∀ c, p c = true → isMark c = true ∧ c ≠ '\n')
    (r : Respelling) (text : List Char) :
    (r.respell text).drop (text.takeWhile p).length =
      r.respell (text.drop (text.takeWhile p).length) := by
  have h := r.drop_image text (text.takeWhile p).length
  rwa [r.image_takeWhile hp] at h

theorem isMark_of_isLinear (h : isLinear c = true) : isMark c = true ∧ c ≠ '\n' := by
  rcases eq_of_isLinear h with rfl | rfl <;> decide

theorem isMark_of_isDigit (h : c.isDigit = true) : isMark c = true ∧ c ≠ '\n' := by
  refine ⟨by simp [isMark, h], ?_⟩
  rintro rfl
  cases h

end Runs

end Respelling

/-! ### What is scanned -/

section Scans

variable {r : Respelling} {text : List Char}

namespace Comment

/-- The extent of a comment, its length made into another. -/
def Extent.map (f : Nat → Nat) : Extent → Extent
  | .closed n => .closed (f n)
  | .unclosed depth => .unclosed depth

/-- Where no delimiter stands a character is passed. -/
theorem blockFrom_pass {outer passed : Nat} {c : Char} {rest : List Char}
    (hopen : ∀ t, c :: rest ≠ '/' :: '*' :: t) (hclose : ∀ t, c :: rest ≠ '*' :: '/' :: t) :
    blockFrom outer passed (c :: rest) = blockFrom outer (passed + 1) rest := by
  rw [blockFrom]
  · rintro t rfl rfl
    exact hopen t rfl
  · rintro t - rfl rfl
    exact hclose t rfl
  · rintro outer t - rfl rfl
    exact hclose t rfl

/-- Characters that are no marks are passed. -/
theorem blockFrom_append_of_isMark {outer passed : Nat} {front : List Char}
    (h : ∀ c ∈ front, isMark c = false) (rest : List Char) :
    blockFrom outer passed (front ++ rest) = blockFrom outer (passed + front.length) rest := by
  induction front generalizing passed with
  | nil => rfl
  | cons c front ih =>
      obtain ⟨hc, hfront⟩ := List.forall_mem_cons.1 h
      have hpass (m : Char) (hm : isMark m = true) (d : Char) (t : List Char) :
          c :: (front ++ rest) ≠ m :: d :: t := by
        intro heq
        rw [(List.cons.inj heq).1, hm] at hc
        cases hc
      rw [List.cons_append, blockFrom_pass (hpass '/' rfl '*') (hpass '*' rfl '/'), ih hfront,
        List.length_cons]
      congr 1
      omega

/-- What is found behind some characters, in the respelled text and with their length added. -/
theorem map_image_blockFrom (r : Respelling) (outer passed passed' : Nat)
    (front rest : List Char) :
    ((blockFrom outer (passed + front.length) rest).map fun n =>
        passed' + (r.respell front).length + r.image rest (n - (passed + front.length))) =
      (blockFrom outer (passed + front.length) rest).map fun n =>
        passed' + r.image (front ++ rest) (n - passed) := by
  cases hb : blockFrom outer (passed + front.length) rest with
  | closed n =>
      have hn := bounds_of_blockFrom hb
      rw [Extent.map, Extent.map, r.image_behind front rest (by omega)]
  | unclosed depth => rfl

/-- Where no delimiter stands in the text none stands in the respelled one. -/
theorem blockFrom_respell_pass {outer passed : Nat} {c : Char} {rest : List Char}
    (hopen : ∀ t, c :: rest ≠ '/' :: '*' :: t) (hclose : ∀ t, c :: rest ≠ '*' :: '/' :: t) :
    blockFrom outer passed (r.respell (c :: rest)) =
      blockFrom outer (passed + (r.respell [c]).length) (r.respell rest) := by
  by_cases hc : c = '\n'
  · rw [hc, r.respell_newline, r.respell_newline, blockFrom_append_of_isMark r.isMark_lead,
      blockFrom_pass (by simp) (by simp), List.length_append]
    rfl
  · have hopen' := r.respell_ne_pair (by decide) hopen
    have hclose' := r.respell_ne_pair (by decide) hclose
    rw [r.respell_cons hc] at hopen' hclose' ⊢
    rw [blockFrom_pass hopen' hclose', r.respell_cons hc]
    rfl

/-- A block comment in the respelled text, followed from within. -/
theorem blockFrom_respell {outer passed : Nat} (passed' : Nat) :
    blockFrom outer passed' (r.respell text) =
      (blockFrom outer passed text).map fun n => passed' + r.image text (n - passed) := by
  fun_induction blockFrom outer passed text generalizing passed' with
  | case1 outer passed rest ih =>
      rw [r.respell_pair (by decide), blockFrom, ih]
      exact map_image_blockFrom r (outer + 1) passed passed' ['/', '*'] rest
  | case2 passed rest =>
      rw [r.respell_pair (by decide), blockFrom, Extent.map, Nat.add_sub_cancel_left,
        Respelling.image_cons (by decide), Respelling.image_cons (by decide),
        Respelling.image_zero]
  | case3 outer passed rest ih =>
      rw [r.respell_pair (by decide), blockFrom, ih]
      exact map_image_blockFrom r outer passed passed' ['*', '/'] rest
  | case4 outer passed c rest h₁ h₂ h₃ ih =>
      have hopen (t : List Char) : c :: rest ≠ '/' :: '*' :: t := by
        rintro ⟨⟩
        exact h₁ t rfl rfl
      have hclose (t : List Char) : c :: rest ≠ '*' :: '/' :: t := by
        rintro ⟨⟩
        cases outer with
        | zero => exact h₂ t rfl rfl rfl
        | succ outer => exact h₃ outer t rfl rfl rfl
      rw [blockFrom_respell_pass hopen hclose, ih]
      exact map_image_blockFrom r outer passed passed' [c] rest
  | case5 outer passed => rfl

/-- A text that does not begin with the opener begins with no block comment. -/
theorem block?_eq_none (h : ∀ rest, text ≠ '/' :: '*' :: rest) : block? text = none := by
  rw [block?.eq_def]
  split
  · rename_i rest
    exact absurd rfl (h rest)
  · rfl

/-- A block comment in the respelled text. -/
theorem block?_respell (r : Respelling) (text : List Char) :
    block? (r.respell text) = (block? text).map (Extent.map (r.image text)) := by
  by_cases h : ∃ rest, text = '/' :: '*' :: rest
  · obtain ⟨rest, rfl⟩ := h
    have hmap := map_image_blockFrom r 0 0 0 ['/', '*'] rest
    simp only [Nat.zero_add, Nat.sub_zero] at hmap
    rw [r.respell_pair (by decide), block?, block?, Option.map_some, blockFrom_respell]
    exact congrArg some hmap
  · have hnone (rest : List Char) : text ≠ '/' :: '*' :: rest := fun heq => h ⟨rest, heq⟩
    rw [block?_eq_none hnone, block?_eq_none (r.respell_ne_pair (by decide) hnone),
      Option.map_none]

end Comment

/-- The text up to a line feed is followed by one or ends there. -/
theorem takeWhile_newline_respell (r : Respelling) (text : List Char) :
    ∃ n', ((r.respell text).takeWhile (· != '\n')).length = n' ∧
      r.Ends text (text.takeWhile (· != '\n')).length n' := by
  have hrun (c : Char) (hc : c ∈ r.lead) : (c != '\n') = true := by
    rw [bne_iff_ne]
    rintro rfl
    cases r.isMark_lead _ hc
  induction text with
  | nil => exact ⟨0, rfl, .inl rfl⟩
  | cons c rest ih =>
      by_cases hc : c = '\n'
      · subst hc
        refine ⟨_, rfl, .inr ⟨rest, rfl, ?_⟩⟩
        rw [r.respell_newline, List.takeWhile_append_of_pos hrun,
          List.takeWhile_cons_of_neg (by simp), List.append_nil,
          List.takeWhile_cons_of_neg (by simp)]
        simp
      · have hc' : r.char c ≠ '\n' := fun h => hc ((Respelling.char_eq_iff rfl).1 h)
        obtain ⟨n', hn', hends⟩ := ih
        refine ⟨n' + 1, ?_, ?_⟩
        · rw [r.respell_cons hc, List.takeWhile_cons_of_pos (by simpa using hc'), List.length_cons,
            hn']
        · have hone : r.Ends (c :: rest) (1 + (rest.takeWhile (· != '\n')).length)
              (r.image (c :: rest) 1 + n') := Respelling.Ends.add hends
          rw [Respelling.image_cons hc, Respelling.image_zero, Nat.add_comm,
            Nat.add_comm _ n'] at hone
          rwa [List.takeWhile_cons_of_pos (by simpa using hc)]

namespace Comment

/-- A text that does not begin with two dashes begins with no line comment. -/
theorem line?_eq_none (h : ∀ rest, text ≠ '-' :: '-' :: rest) : line? text = none := by
  rw [line?.eq_def]
  split
  · rename_i rest
    exact absurd rfl (h rest)
  · rfl

/-- A line comment in the respelled text. -/
theorem exists_line?_respell {n : Nat} (h : line? text = some n) :
    ∃ n', line? (r.respell text) = some n' ∧ r.Ends text n n' := by
  rw [line?.eq_def] at h
  split at h
  · rename_i rest
    obtain rfl := Option.some.inj h
    obtain ⟨n', hn', hends⟩ := takeWhile_newline_respell r rest
    refine ⟨2 + n', ?_, ?_⟩
    · rw [r.respell_pair (by decide), line?, hn']
    · have himage : r.image ('-' :: '-' :: rest) 2 = 2 := by
        rw [Respelling.image_cons (by decide), Respelling.image_cons (by decide),
          Respelling.image_zero]
      have hadd : r.Ends ('-' :: '-' :: rest) (2 + (rest.takeWhile (· != '\n')).length)
          (r.image ('-' :: '-' :: rest) 2 + n') := Respelling.Ends.add hends
      rwa [himage] at hadd
  · cases h

theorem line?_respell_eq_none (h : line? text = none) : line? (r.respell text) = none := by
  refine line?_eq_none (r.respell_ne_pair (by decide) ?_)
  rintro rest rfl
  cases h

end Comment

namespace Quoted

variable {close : Char}

/-- Characters that do not close quoted text are passed. -/
theorem bodyFrom_append {passed : Nat} {front : List Char} (h : ∀ c ∈ front, c ≠ close)
    (rest : List Char) :
    bodyFrom close passed (front ++ rest) = bodyFrom close (passed + front.length) rest := by
  induction front generalizing passed with
  | nil => rfl
  | cons c front ih =>
      obtain ⟨hc, hfront⟩ := List.forall_mem_cons.1 h
      have hlength : passed + (c :: front).length = passed + 1 + front.length := by
        rw [List.length_cons]
        omega
      rw [hlength, ← ih hfront, List.cons_append]
      rcases front ++ rest with _ | ⟨d, more⟩
      · simp [bodyFrom, hc]
      · rw [bodyFrom, if_neg hc]

/-- What is found behind some characters, in the respelled text and with their length added. -/
theorem map_image_bodyFrom (r : Respelling) (close : Char) (passed passed' : Nat)
    (front rest : List Char) :
    ((bodyFrom close (passed + front.length) rest).map fun n =>
        passed' + (r.respell front).length + r.image rest (n - (passed + front.length))) =
      (bodyFrom close (passed + front.length) rest).map fun n =>
        passed' + r.image (front ++ rest) (n - passed) := by
  refine Option.map_congr fun n hn => ?_
  have hbounds := bounds_of_bodyFrom hn
  rw [r.image_behind front rest (by omega)]

/-- A character that does not close quoted text does not close it in the respelled text, nor does
what is put in front of it. -/
theorem bodyFrom_respell_pass (hm : isMark close = true) (hn : close ≠ '\n') {passed : Nat}
    {c : Char} (hc : c ≠ close) (rest : List Char) :
    bodyFrom close passed (r.respell (c :: rest)) =
      bodyFrom close (passed + (r.respell [c]).length) (r.respell rest) := by
  have hfront : ∀ d ∈ r.respell [c], d ≠ close := by
    rintro d hd rfl
    by_cases hc' : c = '\n'
    · rw [hc', r.respell_newline, r.respell_nil, List.mem_append, List.mem_singleton] at hd
      rcases hd with hd | hd
      · rw [r.isMark_lead _ hd] at hm
        cases hm
      · exact hn hd
    · rw [r.respell_cons hc', r.respell_nil, List.mem_singleton] at hd
      exact hc ((Respelling.char_eq_iff hm).1 hd.symm)
  rw [← List.singleton_append, r.respell_append, bodyFrom_append hfront]

/-- Quoted text in the respelled text, followed from within. -/
theorem bodyFrom_respell (hm : isMark close = true) (hn : close ≠ '\n') {passed : Nat}
    (passed' : Nat) :
    bodyFrom close passed' (r.respell text) =
      (bodyFrom close passed text).map fun n => passed' + r.image text (n - passed) := by
  fun_induction bodyFrom close passed text generalizing passed' with
  | case1 => rfl
  | case2 passed =>
      rw [r.respell_mark hm hn, r.respell_nil, bodyFrom, if_pos rfl, Option.map_some,
        Nat.add_sub_cancel_left, Respelling.image_cons hn, Respelling.image_zero]
  | case3 passed c hc =>
      rw [bodyFrom_respell_pass hm hn hc, r.respell_nil, bodyFrom, Option.map_none]
  | case4 passed rest ih =>
      rw [r.respell_mark hm hn, r.respell_mark hm hn, bodyFrom, if_pos rfl, if_pos rfl, ih]
      have hmap := map_image_bodyFrom r close passed passed' [close, close] rest
      rwa [Respelling.respell_of_isMark (by simp [hm, hn])] at hmap
  | case5 passed d rest hd =>
      rw [r.respell_mark hm hn, Option.map_some, Nat.add_sub_cancel_left, Respelling.image_cons hn,
        Respelling.image_zero]
      rcases hr : r.respell (d :: rest) with _ | ⟨e, more⟩
      · rw [bodyFrom, if_pos rfl]
      · have he : e ≠ close := by
          rintro rfl
          obtain ⟨_, heq, -⟩ := (Respelling.respell_eq_cons_iff hm hn).1 hr
          exact hd (List.cons.inj heq).1
        rw [bodyFrom, if_pos rfl, if_neg he]
  | case6 passed c d rest hc ih =>
      rw [bodyFrom_respell_pass hm hn hc, ih]
      exact map_image_bodyFrom r close passed passed' [c] (d :: rest)

/-- Quoted text in the respelled text. -/
theorem body?_respell (hm : isMark close = true) (hn : close ≠ '\n') (r : Respelling)
    (text : List Char) :
    body? close (r.respell text) = (body? close text).map (r.image text) := by
  have h : bodyFrom close 0 (r.respell text) =
      (bodyFrom close 0 text).map fun n => 0 + r.image text (n - 0) := bodyFrom_respell hm hn 0
  simp only [Nat.zero_add, Nat.sub_zero] at h
  exact h

end Quoted

namespace Gap

/-- A gap in the respelled text. The cases are those of the gap. -/
theorem length_respell (r : Respelling) (text : List Char) :
    length (r.respell text) = r.image text (length text) := by
  induction text using Gap.induction with
  | nil => simp
  | linear c rest hc ih =>
      obtain ⟨hm, hn⟩ := Respelling.isMark_of_isLinear hc
      rw [r.respell_mark hm hn, length_cons_of_isLinear hc, length_cons_of_isLinear hc, ih,
        Respelling.image_cons hn]
  | comment text n h ih =>
      have hblock := Comment.block?_respell r text
      rw [h] at hblock
      rw [length_of_closed hblock, length_of_closed h, r.drop_image, ih, r.image_add]
  | other c rest hc h =>
      have hhead := Respelling.any_head?_respell (fun _ => Respelling.isMark_of_isLinear) r
        (c :: rest)
      have hblock := Comment.block?_respell r (c :: rest)
      rw [length_eq_zero hc h, Respelling.image_zero]
      rcases hr : r.respell (c :: rest) with _ | ⟨d, more⟩
      · exact length_nil
      · rw [hr] at hhead hblock
        refine length_eq_zero (hhead.trans hc) fun n hn => ?_
        rw [hn] at hblock
        rcases hb : Comment.block? (c :: rest) with _ | m | depth
        · rw [hb] at hblock
          cases hblock
        · exact h m hb
        · rw [hb] at hblock
          cases hblock

end Gap

/-- A comment left open, in the respelled text. -/
def Respelling.opening (r : Respelling) (text : List Char) (e : Opening) : Opening :=
  { e with before := r.image text e.before }

theorem Respelling.opening_shift (r : Respelling) (text : List Char) (k : Nat) (e : Opening) :
    (r.opening (text.drop k) e).shift (r.image text k) = r.opening text (e.shift k) := by
  rw [opening, opening, Opening.shift, Opening.shift, r.image_add]

namespace Gap

/-- A gap read in the respelled text. -/
theorem read_respell (r : Respelling) (text : List Char) :
    read (r.respell text) =
      match read text with
      | .ok g => .ok (r.image text g)
      | .error e => .error (r.opening text e) := by
  rw [read, read, length_respell, r.drop_image, Comment.block?_respell]
  rcases Comment.block? (text.drop (length text)) with _ | n | depth <;> rfl

end Gap

namespace Verdict

variable {o o' : Options}

theorem digits_respell (r : Respelling) (text : List Char) :
    digits (r.respell text) = digits text :=
  (Respelling.takeWhile_respell (fun _ => Respelling.isMark_of_isDigit) text).1

theorem image_digits (r : Respelling) (text : List Char) :
    r.image text (digits text).length = (digits text).length :=
  r.image_takeWhile (fun _ => Respelling.isMark_of_isDigit) text

/-- What trails the count in the respelled text. -/
theorem exists_trailing_respell {n : Nat} (h : trailing text = .ok n) :
    ∃ n', trailing (r.respell text) = .ok n' ∧ r.Ends text n n' := by
  obtain ⟨g, hgap, ⟨m, hm, rfl⟩ | ⟨hnone, rfl⟩⟩ := trailing_eq_ok.1 h
  · obtain ⟨m', hm', hends⟩ := Comment.exists_line?_respell (r := r) hm
    refine ⟨_, trailing_eq_ok.2 ⟨r.image text g, ?_, .inl ⟨m', ?_, rfl⟩⟩, hends.add⟩
    · rw [Gap.read_respell, hgap]
    · rwa [r.drop_image]
  · refine ⟨0, trailing_eq_ok.2 ⟨r.image text g, ?_, .inr ⟨?_, rfl⟩⟩, .inl r.image_zero.symm⟩
    · rw [Gap.read_respell, hgap]
    · rw [r.drop_image]
      exact Comment.line?_respell_eq_none hnone

theorem trailing_respell_eq_error {e : Opening} (h : trailing text = .error e) :
    trailing (r.respell text) = .error (r.opening text e) := by
  rw [trailing_eq_error] at h ⊢
  rw [Gap.read_respell, h]

/-- A verdict on a text, and the one on the respelled text. -/
inductive Echo (r : Respelling) (text : List Char) : Verdict → Verdict → Prop
  | absent : Echo r text .absent .absent
  | unusable (digits : List Char) : Echo r text (.unusable digits) (.unusable digits)
  | found {n n' : Nat} (count : RepeatCount) (h : r.Ends text n n') :
      Echo r text (.found count n) (.found count n')
  | unclosed (e : Opening) : Echo r text (.unclosed e) (.unclosed (r.opening text e))

theorem Echo.isNone_eq {v v' : Verdict} (h : Echo r text v v') : v'.isNone = v.isNone := by
  cases h <;> rfl

theorem Echo.exists_of_found {v : Verdict} {count : RepeatCount} {n : Nat}
    (h : Echo r text (.found count n) v) : ∃ n', v = .found count n' ∧ r.Ends text n n' := by
  cases h with
  | found _ h => exact ⟨_, rfl, h⟩

theorem Echo.eq_of_unclosed {v : Verdict} {e : Opening} (h : Echo r text (.unclosed e) v) :
    v = .unclosed (r.opening text e) := by
  cases h with
  | unclosed => rfl

theorem Echo.shift {k : Nat} {v v' : Verdict} (h : Echo r (text.drop k) v v') :
    Echo r text (v.shift k) (v'.shift (r.image text k)) := by
  cases h with
  | absent => exact .absent
  | unusable digits => exact .unusable digits
  | found count h => exact .found count h.add
  | unclosed e =>
      rw [Verdict.shift, Verdict.shift, r.opening_shift]
      exact .unclosed _

/-- A verdict on what follows a count, as one on the text in front of the count. -/
theorem Echo.behind_digits {g : Nat} {v v' : Verdict}
    (h : Echo r ((text.drop g).drop (digits (text.drop g)).length) v v') :
    Echo r text ((v.shift (digits (text.drop g)).length).shift g)
      ((v'.shift (digits (text.drop g)).length).shift (r.image text g)) := by
  have hecho := h.shift
  rw [image_digits] at hecho
  exact hecho.shift

/-- The parts of a statement behind its keyword are found in the respelled text. -/
theorem Tail.exists_respell {v : Verdict} (h : Tail text v) :
    ∃ v', Tail (r.respell text) v' ∧ Echo r text v v' := by
  have hread {g : Nat} (hgap : Gap.read text = .ok g) :
      Gap.read (r.respell text) = .ok (r.image text g) := by
    rw [Gap.read_respell, hgap]
  have hnone {g : Nat} (hline : Comment.line? (text.drop g) = none) :
      Comment.line? ((r.respell text).drop (r.image text g)) = none := by
    rw [r.drop_image]
    exact Comment.line?_respell_eq_none hline
  have hdigits (g : Nat) :
      digits ((r.respell text).drop (r.image text g)) = digits (text.drop g) := by
    rw [r.drop_image, digits_respell]
  have hbehind (g : Nat) :
      ((r.respell text).drop (r.image text g)).drop (digits (text.drop g)).length =
        r.respell ((text.drop g).drop (digits (text.drop g)).length) := by
    rw [r.drop_image]
    exact r.drop_takeWhile_respell (fun _ => Respelling.isMark_of_isDigit) (text.drop g)
  cases h with
  | openGap hgap =>
      refine ⟨_, .openGap ?_, .unclosed _⟩
      rw [Gap.read_respell, hgap]
  | @comment g n hgap hline =>
      obtain ⟨n', hn', hends⟩ := Comment.exists_line?_respell (r := r) hline
      exact ⟨_, .comment (hread hgap) (by rwa [r.drop_image]), .found _ hends.add⟩
  | @unusable g hgap hline hcount =>
      refine ⟨_, .unusable (hread hgap) (hnone hline) (by rwa [hdigits]), ?_⟩
      rw [hdigits]
      exact .unusable _
  | @openTrail g count e hgap hline hcount htrail =>
      have htrail' := trailing_respell_eq_error (r := r) htrail
      rw [← hbehind, ← hdigits] at htrail'
      refine ⟨_, .openTrail (hread hgap) (hnone hline) (by rwa [hdigits]) htrail', ?_⟩
      rw [hdigits]
      exact (Echo.unclosed e).behind_digits
  | @count g n count hgap hline hcount htrail =>
      obtain ⟨n', htrail', hends⟩ := exists_trailing_respell (r := r) htrail
      rw [← hbehind, ← hdigits] at htrail'
      refine ⟨_, .count (hread hgap) (hnone hline) (by rwa [hdigits]) htrail', ?_⟩
      rw [hdigits]
      exact (Echo.found count hends).behind_digits

/-- Whether the keyword goes on as a longer word can be seen in the respelled text. -/
theorem joined_respell (r : Respelling) (o : Options) (text : List Char) :
    joined o (r.respell text) = joined o text := by
  have hhead : (r.respell text).head?.any continuesKeyword = text.head?.any continuesKeyword := by
    rcases text with _ | ⟨c, rest⟩
    · rfl
    · by_cases hc : c = '\n'
      · subst hc
        rw [r.respell_newline]
        rcases hl : r.lead with _ | ⟨d, lead⟩
        · rfl
        · have hd := r.isWord_lead d (by simp [hl])
          simp only [List.cons_append, List.head?_cons, Option.any_some, continuesKeyword, hd]
          rfl
      · have hdigit := r.class_char (fun _ h => (Respelling.isMark_of_isDigit h).1) c
        rw [r.respell_cons hc]
        simp only [List.head?_cons, Option.any_some, continuesKeyword, r.isWord_char, hdigit]
  rw [joined, joined, hhead]

/-- What follows a keyword, in the respelled text. -/
theorem echo_ofTail (r : Respelling) (o : Options) (text : List Char) :
    Echo r text (ofTail o text) (ofTail o (r.respell text)) := by
  by_cases hj : joined o text = true
  · rw [ofTail_of_joined hj, ofTail_of_joined ((joined_respell r o text).trans hj)]
    exact .absent
  · have hj : joined o text = false := Bool.not_eq_true _ ▸ hj
    obtain ⟨v', htail, hecho⟩ := (tail_ofTail hj).exists_respell (r := r)
    rwa [(ofTail_eq_iff ((joined_respell r o text).trans hj)).2 htail]

end Verdict

namespace Hiding

variable {o : Options}

/-- The openers of quoted text are marks of a line. -/
theorem isMark_of_ofOpener? {c : Char} {q : Quotation} (h : Quotation.ofOpener? o c = some q) :
    (isMark c = true ∧ c ≠ '\n') ∧ isMark q.close = true ∧ q.close ≠ '\n' := by
  rcases Quotation.kinds_of_ofOpener? h with ⟨rfl, rfl⟩ | ⟨rfl, -, rfl⟩ | ⟨rfl, -, rfl⟩ <;> decide

/-- A comment in the respelled text. -/
theorem Hides.exists_comment_respell {n : Nat} (h : Hides o text (.comment n)) :
    ∃ n', Hides o (r.respell text) (.comment n') ∧ r.Ends text n n' := by
  cases h with
  | line hl =>
      obtain ⟨n', hn', hends⟩ := Comment.exists_line?_respell (r := r) hl
      exact ⟨n', .line hn', hends⟩
  | block hb => exact ⟨_, .block (by rw [Comment.block?_respell, hb]; rfl), .inl rfl⟩

/-- Quoted text in the respelled text. -/
theorem Hides.quoted_respell {n : Nat} (h : Hides o text (.quoted n)) :
    Hides o (r.respell text) (.quoted (r.image text n)) := by
  cases h with
  | quoted hq hn =>
      obtain ⟨⟨hm, hne⟩, hclose, hclose'⟩ := isMark_of_ofOpener? hq
      rw [r.respell_mark hm hne, Respelling.image_cons hne]
      exact .quoted hq (by rw [Quoted.body?_respell hclose hclose', hn, Option.map_some])

/-- What is left open in the respelled text. -/
theorem Hides.unclosed_respell {construct : Construct} (h : Hides o text (.unclosed construct)) :
    Hides o (r.respell text) (.unclosed construct) := by
  cases h with
  | openBlock hb =>
      exact .openBlock (by rw [Comment.block?_respell, hb]; rfl)
  | openQuoted hq hn =>
      obtain ⟨⟨hm, hne⟩, hclose, hclose'⟩ := isMark_of_ofOpener? hq
      rw [r.respell_mark hm hne]
      exact .openQuoted hq (by rw [Quoted.body?_respell hclose hclose', hn, Option.map_none])

/-- Where nothing hides nothing hides in the respelled text. -/
theorem Hides.plain_respell (h : Hides o text .plain) : Hides o (r.respell text) .plain := by
  cases h with
  | plain hl hb hq =>
      refine .plain (Comment.line?_respell_eq_none hl) ?_ fun first hfirst => ?_
      · rw [Comment.block?_respell, hb, Option.map_none]
      · rcases hopener : Quotation.ofOpener? o first with _ | q
        · rfl
        · obtain ⟨⟨hm, hne⟩, -⟩ := isMark_of_ofOpener? hopener
          obtain ⟨more, hmore⟩ := List.head?_eq_some_iff.1 (Option.mem_def.1 hfirst)
          obtain ⟨rest, rfl, -⟩ := (Respelling.respell_eq_cons_iff hm hne).1 hmore
          rw [hq first rfl] at hopener
          cases hopener

end Hiding

end Scans

end BatchScript
