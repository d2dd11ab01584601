import BatchScript.Proofs.Resplit
import BatchScript.Proofs.Truncation

/-!
# Batches without their comments

Where comments are dropped nothing is put in their place, and the characters on both sides of a
comment come to stand side by side. A few of them mean something together that they do not mean
apart, and then the batch is read differently when it is split again; it may even leave something
open. All other batches are read as one batch each.

`Bared o w text kept` reads a text with its comments in it and says what is left without them, as
long as no comment parts two characters that fuse. `Bare o w kept` reads what is left. The pieces of
the two readings need not be the same: string literals on both sides of a comment become one.

## Main results

* `Bared.isNone` — where no statement is found in a text, none is found in what is left of it.
* `Bare.of_bared` — what is left of a text holds neither comments nor statements.
* `Bare.exists_passage` — such a text is read to its end, and all of it is copied.
* `split_text_of_unfused` — a batch is one batch when it is split again, unless characters fused.
* `split_text_of_fused` — and where they fused it may be none, or fail.
-/

namespace BatchScript

/-! ### Characters side by side -/

/-- Whether two characters make something together that they do not make apart: a comment opener,
the keyword, a longer number, or a closing bracket that stands for itself. -/
def fuse (o : Options) (a b : Char) : Bool :=
  (a == '-' && b == '-') || (a == '/' && b == '*') || (a.toLower == 'g' && b.toLower == 'o') ||
    (a.isDigit && b.isDigit) || (o.bracketedIdentifiers && a == ']' && b == ']')

theorem fuse_of_isLinear {o : Options} {a : Char} (ha : isLinear a = true) (b : Char) :
    fuse o a b = false := by
  rcases eq_of_isLinear ha with rfl | rfl <;> simp [fuse]

/-- A character that opens quoted text is none that opens nothing. -/
theorem Quotation.isInert_of_ofOpener? {o : Options} {c : Char} {q : Quotation}
    (h : ofOpener? o c = some q) : isInert c = false := by
  rcases kinds_of_ofOpener? h with ⟨rfl, -⟩ | ⟨rfl, -⟩ | ⟨rfl, -⟩ <;> rfl

/-- Quoted text is closed by the delimiter that opens it, or is a bracketed identifier. -/
theorem Quotation.close_eq_or {o : Options} {c : Char} {q : Quotation}
    (h : ofOpener? o c = some q) :
    q.close = c ∨ (o.bracketedIdentifiers = true ∧ q.close = ']') := by
  rcases kinds_of_ofOpener? h with ⟨rfl, rfl⟩ | ⟨rfl, -, rfl⟩ | ⟨rfl, hbracketed, rfl⟩
  · exact .inl rfl
  · exact .inl rfl
  · exact .inr ⟨hbracketed, rfl⟩

/-! ### Texts and what is left of them -/

/-- Two characters do not fuse where a comment between them is deleted: the first, and what is left
of the text behind it. -/
def Parted (o : Options) (a : Char) (text kept : List Char) : Prop :=
  ∀ n, Hiding.Hides o text (.comment n) → ∀ b ∈ kept.head?, fuse o a b = false

/-- A text read to its end, one character of ordinary text at a time, with no statement in it, and
what is left of it without its comments. No comment in it parts two characters that fuse. -/
inductive Bared (o : Options) : Bool → List Char → List Char → Prop
  | nil (w : Bool) : Bared o w [] []
  | comment {w : Bool} {text kept : List Char} {n : Nat} (hh : Hiding.Hides o text (.comment n))
      (tail : Bared o false (text.drop n) kept) : Bared o w text kept
  | quoted {w : Bool} {text kept : List Char} {n : Nat} (hh : Hiding.Hides o text (.quoted n))
      (parted : ∀ a ∈ (text.take n).getLast?, Parted o a (text.drop n) kept)
      (tail : Bared o false (text.drop n) kept) : Bared o w text (text.take n ++ kept)
  | plain {w : Bool} {c : Char} {rest kept : List Char} (hh : Hiding.Hides o (c :: rest) .plain)
      (hv : (o.wordBoundaries && w) = false → (Verdict.ofText o (c :: rest)).isNone = true)
      (parted : Parted o c rest kept) (tail : Bared o (isWord c) rest kept) :
      Bared o w (c :: rest) (c :: kept)

namespace Bared

variable {o : Options} {w : Bool} {text rest kept tail : List Char} {c d : Char}

/-- Unless it begins with a comment, a text begins as what is left of it. -/
theorem head?_eq (h : Bared o w text kept) (hn : ∀ n, ¬ Hiding.Hides o text (.comment n)) :
    kept.head? = text.head? := by
  cases h with
  | nil => rfl
  | comment hh => exact absurd hh (hn _)
  | quoted hh =>
      obtain ⟨first, rest, rfl⟩ : ∃ first rest, text = first :: rest :=
        List.exists_cons_of_length_pos (by have := Hiding.bounds_of_quoted hh; omega)
      have htwo := (Hiding.bounds_of_quoted hh).1
      obtain ⟨n, rfl⟩ : ∃ n', _ = n' + 1 := ⟨_, (Nat.sub_add_cancel (by omega)).symm⟩
      rfl
  | plain => rfl

/-- What is left of a text goes on with the next character of the text, or with one that does not
fuse with the character before. -/
theorem head?_of_parted {b : Char} (h : Bared o w text kept) (hp : Parted o c text kept)
    (hb : b ∈ kept.head?) : text.head? = some b ∨ fuse o c b = false := by
  by_cases hn : ∃ n, Hiding.Hides o text (.comment n)
  · obtain ⟨n, hn⟩ := hn
    exact .inr (hp n hn b hb)
  · rw [← h.head?_eq (not_exists.1 hn)]
    exact .inl hb

/-- A character that opens nothing is left. -/
theorem of_isInert (hc : isInert c = true) (h : Bared o w (c :: rest) kept) :
    ∃ more, kept = c :: more ∧ Parted o c rest more ∧ Bared o (isWord c) rest more ∧
      ((o.wordBoundaries && w) = false → (Verdict.ofText o (c :: rest)).isNone = true) := by
  have hplain := (Hiding.hides_of_isInert (o := o) hc rest).eq_ofText
  cases h with
  | comment hh =>
      rw [hh.eq_ofText] at hplain
      cases hplain
  | quoted hh =>
      rw [hh.eq_ofText] at hplain
      cases hplain
  | plain hh hv parted tail => exact ⟨_, rfl, parted, tail, hv⟩

/-- Nothing opens between two characters that are left. -/
theorem hides_plain (h : Bared o w rest kept) (hp : Parted o c rest kept)
    (hh : Hiding.Hides o (c :: rest) .plain) : Hiding.Hides o (c :: kept) .plain := by
  cases hh with
  | plain hl hb hq =>
      have hnext (a b : Char) (hfuse : fuse o a b = true) (hca : c = a) (hb : kept.head? = some b) :
          ∃ more, rest = b :: more := by
        rcases h.head?_of_parted hp hb with hhead | hfalse
        · exact List.head?_eq_some_iff.1 hhead
        · rw [hca, hfuse] at hfalse
          cases hfalse
      refine .plain ?_ ?_ hq
      · rcases kept with _ | ⟨b, more⟩
        · simp [Comment.line?]
        · rw [Comment.line?_eq_none_iff]
          rintro ⟨rfl, rfl⟩
          obtain ⟨more, rfl⟩ := hnext '-' '-' rfl rfl rfl
          exact Comment.line?_eq_none_iff.1 hl ⟨rfl, rfl⟩
      · rcases kept with _ | ⟨b, more⟩
        · simp [Comment.block?]
        · rw [Comment.block?_eq_none_iff]
          rintro ⟨rfl, rfl⟩
          obtain ⟨more, rfl⟩ := hnext '/' '*' rfl rfl rfl
          exact Comment.block?_eq_none_iff.1 hb ⟨rfl, rfl⟩

/-! ### Statements in what is left -/

/-- A character that opens nothing, behind blanks of its line, is looked at in the text too. -/
theorem exists_rest {blanks : List Char} (h : Bared o w text kept)
    (hw : (o.wordBoundaries && w) = false) (hkept : kept = blanks ++ c :: tail)
    (hb : ∀ b ∈ blanks, isLinear b = true) (hc : isInert c = true) :
    ∃ w' rest, (o.wordBoundaries && w') = false ∧ Bared o w' (c :: rest) (c :: tail) := by
  induction h generalizing blanks with
  | nil w => simp at hkept
  | comment hh _ ih => exact ih (Bool.and_false _) hkept hb
  | @quoted w text kept n hh parted _ ih =>
      -- No delimiter stands here: neither a blank nor the character opens anything.
      exfalso
      cases hh with
      | @quoted first rest q n hq hn =>
          have hopens := Quotation.isInert_of_ofOpener? hq
          rcases blanks with _ | ⟨b, blanks⟩
          · obtain ⟨rfl, -⟩ := List.cons.inj hkept
            rw [hc] at hopens
            cases hopens
          · obtain ⟨rfl, -⟩ := List.cons.inj hkept
            rw [isInert_of_isLinear (hb _ (by simp))] at hopens
            cases hopens
  | @plain w first rest kept hh hv parted htail ih =>
      rcases blanks with _ | ⟨b, blanks⟩
      · obtain ⟨rfl, rfl⟩ := List.cons.inj hkept
        exact ⟨w, rest, hw, .plain hh hv parted htail⟩
      · obtain ⟨rfl, rfl⟩ := List.cons.inj hkept
        have hword := isWord_of_isLinear (hb first (by simp))
        exact ih (by rw [hword, Bool.and_false]) rfl fun b hb' => hb b (by simp [hb'])

/-- Two characters that fuse and are left side by side stand side by side in the text. -/
theorem exists_next (h : Bared o w rest (d :: tail)) (hp : Parted o c rest (d :: tail))
    (hfuse : fuse o c d = true) (hd : isInert d = true) :
    ∃ more, rest = d :: more ∧ Bared o (isWord d) more tail := by
  rcases h.head?_of_parted hp rfl with hhead | hfalse
  · obtain ⟨more, rfl⟩ := List.head?_eq_some_iff.1 hhead
    obtain ⟨kept, hkept, -, hmore, -⟩ := h.of_isInert hd
    obtain ⟨-, rfl⟩ := List.cons.inj hkept
    exact ⟨more, rfl, hmore⟩
  · rw [hfuse] at hfalse
    cases hfalse

/-- A literal of word characters that a text begins with is left. -/
theorem begins {literal : List Char} (hl : ∀ c ∈ literal, isWord c = true)
    (h : Bared o w text kept) (hb : AsciiCase.begins literal text = true) :
    AsciiCase.begins literal kept = true := by
  induction literal generalizing w text kept with
  | nil => exact AsciiCase.begins_nil kept
  | cons e literal ih =>
      rcases text with _ | ⟨c, rest⟩
      · simp [AsciiCase.begins] at hb
      · rw [AsciiCase.begins, Bool.and_eq_true] at hb
        have hinert := isInert_of_isWord (hl e (by simp)) (AsciiCase.eq_iff.1 hb.1)
        obtain ⟨more, rfl, -, hmore, -⟩ := h.of_isInert hinert
        rw [AsciiCase.begins, hb.1, ih (fun c hc => hl c (by simp [hc])) hmore hb.2]
        rfl

/-- A word that goes on in the text goes on in what is left. -/
theorem joined (h : Bared o w text kept) (hj : Verdict.joined o text = true) :
    Verdict.joined o kept = true := by
  rw [Verdict.joined, Bool.and_eq_true] at hj ⊢
  rcases text with _ | ⟨c, rest⟩
  · simp at hj
  · have hword : continuesKeyword c = true := hj.2
    rw [continuesKeyword, Bool.and_eq_true] at hword
    obtain ⟨more, rfl, -, -, -⟩ := h.of_isInert (isInert_of_isWord hword.1 rfl)
    exact hj

/-- Of a gap its blanks are left. -/
theorem exists_blanks (h : Bared o w text kept) :
    ∃ blanks more w', kept = blanks ++ more ∧ (∀ b ∈ blanks, isLinear b = true) ∧
      Bared o w' (text.drop (Gap.length text)) more := by
  induction text using Gap.induction generalizing w kept with
  | nil => exact ⟨[], kept, w, rfl, by simp, by simpa using h⟩
  | linear c rest hc ih =>
      obtain ⟨more, rfl, -, hmore, -⟩ := h.of_isInert (isInert_of_isLinear hc)
      obtain ⟨blanks, more, w', rfl, hblanks, hrest⟩ := ih hmore
      refine ⟨c :: blanks, more, w', rfl, List.forall_mem_cons.2 ⟨hc, hblanks⟩, ?_⟩
      rwa [Gap.length_cons_of_isLinear hc, List.drop_succ_cons]
  | comment text n hn ih =>
      have hh : Hiding.Hides o text (.comment n) := .block hn
      obtain ⟨w', hmore⟩ : ∃ w', Bared o w' (text.drop n) kept := by
        have heq := hh.eq_ofText
        cases h with
        | nil => cases hn
        | comment hh' tail =>
            obtain rfl : _ = n := by simpa [hh'.eq_ofText] using heq
            exact ⟨false, tail⟩
        | quoted hh' => simp [hh'.eq_ofText] at heq
        | plain hh' => simp [hh'.eq_ofText] at heq
      obtain ⟨blanks, more, w', rfl, hblanks, hrest⟩ := ih hmore
      refine ⟨blanks, more, w', rfl, hblanks, ?_⟩
      rwa [Gap.length_of_closed hn, ← List.drop_drop]
  | other c rest hc hn =>
      refine ⟨[], kept, w, rfl, by simp, ?_⟩
      rwa [Gap.length_eq_zero hc hn, List.drop_zero]

/-- No digits come to those before a character that is none. -/
theorem digits_eq_nil (h : Bared o w text kept) (hp : Parted o c text kept)
    (hc : c.isDigit = true) (ht : ∀ b ∈ text.head?, b.isDigit = false) :
    Verdict.digits kept = [] := by
  refine Verdict.digits_eq_nil fun b hb => ?_
  rcases h.head?_of_parted hp hb with hhead | hfalse
  · exact ht b hhead
  · rw [← Bool.not_eq_true]
    intro hdigit
    simp [fuse, hc, hdigit] at hfalse

/-- Digits are left as they are. -/
theorem digits_eq (hc : c.isDigit = true) (h : Bared o w (c :: rest) kept) :
    Verdict.digits kept = Verdict.digits (c :: rest) := by
  induction rest generalizing w kept c with
  | nil =>
      obtain ⟨more, rfl, parted, hmore, -⟩ := h.of_isInert (isInert_of_isDigit hc)
      have hnone := hmore.digits_eq_nil parted hc (by simp)
      rw [Verdict.digits] at hnone ⊢
      rw [List.takeWhile_cons_of_pos hc, hnone, Verdict.digits, List.takeWhile_cons_of_pos hc,
        List.takeWhile_nil]
  | cons d rest ih =>
      obtain ⟨more, rfl, parted, hmore, -⟩ := h.of_isInert (isInert_of_isDigit hc)
      have hdigits : Verdict.digits more = Verdict.digits (d :: rest) := by
        cases hd : d.isDigit with
        | true => exact ih hd hmore
        | false =>
            have hstop : ∀ b ∈ (d :: rest).head?, b.isDigit = false := by
              rintro b ⟨⟩
              exact hd
            rw [hmore.digits_eq_nil parted hc hstop, Verdict.digits_eq_nil hstop]
      rw [Verdict.digits] at hdigits ⊢
      rw [List.takeWhile_cons_of_pos hc, hdigits, Verdict.digits, Verdict.digits,
        List.takeWhile_cons_of_pos hc]

/-- Where no statement is found behind a keyword in the text, none is found behind it in what is
left. -/
theorem isNone_ofTail (h : Bared o w text kept)
    (hnone : (Verdict.ofTail o text).isNone = true) : (Verdict.ofTail o kept).isNone = true := by
  cases hj : Verdict.joined o kept with
  | true =>
      rw [Verdict.ofTail_of_joined hj]
      rfl
  | false =>
      have hj' : Verdict.joined o text = false := by
        rw [← Bool.not_eq_true]
        intro hjoined
        rw [h.joined hjoined] at hj
        cases hj
      obtain ⟨g, hgap, hline, hcount⟩ := (Verdict.isNone_ofTail_iff hj').1 hnone
      obtain ⟨rfl, hblock⟩ := Gap.read_eq_ok.1 hgap
      obtain ⟨blanks, more, w', rfl, hblanks, hmore⟩ := h.exists_blanks
      -- What stops the gap is the digit of a count that cannot be used.
      obtain ⟨c, rest, hrest, hdigit⟩ : ∃ c rest, text.drop (Gap.length text) = c :: rest ∧
          c.isDigit = true := by
        rcases hrest : text.drop (Gap.length text) with _ | ⟨c, rest⟩
        · simp [hrest, Verdict.digits] at hcount
        · cases hdigit : c.isDigit with
          | true => exact ⟨c, rest, rfl, hdigit⟩
          | false => simp [hrest, Verdict.digits, hdigit] at hcount
      rw [hrest] at hmore hcount
      have hdigits := hmore.digits_eq hdigit
      obtain ⟨more, rfl, -, -, -⟩ := hmore.of_isInert (isInert_of_isDigit hdigit)
      obtain ⟨hread, hline'⟩ := Gap.read_of_isDigit hblanks hdigit more
      rw [Verdict.isNone_ofTail_iff hj]
      refine ⟨blanks.length, hread, ?_, ?_⟩
      · rwa [List.drop_left]
      · rwa [List.drop_left, hdigits]

/-- No statement is found in what is left, where one is looked for in the text. -/
theorem isNone (hg : SeparatesByGo o) (h : Bared o w text kept)
    (hw : (o.wordBoundaries && w) = false) : (Verdict.ofText o kept).isNone = true := by
  rcases Verdict.ofText_eq_absent_or o kept with ha | ⟨blanks, keyword, tail, hkept, hk⟩
  · rw [ha]
    rfl
  obtain ⟨c, d, rfl, hc, hd⟩ := hk.eq_go hg
  have hinert : isInert c = true ∧ isInert d = true := by
    constructor
    · rcases hc with rfl | rfl <;> decide
    · rcases hd with rfl | rfl <;> decide
  have hfuse : fuse o c d = true := by
    rcases hc with rfl | rfl <;> rcases hd with rfl | rfl <;> simp [fuse]
  have hletters : kept = blanks ++ c :: d :: tail := hkept
  obtain ⟨w', rest, hw', hkeyword⟩ := h.exists_rest hw hletters hk.isLinear hinert.1
  obtain ⟨left, hleft, parted, hrest, hnone⟩ := hkeyword.of_isInert hinert.1
  obtain ⟨-, rfl⟩ := List.cons.inj hleft
  obtain ⟨more, rfl, hmore⟩ := hrest.exists_next parted hfuse hinert.2
  have hk' : Verdict.Keyed o [] [c, d] more := by
    refine ⟨by simp, fun e he => hk.maximal e he, hk.separator_ne_nil, hk.toLower, fun l hl => ?_⟩
    rw [← Bool.not_eq_true]
    intro hbegins
    have hword : ∀ c ∈ l.toList, isWord c = true := by
      rw [hg.lookalikes, List.mem_singleton] at hl
      rw [hl, ← List.all_eq_true]
      decide
    have hleft : AsciiCase.begins l.toList (c :: d :: tail) = false := hk.lookalikes l hl
    rw [hkeyword.begins hword hbegins] at hleft
    cases hleft
  have htail := Verdict.ofText_of_keyed hk'
  rw [hkept, Verdict.ofText_of_keyed hk, Verdict.isNone_shift]
  refine hmore.isNone_ofTail ?_
  rw [← Verdict.isNone_shift, ← htail]
  exact hnone hw'

end Bared

/-! ### What is left, read again -/

/-- A text read to its end, one character of ordinary text at a time, with neither a statement nor a
comment in it. -/
inductive Bare (o : Options) : Bool → List Char → Prop
  | nil (w : Bool) : Bare o w []
  | quoted {w : Bool} {text : List Char} {n : Nat} (hh : Hiding.Hides o text (.quoted n))
      (tail : Bare o false (text.drop n)) : Bare o w text
  | plain {w : Bool} {c : Char} {rest : List Char} (hh : Hiding.Hides o (c :: rest) .plain)
      (hv : (o.wordBoundaries && w) = false → (Verdict.ofText o (c :: rest)).isNone = true)
      (tail : Bare o (isWord c) rest) : Bare o w (c :: rest)

namespace Bare

variable {o : Options} {w : Bool} {text rest body : List Char} {c : Char}

/-- Behind an opener quoted text is read. -/
theorem of_opener {q : Quotation} (h : Bare o w (c :: rest))
    (hq : Quotation.ofOpener? o c = some q) :
    ∃ n, Quoted.body? q.close rest = some n ∧ Bare o false (rest.drop n) := by
  cases h with
  | quoted hh tail =>
      cases hh with
      | @quoted _ _ q' n hq' hn =>
          obtain rfl : q' = q := Option.some.inj (hq'.symm.trans hq)
          exact ⟨n, hn, tail⟩
  | plain hh =>
      rw [(Scan.nothing_of_plain hh).2] at hq
      cases hq

/-- Quoted text before a bare text is read alone, or together with quoted text that the bare one
begins with. -/
theorem append_quoted {q : Quotation} (h : Bare o false text)
    (hq : Quotation.ofOpener? o c = some q) (hbody : Quoted.body? q.close body = some body.length)
    (hclose : q.close ∈ text.head? → q.close = c) : Bare o w (c :: (body ++ text)) := by
  by_cases hhead : text.head? = some q.close
  · obtain ⟨rest, rfl⟩ := List.head?_eq_some_iff.1 hhead
    have hopener := hclose rfl
    obtain ⟨n, hn, htail⟩ := h.of_opener (by rw [hopener, hq])
    have hjoined := Quoted.body?_append_close hbody rest
    rw [hn, Option.map_some] at hjoined
    have hdrop : (body ++ q.close :: rest).drop (n + (body.length + 1)) = rest.drop n := by
      rw [Nat.add_comm n, ← List.drop_drop, List.append_cons, List.drop_left' (by simp)]
    refine .quoted (.quoted hq hjoined) ?_
    rwa [List.drop_succ_cons, hdrop]
  · refine .quoted (.quoted hq ((Quoted.body?_eq_some_iff hhead).1 hbody).1) ?_
    rwa [List.drop_succ_cons, List.drop_left]

/-- Behind a word character no more statements are found than elsewhere. -/
theorem of_bared (hg : SeparatesByGo o) {v : Bool} {kept : List Char} (h : Bared o w text kept)
    (hv : w = true → v = true) : Bare o v kept := by
  induction h generalizing v with
  | nil => exact .nil v
  | comment hh _ ih => exact ih (by simp)
  | @quoted w text kept n hh parted tail ih =>
      cases hh with
      | @quoted first rest q n hq hn =>
          have hle := (Quoted.bounds_of_body? hn).2
          have hlength : (rest.take n).length = n := List.length_take_of_le hle
          have hnext := Quoted.head?_drop_ne hn
          have hbody : Quoted.body? q.close (rest.take n) = some (rest.take n).length := by
            rw [Quoted.body?_eq_some_iff hnext, List.take_append_drop, hlength]
            exact ⟨hn, Nat.le_refl n⟩
          rw [List.take_succ_cons, List.cons_append]
          refine (ih (by simp)).append_quoted hq hbody fun hhead => ?_
          -- Where the delimiter comes to stand behind the quoted text, a comment was deleted.
          rcases Quotation.close_eq_or hq with hclose | ⟨hbrackets, hclose⟩
          · exact hclose
          · rcases tail.head?_of_parted (parted _ (Quoted.getLast?_take hn)) hhead with hd | hfuse
            · exact absurd hd hnext
            · simp [fuse, hbrackets, hclose] at hfuse
  | @plain w c rest kept hh hnone parted tail ih =>
      refine .plain (tail.hides_plain parted hh) (fun hw => ?_) (ih id)
      refine (Bared.plain hh hnone parted tail).isNone hg ?_
      cases w with
      | true => rw [hv rfl] at hw; exact hw
      | false => exact Bool.and_false _

/-- Blanks that a bare text begins with can be passed over together. -/
theorem dropWhile_isLinear (h : Bare o false text) : Bare o false (text.dropWhile isLinear) := by
  induction text with
  | nil => exact h
  | cons c rest ih =>
      cases hc : isLinear c with
      | false => rwa [List.dropWhile_cons_of_neg (by simp [hc])]
      | true =>
          rw [List.dropWhile_cons_of_pos hc]
          refine ih ?_
          have hplain := (Hiding.hides_of_isInert (o := o) (isInert_of_isLinear hc) rest).eq_ofText
          cases h with
          | quoted hh =>
              rw [hh.eq_ofText] at hplain
              cases hplain
          | plain hh hv tail => rwa [isWord_of_isLinear hc] at tail

/-- A bare text is read to its end, and all of it is copied. -/
theorem exists_passage (h : Bare o w text) :
    ∃ pieces w', Passage o w text pieces w' [] ∧
      (∀ piece ∈ pieces, piece.isSeparator = false) ∧ copied o pieces = text := by
  induction hn : text.length using Nat.strongRecOn generalizing w text with
  | ind n ih =>
      have hstep {piece : Piece} {rest : List Char} (hp : piece.isSeparator = false)
          (hcopied : piece.copied o = piece.source)
          (hshows : Outlook.Shows o w text (.piece piece rest))
          (hrest : Bare o piece.endsInWord rest) :
          ∃ pieces w', Passage o w text pieces w' [] ∧
            (∀ piece ∈ pieces, piece.isSeparator = false) ∧ copied o pieces = text := by
        have htext := Outlook.text_eq hshows
        have hpos := List.length_pos_iff.2 (Outlook.source_ne_nil hshows)
        have hlength := congrArg List.length htext
        rw [List.length_append] at hlength
        obtain ⟨pieces, w', hpassage, hpieces, hall⟩ := ih rest.length (by omega) hrest rfl
        refine ⟨piece :: pieces, w', .step hshows hpassage,
          List.forall_mem_cons.2 ⟨hp, hpieces⟩, ?_⟩
        rw [copied_cons, hcopied, hall, htext]
      cases h with
      | nil => exact ⟨[], w, .stay w [], by simp, rfl⟩
      | @quoted _ _ n hh tail =>
          have hshows : Outlook.Shows o w text (.piece (.quoted _) _) :=
            (Outlook.shows_iff_copies rfl).2 ⟨.quoted hh, by simp [hh.eq_ofText]⟩
          exact hstep rfl (Piece.copied_quoted o _) hshows tail
      | @plain _ c rest hh hv tail =>
          have hordinary := Piece.copied_ordinary o c
          cases hw : o.wordBoundaries && w with
          | true => exact hstep rfl hordinary (.word hh hw) tail
          | false =>
              cases hl : isLinear c with
              | false => exact hstep rfl hordinary (.ordinary hh hw (hv hw) hl) tail
              | true =>
                  refine hstep rfl (Piece.copied_blanks o _) (.blanks hh hw (hv hw) hl) ?_
                  rw [isWord_of_isLinear hl] at tail
                  rw [List.dropWhile_cons_of_pos hl]
                  exact tail.dropWhile_isLinear

end Bare

/-! ### Texts of a script -/

namespace Visit

/-- The text of visits without the comments among them. -/
def uncommented (visits : List Visit) : List Char :=
  (visits.filter (!·.isComment)).flatMap text

/-- Whether no comment among visits parts two characters that fuse: the last one before it outside
comments, and the first one behind it. -/
def unfused (o : Options) : Option Char → List Visit → Bool
  | _, [] => true
  | last, visit :: visits =>
    if visit.isComment then
      (last.all fun a => (uncommented visits).head?.all fun b => !fuse o a b) &&
        unfused o last visits
    else
      unfused o visit.text.getLast? visits

theorem unfused_comment (o : Options) (last : Option Char) (p : Position) (text : List Char)
    (pieces : List Piece) :
    unfused o last (ofPieces p (.comment text :: pieces)) =
      ((last.all fun a =>
          (uncommented (ofPieces (p.after text) pieces)).head?.all fun b => !fuse o a b) &&
        unfused o last (ofPieces (p.after text) pieces)) := rfl

theorem unfused_text {o : Options} {piece : Piece} {p : Position}
    (h : isComment ⟨p, piece.region, piece.source⟩ = false) (last : Option Char)
    (pieces : List Piece) :
    unfused o last (ofPieces p (piece :: pieces)) =
      unfused o piece.source.getLast? (ofPieces (p.after piece.source) pieces) := by
  rw [ofPieces, unfused, if_neg (by simp [h])]

/-- Where comments are dropped their text is not copied, and all other text is. -/
theorem uncommented_ofPieces {o : Options} (hk : o.keepComments = false) (p : Position)
    {pieces : List Piece} (hp : ∀ piece ∈ pieces, piece.isSeparator = false) :
    uncommented (ofPieces p pieces) = copied o pieces := by
  induction pieces generalizing p with
  | nil => rfl
  | cons piece pieces ih =>
      obtain ⟨hpiece, hpieces⟩ := List.forall_mem_cons.1 hp
      have hcopied := isCopied_of_piece p hpiece false
      have hrest := ih (p.after piece.source) hpieces
      rw [uncommented] at hrest
      rw [ofPieces, uncommented, List.filter_cons, copied_cons, Piece.copied, hk, hcopied,
        Bool.false_or]
      split
      · rw [List.flatMap_cons, hrest]
      · rw [hrest, List.nil_append]

end Visit

namespace Bared

variable {o : Options} {w w' : Bool} {text rest kept : List Char} {c : Char}
  {pieces : List Piece}

/-- A blank is left. -/
theorem linear (hc : isLinear c = true) (hv : (Verdict.ofText o (c :: rest)).isNone = true)
    (h : Bared o false rest kept) : Bared o w (c :: rest) (c :: kept) := by
  rw [← isWord_of_isLinear hc] at h
  exact .plain (Hiding.hides_of_isInert (isInert_of_isLinear hc) rest) (fun _ => hv)
    (fun _ _ b _ => fuse_of_isLinear hc b) h

/-- A run of blanks is left. -/
theorem blanks {run : List Char} (hrun : ∀ b ∈ run, isLinear b = true) (hne : run ≠ [])
    (hv : (Verdict.ofText o (run ++ rest)).isNone = true) (h : Bared o false rest kept) :
    Bared o w (run ++ rest) (run ++ kept) := by
  induction run generalizing w with
  | nil => exact absurd rfl hne
  | cons c run ih =>
      obtain ⟨hc, hrun⟩ := List.forall_mem_cons.1 hrun
      refine .linear hc hv ?_
      rcases run with _ | ⟨d, run⟩
      · exact h
      · refine ih hrun (by simp) ?_
        rw [← hv]
        exact (Verdict.isNone_cons_of_isLinear o hc _).symm

/-- A comment that is read next parts no characters that fuse. -/
theorem parted_of_passage {a : Char} {p : Position} (hk : o.keepComments = false)
    (h : Passage o w text pieces w' rest) (hp : ∀ piece ∈ pieces, piece.isSeparator = false)
    (hu : Visit.unfused o (some a) (Visit.ofPieces p pieces) = true) :
    Parted o a text (copied o pieces) := by
  intro n hn b hb
  have heq := hn.eq_ofText
  cases h with
  | stay => cases hb
  | @step _ _ _ _ _ piece more shows tail =>
      obtain ⟨hpiece, hmore⟩ := List.forall_mem_cons.1 hp
      cases shows with
      | comment hh =>
          rw [copied_cons, Piece.copied_comment, hk] at hb
          rw [Visit.unfused_comment, Visit.uncommented_ofPieces hk _ hmore] at hu
          have hb' : (copied o more).head? = some b := hb
          simpa [hb'] using (Bool.and_eq_true_iff.1 hu).1
      | quoted hh => simp [hh.eq_ofText] at heq
      | word hh => simp [hh.eq_ofText] at heq
      | separator hh => simp [hh.eq_ofText] at heq
      | blanks hh => simp [hh.eq_ofText] at heq
      | ordinary hh => simp [hh.eq_ofText] at heq

/-- What a passage copies is left of its text. -/
theorem of_passage {p : Position} {last : Option Char} (hk : o.keepComments = false)
    (h : Passage o w text pieces w' rest) (hend : rest = [])
    (hp : ∀ piece ∈ pieces, piece.isSeparator = false)
    (hu : Visit.unfused o last (Visit.ofPieces p pieces) = true) :
    Bared o w text (copied o pieces) := by
  induction h generalizing p last with
  | stay w text =>
      rw [hend]
      exact .nil w
  | @step w w' text rest rest' piece pieces shows tail ih =>
      obtain ⟨hpiece, hpieces⟩ := List.forall_mem_cons.1 hp
      cases shows with
      | comment hh =>
          rw [Visit.unfused_comment, Bool.and_eq_true] at hu
          rw [copied_cons, Piece.copied_comment, hk]
          exact .comment hh (ih hend hpieces hu.2)
      | quoted hh =>
          rw [Visit.unfused_text rfl] at hu
          rw [copied_cons, Piece.copied_quoted]
          refine .quoted hh (fun a ha => ?_) (ih hend hpieces hu)
          rw [Piece.source, Option.mem_def.1 ha] at hu
          exact parted_of_passage hk tail hpieces hu
      | word hh hw =>
          rw [Visit.unfused_text rfl] at hu
          rw [copied_cons, Piece.copied_ordinary]
          refine .plain hh (by simp [hw]) ?_ (ih hend hpieces hu)
          exact parted_of_passage hk tail hpieces hu
      | separator => cases hpiece
      | @blanks first more hh hw hv hl =>
          rw [Visit.unfused_text rfl] at hu
          rw [copied_cons, Piece.copied_blanks]
          have hrun := List.takeWhile_append_dropWhile (p := isLinear) (l := first :: more)
          have hlinear : ∀ b ∈ (first :: more).takeWhile isLinear, isLinear b = true :=
            List.all_eq_true.1 List.all_takeWhile
          have hbared := Bared.blanks (w := w) hlinear (by simp [hl]) (by rwa [hrun])
            (ih hend hpieces hu)
          rwa [hrun] at hbared
      | ordinary hh hw hv hl =>
          rw [Visit.unfused_text rfl] at hu
          rw [copied_cons, Piece.copied_ordinary]
          refine .plain hh (fun _ => hv) ?_ (ih hend hpieces hu)
          exact parted_of_passage hk tail hpieces hu

end Bared

/-! ### Segments -/

/-- The visits of a segment are those to a stretch. -/
theorem Segment.exists_stretch {s : Segment} {p : Position} {taken pieces : List Piece}
    (ht : ∀ piece ∈ taken, piece.isSeparator = false)
    (hs : s ∈ ofVisits (Visit.ofPieces p taken)
      (Visit.ofPieces (p.after (sources taken)) pieces)) :
    ∃ before stretch after q, IsStretch (taken ++ pieces) before stretch after ∧
      s.visits = Visit.ofPieces q stretch := by
  induction pieces generalizing taken p with
  | nil =>
      obtain rfl : s = { visits := Visit.ofPieces p taken, count := .once } := by
        simpa [Visit.ofPieces, ofVisits] using hs
      exact ⟨[], taken, [], p, .first ht (by simp), rfl⟩
  | cons piece pieces ih =>
      cases hp : piece.isSeparator with
      | false =>
          have hmore : ∀ p ∈ taken ++ [piece], p.isSeparator = false := by
            simpa [or_imp, forall_and, hp] using ht
          have htaken : Visit.ofPieces p taken ++
              [⟨p.after (sources taken), piece.region, piece.source⟩] =
                Visit.ofPieces p (taken ++ [piece]) := by
            rw [Visit.ofPieces_append]
            rfl
          have hafter : (p.after (sources taken)).after piece.source =
              p.after (sources (taken ++ [piece])) := by
            simp
          rw [Visit.ofPieces, ofVisits_text rfl hp, htaken, hafter] at hs
          simpa using ih hmore hs
      | true =>
          obtain ⟨count, statement, rfl⟩ := Piece.eq_separator hp
          rw [Visit.ofPieces, Piece.region, ofVisits] at hs
          rcases List.mem_cons.1 hs with rfl | hs
          · exact ⟨[], taken, .separator count statement :: pieces, p,
              .first ht (by simp [hp]), rfl⟩
          · have hnone : ∀ piece ∈ ([] : List Piece), piece.isSeparator = false := by simp
            obtain ⟨before, stretch, after, q, hstretch, hvisits⟩ := ih hnone hs
            exact ⟨_, stretch, after, q, hstretch.behind taken count statement, hvisits⟩

/-- A stretch that is read before the end of a script or a statement is read alone. -/
theorem Passage.alone {o : Options} {w w' : Bool} {text behind : List Char}
    {pieces : List Piece} (hg : SeparatesByGo o) (h : Passage o w text pieces w' behind)
    (hp : ∀ piece ∈ pieces, piece.isSeparator = false)
    (hend : behind = [] ∨ ∃ piece rest, piece.isSeparator = true ∧
      Outlook.Shows o w' behind (.piece piece rest)) :
    Passage o w (sources pieces) pieces w' [] := by
  have hseam : Seam behind := by
    rcases hend with rfl | ⟨piece, rest, hpiece, shows⟩
    · simp [Seam]
    · obtain ⟨count, statement, rfl⟩ := Piece.eq_separator hpiece
      exact .of_found hg (Outlook.found_of_separator shows)
  induction h with
  | stay w text => exact .stay w []
  | @step w w' text left behind piece pieces shows tail ih =>
      obtain ⟨hpiece, hpieces⟩ := List.forall_mem_cons.1 hp
      have hunbroken := unbroken_of_passage hg (.step shows tail) hp hend
      have hcopies := ((Outlook.shows_iff_copies hpiece).1 shows).1
      rw [sources_cons] at hunbroken ⊢
      have htext : text = (piece.source ++ sources pieces) ++ behind := by
        rw [Outlook.text_eq shows, tail.text_eq, List.append_assoc]
      have halone := hcopies.of_append hseam htext tail.text_eq rfl
      refine .step ((Outlook.shows_iff_copies hpiece).2 ⟨halone, fun hplain hw => ?_⟩)
        (ih hpieces hend hseam)
      exact hunbroken.isNone (by simp [Outlook.source_ne_nil shows]) hplain hw

/-! ### Splitting again -/

/-- Whether no comment of a segment parts two characters that fuse. -/
def Segment.unfused (o : Options) (s : Segment) : Bool :=
  Visit.unfused o none s.visits

/-- Pieces of text that are not blank make one batch, to be run once. -/
theorem split_of_text {o : Options} {text : String} {pieces : List Piece} {w : Bool}
    (h : Passage o false text.toList pieces w [])
    (hp : ∀ piece ∈ pieces, piece.isSeparator = false)
    (hb : (copied o pieces).all isBlank = false) :
    ∃ line, split o text = .ok [.finish o (String.ofList (copied o pieces)) .once line] := by
  obtain ⟨hnone, htext⟩ := deliver_of_text (o := o) {} {} hp
  have hbody : (deliver o {} {} pieces).1.text = String.ofList (copied o pieces) := by
    rw [htext]
    exact String.empty_append
  refine ⟨(deliver o {} {} pieces).1.line.getD 1, ?_⟩
  rw [split_of_passage h .finished]
  refine congrArg Except.ok ?_
  rw [delivery, hnone, Draft.finish?, hbody, allBlank, String.toList_ofList, hb]
  rfl

/-- **Splitting again without comments.** Where comments are dropped, a batch of a script is one
batch when its text is split again, with the same text, to be run once, unless a comment of its
segment parted two characters that fuse. -/
theorem split_text_of_unfused {o : Options} {script : String} {batches : List Batch}
    (hs : o.separator = ({} : Options).separator)
    (hl : o.lookalikes = ({} : Options).lookalikes) (hr : o.repetition = .delegate)
    (hk : o.keepComments = false) (h : split o script = .ok batches) :
    batches = (segments o script).filterMap (Segment.batch? o) ∧
      ∀ s ∈ segments o script, s.unfused o = true → ∀ b ∈ s.batch? o,
        ∃ b', split o b.text = .ok [b'] ∧ b'.text = b.text ∧ b'.repeatCount = .once ∧
          b'.wrapped = false := by
  have hg : SeparatesByGo o := ⟨hs, hl⟩
  obtain ⟨pieces, w, hpassage, hcourse, hbatches⟩ := passage_of_split h
  refine ⟨hbatches, fun s hmem hu b hb => ?_⟩
  have hstripped : Segment.Stripped o s := stripped_of_mem_segments hcourse hmem
  rw [segments, hcourse] at hmem
  have hnone : ∀ piece ∈ ([] : List Piece), piece.isSeparator = false := by simp
  obtain ⟨before, stretch, after, q, hstretch, hvisits⟩ :=
    Segment.exists_stretch (p := {}) hnone hmem
  obtain ⟨text, w', behind, hread, hend⟩ := hstretch.exists_passage hpassage
  have halone := hread.alone hg hstretch.isSeparator_eq hend
  rw [Segment.unfused, hvisits] at hu
  have hbared := Bared.of_passage hk halone rfl hstretch.isSeparator_eq hu
  -- The batch holds what is left of the stretch.
  have hdraft : (s.draft o.keepComments).text = String.ofList (copied o stretch) := by
    rw [hk, ← String.toList_inj, hstripped.dropped_text, Segment.uncommented, hvisits,
      String.toList_ofList]
    exact Visit.uncommented_ofPieces hk q hstretch.isSeparator_eq
  obtain ⟨hsolid, htext⟩ :
      (copied o stretch).all isBlank = false ∧ b.text = String.ofList (copied o stretch) := by
    rw [Option.mem_def, Segment.batch?, Draft.finish?, hdraft, allBlank, String.toList_ofList] at hb
    split at hb
    · cases hb
    · rename_i hsolid
      rw [← Option.some.inj hb, Batch.text_finish_of_delegate hr]
      exact ⟨by simpa using hsolid, rfl⟩
  obtain ⟨pieces', w'', hagain, hpieces', hall⟩ := (Bare.of_bared hg hbared id).exists_passage
  rw [← String.toList_ofList (l := copied o stretch), ← htext] at hagain
  obtain ⟨line, hsplit⟩ := split_of_text hagain hpieces' (by rwa [hall])
  rw [hall, ← htext] at hsplit
  exact ⟨_, hsplit, Batch.text_finish_of_delegate hr _ _ _, by simp, by simp [Batch.finish]⟩

/-- Two string literals with a comment between them become one, which is still one batch. -/
theorem split_text_of_joined_literals :
    ∃ b b', split { repetition := .delegate } "'a'/**/'b'--c\ngo 2" = .ok [b] ∧
      b.text = "'a''b'\n" ∧ split { repetition := .delegate } b.text = .ok [b'] ∧
      b'.text = b.text ∧ b'.repeatCount = .once ∧ b'.wrapped = false := by
  have hpieces : pieces? { repetition := .delegate } 7 false "'a'/**/'b'--c\ngo 2".toList =
      some
        [.quoted "'a'".toList, .comment "/**/".toList, .quoted "'b'".toList, .comment "--c".toList,
          .ordinary '\n', .separator ⟨2, by decide, by decide⟩ "go 2".toList] := by
    decide +kernel
  have h : split { repetition := .delegate } "'a'/**/'b'--c\ngo 2" =
      .ok [⟨"'a''b'\n", ⟨2, by decide, by decide⟩, 1, false⟩] := by
    rw [split_of_pieces? hpieces]
    exact congrArg Except.ok (by decide +kernel)
  obtain ⟨w, hpassage⟩ := passage_of_pieces? hpieces
  obtain ⟨s, more, hsegments, hunfused, hbatch⟩ :
      ∃ s more, segments { repetition := .delegate } "'a'/**/'b'--c\ngo 2" = s :: more ∧
        s.unfused { repetition := .delegate } = true ∧
        s.batch? { repetition := .delegate } =
          some ⟨"'a''b'\n", ⟨2, by decide, by decide⟩, 1, false⟩ := by
    rw [segments, (split_of_halt hpassage .finished).1]
    exact ⟨_, _, rfl, by decide +kernel, by decide +kernel⟩
  have hmem : s ∈ segments { repetition := .delegate } "'a'/**/'b'--c\ngo 2" := by
    rw [hsegments]
    exact List.mem_cons_self
  have hagain := (split_text_of_unfused (o := { repetition := .delegate }) rfl rfl rfl rfl h).2
  obtain ⟨b', hagain⟩ := hagain s hmem hunfused _ hbatch
  exact ⟨_, b', h, rfl, hagain⟩

/-- The comments whose deletion makes something new: a line comment, which leaves nothing; a block
comment that is not closed; the keyword; and a count. -/
theorem split_text_of_fused :
    (split { repetition := .delegate } "-/**/-" = .ok [⟨"--", .once, 1, false⟩] ∧
        split { repetition := .delegate } "--" = .ok []) ∧
      (split { repetition := .delegate } "//**/*" = .ok [⟨"/*", .once, 1, false⟩] ∧
        split { repetition := .delegate } "/*" = .error (.malformed ⟨.blockComment, 1, 1⟩)) ∧
      (split { repetition := .delegate } "g/**/o" = .ok [⟨"go", .once, 1, false⟩] ∧
        split { repetition := .delegate } "go" = .ok []) ∧
      split { repetition := .delegate } "go 0/**/1" = .ok [⟨"go 01", .once, 1, false⟩] ∧
        split { repetition := .delegate } "go 01" = .ok [] := by
  have hsplit (script : String) (pieces : List Piece) (batches : List Batch)
      (hpieces : pieces? { repetition := .delegate } 9 false script.toList = some pieces)
      (hbatches : delivery { repetition := .delegate } {} {} pieces = batches) :
      split { repetition := .delegate } script = .ok batches := by
    obtain ⟨w, hpassage⟩ := passage_of_pieces? hpieces
    rw [split_of_passage hpassage .finished, hbatches]
  refine ⟨⟨?_, ?_⟩, ⟨?_, ?_⟩, ⟨?_, ?_⟩, ?_, ?_⟩
  · exact hsplit "-/**/-" [.ordinary '-', .comment "/**/".toList, .ordinary '-'] _
      (by decide +kernel) (by decide +kernel)
  · exact hsplit "--" [.comment "--".toList] _ (by decide +kernel) (by decide +kernel)
  · exact hsplit "//**/*" [.ordinary '/', .comment "/**/".toList, .ordinary '*'] _
      (by decide +kernel) (by decide +kernel)
  · have hfault : Outlook.Shows { repetition := .delegate } false "/*".toList
        (.fault { construct := .blockComment, before := 0 }) :=
      Outlook.ofText_eq_iff.1 (by decide +kernel)
    exact split_of_passage (.stay false _) (.fault hfault)
  · exact hsplit "g/**/o" [.ordinary 'g', .comment "/**/".toList, .ordinary 'o'] _
      (by decide +kernel) (by decide +kernel)
  · exact hsplit "go" [.separator .once "go".toList] _ (by decide +kernel) (by decide +kernel)
  · exact hsplit "go 0/**/1"
      [.ordinary 'g', .ordinary 'o', .ordinary ' ', .ordinary '0', .comment "/**/".toList,
        .ordinary '1'] _ (by decide +kernel) (by decide +kernel)
  · exact hsplit "go 01" [.separator .once "go 01".toList] _ (by decide +kernel)
      (by decide +kernel)

end BatchScript
