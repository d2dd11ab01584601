import BatchScript.Proofs.Opacity

/-!
# Delimiters written twice

What quoted text is, said without a reader: a content with every closing delimiter in it doubled,
between the opener and one more closing delimiter, behind which no other stands. The reader pairs
delimiters from the left as it meets them. Here it is shown to find exactly the texts of this form,
however long the runs of delimiters in them are, and whether or not the opener is one of them.

## Main results

* `Quoted.escape_injective` — what was doubled can be told from the result.
* `Quoted.body?_iff_escape` — an end is found exactly behind a content written in this way.
* `Quotation.Quotes.unique` — a text begins with one quoted content at most.
* `Scan.quoted_iff_quotes` — the scan at an opener passes over the quoted content there, and
  otherwise fails at the opener.
-/

namespace BatchScript

/-! ### What a reader passes over -/

namespace Quoted

variable {close : Char} {text : List Char} {passed n : Nat}

theorem escape_cons (close c : Char) (content : List Char) :
    escape close (c :: content) =
      (if c = close then [c, c] else [c]) ++ escape close content := rfl

theorem escape_cons_self (close : Char) (content : List Char) :
    escape close (close :: content) = close :: close :: escape close content := by
  rw [escape_cons, if_pos rfl]
  rfl

theorem escape_cons_of_ne {c : Char} (h : c ≠ close) (content : List Char) :
    escape close (c :: content) = c :: escape close content := by
  rw [escape_cons, if_neg h]
  rfl

/-- What was doubled can be told from the result. -/
theorem escape_injective (close : Char) : Function.Injective (escape close) := by
  intro one
  induction one with
  | nil =>
      intro other h
      cases other with
      | nil => rfl
      | cons d other =>
          have hempty : (escape close (d :: other)).length = 0 := by rw [← h]; rfl
          rw [escape_cons, List.length_append] at hempty
          split at hempty <;> simp at hempty
  | cons c one ih =>
      intro other h
      cases other with
      | nil =>
          have hempty : (escape close (c :: one)).length = 0 := by rw [h]; rfl
          rw [escape_cons, List.length_append] at hempty
          split at hempty <;> simp at hempty
      | cons d other =>
          have hhead : c = d := by
            have hfirst := congrArg List.head? h
            rw [escape_cons, escape_cons, List.head?_append, List.head?_append] at hfirst
            split at hfirst <;> split at hfirst <;> simpa using hfirst
          subst hhead
          rw [escape_cons, escape_cons] at h
          rw [ih (List.append_cancel_left h)]

/-- In front of the end that a reader finds stands a content with its delimiters doubled, and no
delimiter stands behind it. -/
theorem exists_escape_of_bodyFrom (h : bodyFrom close passed text = some n) :
    ∃ content rest, text = escape close content ++ close :: rest ∧ rest.head? ≠ some close ∧
      n = passed + (escape close content).length + 1 := by
  fun_induction bodyFrom close passed text with
  | case1 => cases h
  | case2 passed =>
      cases h
      exact ⟨[], [], rfl, by simp, rfl⟩
  | case3 => cases h
  | case4 passed rest ih =>
      obtain ⟨content, behind, rfl, hbehind, hn⟩ := ih h
      refine ⟨close :: content, behind, ?_, hbehind, ?_⟩
      · rw [escape_cons_self]
        rfl
      · rw [hn, escape_cons_self, List.length_cons, List.length_cons]
        omega
  | case5 passed d rest hd =>
      cases h
      exact ⟨[], d :: rest, rfl, by simpa using hd, rfl⟩
  | case6 passed c d rest hc ih =>
      obtain ⟨content, behind, htext, hbehind, hn⟩ := ih h
      refine ⟨c :: content, behind, ?_, hbehind, ?_⟩
      · rw [escape_cons_of_ne hc, htext]
        rfl
      · rw [hn, escape_cons_of_ne hc, List.length_cons]
        omega

/-- An end is found exactly behind a content with its delimiters doubled, at a delimiter behind
which no other stands. -/
theorem body?_iff_escape :
    body? close text = some n ↔
      ∃ content rest, text = escape close content ++ close :: rest ∧ rest.head? ≠ some close ∧
        n = (escape close content).length + 1 := by
  constructor
  · intro h
    obtain ⟨content, rest, htext, hrest, hn⟩ := exists_escape_of_bodyFrom h
    exact ⟨content, rest, htext, hrest, by rw [hn, Nat.zero_add]⟩
  · rintro ⟨content, rest, rfl, hrest, rfl⟩
    exact body?_escape content hrest

end Quoted

/-! ### Quoted contents -/

namespace Quotation

/-- A text that begins with a content in quotes and goes on with a rest. The closing delimiter is
not doubled: the rest does not begin with another. -/
structure Quotes (q : Quotation) (text : List Char) (content : String) (rest : List Char) :
    Prop where
  text_eq : text = (q.quote content).toList ++ rest
  closed : rest.head? ≠ some q.close

variable {q : Quotation} {text rest rest' : List Char} {content content' : String} {n : Nat}

theorem length_quote (q : Quotation) (content : String) :
    (q.quote content).toList.length = (Quoted.escape q.close content.toList).length + 2 := by
  rw [quote, String.toList_ofList, List.length_cons, List.length_append, List.length_singleton]

/-- A text behind an opener holds the end of quoted text exactly if a quoted content begins with the
opener. -/
theorem body?_eq_some_iff_quotes :
    Quoted.body? q.close text = some n ↔
      ∃ content rest, q.Quotes (q.opener :: text) content rest ∧
        n + 1 = (q.quote content).toList.length := by
  rw [Quoted.body?_iff_escape]
  constructor
  · rintro ⟨content, rest, rfl, hrest, rfl⟩
    refine ⟨String.ofList content, rest, ⟨?_, hrest⟩, ?_⟩
    · simp [quote]
    · rw [length_quote, String.toList_ofList]
  · rintro ⟨content, rest, ⟨htext, hrest⟩, hn⟩
    rw [length_quote] at hn
    refine ⟨content.toList, rest, ?_, hrest, by omega⟩
    simpa [quote] using htext

/-- A text begins with one quoted content at most. -/
theorem Quotes.unique (h : q.Quotes text content rest) (h' : q.Quotes text content' rest') :
    content = content' ∧ rest = rest' := by
  -- The reader finds one end, so the two are as long as each other.
  have hlength : (q.quote content).toList.length = (q.quote content').toList.length := by
    have hbody := Quoted.body?_escape content.toList h.closed
    have hbody' := Quoted.body?_escape content'.toList h'.closed
    have htext : Quoted.escape q.close content.toList ++ q.close :: rest =
        Quoted.escape q.close content'.toList ++ q.close :: rest' := by
      have heq := h.text_eq.symm.trans h'.text_eq
      simpa [quote] using heq
    rw [htext, hbody'] at hbody
    have hends := Option.some.inj hbody
    rw [length_quote, length_quote]
    omega
  obtain ⟨hquote, hrest⟩ := List.append_inj (h.text_eq.symm.trans h'.text_eq) hlength
  refine ⟨?_, hrest⟩
  have hescape : Quoted.escape q.close content.toList =
      Quoted.escape q.close content'.toList := by
    simpa [quote] using hquote
  exact String.toList_inj.1 (Quoted.escape_injective q.close hescape)

end Quotation

/-! ### Quoted text at the cursor -/

namespace Scan

variable {q : Quotation} {r r' : Reading}

/-- Where an opener stands, the text ahead is the opener and the rest. -/
theorem ahead_of_opener (h : r.cursor.peek = some q.opener) :
    q.opener :: r.cursor.ahead.tail = r.cursor.ahead := by
  obtain ⟨tail, htail⟩ := List.head?_eq_some_iff.1 h
  rw [htail, List.tail_cons]

/-- Quoted text is passed over exactly where a quoted content stands. -/
theorem quoted_eq_ok_iff (h : r.cursor.peek = some q.opener) :
    quoted q r = .ok () r' ↔
      ∃ content rest, q.Quotes r.cursor.ahead content rest ∧
        r' = r.skip (q.quote content).toList.length := by
  have hfound : quoted q r = .ok () r' ↔
      ∃ n, Quoted.body? q.close r.cursor.ahead.tail = some n ∧ r' = r.skip (n + 1) := by
    rw [quoted_run h]
    cases Quoted.body? q.close r.cursor.ahead.tail with
    | none => simp
    | some n => simp [eq_comm]
  rw [hfound]
  constructor
  · rintro ⟨n, hn, hr⟩
    obtain ⟨content, rest, hquotes, hlength⟩ := Quotation.body?_eq_some_iff_quotes.1 hn
    rw [ahead_of_opener h] at hquotes
    exact ⟨content, rest, hquotes, hlength ▸ hr⟩
  · rintro ⟨content, rest, hquotes, hr⟩
    have hlength := q.length_quote content
    refine ⟨(q.quote content).toList.length - 1, ?_, ?_⟩
    · refine Quotation.body?_eq_some_iff_quotes.2 ⟨content, rest, ?_, by omega⟩
      rwa [ahead_of_opener h]
    · rw [hr]
      congr 1
      omega

/-- At an opener the scan fails exactly where no quoted content stands. -/
theorem quoted_error_iff (h : r.cursor.peek = some q.opener) :
    (∃ failure r', quoted q r = .error failure r') ↔
      ¬ ∃ content rest, q.Quotes r.cursor.ahead content rest := by
  constructor
  · rintro ⟨failure, r', herror⟩ ⟨content, rest, hquotes⟩
    have hok := (quoted_eq_ok_iff h).2 ⟨content, rest, hquotes, rfl⟩
    rw [hok] at herror
    cases herror
  · intro hnone
    cases hrun : quoted q r with
    | error failure r' => exact ⟨failure, r', rfl⟩
    | ok u r' =>
        obtain ⟨content, rest, hquotes, -⟩ := (quoted_eq_ok_iff h).1 hrun
        exact absurd ⟨content, rest, hquotes⟩ hnone

/-- The failure names the opener, and stands at the end of the script. -/
theorem quoted_error (h : r.cursor.peek = some q.opener) {failure : Failure}
    (herror : quoted q r = .error failure r') :
    r'.cursor = r.cursor.skip r.cursor.ahead.length ∧
      failure =
        .malformed
          { construct := q.construct, line := r.cursor.position.line,
            column := r.cursor.position.column } := by
  rw [quoted_run h] at herror
  split at herror
  · cases herror
  · cases herror
    exact ⟨rfl, rfl⟩

/-- **Quoted text is the image of doubling.** At an opener, and for any two delimiters: a content
written with its closing delimiters doubled, between the delimiters and in front of anything but one
more closing delimiter, is passed over, up to what follows it. Whatever is passed over is one such
content, and only one. Where none stands, the scan reads to the end of the script and fails with the
kind of failure it was given, at the line and column of the opener. -/
theorem quoted_iff_quotes (h : r.cursor.peek = some q.opener) :
    (∀ content rest, q.Quotes r.cursor.ahead content rest →
      ∃ r', quoted q r = .ok () r' ∧ r' = r.skip (q.quote content).toList.length ∧
        r'.cursor.ahead = rest) ∧
    (∀ r', quoted q r = .ok () r' →
      ∃! content, ∃ rest, q.Quotes r.cursor.ahead content rest ∧
        r' = r.skip (q.quote content).toList.length) ∧
    ((∃ failure r', quoted q r = .error failure r') ↔
      ¬ ∃ content rest, q.Quotes r.cursor.ahead content rest) ∧
    ∀ failure r', quoted q r = .error failure r' →
      r'.cursor = r.cursor.skip r.cursor.ahead.length ∧ r'.cursor.ahead = [] ∧
      failure =
        .malformed
          { construct := q.construct, line := r.cursor.position.line,
            column := r.cursor.position.column } := by
  refine ⟨fun content rest hquotes => ?_, fun r' hok => ?_, quoted_error_iff h,
    fun failure r' herror => ?_⟩
  · refine ⟨_, (quoted_eq_ok_iff h).2 ⟨content, rest, hquotes, rfl⟩, rfl, ?_⟩
    rw [Reading.ahead_skip, hquotes.text_eq, List.drop_left]
  · obtain ⟨content, rest, hquotes, hr⟩ := (quoted_eq_ok_iff h).1 hok
    refine ⟨content, ⟨rest, hquotes, hr⟩, ?_⟩
    rintro other ⟨rest', hquotes', -⟩
    exact (hquotes'.unique hquotes).1
  · obtain ⟨hcursor, hfailure⟩ := quoted_error h herror
    exact ⟨hcursor, by rw [hcursor, Cursor.ahead_skip, List.drop_length], hfailure⟩

/-- Runs of three, four and one delimiters, the first of them with the opener in it. They are paired
from the left, and the last one closes. -/
theorem quotes_of_delimiter_runs :
    (Reading.ofString "'''a''''b' x").cursor.peek = some '\'' ∧
      ∃ r', quoted ⟨'\'', '\'', .stringLiteral⟩ (Reading.ofString "'''a''''b' x") = .ok () r' ∧
        r'.cursor.ahead = " x".toList ∧
        ∃! content, ∃ rest,
          Quotation.Quotes ⟨'\'', '\'', .stringLiteral⟩ "'''a''''b' x".toList content rest ∧
            r' = (Reading.ofString "'''a''''b' x").skip
              (Quotation.quote ⟨'\'', '\'', .stringLiteral⟩ content).toList.length := by
  have hpeek : (Reading.ofString "'''a''''b' x").cursor.peek = some '\'' := by decide +kernel
  have hquotes : Quotation.Quotes ⟨'\'', '\'', .stringLiteral⟩ "'''a''''b' x".toList "'a''b"
      " x".toList := by
    refine ⟨?_, by decide⟩
    rw [Quotation.quote, String.toList_ofList]
    decide +kernel
  obtain ⟨hfound, hunique, -, -⟩ :=
    @quoted_iff_quotes ⟨'\'', '\'', .stringLiteral⟩ (Reading.ofString "'''a''''b' x") hpeek
  obtain ⟨r', hok, -, hahead⟩ := hfound "'a''b" " x".toList hquotes
  exact ⟨hpeek, r', hok, hahead, hunique r' hok⟩

/-- A closing delimiter that is doubled at the end of a script closes nothing. -/
example : Quoted.body? '\'' "abc''".toList = none := by decide

end Scan

end BatchScript
