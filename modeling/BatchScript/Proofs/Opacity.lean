import BatchScript.Proofs.Delivery
import BatchScript.Proofs.Ending

/-!
# Quoted text is opaque

What stands in quoted text is copied and nothing else. A content is quoted by doubling the closing
delimiter wherever it stands in it; whatever the content is, the quoted text is then one piece, and
what is before it and behind it is read as it would be with any other content there.

## Main results

* `Quoted.body?_escape` — a content that is quoted ends at the delimiter behind it.
* `exists_passage_quote` — a script with quoted text in it is read the same for all contents.
* `split_quote` — two contents make the same batches but for the content itself.
-/

namespace BatchScript

/-! ### Quoting -/

namespace Quoted

/-- A content with every closing delimiter in it doubled. -/
def escape (close : Char) (content : List Char) : List Char :=
  content.flatMap fun c => if c = close then [c, c] else [c]

variable {close : Char}

theorem bodyFrom_escape (passed : Nat) (content : List Char) {behind : List Char}
    (hb : behind.head? ≠ some close) :
    bodyFrom close passed (escape close content ++ close :: behind) =
      some (passed + (escape close content).length + 1) := by
  induction content generalizing passed with
  | nil =>
      rcases behind with _ | ⟨d, behind⟩
      · simp [escape, bodyFrom]
      · have hd : d ≠ close := by simpa using hb
        simp [escape, bodyFrom, hd]
  | cons c content ih =>
      by_cases hc : c = close
      · subst hc
        have hescape : escape c (c :: content) = c :: c :: escape c content := by simp [escape]
        rw [hescape, List.cons_append, List.cons_append, bodyFrom, if_pos rfl, if_pos rfl, ih]
        simp only [List.length_cons, Option.some.injEq]
        omega
      · have hescape : escape close (c :: content) = c :: escape close content := by
          simp [escape, hc]
        obtain ⟨d, more, hmore⟩ : ∃ d more, escape close content ++ close :: behind = d :: more :=
          List.exists_cons_of_ne_nil (by simp)
        have ih := ih (passed + 1)
        rw [hmore] at ih
        rw [hescape, List.cons_append, hmore, bodyFrom, if_neg hc, ih]
        simp only [List.length_cons, Option.some.injEq]
        omega

/-- A content that is quoted ends at the delimiter behind it. -/
theorem body?_escape (content : List Char) {behind : List Char}
    (hb : behind.head? ≠ some close) :
    body? close (escape close content ++ close :: behind) =
      some ((escape close content).length + 1) := by
  rw [body?, bodyFrom_escape 0 content hb, Nat.zero_add]

/-- Doubling delimiters adds no other character. -/
theorem count_escape {c : Char} (hc : c ≠ close) (content : List Char) :
    (escape close content).count c = content.count c := by
  induction content with
  | nil => rfl
  | cons d content ih =>
      rw [escape, List.flatMap_cons, List.count_append, ← escape, ih, List.count_cons]
      split
      · rename_i hd
        subst hd
        simp [hc.symm]
      · rw [List.count_singleton, Nat.add_comm]

end Quoted

namespace Quotation

/-- A content in quotes. -/
def quote (q : Quotation) (content : String) : String :=
  String.ofList (q.opener :: (Quoted.escape q.close content.toList ++ [q.close]))

variable {o : Options} {q : Quotation}

theorem count_quote (hq : ofOpener? o q.opener = some q) (content : String) :
    (q.quote content).toList.count '\n' = content.toList.count '\n' := by
  have hne : q.opener ≠ '\n' ∧ '\n' ≠ q.close := by
    rcases kinds_of_ofOpener? hq with ⟨-, rfl⟩ | ⟨-, -, rfl⟩ | ⟨-, -, rfl⟩ <;> decide
  have hclose : [q.close].count '\n' = 0 := List.count_eq_zero.2 (by simpa using hne.2)
  rw [quote, String.toList_ofList, List.count_cons_of_ne hne.1, List.count_append,
    Quoted.count_escape hne.2, hclose, Nat.add_zero]

/-- A content in quotes is not blank: its delimiters are not. -/
theorem allBlank_quote (hq : ofOpener? o q.opener = some q) (content : String) :
    allBlank (q.quote content) = false := by
  have hopener : isBlank q.opener = false := by
    rcases kinds_of_ofOpener? hq with ⟨ho, -⟩ | ⟨ho, -⟩ | ⟨ho, -⟩ <;> rw [ho] <;> decide
  rw [allBlank, quote, String.toList_ofList, List.all_cons, hopener, Bool.false_and]

/-- A content in quotes is one piece. -/
theorem shows_quote (hq : ofOpener? o q.opener = some q) (w : Bool) (content : String)
    {behind : List Char} (hb : behind.head? ≠ some q.close) :
    Outlook.Shows o w ((q.quote content).toList ++ behind)
      (.piece (.quoted (q.quote content).toList) behind) := by
  have hbody := Quoted.body?_escape content.toList hb
  have hshows : Outlook.Shows o w _ _ := .quoted (.quoted hq hbody)
  have hcut : q.opener :: (Quoted.escape q.close content.toList ++ q.close :: behind) =
      (q.quote content).toList ++ behind := by
    simp [quote]
  have hlength : (Quoted.escape q.close content.toList).length + 1 + 1 =
      (q.quote content).toList.length := by
    simp [quote]
  rwa [hcut, hlength, List.take_left, List.drop_left] at hshows

end Quotation

/-! ### Scripts with quoted text in them -/

/-- A script with quoted text in it is read the same for all contents: the pieces before it and
behind it do not depend on the content, nor does where reading stops. -/
theorem exists_passage_quote {o : Options} {q : Quotation} {text behind : String}
    {batches : List Batch} (ho : HasWordKeywords o) (hq : Quotation.ofOpener? o q.opener = some q)
    (h : split o text = .ok batches) (hline : endsInLineComment o text.toList = false)
    (hlast : text.toList.getLast? ≠ some q.close) (hb : behind.toList.head? ≠ some q.close) :
    ∃ pieces more w rest fault, Halt o w rest fault ∧
      ∀ content, Passage o false (text ++ q.quote content ++ behind).toList
        (pieces ++ .quoted (q.quote content).toList :: more) w rest := by
  obtain ⟨pieces, w, hp, -⟩ := exists_passage_of_split h
  obtain ⟨more, w', rest, fault, hmore, hhalt⟩ := exists_passage o false behind.toList
  refine ⟨pieces, more, w', rest, fault, hhalt, fun content => ?_⟩
  rw [String.toList_append, String.toList_append, List.append_assoc]
  have hends : Ends o text.toList ((q.quote content).toList ++ behind.toList) := by
    rw [Quotation.quote, String.toList_ofList, List.cons_append]
    exact .opener hq hline (fun hclose => hclose ▸ hlast) _
  exact (hp.append_behind ho hends).append (.step (Quotation.shows_quote hq w content hb) hmore)

/-- Quoted text is copied into one batch, which knows its line without it. The content moves the
batches behind that one down by its lines, and does nothing else. -/
theorem delivery_quote {o : Options} {q : Quotation} (hq : Quotation.ofOpener? o q.opener = some q)
    (hr : o.repetition = .delegate) (pieces more : List Piece) :
    ∃ (before : List Batch) (front back : String) (count : RepeatCount) (line lines : Nat)
      (after : List Batch), ∀ content,
      delivery o {} {} (pieces ++ .quoted (q.quote content).toList :: more) =
        before ++
          { text := front ++ q.quote content ++ back, repeatCount := count, line,
            wrapped := false } ::
            after.map (Batch.shift (lines + content.toList.count '\n')) := by
  obtain ⟨added, count, passed, behind, hopen⟩ := delivery_of_open o more
  obtain ⟨p, hp⟩ : ∃ p, p = ({} : Position).after (sources pieces) := ⟨_, rfl⟩
  obtain ⟨d, hd⟩ : ∃ d, d = (deliver o {} {} pieces).1 := ⟨_, rfl⟩
  refine ⟨(deliver o {} {} pieces).2, d.text, added, count, d.line.getD p.line,
    (sources pieces ++ passed).count '\n', delivery o {} {} behind, fun content => ?_⟩
  obtain ⟨d', hd'⟩ : ∃ d', d' = d.add p.line (q.quote content) := ⟨_, rfl⟩
  have hsolid := Quotation.allBlank_quote hq content
  have htext : d'.text = d.text ++ q.quote content := by rw [hd', Draft.text_add]
  have hline : d'.line = some (d.line.getD p.line) := by
    rw [hd', Draft.add, hsolid]
    cases d.line <;> rfl
  have hblank : allBlank d'.text = false := by rw [htext, allBlank_append, hsolid, Bool.and_false]
  have hcopied : (Piece.quoted (q.quote content).toList).region.copied o.keepComments =
      q.quote content := by
    rw [Piece.region, Region.copied, String.ofList_toList]
  have hlines : ((p.after (q.quote content).toList).after passed).line - 1 =
      (sources pieces ++ passed).count '\n' + content.toList.count '\n' := by
    rw [Position.line_after, Position.line_after, Quotation.count_quote hq, hp,
      Position.line_after, List.count_append]
    have hstart : ({} : Position).line = 1 := rfl
    omega
  have hreached : 1 ≤ ((p.after (q.quote content).toList).after passed).line ∧
      1 ≤ ((p.after (q.quote content).toList).after passed).column := by
    rw [hp, ← Position.after_append, ← Position.after_append]
    exact Position.one_le_after _
  rw [delivery_append, delivery_text rfl, ← hp, ← hd, hcopied, ← hd', Piece.source,
    hopen d' _ _ hblank hline, delivery_shift hreached, hlines, htext, Batch.finish]
  simp [hr]

/-- **Opacity.** Where the keywords are words and repetition is delegated, two scripts that differ
in the content of quoted text only fail alike, or make the same batches but for one: there the
content is copied between the same texts, and the line is the same. The batches behind it stand on
the same lines if the contents have equally many. -/
theorem split_quote {o : Options} {q : Quotation} {text behind : String} {batches : List Batch}
    (ho : HasWordKeywords o) (hr : o.repetition = .delegate)
    (hq : Quotation.ofOpener? o q.opener = some q) (h : split o text = .ok batches)
    (hline : endsInLineComment o text.toList = false)
    (hlast : text.toList.getLast? ≠ some q.close) (hb : behind.toList.head? ≠ some q.close)
    (content content' : String) :
    (∃ e e', split o (text ++ q.quote content ++ behind) = .error (.malformed e) ∧
        split o (text ++ q.quote content' ++ behind) = .error (.malformed e') ∧
        e.construct = e'.construct) ∨
      ∃ before b b' after after' front back,
        split o (text ++ q.quote content ++ behind) = .ok (before ++ b :: after) ∧
          split o (text ++ q.quote content' ++ behind) = .ok (before ++ b' :: after') ∧
          b.text = front ++ q.quote content ++ back ∧
          b'.text = front ++ q.quote content' ++ back ∧
          b.repeatCount = b'.repeatCount ∧ b.line = b'.line ∧
          after.map (fun b => (b.text, b.repeatCount)) =
            after'.map (fun b => (b.text, b.repeatCount)) ∧
          (content.toList.count '\n' = content'.toList.count '\n' → after = after') := by
  obtain ⟨pieces, more, w, rest, fault, hhalt, hp⟩ :=
    exists_passage_quote ho hq h hline hlast hb
  have hsplit := split_of_passage (hp content) hhalt
  have hsplit' := split_of_passage (hp content') hhalt
  cases hhalt with
  | fault shows => exact .inl ⟨_, _, hsplit, hsplit', rfl⟩
  | finished =>
      obtain ⟨before, front, back, count, line, lines, after, hdelivery⟩ :=
        delivery_quote hq hr pieces more
      rw [hdelivery] at hsplit hsplit'
      refine .inr ⟨before, _, _, _, _, front, back, hsplit, hsplit', rfl, rfl, rfl, rfl, ?_, ?_⟩
      · simp only [List.map_map]
        rfl
      · intro hcount
        rw [hcount]

/-- A separator on a line of its own in brackets, or a closing bracket and the opener of a comment
in its place. -/
theorem split_quote_of_brackets :
    ∃ before b b' after front back,
      split { bracketedIdentifiers := true, repetition := .delegate } "x [\ngo\n] y\ngo 2\nz" =
          .ok (before ++ b :: after) ∧
        split { bracketedIdentifiers := true, repetition := .delegate }
            "x []]/*\n\n] y\ngo 2\nz" = .ok (before ++ b' :: after) ∧
        b.text = front ++ "[\ngo\n]" ++ back ∧ b'.text = front ++ "[]]/*\n\n]" ++ back ∧
        b.repeatCount = b'.repeatCount ∧ b.line = b'.line := by
  have hpieces : pieces? { bracketedIdentifiers := true, repetition := .delegate } 10 false
      "x [\ngo\n] y\ngo 2\nz".toList =
        some
          [.ordinary 'x', .ordinary ' ', .quoted "[\ngo\n]".toList, .blanks [' '], .ordinary 'y',
            .ordinary '\n', .separator ⟨2, by decide, by decide⟩ "go 2".toList, .ordinary '\n',
            .ordinary 'z'] := by
    decide +kernel
  have hfront : pieces? { bracketedIdentifiers := true, repetition := .delegate } 3 false
      "x ".toList = some [.ordinary 'x', .ordinary ' '] := by
    decide +kernel
  have ho : HasWordKeywords { bracketedIdentifiers := true, repetition := .delegate } :=
    SeparatesByGo.hasWordKeywords ⟨rfl, rfl⟩
  have hquote : Quotation.quote ⟨'[', ']', .bracketedIdentifier⟩ "\ngo\n" = "[\ngo\n]" := by
    decide +kernel
  have hquote' : Quotation.quote ⟨'[', ']', .bracketedIdentifier⟩ "]/*\n\n" = "[]]/*\n\n]" := by
    decide +kernel
  have h := @split_quote _ ⟨'[', ']', .bracketedIdentifier⟩ _ " y\ngo 2\nz" _ ho rfl rfl
    (split_of_pieces? hfront) (by decide +kernel) (by decide) (by decide) "\ngo\n" "]/*\n\n"
  rw [hquote, hquote'] at h
  rcases h with ⟨e, e', herror, -, -⟩ | ⟨before, b, b', after, after', front, back, hsplit, hsplit',
    htext, htext', hcount, hline, -, hlines⟩
  · exact absurd ((split_of_pieces? hpieces).symm.trans herror) (by simp)
  · obtain rfl := hlines (by decide)
    exact ⟨before, b, b', after, front, back, hsplit, hsplit', htext, htext', hcount, hline⟩

end BatchScript
