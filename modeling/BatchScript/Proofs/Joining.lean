import BatchScript.Proofs.Delivery
import BatchScript.Proofs.Ending
import BatchScript.Proofs.Unbroken

/-!
# Joining batches into a script

Texts that are batches by themselves can be joined into one script, each with a separator statement
of its own behind it, and the script is split into them again with the counts of the statements.
What a text is read as by itself it is read as before the line feed of the statement behind it.

## Main results

* `copied_eq_of_split` — a text that is split into itself is copied piece by piece.
* `Verdict.ofText_go` — a statement on a line of its own has the count that is written in it.
* `split_joined` — a script joined from batches is split into them.
-/

namespace BatchScript

/-! ### Texts that are batches by themselves -/

/-- Pieces add no more to a text than they cover. -/
theorem length_copied_le (o : Options) (pieces : List Piece) :
    (copied o pieces).length ≤ (sources pieces).length := by
  induction pieces with
  | nil => exact Nat.le_refl 0
  | cons piece pieces ih =>
      rw [copied_cons, sources_cons, List.length_append, List.length_append]
      rcases piece.copied_eq_or o with h | h
      · rw [h]
        omega
      · rw [h, List.length_nil]
        omega

/-- Where pieces add all that they cover, each of them does. -/
theorem copied_eq_source_of_length {o : Options} {pieces : List Piece}
    (h : (copied o pieces).length = (sources pieces).length) :
    ∀ piece ∈ pieces, piece.copied o = piece.source := by
  induction pieces with
  | nil => simp
  | cons piece pieces ih =>
      have hrest := length_copied_le o pieces
      rw [copied_cons, sources_cons, List.length_append, List.length_append] at h
      rcases piece.copied_eq_or o with heq | hnil
      · rw [heq] at h
        exact List.forall_mem_cons.2 ⟨heq, ih (by omega)⟩
      · have hsource : piece.source = [] := by
          rw [hnil, List.length_nil] at h
          exact List.length_eq_zero_iff.1 (by omega)
        rw [hnil, hsource] at h
        refine List.forall_mem_cons.2 ⟨by rw [hnil, hsource], ih (by simpa using h)⟩

/-- The pieces of a passage cover at least one character each. -/
theorem Passage.source_ne_nil {o : Options} {w w' : Bool} {text rest : List Char}
    {pieces : List Piece} (h : Passage o w text pieces w' rest) :
    ∀ piece ∈ pieces, piece.source ≠ [] := by
  induction h with
  | stay => simp
  | step shows _ ih => exact List.forall_mem_cons.2 ⟨Outlook.source_ne_nil shows, ih⟩

/-- Where repetition is delegated, no batch holds more than its pieces and the draft before them. -/
theorem length_text_le_of_mem_delivery {o : Options} (hr : o.repetition = .delegate) {d : Draft}
    {p : Position} {pieces : List Piece} {b : Batch} (h : b ∈ delivery o d p pieces) :
    b.text.toList.length ≤ d.text.toList.length + (copied o pieces).length := by
  have hfinish {d : Draft} {count : RepeatCount} {b : Batch}
      (h : b ∈ (d.finish? o count).toList) : b.text = d.text := by
    rw [Option.mem_toList, Draft.finish?] at h
    split at h
    · cases h
    · obtain rfl := Option.some.inj h
      exact Batch.text_finish_of_delegate hr _ _ _
  induction pieces generalizing d p with
  | nil =>
      rw [hfinish h]
      exact Nat.le_add_right _ _
  | cons piece pieces ih =>
      rw [copied_cons, List.length_append]
      cases hp : piece.isSeparator with
      | false =>
          rw [delivery_text hp] at h
          have hle := ih h
          rw [Draft.text_add, String.toList_append, List.length_append] at hle
          rw [Piece.copied]
          omega
      | true =>
          obtain ⟨count, statement, rfl⟩ := Piece.eq_separator hp
          rw [delivery_separator] at h
          rcases List.mem_append.1 h with h | h
          · rw [hfinish h]
            exact Nat.le_add_right _ _
          · have hle := ih h
            have hempty : ({} : Draft).text.toList.length = 0 := rfl
            omega

/-- A text that is split into itself is copied piece by piece, holds no statement, and is not
blank. -/
theorem copied_eq_of_split {o : Options} (hr : o.repetition = .delegate) {text : String} {b : Batch}
    (h : split o text = .ok [b]) (hb : b.text = text) :
    ∃ pieces w, Passage o false text.toList pieces w [] ∧ copied o pieces = text.toList ∧
      (∀ piece ∈ pieces, piece.isSeparator = false) ∧ allBlank text = false := by
  obtain ⟨pieces, w, hp, hdelivery⟩ := exists_passage_of_split h
  have hmem : b ∈ delivery o {} {} pieces := by rw [← hdelivery, List.mem_singleton]
  have hsources : text.toList = sources pieces := by rw [hp.text_eq, List.append_nil]
  have hlength := length_text_le_of_mem_delivery hr hmem
  have hempty : ({} : Draft).text.toList.length = 0 := rfl
  rw [hb, hsources, hempty, Nat.zero_add] at hlength
  have heach := copied_eq_source_of_length (Nat.le_antisymm (length_copied_le o pieces) hlength)
  have hcopied : copied o pieces = text.toList := by
    rw [hsources, copied, sources]
    exact List.flatMap_congr heach
  have hnone : ∀ piece ∈ pieces, piece.isSeparator = false := by
    intro piece hpiece
    rw [Bool.eq_false_iff]
    intro hseparator
    obtain ⟨count, statement, rfl⟩ := Piece.eq_separator hseparator
    exact hp.source_ne_nil _ hpiece (heach _ hpiece).symm
  refine ⟨pieces, w, hp, hcopied, hnone, ?_⟩
  obtain ⟨hbatches, htext⟩ := deliver_of_text (o := o) {} {} hnone
  rw [hcopied, String.ofList_toList, String.empty_append] at htext
  rw [delivery, hbatches, List.nil_append, Option.mem_toList, Draft.finish?, htext] at hmem
  cases hblank : allBlank text with
  | false => rfl
  | true => simp [hblank] at hmem

/-! ### Statements on lines of their own -/

/-- The decimal digits of a count are digits, and there is at least one. -/
theorem RepeatCount.isDigit_toDigits (count : RepeatCount) :
    ∀ c ∈ Nat.toDigits 10 count.val, c.isDigit = true :=
  fun _ hc => Nat.isDigit_of_mem_toDigits (by decide) (by decide) hc

/-- A statement of the usual keyword, with its count in decimal. -/
def goStatement (count : RepeatCount) : List Char :=
  'G' :: 'O' :: ' ' :: Nat.toDigits 10 count.val

/-- A statement has the count that is written in it. -/
theorem Verdict.ofText_goStatement {o : Options} (hg : SeparatesByGo o) (count : RepeatCount) :
    ofText o (goStatement count) = .found count (goStatement count).length := by
  have hkeyed : Keyed o [] ['G', 'O'] (' ' :: Nat.toDigits 10 count.val) := by
    refine ⟨by simp, by rintro c ⟨⟩; rfl, by rw [hg.separator]; decide,
      by rw [hg.separator]; rfl, fun l hl => ?_⟩
    rw [hg.lookalikes, List.mem_singleton] at hl
    rw [hl]
    rfl
  have hjoined : joined o (' ' :: Nat.toDigits 10 count.val) = false := by
    have hspace : continuesKeyword ' ' = false := by decide
    simp [joined, hspace]
  have hdigits : digits (Nat.toDigits 10 count.val) = Nat.toDigits 10 count.val :=
    List.takeWhile_eq_self_iff.2 count.isDigit_toDigits
  obtain ⟨hgap, hline⟩ : Gap.read (' ' :: Nat.toDigits 10 count.val) = .ok 1 ∧
      Comment.line? (Nat.toDigits 10 count.val) = none := by
    obtain ⟨c, more, hmore⟩ := List.exists_cons_of_ne_nil
      (List.ne_nil_of_length_pos (Nat.length_toDigits_pos (b := 10) (n := count.val)))
    have hc := count.isDigit_toDigits c (by simp [hmore])
    rw [hmore]
    exact Gap.read_of_isDigit (List.forall_mem_singleton.2 (rfl : isLinear ' ' = true)) hc more
  have htrail : trailing [] = .ok 0 :=
    trailing_eq_ok.2 ⟨0, Gap.read_eq_ok.2 ⟨Gap.length_nil.symm, rfl⟩, .inr ⟨rfl, rfl⟩⟩
  have htail : Tail _ (.found count _) := .count (n := 0) hgap hline
    (by rw [List.drop_one, List.tail_cons, hdigits, RepeatCount.ofDigits?_toDigits])
    (by rw [List.drop_one, List.tail_cons, hdigits, List.drop_length, htrail])
  have hverdict := ofText_of_keyed hkeyed
  rw [htail.eq_ofTail hjoined, List.drop_one, List.tail_cons, hdigits] at hverdict
  refine hverdict.trans ?_
  simp only [shift, goStatement, List.length_cons, List.length_nil, found.injEq, true_and]
  omega

/-- A statement by itself is read as one. -/
theorem passage_goStatement {o : Options} (hg : SeparatesByGo o) (count : RepeatCount) :
    Passage o false (goStatement count) [.separator count (goStatement count)] false [] := by
  have hshows : Outlook.Shows o false _ _ :=
    .separator (Hiding.hides_of_isInert (by decide) _) (Bool.and_false _)
      (Verdict.ofText_goStatement hg count)
  rw [goStatement, List.take_length, List.drop_length] at hshows
  exact .step hshows (.stay _ _)

/-- The script in which every text is closed by a statement on a line of its own. -/
def joinedScript : List (String × RepeatCount) → String
  | [] => ""
  | (text, count) :: parts =>
    text ++ "\nGO " ++ count.val.repr ++ "\n" ++ joinedScript parts

theorem toList_joinedScript_cons (text : String) (count : RepeatCount)
    (parts : List (String × RepeatCount)) :
    (joinedScript ((text, count) :: parts)).toList =
      text.toList ++ '\n' :: (goStatement count ++ '\n' :: (joinedScript parts).toList) := by
  simp [joinedScript, goStatement]

/-! ### Joined scripts -/

/-- The pieces of a text that a statement closes on a line of its own. -/
def closedBy (count : RepeatCount) (pieces : List Piece) : List Piece :=
  pieces ++ [.ordinary '\n', .separator count (goStatement count), .ordinary '\n']

/-- A text is read before the statement that closes it as it is read by itself. -/
theorem passage_closedBy {o : Options} {w : Bool} {text : List Char} {pieces : List Piece}
    (hg : SeparatesByGo o) (h : Passage o false text pieces w []) (count : RepeatCount)
    (rest : List Char) :
    Passage o false (text ++ '\n' :: (goStatement count ++ '\n' :: rest)) (closedBy count pieces)
      false rest := by
  have hnewline (w : Bool) (rest : List Char) :
      Passage o w ('\n' :: rest) [.ordinary '\n'] false rest :=
    .step (Outlook.shows_of_isLineBreak hg rfl rest) (.stay _ _)
  have htext := h.append_behind hg.hasWordKeywords
    (.newline o text (goStatement count ++ '\n' :: rest))
  have hstatement := (passage_goStatement hg count).append_behind hg.hasWordKeywords
    (.newline o (goStatement count) rest)
  exact htext.append ((hnewline w _).append (hstatement.append (hnewline false rest)))

/-- The statement closes the batch of the text, and leaves a line feed to the next one. -/
theorem delivery_closedBy {o : Options} {d : Draft} {text : String} {pieces : List Piece}
    (hr : o.repetition = .delegate) (p : Position) (hcopied : copied o pieces = text.toList)
    (hp : ∀ piece ∈ pieces, piece.isSeparator = false) (hb : allBlank text = false)
    (count : RepeatCount) (more : List Piece) :
    ∃ d' p', d'.text = "\n" ∧
      (delivery o d p (closedBy count pieces ++ more)).map (fun b => (b.text, b.repeatCount)) =
        (d.text ++ text ++ "\n", count) ::
          (delivery o d' p' more).map fun b => (b.text, b.repeatCount) := by
  have hsplit : closedBy count pieces ++ more =
      (pieces ++ [.ordinary '\n']) ++
        .separator count (goStatement count) :: .ordinary '\n' :: more := by
    simp [closedBy]
  have hstretch : ∀ piece ∈ pieces ++ [.ordinary '\n'], piece.isSeparator = false := by
    intro piece hpiece
    rcases List.mem_append.1 hpiece with hpiece | hpiece
    · exact hp piece hpiece
    · rw [List.mem_singleton.1 hpiece]
      rfl
  have hnewline : copied o [.ordinary '\n'] = ['\n'] := by
    simp [copied, Piece.copied, Piece.region, Region.copied]
  obtain ⟨hnone, htext⟩ := deliver_of_text (o := o) d p hstretch
  have hbody : (deliver o d p (pieces ++ [.ordinary '\n'])).1.text = d.text ++ text ++ "\n" := by
    rw [htext, copied_append, hcopied, hnewline, String.ofList_append, String.ofList_toList,
      String.append_assoc]
  have hsolid : allBlank (d.text ++ text ++ "\n") = false := by simp [hb]
  obtain ⟨p', hp'⟩ : ∃ p', p' =
      (p.after (sources (pieces ++ [.ordinary '\n']))).after (goStatement count) := ⟨_, rfl⟩
  refine ⟨({} : Draft).add p'.line "\n", p'.after ['\n'], rfl, ?_⟩
  rw [hsplit, delivery_append, hnone, delivery_separator, ← hp', delivery_text rfl, Draft.finish?,
    hbody, hsolid]
  simp only [Bool.false_eq_true, if_false, Option.toList_some, List.nil_append,
    List.singleton_append, List.map_cons, Batch.text_finish_of_delegate hr,
    Batch.repeatCount_finish]
  rfl

/-- The way through a joined script, and what is delivered on it. -/
theorem exists_passage_joinedScript {o : Options} (hg : SeparatesByGo o)
    (hr : o.repetition = .delegate) {parts : List (String × RepeatCount)}
    (h : ∀ part ∈ parts, ∃ b, split o part.1 = .ok [b] ∧ b.text = part.1) :
    ∃ pieces, Passage o false (joinedScript parts).toList pieces false [] ∧
      ∀ d p, allBlank d.text = true →
        (delivery o d p pieces).map (fun b => (b.text, b.repeatCount)) =
          parts.mapIdx fun i part =>
            ((if i = 0 then d.text else "\n") ++ part.1 ++ "\n", part.2) := by
  induction parts with
  | nil =>
      refine ⟨[], .stay _ _, fun d p hd => ?_⟩
      simp [delivery, deliver, Draft.finish?, hd]
  | cons part parts ih =>
      obtain ⟨text, count⟩ := part
      obtain ⟨⟨b, hsplit, hb⟩, hparts⟩ := List.forall_mem_cons.1 h
      obtain ⟨pieces, w, hp, hcopied, hnone, hblank⟩ := copied_eq_of_split hr hsplit hb
      obtain ⟨more, hmore, hdelivery⟩ := ih hparts
      refine ⟨closedBy count pieces ++ more, ?_, fun d p hd => ?_⟩
      · rw [toList_joinedScript_cons]
        exact (passage_closedBy hg hp count _).append hmore
      · obtain ⟨d', p', hd', heq⟩ :=
          delivery_closedBy (d := d) hr p hcopied hnone hblank count more
        rw [heq, hdelivery d' p' (by rw [hd']; rfl), List.mapIdx_cons]
        simp [hd']

/-- **Joining.** Texts that are batches by themselves, closed each by a statement of its own, are
split into batches again: each with the count of its statement, with the line feed before it, and
with the one that the statement before has left. -/
theorem split_joinedScript {o : Options} (hs : o.separator = ({} : Options).separator)
    (hl : o.lookalikes = ({} : Options).lookalikes) (hr : o.repetition = .delegate)
    {parts : List (String × RepeatCount)}
    (h : ∀ part ∈ parts, ∃ b, split o part.1 = .ok [b] ∧ b.text = part.1 ∧
      b.repeatCount = .once) :
    ∃ batches, split o (joinedScript parts) = .ok batches ∧
      batches.map (fun b => (b.text, b.repeatCount)) =
        parts.mapIdx fun i part => ((if i = 0 then "" else "\n") ++ part.1 ++ "\n", part.2) := by
  have hself : ∀ part ∈ parts, ∃ b, split o part.1 = .ok [b] ∧ b.text = part.1 := by
    intro part hpart
    obtain ⟨b, hsplit, hb, -⟩ := h part hpart
    exact ⟨b, hsplit, hb⟩
  obtain ⟨pieces, hp, hdelivery⟩ := exists_passage_joinedScript ⟨hs, hl⟩ hr hself
  exact ⟨_, split_of_passage hp .finished, hdelivery {} {} rfl⟩

/-- A quoted keyword and a keyword with an unusable count, joined with the least count that is not
once and the greatest one. -/
theorem split_joinedScript_of_two :
    joinedScript
          [("'go'", ⟨2, by decide, by decide⟩), ("go 0", ⟨4294967295, by decide, by decide⟩)] =
        "'go'\nGO 2\ngo 0\nGO 4294967295\n" ∧
      ∃ batches, split { repetition := .delegate } "'go'\nGO 2\ngo 0\nGO 4294967295\n" =
          .ok batches ∧
        batches.map (fun b => (b.text, b.repeatCount)) =
          [("'go'\n", ⟨2, by decide, by decide⟩),
            ("\ngo 0\n", ⟨4294967295, by decide, by decide⟩)] := by
  have hscript : joinedScript
      [("'go'", ⟨2, by decide, by decide⟩), ("go 0", ⟨4294967295, by decide, by decide⟩)] =
        "'go'\nGO 2\ngo 0\nGO 4294967295\n" := by
    decide +kernel
  have hquoted : pieces? { repetition := .delegate } 2 false "'go'".toList =
      some [.quoted "'go'".toList] := by
    decide +kernel
  have hunusable : pieces? { repetition := .delegate } 5 false "go 0".toList =
      some [.ordinary 'g', .ordinary 'o', .ordinary ' ', .ordinary '0'] := by
    decide +kernel
  have hparts : ∀ part ∈ [("'go'", (⟨2, by decide, by decide⟩ : RepeatCount)),
      ("go 0", ⟨4294967295, by decide, by decide⟩)],
      ∃ b, split { repetition := .delegate } part.1 = .ok [b] ∧ b.text = part.1 ∧
        b.repeatCount = .once := by
    intro part hpart
    refine ⟨{ text := part.1, repeatCount := .once, line := 1, wrapped := false }, ?_, rfl, rfl⟩
    simp only [List.mem_cons, List.not_mem_nil, or_false] at hpart
    rcases hpart with rfl | rfl
    · rw [split_of_pieces? hquoted]
      exact congrArg Except.ok (by decide +kernel)
    · rw [split_of_pieces? hunusable]
      exact congrArg Except.ok (by decide +kernel)
  have h := split_joinedScript (o := { repetition := .delegate }) rfl rfl rfl hparts
  rw [hscript] at h
  exact ⟨hscript, h⟩

end BatchScript
