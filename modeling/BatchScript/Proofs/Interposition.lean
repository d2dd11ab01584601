import BatchScript.Proofs.Approach
import BatchScript.Proofs.Delivery

/-!
# Comments put into a script

Where comments are dropped, it does not matter what a block comment holds that is put into a script.
It may stand in ordinary text, between a keyword and its count, behind the count, or behind a count
that cannot be used; in each place the script is read over the comment to what is behind it, and
what is read does not depend on the comment. Only the line feeds in it count, for the lines below.

## Main results

* `crosses_of_whole` — how a script is read over a comment put into it, whatever the comment holds.
* `deliver_eq_of_line_eq`, `jobs_delivery_eq` — the batches of pieces that begin somewhere else.
* `split_interposed` — two scripts with different comments in the same place.
-/

namespace BatchScript

/-- A complete block comment, and nothing behind it. -/
def Complete (comment : List Char) : Prop :=
  Comment.block? comment = some (.closed comment.length)

instance (comment : List Char) : Decidable (Complete comment) :=
  inferInstanceAs (Decidable (_ = _))

namespace Complete

variable {comment : List Char}

theorem exists_inside (h : Complete comment) : ∃ inside, comment = opened inside := by
  rw [Complete, Comment.block?.eq_def] at h
  split at h
  · exact ⟨_, rfl⟩
  · cases h

theorem block?_append (h : Complete comment) (behind : List Char) :
    Comment.block? (comment ++ behind) = some (.closed comment.length) :=
  ((Comment.block?_eq_closed_iff behind).1 h).1

/-- By itself it is a gap. -/
theorem gap_length (h : Complete comment) : Gap.length comment = comment.length := by
  rw [Gap.length_of_closed h, List.drop_length, Gap.length_nil, Nat.add_zero]

end Complete

/-! ### Statements that reach a comment -/

namespace Verdict.Reach

variable {o : Options} {text : List Char} {reach : Reach}

/-- The verdict on a text that reaches a complete comment, whatever the comment is: a statement that
the comment stands in, another comment left open behind it, a statement that ends before it, or no
statement. -/
theorem verdict_cases (h : reach.Fits o text) (hr : ∀ v, reach ≠ .settled v)
    (behind : List Char) :
    (∃ count k, ∀ comment, Complete comment →
        reach.verdict (comment ++ behind) = .found count (text.length + (comment.length + k))) ∨
      (∃ k depth, ∀ comment, Complete comment →
        reach.verdict (comment ++ behind) =
          .unclosed { before := text.length + (comment.length + k), depth }) ∨
      (∃ count n, Reads o text n ∧ ∀ comment, Complete comment →
        reach.verdict (comment ++ behind) = .found count n) ∨
      ∀ comment, Complete comment → (reach.verdict (comment ++ behind)).isNone = true := by
  cases h with
  | settled => exact absurd rfl (hr _)
  | gap =>
      have hverdict (comment : List Char) (hc : Complete comment) :
          (Reach.gap text.length).verdict (comment ++ behind) =
            ((ofGap behind).shift comment.length).shift text.length := by
        rw [verdict, ofGap_append_of_eq hc.gap_length]
      cases hv : ofGap behind with
      | found count k =>
          exact .inl ⟨count, k, fun comment hc => by rw [hverdict comment hc, hv]; rfl⟩
      | unclosed e =>
          exact .inr (.inl ⟨e.before, e.depth, fun comment hc => by
            rw [hverdict comment hc, hv]; rfl⟩)
      | absent =>
          exact .inr (.inr (.inr fun comment hc => by rw [hverdict comment hc, hv]; rfl))
      | unusable digits =>
          exact .inr (.inr (.inr fun comment hc => by rw [hverdict comment hc, hv]; rfl))
  | @trail count n reads =>
      have hverdict (comment : List Char) (hc : Complete comment) :
          (Reach.trail count n text.length).verdict (comment ++ behind) =
            ofTrail count n text.length (shiftTrail comment.length (trailing behind)) := by
        rw [verdict, trailing_append_of_eq hc.gap_length]
      rcases hv : trailing behind with e | _ | k
      · exact .inr (.inl ⟨e.before, e.depth, fun comment hc => by
          rw [hverdict comment hc, hv]; rfl⟩)
      · exact .inr (.inr (.inl ⟨count, n, reads, fun comment hc => by
          rw [hverdict comment hc, hv]; rfl⟩))
      · exact .inl ⟨count, k + 1, fun comment hc => by rw [hverdict comment hc, hv]; rfl⟩

end Verdict.Reach

/-! ### Reading over a comment -/

/-- What is read over a comment: the comment itself, or a statement that it stands in. -/
def Piece.around (found : Option RepeatCount) (text : List Char) : Piece :=
  match found with
  | none => .comment text
  | some count => .separator count text

@[simp] theorem Piece.source_around (found : Option RepeatCount) (text : List Char) :
    (Piece.around found text).source = text := by
  cases found <;> rfl

/-- How a text is read with a complete comment and another text behind it, whatever the comment is.
It is read over the comment, or up to a statement in which another comment is left open. -/
inductive Crosses (o : Options) (w : Bool) (text behind : List Char) : Prop
  | across (before : List Piece) (front : List Char) (found : Option RepeatCount) (k : Nat)
      (passage : ∀ comment, Complete comment →
        Passage o w (text ++ (comment ++ behind))
          (before ++ [.around found (front ++ (comment ++ behind.take k))]) false (behind.drop k)) :
      Crosses o w text behind
  | fault (before : List Piece) (w' : Bool) (front : List Char) (k : Nat)
      (passage : ∀ comment, Complete comment →
        Passage o w (text ++ (comment ++ behind)) before w' (front ++ (comment ++ behind)))
      (halt : ∀ comment, Complete comment →
        Halt o w' (front ++ (comment ++ behind))
          (some { construct := .blockComment, before := front.length + (comment.length + k) })) :
      Crosses o w text behind

section

variable {o : Options} {w w' : Bool} {text behind rest : List Char}

/-- What is read first may be read before that. -/
theorem Crosses.prepend {pieces : List Piece} (h : Crosses o w' rest behind)
    (hp : ∀ comment, Complete comment →
      Passage o w (text ++ (comment ++ behind)) pieces w' (rest ++ (comment ++ behind))) :
    Crosses o w text behind := by
  cases h with
  | across before front found k passage =>
      refine .across (pieces ++ before) front found k fun comment hc => ?_
      rw [List.append_assoc]
      exact (hp comment hc).append (passage comment hc)
  | fault before w'' front k passage halt =>
      exact .fault (pieces ++ before) w'' front k
        (fun comment hc => (hp comment hc).append (passage comment hc)) halt

/-- A comment outside statements is read by itself. -/
theorem crosses_nil (o : Options) (w : Bool) (behind : List Char) : Crosses o w [] behind := by
  refine .across [] [] none 0 fun comment hc => ?_
  rw [List.take_zero, List.append_nil]
  refine .step ?_ (.stay _ _)
  have hh : Hiding.Hides o (comment ++ behind) (.comment comment.length) :=
    .block (hc.block?_append behind)
  have hcopies : Outlook.Copies o w (comment ++ behind) _ _ := .comment hh
  rw [List.take_left, List.drop_left] at hcopies
  refine (Outlook.shows_iff_copies rfl).2 ⟨hcopies, fun hplain => ?_⟩
  rw [List.nil_append, hh.eq_ofText] at hplain
  cases hplain

/-- A statement that reaches the comment: it is read over the comment, or one is left open behind,
or the text is read up to somewhere before the comment. -/
theorem Outlook.Pending.crosses_or (ho : HasWordSeparator o) (h : Pending o w text)
    (hx : Whole o text) (ht : text ≠ []) (behind : List Char) :
    Crosses o w text behind ∨
      ∃ piece more, text = piece.source ++ more ∧ Whole o more ∧ ∀ comment, Complete comment →
        Shows o w (text ++ (comment ++ behind)) (.piece piece (more ++ (comment ++ behind))) := by
  obtain ⟨reach, hfits, hreach, hofText⟩ := h.exists_reach
  have hverdict (comment : List Char) (hc : Complete comment) :
      Verdict.ofText o (text ++ (comment ++ behind)) = reach.verdict (comment ++ behind) := by
    obtain ⟨inside, rfl⟩ := hc.exists_inside
    exact hofText (inside ++ behind)
  rcases reach.verdict_cases hfits hreach behind with
    ⟨count, k, hv⟩ | ⟨k, depth, hv⟩ | ⟨count, n, hreads, hv⟩ | hv
  · -- The comment stands in a statement.
    refine .inl (.across [] text (some count) k fun comment hc => .step ?_ (.stay _ _))
    have hfound := (hverdict comment hc).trans (hv comment hc)
    have hbounds := (Verdict.bounds_of_found hfound).2
    have hk : (behind.take k).length = k := by
      rw [List.length_take_of_le]
      simp only [List.length_append] at hbounds
      omega
    have hsplit : text ++ (comment ++ behind) =
        text ++ (comment ++ behind.take k) ++ behind.drop k := by
      simp only [List.append_assoc, List.take_append_drop]
    rw [hsplit] at hfound ⊢
    refine Outlook.shows_of_found ho h.notInWord ?_
    rw [hfound, List.length_append, List.length_append, hk]
  · -- The statement leaves a comment open behind it.
    refine .inl (.fault [] w text k (fun comment _ => .stay _ _) fun comment hc => .fault ?_)
    have hopen := (hverdict comment hc).trans (hv comment hc)
    have hplain : Hiding.Hides o (text ++ (comment ++ behind)) .plain := by
      obtain ⟨inside, rfl⟩ := hc.exists_inside
      exact h.plain (inside ++ behind)
    obtain ⟨first, tail, rfl⟩ := List.exists_cons_of_ne_nil ht
    exact .openSeparator hplain h.notInWord hopen
  · -- The statement ends with its count, before the comment.
    refine .inr ⟨.separator count (text.take n), text.drop n, (List.take_append_drop _ _).symm,
      hx.drop hreads, fun comment hc => ?_⟩
    have hfound := (hverdict comment hc).trans (hv comment hc)
    have hsplit : text ++ (comment ++ behind) =
        text.take n ++ (text.drop n ++ (comment ++ behind)) := by
      rw [← List.append_assoc (text.take n), List.take_append_drop]
    rw [hsplit] at hfound ⊢
    refine Outlook.shows_of_found ho h.notInWord ?_
    rw [hfound, List.length_take_of_le hreads.le_length]
  · -- The count behind the comment cannot be used.
    obtain ⟨piece, more, htext, hp, hmore, hcopies⟩ := Outlook.exists_copy hx ht w
    refine .inr ⟨piece, more, htext, hmore, fun comment hc => ?_⟩
    have hnone := hv comment hc
    rw [← hverdict comment hc] at hnone
    obtain ⟨inside, rfl⟩ := hc.exists_inside
    exact (Outlook.shows_iff_copies hp).2 ⟨hcopies (inside ++ behind), fun _ _ => hnone⟩

/-- How a whole text is read with a complete comment behind it, whatever the comment is. -/
theorem crosses_of_whole (ho : HasWordKeywords o) (hx : Whole o text) (w : Bool)
    (behind : List Char) : Crosses o w text behind := by
  induction hn : text.length using Nat.strongRecOn generalizing text w with
  | ind n ih =>
      obtain ⟨pieces, w', rest, htext, hrest, hpassage, hend⟩ := exists_approach ho hx w
      have hprefix : ∀ comment, Complete comment →
          Passage o w (text ++ (comment ++ behind)) pieces w' (rest ++ (comment ++ behind)) := by
        intro comment hc
        obtain ⟨inside, rfl⟩ := hc.exists_inside
        exact hpassage (inside ++ behind)
      refine Crosses.prepend ?_ hprefix
      by_cases hnil : rest = []
      · rw [hnil]
        exact crosses_nil o w' behind
      rcases (hend.resolve_left hnil).crosses_or ho.separator hrest hnil behind with
        hcrosses | ⟨piece, more, hmore, hwhole, hshows⟩
      · exact hcrosses
      · have hpos := List.length_pos_iff.2
          (Outlook.source_ne_nil (hshows "/**/".toList (by decide)))
        have hlength := congrArg List.length htext
        have hlength' := congrArg List.length hmore
        rw [List.length_append] at hlength hlength'
        refine Crosses.prepend (ih more.length (by omega) hwhole piece.endsInWord rfl)
          fun comment hc => .step (hshows comment hc) (.stay _ _)

end

/-! ### The same pieces elsewhere -/

/-- What a batch is to run, and how. -/
def Batch.job (b : Batch) : String × RepeatCount × Bool :=
  (b.text, b.repeatCount, b.wrapped)

/-- The job of a batch does not depend on its line. -/
theorem Batch.job_finish (o : Options) (body : String) (count : RepeatCount) (line line' : Nat) :
    (finish o body count line).job = (finish o body count line').job := by
  rw [finish, finish]
  split <;> rfl

theorem Draft.jobs_finish? {o : Options} {d d' : Draft} (h : d.text = d'.text)
    (count : RepeatCount) :
    (d.finish? o count).toList.map Batch.job = (d'.finish? o count).toList.map Batch.job := by
  rw [finish?, finish?, h]
  split
  · rfl
  · simp only [Option.toList_some, List.map_singleton, List.singleton_inj]
    exact Batch.job_finish o _ count _ _

/-- Pieces make the same jobs wherever they begin. -/
theorem jobs_deliver_eq {o : Options} {d d' : Draft} (h : d.text = d'.text) (p p' : Position)
    (pieces : List Piece) :
    (deliver o d p pieces).1.text = (deliver o d' p' pieces).1.text ∧
      (deliver o d p pieces).2.map Batch.job = (deliver o d' p' pieces).2.map Batch.job := by
  induction pieces generalizing d d' p p' with
  | nil => exact ⟨h, rfl⟩
  | cons piece pieces ih =>
      simp only [deliver, List.map_append]
      cases hp : piece.isSeparator with
      | false =>
          simp only [Draft.absorb_text hp]
          have hadd : (d.add p.line (piece.region.copied o.keepComments)).text =
              (d'.add p'.line (piece.region.copied o.keepComments)).text :=
            congrArg (· ++ piece.region.copied o.keepComments) h
          obtain ⟨htext, hjobs⟩ := ih hadd (p.after piece.source) (p'.after piece.source)
          exact ⟨htext, congrArg _ hjobs⟩
      | true =>
          obtain ⟨count, statement, rfl⟩ := Piece.eq_separator hp
          have hempty : ({} : Draft).text = ({} : Draft).text := rfl
          obtain ⟨htext, hjobs⟩ := ih hempty (p.after statement) (p'.after statement)
          refine ⟨htext, ?_⟩
          rw [Draft.absorb, Draft.absorb, Draft.jobs_finish? h]
          exact congrArg _ hjobs

theorem jobs_delivery_eq (o : Options) (d : Draft) (p p' : Position) (pieces : List Piece) :
    (delivery o d p pieces).map Batch.job = (delivery o d p' pieces).map Batch.job := by
  obtain ⟨htext, hjobs⟩ := jobs_deliver_eq (o := o) (d := d) rfl p p' pieces
  rw [delivery, delivery, List.map_append, List.map_append, hjobs, Draft.jobs_finish? htext]

/-- And the same batches if they begin on the same line. -/
theorem deliver_eq_of_line_eq (o : Options) (d : Draft) {p p' : Position} (h : p.line = p'.line)
    (pieces : List Piece) : deliver o d p pieces = deliver o d p' pieces := by
  induction pieces generalizing d p p' with
  | nil => rfl
  | cons piece pieces ih =>
      have hnext : (p.after piece.source).line = (p'.after piece.source).line := by
        rw [Position.line_after, Position.line_after, h]
      simp only [deliver, h, ih _ hnext]

/-! ### Two comments in one place -/

/-- The line of an error is counted in line feeds before the opener. -/
theorem Fault.line_malformed (fault : Fault) (p : Position) (text : List Char) :
    (fault.malformed p text).line = p.line + (text.take fault.before).count '\n' :=
  Position.line_after p (text.take fault.before)

section

variable {o : Options}

/-- Where comments are dropped, what is read over a comment does not depend on it. -/
theorem absorb_around (hk : o.keepComments = false) (d : Draft) (line : Nat)
    (found : Option RepeatCount) (text text' : List Char) :
    d.absorb o line (.around found text) = d.absorb o line (.around found text') := by
  cases found with
  | none =>
      simp only [Piece.around, Draft.absorb, Piece.region, Region.copied, hk, Bool.false_eq_true,
        if_false]
  | some count => rfl

/-- Pieces with what is read over a comment among them: the jobs do not depend on the comment, and
the batches only on its line feeds. -/
theorem delivery_around (hk : o.keepComments = false) (before after : List Piece)
    (found : Option RepeatCount) (text text' : List Char) :
    (delivery o {} {} (before ++ [.around found text] ++ after)).map Batch.job =
        (delivery o {} {} (before ++ [.around found text'] ++ after)).map Batch.job ∧
      (text.count '\n' = text'.count '\n' →
        delivery o {} {} (before ++ [.around found text] ++ after) =
          delivery o {} {} (before ++ [.around found text'] ++ after)) := by
  have hsame : deliver o {} {} (before ++ [.around found text]) =
      deliver o {} {} (before ++ [.around found text']) := by
    simp only [deliver_append, deliver, absorb_around hk _ _ found text text']
  have hlines : text.count '\n' = text'.count '\n' →
      (({} : Position).after (sources (before ++ [.around found text]))).line =
        (({} : Position).after (sources (before ++ [.around found text']))).line := by
    intro h
    simp only [Position.line_after, sources_append, sources_cons, sources_nil, List.append_nil,
      List.count_append, Piece.source_around, h]
  rw [delivery_append, delivery_append, hsame]
  refine ⟨?_, fun h => ?_⟩
  · rw [List.map_append, List.map_append]
    exact congrArg _ (jobs_delivery_eq o _ _ _ after)
  · rw [delivery, delivery, deliver_eq_of_line_eq o _ (hlines h)]

/-- **Comment opacity.** Where comments are dropped and the keywords are words, it does not matter
what a complete block comment holds that is put behind a script that can be split, and that does not
end in a line comment. With the empty comment in its place and any text behind it, the whole fails
with an error of the same kind, or makes batches of the same text, count and form; and if the
comment holds no line feed they are on the same lines, as is the error. -/
theorem split_interposed (ho : HasWordKeywords o) (hk : o.keepComments = false)
    {front comment : String} {batches : List Batch} (hfront : split o front = .ok batches)
    (hline : endsInLineComment o front.toList = false)
    (hcomment : Comment.block? comment.toList = some (.closed comment.toList.length))
    (behind : String) :
    (∃ e e' : Malformed, split o (front ++ comment ++ behind) = .error (.malformed e) ∧
        split o (front ++ "/**/" ++ behind) = .error (.malformed e') ∧
        e.construct = e'.construct ∧ ('\n' ∉ comment.toList → e.line = e'.line)) ∨
      ∃ bs bs' : List Batch, split o (front ++ comment ++ behind) = .ok bs ∧
        split o (front ++ "/**/" ++ behind) = .ok bs' ∧
        bs.map Batch.job = bs'.map Batch.job ∧ ('\n' ∉ comment.toList → bs = bs') := by
  have hwhole := Whole.of_split ho.separator hfront hline
  have hempty : Complete "/**/".toList := by decide
  have htext (c : String) : (front ++ c ++ behind).toList =
      front.toList ++ (c.toList ++ behind.toList) := by
    rw [String.toList_append, String.toList_append, List.append_assoc]
  have hfeeds : '\n' ∉ comment.toList →
      comment.toList.count '\n' = "/**/".toList.count '\n' := by
    intro h
    rw [List.count_eq_zero_of_not_mem h]
    rfl
  cases crosses_of_whole ho hwhole false behind.toList with
  | fault before w' lead k passage halt =>
      have hpassage (c : String) (hc : Complete c.toList) :
          Passage o false (front ++ c ++ behind).toList before w'
            (lead ++ (c.toList ++ behind.toList)) := htext c ▸ passage _ hc
      have hsplit (c : String) (hc : Complete c.toList) :=
        split_of_passage (hpassage c hc) (halt _ hc)
      refine .inl ⟨_, _, hsplit comment hcomment, hsplit "/**/" hempty, rfl, fun h => ?_⟩
      have htake (c : List Char) :
          (lead ++ (c ++ behind.toList)).take (lead.length + (c.length + k)) =
            lead ++ (c ++ behind.toList.take k) := by
        rw [List.take_length_add_append, List.take_length_add_append]
      simp only [Fault.line_malformed, htake, List.count_append, hfeeds h]
  | across before lead found k passage =>
      obtain ⟨after, w', rest, fault, hafter, hhalt⟩ :=
        exists_passage o false (behind.toList.drop k)
      have hpassage (c : String) (hc : Complete c.toList) :
          Passage o false (front ++ c ++ behind).toList
            (before ++ [.around found (lead ++ (c.toList ++ behind.toList.take k))] ++ after) w'
            rest := htext c ▸ (passage _ hc).append hafter
      have hsplit (c : String) (hc : Complete c.toList) := split_of_passage (hpassage c hc) hhalt
      have hlead (h : '\n' ∉ comment.toList) :
          (lead ++ (comment.toList ++ behind.toList.take k)).count '\n' =
            (lead ++ ("/**/".toList ++ behind.toList.take k)).count '\n' := by
        simp only [List.count_append, hfeeds h]
      cases fault with
      | some fault =>
          refine .inl ⟨_, _, hsplit comment hcomment, hsplit "/**/" hempty, rfl, fun h => ?_⟩
          simp only [Fault.line_malformed, Position.line_after, sources_append, sources_cons,
            sources_nil, List.append_nil, Piece.source_around, List.count_append, hfeeds h]
      | none =>
          obtain ⟨hjobs, hbatches⟩ := delivery_around hk before after found
            (lead ++ (comment.toList ++ behind.toList.take k))
            (lead ++ ("/**/".toList ++ behind.toList.take k))
          exact .inr ⟨_, _, hsplit comment hcomment, hsplit "/**/" hempty, hjobs,
            fun h => hbatches (hlead h)⟩

/-- A comment between a keyword and its count, which holds a quote, the keyword, a line feed and
another comment. -/
theorem jobs_behind_keyword :
    ∃ bs : List Batch, split { repetition := .delegate }
        ("a\ngo " ++ "/* 'go 9\n /* */ -- */" ++ "3 -- x\nb") = .ok bs ∧
      bs.map Batch.job =
        [("a\n", ⟨3, by decide, by decide⟩, false), ("\nb", .once, false)] := by
  have hfront : pieces? { repetition := .delegate } 4 false "a\ngo ".toList =
      some [.ordinary 'a', .ordinary '\n', .separator .once "go ".toList] := by
    decide +kernel
  have hpieces : pieces? { repetition := .delegate } 6 false
      ("a\ngo " ++ "/**/" ++ "3 -- x\nb").toList =
      some
        [.ordinary 'a', .ordinary '\n',
          .separator ⟨3, by decide, by decide⟩ "go /**/3 -- x".toList, .ordinary '\n',
          .ordinary 'b'] := by
    decide +kernel
  have ho : HasWordKeywords { repetition := .delegate } := SeparatesByGo.hasWordKeywords ⟨rfl, rfl⟩
  have hsplit := split_of_pieces? hpieces
  rcases @split_interposed _ ho rfl "a\ngo " "/* 'go 9\n /* */ -- */" _ (split_of_pieces? hfront)
      (by decide +kernel) (by decide +kernel) "3 -- x\nb" with
    ⟨e, e', -, herror, -, -⟩ | ⟨bs, bs', hbs, hbs', hjobs, -⟩
  · rw [hsplit] at herror
    cases herror
  · refine ⟨bs, hbs, ?_⟩
    rw [hjobs, ← Except.ok.inj (hsplit.symm.trans hbs')]
    decide +kernel

end

end BatchScript
