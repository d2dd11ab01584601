import BatchScript.Proofs.Approach
import BatchScript.Proofs.Log
import BatchScript.Proofs.Streaming

/-!
# Closing what a script leaves open

A script is malformed if it ends inside a construct, and for no other reason: with the delimiters
behind it that the construct lacks, it can be split. Quoted text lacks one, whatever escapes it
holds; a block comment lacks as many as it is deep, and the log says how deep. With fewer of them
the script fails as it did. The batches before the construct stay as they are.

Up to the construct the script is whole. Quoted text goes on with nothing at the end of it; a block
comment goes on with the gap of a statement at most, and then the statement is read over it once it
is closed.

## Main results

* `Comment.block?_closers` — a block comment is closed by as many delimiters as it is deep.
* `Opens.whole` — the text in front of what is left open is whole.
* `exists_fails` — a script with a comment left open fails the same way however deep it is.
* `exists_fails_of_quote` — a script with quoted text left open, and the same with the delimiter.
* `split_closed` — a malformed script can be split once it is closed.
-/

namespace BatchScript

/-! ### Closing a block comment -/

namespace Comment

variable {text : List Char} {depth : Nat}

/-- The delimiters that close so many block comments, each with a blank before it. -/
def closers (k : Nat) : List Char :=
  (List.replicate k " */".toList).flatten

theorem closers_succ (k : Nat) : closers (k + 1) = " */".toList ++ closers k := by
  rw [closers, List.replicate_succ, List.flatten_cons, closers]

/-- What is left open is so deep. -/
theorem exists_depth (h : block? text = some (.unclosed depth)) : ∃ inner, depth = inner + 1 := by
  rw [block?.eq_def] at h
  split at h
  · exact exists_depth_of_blockFrom (Option.some.inj h)
  · cases h

/-- One delimiter closes one comment. -/
theorem block?_append_closer (h : block? text = some (.unclosed (depth + 1))) :
    block? (text ++ " */".toList) =
      some (if depth = 0 then .closed (text.length + 3) else .unclosed depth) := by
  rw [block?.eq_def] at h
  split at h
  · rename_i rest
    have happend := blockFrom_append_blank (Option.some.inj h) "*/".toList
    have hclose : block? ('/' :: '*' :: rest ++ " */".toList) =
        some (blockFrom depth (2 + (rest.length + 1)) "*/".toList) := congrArg some happend
    rw [hclose]
    cases depth with
    | zero =>
        simp only [List.length_cons, if_true]
        exact congrArg (fun n => some (Extent.closed n)) (by omega)
    | succ depth => rfl
  · cases h

/-- With fewer delimiters than it is deep a comment is left open. -/
theorem block?_closers_of_lt {k : Nat} (h : block? text = some (.unclosed depth)) (hk : k < depth) :
    block? (text ++ closers k) = some (.unclosed (depth - k)) := by
  induction k generalizing text depth with
  | zero => simpa [closers] using h
  | succ k ih =>
      obtain ⟨inner, rfl⟩ := exists_depth h
      have hnext := block?_append_closer h
      rw [if_neg (by omega)] at hnext
      rw [closers_succ, ← List.append_assoc, ih hnext (by omega)]
      congr 2
      omega

/-- With as many it is closed, and nothing is behind it. -/
theorem block?_closers (h : block? text = some (.unclosed depth)) :
    block? (text ++ closers depth) = some (.closed (text ++ closers depth).length) := by
  obtain ⟨inner, rfl⟩ := exists_depth h
  induction inner generalizing text with
  | zero =>
      have hone : closers (0 + 1) = " */".toList := by simp [closers]
      rw [hone, block?_append_closer h, List.length_append]
      rfl
  | succ inner ih =>
      have hnext := block?_append_closer h
      rw [if_neg (by omega)] at hnext
      rw [closers_succ, ← List.append_assoc, ih hnext]

end Comment

/-! ### Texts in front of what is left open -/

/-- What is left open begins with a character that opens it. -/
theorem Hiding.exists_opener {o : Options} {text : List Char} {construct : Construct}
    (h : Hides o text (.unclosed construct)) :
    ∃ first rest, text = first :: rest ∧ isInert first = false := by
  rcases text with _ | ⟨first, rest⟩
  · cases h with
    | openBlock hb => cases hb
  · refine ⟨first, rest, rfl, ?_⟩
    rw [Bool.eq_false_iff]
    intro hi
    have hplain := (hides_of_isInert (o := o) hi rest).eq_ofText
    rw [h.eq_ofText] at hplain
    cases hplain

section

variable {o : Options} {text : List Char} {n : Nat} {construct : Construct}

/-- A line comment ends in front of nothing that is left open. -/
theorem Hiding.not_unclosed_of_line? (h : Comment.line? text = some n) :
    ¬ Hides o (text.drop n) (.unclosed construct) := by
  intro hopen
  obtain ⟨first, rest, hrest, hinert⟩ := exists_opener hopen
  obtain rfl := Comment.head?_drop_of_line? h first (by rw [hrest]; rfl)
  cases hinert

/-- A text that begins with a comment is whole if the rest is, and if the comment is no line comment
that it ends in. -/
theorem Whole.of_comment (h : Hiding.Hides o text (.comment n)) (hw : Whole o (text.drop n))
    (hend : Comment.line? text ≠ some text.length) : Whole o text := by
  refine ⟨fun p => (Clear.of_comment h p).trans (hw.closed _), ?_⟩
  obtain ⟨hn, hle⟩ := Hiding.bounds_of_comment h
  obtain ⟨k, rfl⟩ : ∃ k, n = k + 1 := ⟨n - 1, by omega⟩
  obtain ⟨first, rest, rfl⟩ := List.exists_cons_of_length_pos (show 0 < text.length by omega)
  rw [endsInLineComment, h.eq_ofText]
  simp only [beq_eq_false_iff_ne.2 hend, Bool.false_or]
  exact hw.line

theorem Whole.of_quoted (h : Hiding.Hides o text (.quoted n)) (hw : Whole o (text.drop n)) :
    Whole o text := by
  refine ⟨fun p => (Clear.of_quoted h p).trans (hw.closed _), ?_⟩
  obtain ⟨hn, hle⟩ := Hiding.bounds_of_quoted h
  obtain ⟨k, rfl⟩ : ∃ k, n = k + 1 := ⟨n - 1, by omega⟩
  obtain ⟨first, rest, rfl⟩ := List.exists_cons_of_length_pos (show 0 < text.length by omega)
  rw [endsInLineComment, h.eq_ofText]
  exact hw.line

theorem Whole.of_plain {first : Char} {rest : List Char}
    (h : Hiding.Hides o (first :: rest) .plain) (hw : Whole o rest) : Whole o (first :: rest) := by
  refine ⟨fun p => (Clear.of_plain h p).trans (hw.closed _), ?_⟩
  rw [endsInLineComment, h.eq_ofText]
  exact hw.line

/-- What is read in front of what is left open is whole. -/
theorem Reads.whole_take (h : Reads o text n)
    (hopen : Hiding.Hides o (text.drop n) (.unclosed construct)) : Whole o (text.take n) := by
  induction h with
  | zero text => exact .nil o
  | @comment text n m h next ih =>
      rw [← List.drop_drop] at hopen
      obtain ⟨hn, hle⟩ := Hiding.bounds_of_comment h
      have hm := next.le_length
      rw [List.length_drop] at hm
      have hlength : (text.take (n + m)).length = n + m := List.length_take_of_le (by omega)
      have htake : Hiding.Hides o (text.take (n + m)) (.comment n) := by
        rw [← List.take_append_drop (n + m) text] at h
        exact Hiding.comment_of_append h (by omega)
      have hdrop : (text.take (n + m)).drop n = (text.drop n).take m := by
        rw [List.drop_take, Nat.add_sub_cancel_left]
      refine .of_comment htake (hdrop ▸ ih hopen) fun hline => ?_
      -- A line comment in front of what is left open would end in a line feed there.
      rw [hlength] at hline
      have hsame := (Hiding.Hides.line (o := o) hline).eq_ofText
      rw [htake.eq_ofText, Hiding.comment.injEq] at hsame
      obtain rfl : m = 0 := by omega
      refine Hiding.not_unclosed_of_line? (n := n) ?_ hopen
      rcases Hiding.comment_iff.1 h with hl | hb
      · exact hl
      · have hnone := Hiding.line?_of_block? hb
        rw [← List.take_append_drop (n + 0) text] at hnone
        rw [Comment.line?_eq_none_of_append hnone] at hline
        cases hline
  | @quoted text n m h next ih =>
      rw [← List.drop_drop] at hopen
      obtain ⟨hn, hle⟩ := Hiding.bounds_of_quoted h
      have hm := next.le_length
      rw [List.length_drop] at hm
      have hlength : (text.take (n + m)).length = n + m := List.length_take_of_le (by omega)
      have htake : Hiding.Hides o (text.take (n + m)) (.quoted n) := by
        rw [← List.take_append_drop (n + m) text] at h
        exact Hiding.quoted_of_append h (by omega)
      have hdrop : (text.take (n + m)).drop n = (text.drop n).take m := by
        rw [List.drop_take, Nat.add_sub_cancel_left]
      exact .of_quoted htake (hdrop ▸ ih hopen)
  | @plain first rest m h next ih =>
      rw [Nat.add_comm, List.drop_succ_cons] at hopen
      rw [Nat.add_comm, List.take_succ_cons]
      refine .of_plain ?_ (ih hopen)
      rw [← List.take_append_drop m rest, ← List.cons_append] at h
      exact Hiding.plain_of_append (by simp) h

/-- What is found open stands behind a whole text. -/
theorem Opens.whole {fault : Fault} (h : Opens o text fault) : Whole o (text.take fault.before) :=
  h.reads.whole_take h.unclosed

/-- A passage leads to the end of a whole text. -/
theorem Whole.exists_passage (ho : HasWordSeparator o) (h : Whole o text) (w : Bool) :
    ∃ pieces w', Passage o w text pieces w' [] := by
  obtain ⟨pieces, w', rest, fault, hp, hh⟩ := BatchScript.exists_passage o w text
  cases hh with
  | finished => exact ⟨pieces, w', hp⟩
  | fault shows =>
      have hclosed := h.closed {}
      rw [blindFault?_of_passage {} ho hp, (opens_of_fault ho shows).blindFault?_eq] at hclosed
      cases hclosed

/-- A whole text is read to its end. -/
theorem Whole.reads (ho : HasWordSeparator o) (h : Whole o text) : Reads o text text.length := by
  obtain ⟨pieces, w, hp⟩ := h.exists_passage ho false
  have hreads := reads_of_passage ho hp
  rwa [← List.append_nil (sources pieces), ← hp.text_eq] at hreads

/-- What is read of a whole text is read in front of a block comment. -/
theorem Reads.append_opened (h : Reads o text n) (hx : Whole o text) (inside : List Char) :
    Reads o (text ++ opened inside) n := by
  induction h with
  | zero text => exact .zero _
  | comment h next ih =>
      refine .comment (Hiding.comment_append_opened hx h inside) ?_
      rw [List.drop_append_of_le_length (Hiding.bounds_of_comment h).2]
      exact ih (hx.drop (.of_comment h))
  | quoted h next ih =>
      refine .quoted (Hiding.quoted_append_opened h inside) ?_
      rw [List.drop_append_of_le_length (Hiding.bounds_of_quoted h).2]
      exact ih (hx.drop (.of_quoted h))
  | plain h next ih =>
      exact .plain (Hiding.plain_append_opened hx (by simp) h inside) (ih (hx.drop (.of_plain h)))

end

/-! ### Failing, and not failing -/

section

variable {o : Options} {script : String} {pieces : List Piece} {w : Bool} {rest : List Char}

/-- A script fails with an error behind so many batches. -/
structure Fails (o : Options) (script : String) (batches : List Batch) (e : Malformed) : Prop where
  split : split o script = .error (.malformed e)
  take : (BatchStream.ofString o script).take (batches.length + 1) =
    (batches.map fun b => some (.ok b)) ++ [some (.error (.malformed e))]

/-- A passage to what is left open says how a script fails. -/
theorem fails_of_halt {fault : Fault} (h : Passage o false script.toList pieces w rest)
    (hh : Halt o w rest (some fault)) :
    Fails o script (deliver o {} {} pieces).2
      (fault.malformed (({} : Position).after (sources pieces)) rest) := by
  refine ⟨split_of_passage h hh, ?_⟩
  have htake := BatchStream.take_of_halt (BatchStream.before_ofString o script) h hh
  have hgiven := given_length (outcomes o {} {} pieces rest (some fault))
  have hlength : (outcomes o {} {} pieces rest (some fault)).length =
      (deliver o {} {} pieces).2.length + 1 := by simp [outcomes]
  rw [hlength] at hgiven
  rw [htake]
  refine hgiven.trans ?_
  rw [outcomes, List.map_append, List.map_map]
  rfl

/-- A script that a blind reading finds nothing open in is split, and the batches that are complete
behind a passage come first. -/
theorem exists_split_of_passage (ho : HasWordSeparator o)
    (h : Passage o false script.toList pieces w rest)
    (hclosed : blindFault? o {} script.toList = none) :
    ∃ more, split o script = .ok ((deliver o {} {} pieces).2 ++ more) := by
  obtain ⟨after, w', left, fault, hafter, hhalt⟩ := exists_passage o w rest
  rw [blindFault?_of_passage {} ho (h.append hafter), blindFault?_of_halt _ ho hhalt] at hclosed
  obtain rfl := Option.map_eq_none_iff.1 hclosed
  refine ⟨delivery o (deliver o {} {} pieces).1 (({} : Position).after (sources pieces)) after, ?_⟩
  rw [split_of_passage (h.append hafter) hhalt, delivery_append]

end

/-! ### Block comments -/

section

variable {o : Options} {w : Bool} {text rest inside : List Char} {depth : Nat}

/-- A comment left open behind a statement that reaches it is left open in the statement. -/
theorem Outlook.Pending.halt (h : Pending o w rest) (hne : rest ≠ [])
    (hb : Comment.block? (opened inside) = some (.unclosed depth)) :
    Halt o w (rest ++ opened inside)
      (some { construct := .blockComment, before := rest.length }) := by
  obtain ⟨reach, hfits, hreach, hverdict⟩ := h.exists_reach
  have hread : Gap.read (opened inside) = .error { before := 0, depth } := by
    have hlength : Gap.length (opened inside) = 0 :=
      Gap.length_eq_zero (by decide) (by rw [← opened, hb]; simp)
    exact Gap.read_eq_error.2 ⟨hlength.symm, hb⟩
  have hopen : Verdict.ofText o (rest ++ opened inside) =
      .unclosed { before := rest.length, depth } := by
    rw [hverdict]
    cases hfits with
    | settled => exact absurd rfl (hreach _)
    | gap => simp [Verdict.Reach.verdict, Verdict.ofGap, hread, Verdict.shift, Opening.shift]
    | trail =>
        simp [Verdict.Reach.verdict, Verdict.trailing, hread, Verdict.ofTrail, Opening.shift]
  obtain ⟨first, tail, rfl⟩ := List.exists_cons_of_ne_nil hne
  exact .fault (.openSeparator (h.plain inside) h.notInWord hopen)

/-- A script with a comment left open behind a whole text fails at the opener, behind the same
batches whatever the comment holds. With the comment closed those batches come first. -/
theorem exists_fails (ho : HasWordKeywords o) (hx : Whole o text) :
    ∃ batches, ∀ (script : String) (inside : List Char), script.toList = text ++ opened inside →
      (∀ depth, Comment.block? (opened inside) = some (.unclosed depth) →
        Fails o script batches
          { construct := .blockComment, line := (({} : Position).after text).line,
            column := (({} : Position).after text).column }) ∧
      (Comment.block? (opened inside) = some (.closed (opened inside).length) →
        ∃ more, split o script = .ok (batches ++ more)) := by
  obtain ⟨pieces, w, rest, htext, -, hpassage, hend⟩ := exists_approach ho hx false
  refine ⟨(deliver o {} {} pieces).2, fun script inside hscript => ?_⟩
  refine ⟨fun depth hb => ?_, fun hb => ?_⟩
  · have hhalt : Halt o w (rest ++ opened inside)
        (some { construct := .blockComment, before := rest.length }) := by
      by_cases hnil : rest = []
      · rw [hnil]
        exact .fault (.unclosed (.openBlock hb))
      · exact (hend.resolve_left hnil).halt hnil hb
    have hfails : Fails o script _ _ := fails_of_halt (hscript ▸ hpassage inside) hhalt
    rwa [Fault.malformed, List.take_left, ← Position.after_append, ← htext] at hfails
  · refine exists_split_of_passage ho.separator (hscript ▸ hpassage inside) ?_
    have hcomment : Hiding.Hides o (opened inside) (.comment (opened inside).length) := .block hb
    rw [hscript, ((hx.reads ho.separator).append_opened hx inside).clear, List.drop_left,
      Clear.of_comment hcomment, List.drop_length, blindFault?]

end

/-! ### Quoted text -/

section

variable {o : Options} {text : List Char}

/-- The last character of two stretches is that of the second, unless it is empty. -/
theorem getLast?_take_add_ne {c : Char} {n m : Nat} (hm : m ≤ (text.drop n).length)
    (hfirst : m = 0 → (text.take n).getLast? ≠ some c)
    (hsecond : ((text.drop n).take m).getLast? ≠ some c) :
    (text.take (n + m)).getLast? ≠ some c := by
  rw [List.take_add, List.getLast?_append]
  cases hlast : ((text.drop n).take m).getLast? with
  | some d => rwa [hlast] at hsecond
  | none =>
      have hnil := congrArg List.length (List.getLast?_eq_none_iff.1 hlast)
      rw [List.length_take_of_le hm] at hnil
      exact hfirst hnil

/-- Quoted text that is closed as it is opened does not stand right behind its like: the delimiters
in between would be one that is doubled. -/
theorem Reads.getLast?_ne {n : Nat} {c : Char} {q : Quotation} (h : Reads o text n)
    (hq : Quotation.ofOpener? o c = some q) (hclose : q.close = c)
    (hhead : (text.drop n).head? = some c) : (text.take n).getLast? ≠ some c := by
  induction h with
  | zero text => simp
  | @comment text n m h next ih =>
      rw [← List.drop_drop] at hhead
      refine getLast?_take_add_ne next.le_length ?_ (ih hhead)
      rintro rfl hlast
      rcases Hiding.comment_iff.1 h with hl | hb
      · obtain rfl := Comment.head?_drop_of_line? hl c hhead
        cases hq
      · have hn := (Hiding.bounds_of_comment h).1
        rw [List.getLast?_take, if_neg (by omega), Comment.getElem?_of_block? hb, Option.some_or,
          Option.some.injEq] at hlast
        subst hlast
        cases hq
  | @quoted text n m h next ih =>
      rw [← List.drop_drop] at hhead
      refine getLast?_take_add_ne next.le_length ?_ (ih hhead)
      rintro rfl hlast
      cases h with
      | quoted hq' hn =>
          rw [Quoted.getLast?_take hn] at hlast
          rw [List.drop_succ_cons, List.drop_zero, ← hlast] at hhead
          exact Quoted.head?_drop_ne hn hhead
  | @plain first rest m h next ih =>
      rw [Nat.add_comm, List.drop_succ_cons] at hhead
      refine getLast?_take_add_ne (n := 1) next.le_length ?_ (ih hhead)
      rintro - hlast
      cases h with
      | plain hl hb hnone =>
          obtain rfl : first = c := by simpa using hlast
          rw [hnone first rfl] at hq
          cases hq

/-- A script with quoted text left open behind a whole text fails at the opener. With the delimiter
behind it the batches before it come first. -/
theorem exists_fails_of_quote (ho : HasWordKeywords o) {q : Quotation} {body : List Char}
    {script : String} (hq : Quotation.ofOpener? o q.opener = some q) (hx : Whole o text)
    (hlast : q.close = q.opener → text.getLast? ≠ some q.opener)
    (hbody : Quoted.body? q.close body = none)
    (hscript : script.toList = text ++ q.opener :: body) :
    ∃ batches more,
      Fails o script batches
        { construct := q.construct, line := (({} : Position).after text).line,
          column := (({} : Position).after text).column } ∧
      split o (script.push q.close) = .ok (batches ++ more) := by
  obtain ⟨pieces, w, hp⟩ := hx.exists_passage ho.separator false
  have htext : text = sources pieces := by rw [hp.text_eq, List.append_nil]
  have hpassage (body : List Char) :
      Passage o false (text ++ q.opener :: body) pieces w (q.opener :: body) :=
    hp.append_behind ho (.opener hq hx.line hlast body)
  have hhalt : Halt o w (q.opener :: body) (some { construct := q.construct, before := 0 }) :=
    .fault (.unclosed (.openQuoted hq hbody))
  have hpush : (script.push q.close).toList = text ++ q.opener :: (body ++ [q.close]) := by
    rw [String.toList_push, hscript, List.append_assoc, List.cons_append]
  have hquoted : Hiding.Hides o (q.opener :: (body ++ [q.close]))
      (.quoted (q.opener :: (body ++ [q.close])).length) := by
    rw [List.length_cons, List.length_append]
    exact .quoted hq (Quoted.body?_append_delimiter hbody)
  have hclosed : blindFault? o {} (script.push q.close).toList = none := by
    rw [hpush, blindFault?_of_passage {} ho.separator (hpassage _), Clear.of_quoted hquoted,
      List.drop_length, blindFault?]
  obtain ⟨more, hmore⟩ := exists_split_of_passage ho.separator (hpush ▸ hpassage _) hclosed
  refine ⟨_, more, ?_, hmore⟩
  rw [htext]
  exact fails_of_halt (hscript ▸ hpassage body) hhalt

end

/-! ### Malformed scripts -/

section

variable {o : Options}

theorem toList_append_closers (script : String) (k : Nat) :
    (script ++ String.join (List.replicate k " */")).toList =
      script.toList ++ Comment.closers k := by
  rw [String.toList_append, String.toList_join, List.flatMap, List.map_replicate, Comment.closers]

/-- Where reading stops the script is whole up to the opener. -/
theorem exists_whole_of_fault (ho : HasWordSeparator o) {script : List Char} {pieces : List Piece}
    {w : Bool} {rest : List Char} {fault : Fault} (hp : Passage o false script pieces w rest)
    (h : Outlook.Shows o w rest (.fault fault)) :
    ∃ text, script = text ++ rest.drop fault.before ∧ Reads o script text.length ∧ Whole o text ∧
      (({} : Position).after (sources pieces)).after (rest.take fault.before) =
        ({} : Position).after text := by
  have hopens : Opens o script
      { construct := fault.construct, before := (sources pieces).length + fault.before } := by
    refine .add (reads_of_passage ho hp) ?_
    rw [hp.text_eq, List.drop_left]
    exact opens_of_fault ho h
  have htake : script.take ((sources pieces).length + fault.before) =
      sources pieces ++ rest.take fault.before := by
    rw [hp.text_eq, List.take_length_add_append]
  refine ⟨script.take ((sources pieces).length + fault.before), ?_, ?_, hopens.whole, ?_⟩
  · rw [htake, List.append_assoc, List.take_append_drop]
    exact hp.text_eq
  · rw [List.length_take_of_le hopens.reads.le_length]
    exact hopens.reads
  · rw [htake, Position.after_append]

/-- **Closing.** Where the keywords are words, as the usual ones are, a script fails only on what it
leaves open, and that alone is reported. Quoted text left open takes the delimiter that closes it,
and the script is split. A block comment is reported with a depth of one at least; the script is
split with as many closing delimiters as that, and with fewer of them it fails with the same error.
The batches given before the error come first in what the closed script is split into. -/
theorem split_closed (ho : HasWordKeywords o) {script : String} {f : Failure}
    (h : split o script = .error f) :
    ∃ (e : Malformed) (batches more : List Batch), f = .malformed e ∧ Fails o script batches e ∧
      ((∃ q, Quotation.ofOpener? o q.opener = some q ∧ e.construct = q.construct ∧
          (splitLogged o script).2.filter Event.isUnclosed =
            [.unclosedQuote e.line e.column q.opener] ∧
          split o (script.push q.close) = .ok (batches ++ more)) ∨
        ∃ depth, e.construct = .blockComment ∧ 1 ≤ depth ∧
          (splitLogged o script).2.filter Event.isUnclosed =
            [.unclosedComment e.line e.column depth] ∧
          split o (script ++ String.join (List.replicate depth " */")) = .ok (batches ++ more) ∧
          ∀ k < depth, Fails o (script ++ String.join (List.replicate k " */")) batches e) := by
  obtain ⟨pieces, w, rest, fault, hp, hh⟩ := exists_passage o false script.toList
  have hsplit := split_of_passage hp hh
  cases hh with
  | finished =>
      rw [h] at hsplit
      cases hsplit
  | @fault _ fault shows =>
      obtain ⟨event, hreported, hlog⟩ := unclosed_of_fault hp (.fault shows)
      obtain ⟨text, hscript, hreads, hwhole, hafter⟩ :=
        exists_whole_of_fault ho.separator hp shows
      have hf {batches : List Batch} {e : Malformed} (hfails : Fails o script batches e) :
          f = .malformed e := Except.error.inj (h.symm.trans hfails.split)
      cases hreported with
      | @quote q body construct hq hrest hn =>
          rw [hrest] at hscript
          have hlast (hclose : q.close = q.opener) : text.getLast? ≠ some q.opener := by
            have hne := hreads.getLast?_ne hq hclose (by rw [hscript, List.drop_left]; rfl)
            rwa [hscript, List.take_left] at hne
          obtain ⟨batches, more, hfails, hmore⟩ :=
            exists_fails_of_quote ho hq hwhole hlast hn hscript
          rw [hafter] at hlog
          exact ⟨_, batches, more, hf hfails, hfails, .inl ⟨q, hq, rfl, hlog, hmore⟩⟩
      | @comment depth construct hb =>
          obtain ⟨inside, hinside⟩ : ∃ inside, rest.drop fault.before = opened inside := by
            rw [Comment.block?.eq_def] at hb
            split at hb
            · exact ⟨_, by assumption⟩
            · cases hb
          rw [hinside] at hscript hb
          obtain ⟨inner, hdepth⟩ := Comment.exists_depth hb
          obtain ⟨batches, hbatches⟩ := exists_fails ho hwhole
          have hclosers (k : Nat) := hbatches (script ++ String.join (List.replicate k " */"))
            (inside ++ Comment.closers k)
            (by rw [toList_append_closers, hscript, List.append_assoc]; rfl)
          obtain ⟨more, hmore⟩ := (hclosers depth).2 (Comment.block?_closers hb)
          have hfails := (hbatches script inside hscript).1 depth hb
          rw [hafter] at hlog
          refine ⟨_, batches, more, hf hfails, hfails,
            .inr ⟨depth, rfl, by omega, hlog, hmore, fun k hk => ?_⟩⟩
          exact (hclosers k).1 _ (Comment.block?_closers_of_lt hb hk)

/-- A comment in a comment, with a slash behind its opener that closes nothing. Two delimiters close
what is open, and one does not. -/
theorem closed_of_nested_comment :
    split {} "a\ngo /* b /*/" = .error (.malformed ⟨.blockComment, 2, 4⟩) ∧
      (splitLogged {} "a\ngo /* b /*/").2.filter Event.isUnclosed = [.unclosedComment 2 4 2] ∧
      ∃ batches more, Fails {} "a\ngo /* b /*/" batches ⟨.blockComment, 2, 4⟩ ∧
        Fails {} ("a\ngo /* b /*/" ++ " */") batches ⟨.blockComment, 2, 4⟩ ∧
        split {} ("a\ngo /* b /*/" ++ " */ */") = .ok (batches ++ more) := by
  have ho : HasWordKeywords {} := SeparatesByGo.hasWordKeywords ⟨rfl, rfl⟩
  have hfails (script : String) (h : blindFault? {} {} script.toList = some ⟨.blockComment, 2, 4⟩) :
      split {} script = .error (.malformed ⟨.blockComment, 2, 4⟩) :=
    (split_error_iff_blindFault? ho.separator _).2 ⟨_, h, rfl⟩
  have hnone := hfails "a\ngo /* b /*/" (by decide +kernel)
  have hone := hfails ("a\ngo /* b /*/" ++ " */") (by decide +kernel)
  have hpieces : pieces? {} 4 false ("a\ngo /* b /*/" ++ " */ */").toList =
      some [.ordinary 'a', .ordinary '\n', .separator .once "go /* b /*/ */ */".toList] := by
    decide +kernel
  obtain ⟨e, batches, more, he, hbatches, ⟨q, hq, hconstruct, -, -⟩ |
    ⟨depth, -, hdepth, hlog, hmore, hall⟩⟩ := split_closed ho hnone
  · obtain rfl := Failure.malformed.inj he
    rcases Quotation.kinds_of_ofOpener? hq with ⟨-, rfl⟩ | ⟨-, -, rfl⟩ | ⟨-, -, rfl⟩ <;>
      cases hconstruct
  · obtain rfl := Failure.malformed.inj he
    have htwo : depth = 2 := by
      rcases Nat.lt_trichotomy depth 2 with hlt | heq | hgt
      · obtain rfl : depth = 1 := by omega
        exact absurd (hmore.symm.trans hone) (by simp)
      · exact heq
      · exact absurd ((hall 2 hgt).split.symm.trans (split_of_pieces? hpieces)) (by simp)
    subst htwo
    exact ⟨hnone, hlog, batches, more, hbatches, hall 1 (by decide), hmore⟩

end

end BatchScript
