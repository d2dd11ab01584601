import BatchScript.Proofs.Extent
import Mathlib.Data.List.TakeWhile

/-!
# The grammar of comments and gaps

What comments and gaps are made of, said without a reader. A block comment holds other block
comments and characters at which no delimiter begins, in front of the closer that ends it. A gap is
a sequence of spaces, tabs and block comments. The readers of the library count how deep they are
and how far they have come; here they are shown to find exactly what the grammar describes.

## Main results

* `Comment.block?_append_iff` — a block comment is found in front of a text exactly if it is one.
* `Comment.block?_unclosed_iff` — a block comment is found open exactly if it opens and no
  beginning of the text is one.
* `Comment.isBlock_prefix_unique` — no block comment begins another.
* `Scan.blockComment_iff_isBlock` — the scan at the cursor passes over the block comment there,
  changes nothing where none opens, and otherwise fails at the opener.
* `Comment.line?_append_iff` — a line comment is found up to the end of its line.
* `Gap.longest_iff` — the gap that is passed over is the longest that the text begins with.
-/

namespace BatchScript

/-- The longest stretch of a kind that a text begins with, and what follows it. -/
structure Longest (kind : List Char → Prop) (stretch rest : List Char) : Prop where
  holds : kind stretch
  longest : ∀ other behind, other ++ behind = stretch ++ rest → kind other →
    other.length ≤ stretch.length

/-- The longest run of a class ends where the class ends. -/
theorem longest_run_iff {p : Char → Bool} {run rest : List Char} :
    Longest (fun run => ∀ c ∈ run, p c = true) run rest ↔
      (∀ c ∈ run, p c = true) ∧ ∀ c ∈ rest.head?, p c = false := by
  constructor
  · rintro ⟨hrun, hlongest⟩
    refine ⟨hrun, fun c hc => Bool.eq_false_iff.2 fun hp => ?_⟩
    obtain ⟨tail, rfl⟩ := List.head?_eq_some_iff.1 hc
    have hall : ∀ d ∈ run ++ [c], p d = true := by
      rw [List.forall_mem_append]
      exact ⟨hrun, by simpa using hp⟩
    have hle := hlongest (run ++ [c]) tail (by simp) hall
    rw [List.length_append, List.length_singleton] at hle
    omega
  · rintro ⟨hrun, hstop⟩
    refine ⟨hrun, fun other behind heq hother => ?_⟩
    have htake : (run ++ rest).takeWhile p = run := by
      rw [takeWhile_append_of_stop hstop, List.takeWhile_eq_self_iff.2 hrun]
    have hprefix : other <+: (run ++ rest).takeWhile p := by
      rw [← heq, List.takeWhile_append_of_pos hother]
      exact List.prefix_append _ _
    rw [htake] at hprefix
    exact hprefix.length_le

/-! ### Block comments -/

namespace Comment

/-- Whether two characters next to each other open or close a block comment. -/
def Delimits (c d : Char) : Prop :=
  (c = '/' ∧ d = '*') ∨ (c = '*' ∧ d = '/')

/-- What may stand in a block comment in front of the closer that ends it: block comments, and
characters at which no delimiter begins. The closer is in view of the last of them. -/
inductive Inside : List Char → Prop
  | nil : Inside []
  | nested {inner body : List Char} (first : Inside inner) (more : Inside body) :
      Inside ('/' :: '*' :: (inner ++ '*' :: '/' :: body))
  | char {c : Char} {body : List Char} (free : ∀ d ∈ (body ++ ['*']).head?, ¬ Delimits c d)
      (more : Inside body) : Inside (c :: body)

/-- A complete block comment. -/
def IsBlock (text : List Char) : Prop :=
  ∃ body, Inside body ∧ text = '/' :: '*' :: (body ++ ['*', '/'])

/-- A text that opens a block comment which it does not close. -/
def LeftOpen (text : List Char) : Prop :=
  ['/', '*'] <+: text ∧ ∀ comment, comment <+: text → ¬ IsBlock comment

variable {text : List Char} {n outer passed : Nat}

/-- Where a closer follows, it is the character in view of what stands in front of it. -/
theorem head?_append_closer (body rest : List Char) :
    (body ++ '*' :: rest).head? = (body ++ ['*']).head? := by
  cases body <;> rfl

/-- What stands inside a block comment is passed over at the same depth. -/
theorem blockFrom_of_inside {body : List Char} (h : Inside body) (outer passed : Nat)
    (rest : List Char) :
    blockFrom outer passed (body ++ '*' :: '/' :: rest) =
      blockFrom outer (passed + body.length) ('*' :: '/' :: rest) := by
  induction h generalizing outer passed rest with
  | nil => rfl
  | @nested inner body _ _ ihinner ihbody =>
      have hlen : passed + 2 + inner.length + 2 + body.length =
          passed + ('/' :: '*' :: (inner ++ '*' :: '/' :: body)).length := by
        simp
        omega
      simp only [List.cons_append, List.append_assoc]
      rw [blockFrom, ihinner, blockFrom, ihbody, hlen]
  | @char c body free _ ih =>
      obtain ⟨d, tail, htail⟩ : ∃ d tail, body ++ '*' :: '/' :: rest = d :: tail := by
        cases body <;> exact ⟨_, _, rfl⟩
      have hfree : ¬ Delimits c d := by
        refine free d ?_
        rw [← head?_append_closer, htail]
        rfl
      have hpass : blockFrom outer passed (c :: d :: tail) =
          blockFrom outer (passed + 1) (d :: tail) :=
        blockFrom_cons tail (fun hc hd => hfree (.inl ⟨hc, hd⟩)) fun hc hd =>
          hfree (.inr ⟨hc, hd⟩)
      rw [List.cons_append, htail, hpass, ← htail, ih, List.length_cons, Nat.add_assoc,
        Nat.add_comm 1]

/-- In front of the closer that a reader finds stands what may stand inside a block comment. -/
theorem exists_inside (h : blockFrom outer passed text = .closed n) :
    ∃ body rest, Inside body ∧ text = body ++ '*' :: '/' :: rest ∧
      (outer = 0 → n = passed + body.length + 2) ∧
      ∀ depth, outer = depth + 1 → blockFrom depth (passed + body.length + 2) rest = .closed n := by
  -- The comment nested first is read by the induction, and so is what stands behind it, which is
  -- no part of the text that the reader is called on next.
  induction hk : text.length using Nat.strongRecOn generalizing outer passed text with
  | ind k ih =>
      rcases text with _ | ⟨c, _ | ⟨d, tail⟩⟩
      · cases h
      · have := bounds_of_blockFrom h
        simp at this
        omega
      by_cases hopen : c = '/' ∧ d = '*'
      · obtain ⟨rfl, rfl⟩ := hopen
        rw [blockFrom] at h
        obtain ⟨inner, mid, hinner, rfl, -, hmid⟩ := ih tail.length (by simp at hk; omega) h rfl
        have hrest := hmid outer rfl
        obtain ⟨body, rest, hbody, rfl, hzero, hsucc⟩ :=
          ih mid.length (by simp at hk; omega) hrest rfl
        have hlen : passed + 2 + inner.length + 2 + body.length =
            passed + ('/' :: '*' :: (inner ++ '*' :: '/' :: body)).length := by
          simp
          omega
        rw [hlen] at hzero hsucc
        exact ⟨_, rest, .nested hinner hbody, by simp, hzero, hsucc⟩
      · by_cases hclose : c = '*' ∧ d = '/'
        · obtain ⟨rfl, rfl⟩ := hclose
          refine ⟨[], tail, .nil, rfl, ?_, ?_⟩
          · rintro rfl
            cases h
            rfl
          · rintro depth rfl
            exact h
        · rw [blockFrom_cons tail (fun hc hd => hopen ⟨hc, hd⟩) fun hc hd => hclose ⟨hc, hd⟩] at h
          obtain ⟨body, rest, hbody, htext, hzero, hsucc⟩ :=
            ih (d :: tail).length (by simp at hk ⊢; omega) h rfl
          have hfree : ∀ e ∈ (body ++ ['*']).head?, ¬ Delimits c e := by
            intro e he
            rw [← head?_append_closer, ← htext] at he
            obtain rfl : d = e := Option.some.inj he
            rintro (hc | hc)
            · exact hopen hc
            · exact hclose hc
          have hlen : passed + 1 + body.length = passed + (c :: body).length := by
            simp
            omega
          rw [hlen] at hzero hsucc
          exact ⟨c :: body, rest, .char hfree hbody, by rw [htext]; rfl, hzero, hsucc⟩

/-- A block comment is found in front of a text exactly if it is one. -/
theorem block?_append_iff {comment rest : List Char} :
    block? (comment ++ rest) = some (.closed comment.length) ↔ IsBlock comment := by
  constructor
  · intro h
    have hn := four_le_of_block? h
    obtain ⟨c, d, tail, rfl⟩ : ∃ c d tail, comment = c :: d :: tail := by
      rcases comment with _ | ⟨c, _ | ⟨d, tail⟩⟩
      · simp at hn
      · simp at hn
      · exact ⟨c, d, tail, rfl⟩
    have hopen : c = '/' ∧ d = '*' := by
      refine Classical.byContradiction fun hopen => ?_
      rw [List.cons_append, List.cons_append, block?_eq_none_iff.2 hopen] at h
      cases h
    obtain ⟨rfl, rfl⟩ := hopen
    obtain ⟨body, behind, hbody, htext, hlen, -⟩ := exists_inside (Option.some.inj h)
    have hlen := hlen rfl
    have hsplit : tail ++ rest = (body ++ ['*', '/']) ++ behind := by
      simpa using htext
    have htail : tail = body ++ ['*', '/'] := by
      refine (List.append_inj hsplit ?_).1
      simp at hlen ⊢
      omega
    exact ⟨body, hbody, by rw [htail]⟩
  · rintro ⟨body, hbody, rfl⟩
    have hlen : 2 + body.length + 2 = ('/' :: '*' :: (body ++ ['*', '/'])).length := by
      simp
      omega
    simp only [List.cons_append, List.append_assoc, List.nil_append, block?]
    rw [blockFrom_of_inside hbody, blockFrom, hlen]

/-- A block comment found is the beginning of the text. -/
theorem isBlock_take (h : block? text = some (.closed n)) : IsBlock (text.take n) := by
  have hlen : (text.take n).length = n := by
    rw [List.length_take, Nat.min_eq_left (block?_le h)]
  have hblock : block? (text.take n ++ text.drop n) = some (.closed (text.take n).length) := by
    rw [List.take_append_drop, hlen, h]
  exact block?_append_iff.1 hblock

/-- A block comment is found open exactly if it opens and no beginning of the text is one. -/
theorem block?_unclosed_iff :
    (∃ depth, block? text = some (.unclosed depth)) ↔ LeftOpen text := by
  constructor
  · rintro ⟨depth, h⟩
    refine ⟨?_, ?_⟩
    · rw [block?.eq_def] at h
      split at h
      · exact ⟨_, rfl⟩
      · cases h
    · rintro comment ⟨rest, rfl⟩ hblock
      rw [block?_append_iff.2 hblock] at h
      cases h
  · rintro ⟨⟨rest, rfl⟩, hnone⟩
    cases hb : block? (['/', '*'] ++ rest) with
    | none => cases hb
    | some extent =>
        cases extent with
        | unclosed depth => exact ⟨depth, rfl⟩
        | closed n => exact absurd (isBlock_take hb) (hnone _ (List.take_prefix _ _))

/-- A block comment found closed is the beginning of the text that is one. -/
theorem block?_eq_closed_iff_isBlock :
    block? text = some (.closed n) ↔
      ∃ comment rest, text = comment ++ rest ∧ n = comment.length ∧ IsBlock comment := by
  constructor
  · intro h
    refine ⟨text.take n, text.drop n, (List.take_append_drop n text).symm, ?_, isBlock_take h⟩
    rw [List.length_take, Nat.min_eq_left (block?_le h)]
  · rintro ⟨comment, rest, rfl, rfl, h⟩
    exact block?_append_iff.2 h

/-- A text begins with no block comment exactly if it does not begin with an opener. -/
theorem block?_eq_none_iff_prefix : block? text = none ↔ ¬ ['/', '*'] <+: text := by
  rw [block?.eq_def]
  split
  · simp
  · rename_i h
    simp only [true_iff]
    rintro ⟨rest, rfl⟩
    exact h rest rfl

/-- No block comment begins another: a text begins with one at most. -/
theorem isBlock_prefix_unique {one other : List Char} (hone : one <+: text)
    (hother : other <+: text) (h : IsBlock one) (h' : IsBlock other) : one = other := by
  obtain ⟨rest, rfl⟩ := hone
  obtain ⟨behind, heq⟩ := hother
  have hread : block? (one ++ rest) = some (.closed other.length) := by
    rw [← heq, block?_append_iff.2 h']
  rw [block?_append_iff.2 h] at hread
  have hlen : other.length = one.length := by simpa using hread.symm
  exact (List.append_inj heq hlen).1.symm

/-! ### Line comments -/

/-- A line comment with what follows it: it goes on to the end of its line. -/
structure IsLine (comment rest : List Char) : Prop where
  opens : ['-', '-'] <+: comment
  inline : '\n' ∉ comment
  ends : ∀ c ∈ rest.head?, c = '\n'

/-- A line comment is found up to the end of its line. -/
theorem line?_append_iff {comment rest : List Char} :
    line? (comment ++ rest) = some comment.length ↔ IsLine comment rest := by
  constructor
  · intro h
    have htwo := two_le_of_line? h
    have hends := head?_drop_of_line? h
    rw [List.drop_left] at hends
    have hline := line?_of_append h (Nat.le_refl _)
    rw [line?.eq_def] at hline
    split at hline
    · rename_i body
      have hlen : (body.takeWhile (· != '\n')).length = body.length := by
        simp at hline
        omega
      have hbody := (List.takeWhile_prefix (p := (· != '\n'))).eq_of_length hlen
      refine ⟨⟨body, rfl⟩, ?_, hends⟩
      have hall := List.takeWhile_eq_self_iff.1 hbody
      simpa using fun hmem => hall '\n' hmem
    · cases hline
  · rintro ⟨⟨body, rfl⟩, hinline, hends⟩
    have hbody : ∀ c ∈ body, (c != '\n') = true := by
      rintro c hc
      refine bne_iff_ne.2 ?_
      rintro rfl
      exact hinline (List.mem_append_right _ hc)
    have hstop : ∀ c ∈ rest.head?, (c != '\n') = false := fun c hc => by simp [hends c hc]
    have htake : (body ++ rest).takeWhile (· != '\n') = body := by
      rw [takeWhile_append_of_stop hstop, List.takeWhile_eq_self_iff.2 hbody]
    simp [line?, htake, Nat.add_comm 2]

/-- A line comment found is the beginning of the text up to the end of its line. -/
theorem line?_eq_some_iff :
    line? text = some n ↔
      ∃ comment rest, text = comment ++ rest ∧ n = comment.length ∧ IsLine comment rest := by
  constructor
  · intro h
    have hlen : (text.take n).length = n := by
      rw [List.length_take, Nat.min_eq_left (line?_le h)]
    refine ⟨text.take n, text.drop n, (List.take_append_drop n text).symm, hlen.symm, ?_⟩
    refine line?_append_iff.1 ?_
    rw [List.take_append_drop, hlen, h]
  · rintro ⟨comment, rest, rfl, rfl, h⟩
    exact line?_append_iff.2 h

/-- A text begins with no line comment exactly if it does not begin with two dashes. -/
theorem line?_eq_none_iff_prefix : line? text = none ↔ ¬ ['-', '-'] <+: text := by
  rw [line?.eq_def]
  split
  · simp
  · rename_i h
    simp only [true_iff]
    rintro ⟨rest, rfl⟩
    exact h rest rfl

end Comment

/-! ### Gaps -/

namespace Gap

/-- A sequence of spaces, tabs and block comments. -/
inductive IsGap : List Char → Prop
  | nil : IsGap []
  | linear {c : Char} {gap : List Char} (blank : isLinear c = true) (more : IsGap gap) :
      IsGap (c :: gap)
  | comment {comment gap : List Char} (block : Comment.IsBlock comment) (more : IsGap gap) :
      IsGap (comment ++ gap)

variable {gap rest : List Char}

/-- Two gaps are a gap. -/
theorem IsGap.append {more : List Char} (h : IsGap gap) (h' : IsGap more) :
    IsGap (gap ++ more) := by
  induction h with
  | nil => exact h'
  | linear blank _ ih => exact .linear blank ih
  | comment block _ ih =>
      rw [List.append_assoc]
      exact .comment block ih

/-- A gap in front of a text is passed over. -/
theorem length_append_of_isGap (h : IsGap gap) (rest : List Char) :
    length (gap ++ rest) = gap.length + length rest := by
  induction h with
  | nil => simp
  | linear blank _ ih =>
      rw [List.cons_append, length_cons_of_isLinear blank, ih, List.length_cons]
      omega
  | @comment comment gap block _ ih =>
      have hblock : Comment.block? (comment ++ (gap ++ rest)) = some (.closed comment.length) :=
        Comment.block?_append_iff.2 block
      rw [List.append_assoc, length_of_closed hblock, List.drop_left, ih, List.length_append]
      omega

/-- What is passed over is a gap. -/
theorem isGap_take_length (text : List Char) : IsGap (text.take (length text)) := by
  induction text using Gap.induction with
  | nil => simpa using IsGap.nil
  | linear c rest hc ih =>
      rw [length_cons_of_isLinear hc, List.take_succ_cons]
      exact .linear hc ih
  | comment text n h ih =>
      rw [length_of_closed h, List.take_add]
      exact .comment (Comment.isBlock_take h) ih
  | other c rest hc h =>
      rw [length_eq_zero hc h]
      exact .nil

/-- The gap that is passed over is the longest that the text begins with. -/
theorem longest_iff :
    Longest IsGap gap rest ↔ IsGap gap ∧ length (gap ++ rest) = gap.length := by
  constructor
  · rintro ⟨hgap, hlongest⟩
    refine ⟨hgap, Nat.le_antisymm ?_ ?_⟩
    · have hle := hlongest _ _ (List.take_append_drop (length (gap ++ rest)) _)
        (isGap_take_length _)
      rwa [List.length_take, Nat.min_eq_left (length_le _)] at hle
    · rw [length_append_of_isGap hgap]
      exact Nat.le_add_right _ _
  · rintro ⟨hgap, hlength⟩
    refine ⟨hgap, fun other behind heq hother => ?_⟩
    rw [← hlength, ← heq, length_append_of_isGap hother]
    exact Nat.le_add_right _ _

theorem longest_take (text : List Char) :
    Longest IsGap (text.take (length text)) (text.drop (length text)) := by
  refine longest_iff.2 ⟨isGap_take_length text, ?_⟩
  rw [List.take_append_drop, List.length_take, Nat.min_eq_left (length_le text)]

/-- A gap in front of what no gap goes on with is the longest. -/
theorem longest_of_length_eq_zero (hgap : IsGap gap) (hrest : length rest = 0) :
    Longest IsGap gap rest :=
  longest_iff.2 ⟨hgap, by rw [length_append_of_isGap hgap, hrest, Nat.add_zero]⟩

/-- A gap is read exactly if it is the longest and the text behind it leaves no block comment
open. -/
theorem read_eq_ok_iff {text : List Char} {n : Nat} :
    read text = .ok n ↔
      ∃ gap rest, text = gap ++ rest ∧ n = gap.length ∧ Longest IsGap gap rest ∧
        ¬ Comment.LeftOpen rest := by
  rw [read_eq_ok]
  constructor
  · rintro ⟨rfl, hb⟩
    refine ⟨_, _, (List.take_append_drop (length text) text).symm, ?_, longest_take text, ?_⟩
    · rw [List.length_take, Nat.min_eq_left (length_le text)]
    · rw [← Comment.block?_unclosed_iff, hb]
      rintro ⟨depth, h⟩
      cases h
  · rintro ⟨gap, rest, rfl, rfl, hlongest, hopen⟩
    have hlength := (longest_iff.1 hlongest).2
    refine ⟨hlength.symm, ?_⟩
    have hclosed := block?_drop_length (gap ++ rest)
    rw [hlength, List.drop_left] at hclosed
    rw [List.drop_left]
    rw [← Comment.block?_unclosed_iff] at hopen
    rcases hb : Comment.block? rest with _ | n | depth
    · rfl
    · exact absurd hb (hclosed n)
    · exact absurd ⟨depth, hb⟩ hopen

/-- A gap is not read exactly if the text behind the longest one leaves a block comment open. -/
theorem read_eq_error_iff {text : List Char} {e : Opening} :
    read text = .error e ↔
      ∃ gap rest, text = gap ++ rest ∧ e.before = gap.length ∧ Longest IsGap gap rest ∧
        Comment.block? rest = some (.unclosed e.depth) := by
  rw [read_eq_error]
  constructor
  · rintro ⟨he, hb⟩
    rw [he] at hb
    refine ⟨_, _, (List.take_append_drop (length text) text).symm, ?_, longest_take text, hb⟩
    rw [he, List.length_take, Nat.min_eq_left (length_le text)]
  · rintro ⟨gap, rest, rfl, he, hlongest, hb⟩
    rw [he, List.drop_left]
    exact ⟨(longest_iff.1 hlongest).2.symm, hb⟩

end Gap

/-! ### Block comments at the cursor -/

namespace Scan

variable {r r' : Reading}

/-- No comment is found exactly where none opens, and then nothing changes. -/
theorem blockComment_eq_false_iff :
    blockComment r = .ok false r' ↔ ¬ ['/', '*'] <+: r.cursor.ahead ∧ r' = r := by
  rw [← Comment.block?_eq_none_iff_prefix, blockComment_run]
  rcases Comment.block? r.cursor.ahead with _ | n | depth
  · simp [eq_comm]
  · simp
  · simp

/-- A comment is found exactly if the text ahead begins with one, and it is passed over. -/
theorem blockComment_eq_true_iff :
    blockComment r = .ok true r' ↔
      ∃ comment rest, r.cursor.ahead = comment ++ rest ∧ Comment.IsBlock comment ∧
        r' = r.skip comment.length := by
  have hfound : blockComment r = .ok true r' ↔
      ∃ n, Comment.block? r.cursor.ahead = some (.closed n) ∧ r' = r.skip n := by
    rw [blockComment_run]
    rcases Comment.block? r.cursor.ahead with _ | n | depth
    · simp
    · simp [eq_comm]
    · simp
  simp only [hfound, Comment.block?_eq_closed_iff_isBlock]
  constructor
  · rintro ⟨n, ⟨comment, rest, htext, rfl, h⟩, hr⟩
    exact ⟨comment, rest, htext, h, hr⟩
  · rintro ⟨comment, rest, htext, h, hr⟩
    exact ⟨_, ⟨comment, rest, htext, rfl, h⟩, hr⟩

/-- The scan fails exactly if a comment is left open. -/
theorem blockComment_error_iff :
    (∃ failure r', blockComment r = .error failure r') ↔ Comment.LeftOpen r.cursor.ahead := by
  rw [← Comment.block?_unclosed_iff, blockComment_run]
  rcases Comment.block? r.cursor.ahead with _ | n | depth
  · simp
  · simp
  · exact ⟨fun _ => ⟨depth, rfl⟩, fun _ => ⟨_, _, rfl⟩⟩

/-- The failure names the opener, and stands at the end of the script. -/
theorem blockComment_error {failure : Failure} (h : blockComment r = .error failure r') :
    r'.cursor = r.cursor.skip r.cursor.ahead.length ∧
      failure =
        .malformed
          { construct := .blockComment, line := r.cursor.position.line,
            column := r.cursor.position.column } := by
  rw [blockComment_run] at h
  split at h
  · cases h
  · cases h
    exact ⟨rfl, rfl⟩
  · cases h

/-- **Block comments are recognised exactly.** At any place the scan answers that there is none,
and changes nothing, exactly where none opens. It answers that there is one exactly if a beginning
of the text ahead is a comment by the grammar; only one beginning can be, and that is what the
scan passes over. Where a comment opens and no beginning of the text is one, it reads to the end
of the script and fails with the line and column of the opener. -/
theorem blockComment_iff_isBlock (r : Reading) :
    (∀ r', blockComment r = .ok false r' ↔ ¬ ['/', '*'] <+: r.cursor.ahead ∧ r' = r) ∧
    (∀ r', blockComment r = .ok true r' ↔
      ∃ comment rest, r.cursor.ahead = comment ++ rest ∧ Comment.IsBlock comment ∧
        r' = r.skip comment.length) ∧
    (∀ one other, one <+: r.cursor.ahead → other <+: r.cursor.ahead →
      Comment.IsBlock one → Comment.IsBlock other → one = other) ∧
    ((∃ failure r', blockComment r = .error failure r') ↔ Comment.LeftOpen r.cursor.ahead) ∧
    ∀ failure r', blockComment r = .error failure r' →
      r'.cursor = r.cursor.skip r.cursor.ahead.length ∧ r'.cursor.ahead = [] ∧
      failure =
        .malformed
          { construct := .blockComment, line := r.cursor.position.line,
            column := r.cursor.position.column } := by
  refine ⟨fun _ => blockComment_eq_false_iff, fun _ => blockComment_eq_true_iff,
    fun _ _ => Comment.isBlock_prefix_unique, blockComment_error_iff, fun failure r' h => ?_⟩
  obtain ⟨hcur, hfailure⟩ := blockComment_error h
  exact ⟨hcur, by rw [hcur, Cursor.ahead_skip, List.drop_length], hfailure⟩

/-- In `/*/` the slash does not close what it opens. -/
example : Comment.LeftOpen "/*/".toList :=
  Comment.block?_unclosed_iff.1 ⟨1, by decide⟩

end Scan

end BatchScript
