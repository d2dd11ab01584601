import BatchScript.Proofs.Lockstep
import BatchScript.Proofs.Respelling

/-!
# Respelled scripts are split alike

A script and its respelling are read in lockstep, each with its own options, if the keywords of the
options are found in the same places. The two readings are level with each other at the same line
and column, but for two kinds of places. What is put in front of a line feed is read as text of its
own, which only the respelled script has. And a line comment takes it along; behind the comment the
respelled script is ahead of the other by it, up to the line feed.

## Main results

* `Verdict.echo_ofText` — what statement a text begins with, in the respelled text.
* `lockstep_behind` — behind a comment or a statement the readings go on in lockstep.
* `lockstep_respell` — a script and its respelling are read in lockstep.
* `alike_respell` — they fail alike, or are split into batches pairwise alike.
-/

namespace BatchScript

/-! ### Options that go with a respelling -/

/-- Options for scripts, and options for the respelled ones. The keywords are found in the same
places, nothing else differs, and what is put in front of a line feed stands out of the way of
keywords, as then does the line feed. -/
structure Respelling.Fits (r : Respelling) (o o' : Options) : Prop where
  eq_with : o' = { o with separator := o'.separator, lookalikes := o'.lookalikes }
  isEmpty_eq : o'.separator.isEmpty = o.separator.isEmpty
  begins_eq : ∀ text, AsciiCase.begins o'.separator.toList (r.respell text) =
    AsciiCase.begins o.separator.toList text
  image_eq : ∀ text, AsciiCase.begins o.separator.toList text = true →
    r.image text o.separator.toList.length = o'.separator.toList.length
  lookalikes_eq : ∀ text,
    (o'.lookalikes.any fun l => AsciiCase.begins l.toList (r.respell text)) =
      o.lookalikes.any fun l => AsciiCase.begins l.toList text
  isNone_lead : r.lead = [] ∨ ∀ c ∈ '\n' :: r.lead, ∀ rest,
    (Verdict.ofText o (c :: rest)).isNone = true ∧ (Verdict.ofText o' (c :: rest)).isNone = true

section Fits

variable {r : Respelling} {o o' : Options}

namespace Respelling.Fits

theorem quoteAlike (hf : r.Fits o o') : QuoteAlike o o' := by
  constructor <;> rw [hf.eq_with]

theorem finishAlike (hf : r.Fits o o') : o.FinishAlike o' := by
  constructor <;> rw [hf.eq_with]

theorem keepComments_eq (hf : r.Fits o o') : o'.keepComments = o.keepComments := by
  rw [hf.eq_with]

theorem wordBoundaries_eq (hf : r.Fits o o') : o'.wordBoundaries = o.wordBoundaries := by
  rw [hf.eq_with]

theorem hides (hf : r.Fits o o') {text : List Char} {found : Hiding}
    (h : Hiding.Hides o text found) : Hiding.Hides o' text found :=
  Hiding.ofText_eq_iff.1 ((hf.quoteAlike.ofText_eq text).symm.trans h.eq_ofText)

end Respelling.Fits

/-- What statement a text begins with, in the respelled text. -/
theorem Verdict.echo_ofText (hf : r.Fits o o') (text : List Char) :
    Echo r text (ofText o text) (ofText o' (r.respell text)) := by
  obtain ⟨blanks, hblanks⟩ : ∃ blanks, blanks = text.takeWhile isLinear := ⟨_, rfl⟩
  have hrun := Respelling.takeWhile_respell (r := r) (fun _ => Respelling.isMark_of_isLinear) text
  have himage := r.image_takeWhile (fun _ => Respelling.isMark_of_isLinear) text
  have hkeyword := r.drop_takeWhile_respell (fun _ => Respelling.isMark_of_isLinear) text
  rw [← hblanks] at himage hkeyword
  simp only [ofText, hrun.1, ← hblanks, hkeyword, hf.isEmpty_eq, hf.lookalikes_eq, hf.begins_eq]
  split
  · exact .absent
  · split
    · rename_i hbegins
      have hlength := hf.image_eq _ hbegins
      have htail : ofTail o' = ofTail o := by
        funext t
        rw [ofTail, ofTail, hf.wordBoundaries_eq]
      have hbehind : (r.respell (text.drop blanks.length)).drop o'.separator.toList.length =
          r.respell ((text.drop blanks.length).drop o.separator.toList.length) := by
        rw [← hlength, r.drop_image]
      have himage' : r.image text (blanks.length + o.separator.toList.length) =
          blanks.length + o'.separator.toList.length := by
        rw [r.image_add, himage, hlength]
      rw [htail, hbehind, List.drop_drop, ← himage']
      exact (echo_ofTail r o _).shift
    · exact .absent

end Fits

/-! ### Positions -/

/-- Positions at the same line and column. -/
structure Position.Beside (p p' : Position) : Prop where
  line_eq : p.line = p'.line
  column_eq : p.column = p'.column

namespace Respelling

variable {r : Respelling} {p p' : Position}

/-- What is put in front of a line feed stands on its line. -/
theorem line_after_lead (r : Respelling) (p : Position) : (p.after r.lead).line = p.line := by
  have hcount : r.lead.count '\n' = 0 := by
    rw [List.count_eq_zero]
    intro hmem
    cases r.isMark_lead _ hmem
  rw [Position.line_after, hcount, Nat.add_zero]

/-- Behind a line feed a line begins. -/
theorem beside_newline (h : p.line = p'.line) :
    (p.after ['\n']).Beside (p'.after ['\n']) :=
  ⟨congrArg (· + 1) h, rfl⟩

/-- Behind a text and behind the respelled one positions are at the same line and column. -/
theorem beside_after (h : p.Beside p') (text : List Char) :
    (p.after text).Beside (p'.after (r.respell text)) := by
  induction text generalizing p p' with
  | nil => exact h
  | cons c rest ih =>
      by_cases hc : c = '\n'
      · subst hc
        have hline : p.line = (p'.after r.lead).line := by rw [r.line_after_lead, h.line_eq]
        rw [r.respell_newline, Position.after_append]
        exact ih (beside_newline hline)
      · have hc' : r.char c ≠ '\n' := fun heq => hc ((char_eq_iff rfl).1 heq)
        rw [r.respell_cons hc]
        refine ih ?_
        rw [Position.advance, Position.advance, if_neg hc, if_neg hc']
        exact ⟨h.line_eq, congrArg (· + 1) h.column_eq⟩

end Respelling

/-! ### Reading in lockstep -/

/-- What a respelling does cannot be seen. -/
def Respelling.Unseen (r : Respelling) (f : Blur) : Prop :=
  ∀ text, f.map (r.respell text) = f.map text

namespace Respelling.Unseen

variable {r : Respelling} {f : Blur}

theorem map_lead (hu : r.Unseen f) : f.map r.lead = [] := by
  have h := hu ['\n']
  rw [r.respell_newline, r.respell_nil, f.append] at h
  exact List.append_left_eq_self.1 h

theorem map_take (hu : r.Unseen f) {text : List Char} {n n' : Nat} (h : r.Ends text n n') :
    f.map ((r.respell text).take n') = f.map (text.take n) := by
  rcases h.cases with ⟨htake, -⟩ | ⟨rest, -, -, htake, -⟩
  · rw [htake, hu]
  · rw [htake, f.append, hu.map_lead, List.append_nil, hu]

end Respelling.Unseen

/-- A character that opens nothing and begins no statement is read by itself. -/
theorem Outlook.shows_ordinary {o : Options} {c : Char} {rest : List Char} (hm : isInert c = true)
    (hl : isLinear c = false) (hv : (Verdict.ofText o (c :: rest)).isNone = true) (w : Bool) :
    Shows o w (c :: rest) (.piece (.ordinary c) rest) := by
  have hh := Hiding.hides_of_isInert (o := o) hm rest
  by_cases hw : (o.wordBoundaries && w) = true
  · exact .word hh hw
  · exact .ordinary hh (Bool.not_eq_true _ ▸ hw) hv hl

theorem isInert_of_isMark {c : Char} (h : isMark c = false) :
    isInert c = true ∧ isLinear c = false := by
  have hne (m : Char) (hm : isMark m = true) : c ≠ m := by
    rintro rfl
    rw [hm] at h
    cases h
  constructor
  · simp only [isInert, Bool.and_eq_true, bne_iff_ne, ne_eq]
    exact ⟨⟨⟨⟨hne _ rfl, hne _ rfl⟩, hne _ rfl⟩, hne _ rfl⟩, hne _ rfl⟩
  · rw [← Bool.not_eq_true]
    intro hl
    exact hne c (Respelling.isMark_of_isLinear hl).1 rfl

section Lockstep

variable {r : Respelling} {o o' : Options} {f : Blur} {p p' : Position} {text : List Char}

/-- Where both scripts are before the same line feed they are level behind it. -/
theorem lockstep_newline (hf : r.Fits o o') (hlead : r.lead ≠ []) {rest : List Char}
    (hlevel : ∀ w {q q' : Position}, q.Beside q' →
      Lockstep f o o' q w rest q' w (r.respell rest))
    (hline : p.line = p'.line) (w w' : Bool) :
    Lockstep f o o' p w ('\n' :: rest) p' w' ('\n' :: r.respell rest) := by
  have hnone := hf.isNone_lead.resolve_left hlead '\n' (by simp)
  exact .text (Outlook.shows_ordinary rfl rfl (hnone _).1 w)
    (Outlook.shows_ordinary rfl rfl (hnone _).2 w') rfl rfl hline rfl
    (hlevel _ (Respelling.beside_newline hline))

/-- What is put in front of a line feed is read by the second script alone. -/
theorem lockstep_lead (hf : r.Fits o o') (hlead : r.lead ≠ []) {rest : List Char}
    (hlevel : ∀ w {q q' : Position}, q.Beside q' →
      Lockstep f o o' q w rest q' w (r.respell rest))
    {front : List Char} (hfront : ∀ c ∈ front, c ∈ r.lead) (hmap : f.map front = [])
    (hline : p.line = p'.line) (w w' : Bool) :
    Lockstep f o o' p w ('\n' :: rest) p' w' (front ++ '\n' :: r.respell rest) := by
  induction front generalizing p' w' with
  | nil => exact lockstep_newline hf hlead hlevel hline w w'
  | cons c front ih =>
      obtain ⟨hc, hfront⟩ := List.forall_mem_cons.1 hfront
      rw [← List.singleton_append, f.append, List.append_eq_nil_iff] at hmap
      obtain ⟨hinert, hlinear⟩ := isInert_of_isMark (r.isMark_lead c hc)
      have hnone := hf.isNone_lead.resolve_left hlead c (List.mem_cons_of_mem _ hc)
      have hne : c ≠ '\n' := by
        rintro rfl
        cases r.isMark_lead _ hc
      refine .extra (Outlook.shows_ordinary hinert hlinear (hnone _).2 w') rfl ?_ ?_
      · rw [Piece.copied_ordinary]
        exact hmap.1
      · refine ih hfront hmap.2 ?_ _
        rw [hline, Piece.source, Position.after_cons, Position.after_nil, Position.advance,
          if_neg hne]

/-- Behind a piece or a statement the readings go on in lockstep. -/
theorem lockstep_behind (hf : r.Fits o o') {n n' : Nat} (hends : r.Ends text n n')
    (hlevel : ∀ more, more.length ≤ (text.drop n).length → ∀ w {q q' : Position}, q.Beside q' →
      Lockstep f o o' q w more q' w (r.respell more))
    (hp : p.Beside p') (w : Bool) :
    Lockstep f o o' (p.after (text.take n)) w (text.drop n)
      (p'.after ((r.respell text).take n')) w ((r.respell text).drop n') := by
  have hbeside := r.beside_after hp (text.take n)
  rcases hends.cases with ⟨htake, hdrop⟩ | ⟨rest, hlead, hrest, htake, hdrop⟩
  · rw [htake, hdrop]
    exact hlevel _ (Nat.le_refl _) w hbeside
  · -- A line comment has taken along what is put in front of the line feed: the columns differ, and
    -- are level again once both have read the line feed.
    rw [htake, hdrop, hrest]
    refine lockstep_newline hf hlead (hlevel rest ?_) ?_ w w
    · rw [hrest, List.length_cons]
      omega
    · rw [Position.after_append, r.line_after_lead, hbeside.line_eq]

/-- What a text goes on with, and what the respelled one goes on with. -/
inductive Outlook.Echo (r : Respelling) (f : Blur) (o o' : Options) (text : List Char) :
    Outlook → Outlook → Prop
  | fault (construct : Construct) (before : Nat) :
      Echo r f o o' text (.fault ⟨construct, before⟩) (.fault ⟨construct, r.image text before⟩)
  | text {piece piece' : Piece} {n n' : Nat} (hn : 1 ≤ n ∧ n ≤ text.length)
      (ends : r.Ends text n n') (hp : piece.isSeparator = false) (hp' : piece'.isSeparator = false)
      (source : piece.source = text.take n) (source' : piece'.source = (r.respell text).take n')
      (copied : f.map (piece.copied o) = f.map (piece'.copied o'))
      (word : piece.endsInWord = piece'.endsInWord) :
      Echo r f o o' text (.piece piece (text.drop n)) (.piece piece' ((r.respell text).drop n'))
  | statement (count : RepeatCount) {n n' : Nat} (hn : 1 ≤ n ∧ n ≤ text.length)
      (ends : r.Ends text n n') :
      Echo r f o o' text (.piece (.separator count (text.take n)) (text.drop n))
        (.piece (.separator count ((r.respell text).take n')) ((r.respell text).drop n'))

namespace Outlook

variable {first : Char} {rest : List Char}

/-- A character by itself, of which nothing is put in front. -/
theorem Echo.ordinary (o o' : Options) (hu : r.Unseen f)
    (hone : r.respell [first] = [r.char first]) :
    Echo r f o o' (first :: rest) (.piece (.ordinary first) rest)
      (.piece (.ordinary (r.char first)) (r.respell rest)) := by
  have hcons : r.respell (first :: rest) = r.char first :: r.respell rest := by
    rw [← List.singleton_append, r.respell_append, hone, List.singleton_append]
  have himage : r.image (first :: rest) 1 = 1 := congrArg List.length hone
  have h : Echo r f o o' (first :: rest) (.piece (.ordinary first) ((first :: rest).drop 1))
      (.piece (.ordinary (r.char first)) ((r.respell (first :: rest)).drop 1)) := by
    refine .text ⟨Nat.le_refl 1, by simp⟩ (.inl himage.symm) rfl rfl rfl ?_ ?_ ?_
    · rw [hcons]
      rfl
    · rw [Piece.copied_ordinary, Piece.copied_ordinary, ← hone, hu]
    · exact (r.isWord_char first).symm
  rwa [hcons] at h

/-- A run of blanks. -/
theorem Echo.blanks (r : Respelling) (f : Blur) (o o' : Options) (hl : isLinear first = true) :
    Echo r f o o' (first :: rest)
      (.piece (.blanks ((first :: rest).takeWhile isLinear)) ((first :: rest).dropWhile isLinear))
      (.piece (.blanks ((r.respell (first :: rest)).takeWhile isLinear))
        ((r.respell (first :: rest)).dropWhile isLinear)) := by
  obtain ⟨hrun, -⟩ := Respelling.takeWhile_respell (r := r)
    (fun _ => Respelling.isMark_of_isLinear) (first :: rest)
  have himage := r.image_takeWhile (fun _ => Respelling.isMark_of_isLinear) (first :: rest)
  rw [← drop_length_takeWhile, ← drop_length_takeWhile isLinear (r.respell _)]
  refine .text ⟨?_, (List.takeWhile_prefix _).length_le⟩ (.inl ?_) rfl rfl
    (List.prefix_iff_eq_take.1 (List.takeWhile_prefix _))
    (List.prefix_iff_eq_take.1 (List.takeWhile_prefix _)) ?_ rfl
  · rw [List.takeWhile_cons_of_pos hl, List.length_cons]
    omega
  · rw [hrun, himage]
  · rw [Piece.copied_blanks, Piece.copied_blanks, hrun]

/-- What a text goes on with that is not empty, if nothing is put in front of it. -/
theorem Shows.exists_respell (hf : r.Fits o o') (hu : r.Unseen f) {w : Bool} {k : Outlook}
    (hbare : first = '\n' → r.lead = []) (h : Shows o w (first :: rest) k) :
    ∃ k', Shows o' w (r.respell (first :: rest)) k' ∧ Echo r f o o' (first :: rest) k k' := by
  have hone : r.respell [first] = [r.char first] := by
    by_cases hfirst : first = '\n'
    · rw [hfirst, r.respell_newline, hbare hfirst, r.char_of_isMark '\n' rfl]
      rfl
    · exact r.respell_cons hfirst []
  have hcons : r.respell (first :: rest) = r.char first :: r.respell rest := by
    rw [← List.singleton_append, r.respell_append, hone, List.singleton_append]
  have hlinear := r.class_char (fun _ h => (Respelling.isMark_of_isLinear h).1) first
  have hecho := Verdict.echo_ofText hf (first :: rest)
  have hw_eq : (o'.wordBoundaries && w) = (o.wordBoundaries && w) := by
    rw [hf.wordBoundaries_eq]
  cases h with
  | @comment _ _ n hh =>
      have hn := Hiding.bounds_of_comment hh
      obtain ⟨n', hh', hends⟩ := hh.exists_comment_respell (r := r)
      have hh' := hf.hides hh'
      refine ⟨_, (shows_iff_copies rfl).2 ⟨.comment hh', by simp [hh'.eq_ofText]⟩,
        .text ⟨by omega, hn.2⟩ hends rfl rfl rfl rfl ?_ rfl⟩
      rw [Piece.copied_comment, Piece.copied_comment, hf.keepComments_eq]
      split
      · exact (hu.map_take hends).symm
      · rfl
  | @quoted _ _ n hh =>
      have hn := Hiding.bounds_of_quoted hh
      have hh' := hf.hides (hh.quoted_respell (r := r))
      refine ⟨_, (shows_iff_copies rfl).2 ⟨.quoted hh', by simp [hh'.eq_ofText]⟩,
        .text ⟨by omega, hn.2⟩ (.inl rfl) rfl rfl rfl rfl ?_ rfl⟩
      rw [Piece.copied_quoted, Piece.copied_quoted]
      exact (hu.map_take (.inl rfl)).symm
  | @unclosed _ _ construct hh =>
      have hh' := hf.hides (hh.unclosed_respell (r := r))
      refine ⟨_, ?_, .fault construct 0⟩
      rw [hcons] at hh'
      rw [hcons, Respelling.image_zero]
      exact .unclosed hh'
  | word hh hw =>
      have hh' := hf.hides (hh.plain_respell (r := r))
      rw [hcons] at hh'
      refine ⟨_, ?_, .ordinary o o' hu hone⟩
      rw [hcons]
      exact .word hh' (hw_eq.trans hw)
  | @separator _ _ count n hh hw hv =>
      have hh' := hf.hides (hh.plain_respell (r := r))
      rw [hv] at hecho
      obtain ⟨n', hv', hends⟩ := hecho.exists_of_found
      refine ⟨_, ?_, .statement count (Verdict.bounds_of_found hv) hends⟩
      rw [hcons] at hh' hv' ⊢
      exact .separator hh' (hw_eq.trans hw) hv'
  | @openSeparator _ _ e hh hw hv =>
      have hh' := hf.hides (hh.plain_respell (r := r))
      rw [hv] at hecho
      have hv' := hecho.eq_of_unclosed
      have hbefore : (r.opening (first :: rest) e).before = r.image (first :: rest) e.before := rfl
      refine ⟨_, ?_, .fault .blockComment e.before⟩
      rw [← hbefore]
      generalize r.opening (first :: rest) e = e' at hv'
      rw [hcons] at hh' hv' ⊢
      exact .openSeparator hh' (hw_eq.trans hw) hv'
  | blanks hh hw hv hl =>
      have hh' := hf.hides (hh.plain_respell (r := r))
      have hv' := hecho.isNone_eq.trans hv
      refine ⟨_, ?_, .blanks r f o o' hl⟩
      rw [hcons] at hh' hv' ⊢
      exact .blanks hh' (hw_eq.trans hw) hv' (hlinear.trans hl)
  | ordinary hh hw hv hl =>
      have hh' := hf.hides (hh.plain_respell (r := r))
      have hv' := hecho.isNone_eq.trans hv
      rw [hcons] at hh' hv'
      refine ⟨_, ?_, .ordinary o o' hu hone⟩
      rw [hcons]
      exact .ordinary hh' (hw_eq.trans hw) hv' (hlinear.trans hl)

end Outlook

/-- A script and its respelling are read in lockstep. The induction is on the length of what is
left to be read where they are level. -/
theorem lockstep_respell (hf : r.Fits o o') (hu : r.Unseen f) (text : List Char) (w : Bool)
    (hp : p.Beside p') : Lockstep f o o' p w text p' w (r.respell text) := by
  induction hk : text.length using Nat.strongRecOn generalizing text w p p' with
  | ind k ih =>
      have hlevel (more : List Char) (hmore : more.length < k) (w : Bool) {q q' : Position}
          (hq : q.Beside q') : Lockstep f o o' q w more q' w (r.respell more) :=
        ih _ hmore more w hq rfl
      rcases text with _ | ⟨first, rest⟩
      · exact .finished p w p' w
      by_cases hlead : first = '\n' ∧ r.lead ≠ []
      · obtain ⟨rfl, hlead⟩ := hlead
        rw [r.respell_newline]
        exact lockstep_lead hf hlead (hlevel rest (by simp at hk; omega)) (fun _ hc => hc)
          hu.map_lead hp.line_eq w w
      have hbare (hfirst : first = '\n') : r.lead = [] := by
        by_contra hne
        exact hlead ⟨hfirst, hne⟩
      have hshows := Outlook.shows_ofText o w (first :: rest)
      obtain ⟨outlook, hshows', hecho⟩ := hshows.exists_respell hf hu hbare
      have hbehind {n : Nat} (hn : 1 ≤ n ∧ n ≤ (first :: rest).length) (more : List Char)
          (hmore : more.length ≤ ((first :: rest).drop n).length) (w : Bool) {q q' : Position}
          (hq : q.Beside q') : Lockstep f o o' q w more q' w (r.respell more) := by
        rw [List.length_drop] at hmore
        exact hlevel more (by omega) w hq
      generalize Outlook.ofText o w (first :: rest) = k' at hshows hecho
      cases hecho with
      | fault construct before =>
          -- Both errors are at the opener, behind a text here and its respelling there.
          refine .fault hshows hshows' ?_
          have hopener := r.beside_after hp ((first :: rest).take before)
          rw [Fault.malformed, Fault.malformed, r.take_image, hopener.line_eq, hopener.column_eq]
      | text hn ends hpiece hpiece' source source' copied word =>
          refine .text hshows hshows' hpiece hpiece' hp.line_eq copied ?_
          rw [source, source', ← word]
          exact lockstep_behind hf ends (hbehind hn) hp _
      | statement count hn ends =>
          exact .statement hshows hshows' (lockstep_behind hf ends (hbehind hn) hp false)

end Lockstep

/-- **Respelling.** A script and its respelling fail with the same error, or are split into as many
batches, pairwise alike. -/
theorem alike_respell {r : Respelling} {f : Blur} {o o' : Options} (hf : r.Fits o o')
    (hu : r.Unseen f) (script : String) :
    Outcomes.Alike f (split o script) (split o' (String.ofList (r.respell script.toList))) := by
  refine alike_of_lockstep hf.finishAlike ?_
  rw [String.toList_ofList]
  exact lockstep_respell hf hu script.toList false ⟨rfl, rfl⟩

end BatchScript
