import BatchScript.Proofs.Ending
import BatchScript.Proofs.Mark

/-!
# Look-alikes of the separator

A look-alike is a longer word that begins like the separator. Where one stands no separator is
found, for the look-alikes are tried first. This guards the place where it begins and no other: from
the next character on the rest of the word is all there is to see. Where words are kept whole the
word state guards the rest. Where they are not, the separator is found within a look-alike exactly
where it begins there, and that takes a look-alike that overlaps the separator: `GO` is found within
`GOGO`, and not within `GOTO`.

## Main results

* `Verdict.ofText_of_occurs` — where a look-alike stands behind blanks there is no statement.
* `Sighting.exists_passage` — a look-alike is passed over as blanks and ordinary text.
* `Sighting.copiedWhole` — and is copied whole into one segment.
* `keyword_of_sighting` — where within a look-alike a keyword can begin.
-/

namespace BatchScript

/-! ### Keywords that overlap -/

/-- Options whose separator is a word, and whose look-alikes are longer words that begin like it. -/
structure HasLookalikes (o : Options) : Prop extends HasWordKeywords o where
  separator_ne_nil : o.separator.toList ≠ []
  starts : ∀ l ∈ o.lookalikes, AsciiCase.begins o.separator.toList l.toList = true
  longer : ∀ l ∈ o.lookalikes, o.separator.toList.length < l.toList.length

/-- Whether two texts agree as far as both go, ignoring ASCII case. -/
def Agree (s t : List Char) : Prop :=
  s.map Char.toLower <+: t.map Char.toLower ∨ t.map Char.toLower <+: s.map Char.toLower

instance (s t : List Char) : Decidable (Agree s t) :=
  inferInstanceAs (Decidable (_ ∨ _))

/-- What a text begins with agrees with what is in view of it. -/
theorem agree_of_begins {s t rest : List Char} (h : AsciiCase.begins s (t ++ rest) = true) :
    Agree s t := by
  obtain ⟨taken, behind, heq, hmap⟩ := AsciiCase.begins_iff.1 h
  have hs : s.map Char.toLower <+: (t ++ rest).map Char.toLower := by
    rw [heq, List.map_append, hmap]
    exact List.prefix_append _ _
  have ht : t.map Char.toLower <+: (t ++ rest).map Char.toLower := by
    rw [List.map_append]
    exact List.prefix_append _ _
  exact List.prefix_or_prefix_of_prefix hs ht

theorem Agree.congr {s t t' : List Char} (h : t.map Char.toLower = t'.map Char.toLower) :
    Agree s t ↔ Agree s t' := by
  rw [Agree, Agree, h]

/-- A look-alike that does not overlap the separator: behind its first character the rest of it and
the separator agree nowhere. -/
def Apart (o : Options) (l : String) : Prop :=
  ∀ place < l.toList.length, 0 < place → ¬ Agree o.separator.toList (l.toList.drop place)

instance (o : Options) (l : String) : Decidable (Apart o l) :=
  inferInstanceAs (Decidable (∀ place < l.toList.length, 0 < place → ¬ Agree _ _))

/-- A word, with what follows it, at which the separator begins at no place but the first. -/
def Free (o : Options) (word rest : List Char) : Prop :=
  ∀ inside behind, word = inside ++ behind → inside ≠ [] → behind ≠ [] →
    AsciiCase.begins o.separator.toList (behind ++ rest) = false

/-- A word that is a look-alike, in any case. -/
structure Occurs (o : Options) (l : String) (word : List Char) : Prop where
  mem : l ∈ o.lookalikes
  toLower : word.map Char.toLower = l.toList.map Char.toLower

variable {o : Options} {l : String} {blanks word rest : List Char}

theorem isWord_of_toLower {c d : Char} (hd : isWord d = true) (h : c.toLower = d.toLower) :
    isWord c = true := by
  cases hc : isWord c with
  | true => rfl
  | false => exact absurd h (toLower_ne_of_isWord hc hd)

namespace Occurs

theorem isWord (h : Occurs o l word) (ho : HasLookalikes o) : ∀ c ∈ word, isWord c = true := by
  intro c hc
  have hmem : c.toLower ∈ l.toList.map Char.toLower := h.toLower ▸ List.mem_map_of_mem hc
  obtain ⟨d, hd, heq⟩ := List.mem_map.1 hmem
  exact isWord_of_toLower (ho.lookalikes l h.mem d hd) heq.symm

theorem ne_nil (h : Occurs o l word) (ho : HasLookalikes o) : word ≠ [] := by
  have hlength : word.length = l.toList.length := by
    simpa using congrArg List.length h.toLower
  have hlonger := ho.longer l h.mem
  rw [← List.length_pos_iff]
  omega

/-- Blanks in front of the word end with it. -/
theorem isLinear_head? (h : Occurs o l word) (ho : HasLookalikes o) (rest : List Char) :
    ∀ c ∈ (word ++ rest).head?, BatchScript.isLinear c = false := by
  obtain ⟨c, more, rfl⟩ := List.exists_cons_of_ne_nil (h.ne_nil ho)
  rintro d ⟨⟩
  exact isLinear_of_isWord (h.isWord ho c List.mem_cons_self)

/-- What is left of the word is what is left of the look-alike. -/
theorem agree_iff {inside behind : List Char} (h : Occurs o l (inside ++ behind)) (s : List Char) :
    Agree s behind ↔ Agree s (l.toList.drop inside.length) := by
  refine Agree.congr ?_
  rw [List.map_drop, ← h.toLower, ← List.map_drop, List.drop_left]

/-- Whatever follows a look-alike that does not overlap the separator, none begins within it. -/
theorem free_of_apart (h : Occurs o l word) (hapart : Apart o l) (rest : List Char) :
    Free o word rest := by
  rintro inside behind rfl hinside hbehind
  have hlength : (inside ++ behind).length = l.toList.length := by
    simpa using congrArg List.length h.toLower
  rw [← List.length_pos_iff] at hinside hbehind
  rw [List.length_append] at hlength
  refine Bool.eq_false_iff.2 fun hbegins => ?_
  exact hapart inside.length (by omega) hinside ((h.agree_iff _).1 (agree_of_begins hbegins))

end Occurs

namespace Verdict

/-- Where a look-alike stands behind blanks there is no statement. -/
theorem ofText_of_occurs (ho : HasLookalikes o)
    (hblanks : ∀ c ∈ blanks, BatchScript.isLinear c = true) (h : Occurs o l word)
    (rest : List Char) :
    ofText o (blanks ++ (word ++ rest)) = .absent := by
  have htake : (blanks ++ (word ++ rest)).takeWhile BatchScript.isLinear = blanks := by
    rw [takeWhile_append_of_stop (h.isLinear_head? ho rest), List.takeWhile_eq_self_iff.2 hblanks]
  have hany : (o.lookalikes.any fun l => AsciiCase.begins l.toList (word ++ rest)) = true :=
    List.any_eq_true.2 ⟨l, h.mem, AsciiCase.begins_iff.2 ⟨word, rest, rfl, h.toLower⟩⟩
  simp only [ofText, htake, List.drop_left, hany, Bool.or_true, if_true]

/-- At a word character there is no statement unless the separator begins there. -/
theorem isNone_of_not_begins {c : Char} (hc : isWord c = true)
    (h : AsciiCase.begins o.separator.toList (c :: rest) = false) :
    (ofText o (c :: rest)).isNone = true := by
  rcases ofText_eq_absent_or o (c :: rest) with ha | ⟨blanks, keyword, tail, heq, hk⟩
  · rw [ha]
    rfl
  · rcases blanks with _ | ⟨b, blanks⟩
    · rw [AsciiCase.begins_iff.2 ⟨keyword, tail, heq, hk.toLower⟩] at h
      cases h
    · obtain ⟨rfl, -⟩ := List.cons.inj heq
      exact absurd (hk.isLinear c List.mem_cons_self) (by simp [isLinear_of_isWord hc])

end Verdict

/-! ### Passages over a look-alike -/

/-- A piece that is copied as it stands, whether comments are kept or dropped. -/
def Piece.isPlain : Piece → Bool
  | .blanks _ => true
  | .ordinary _ => true
  | _ => false

theorem Piece.isSeparator_of_isPlain {piece : Piece} (h : piece.isPlain = true) :
    piece.isSeparator = false := by
  cases piece with
  | separator count statement => cases h
  | _ => rfl

/-- A run of blanks is read as one where no statement is found. -/
theorem Outlook.shows_of_blanks {w : Bool} (hne : blanks ≠ [])
    (hblanks : ∀ c ∈ blanks, isLinear c = true) (hstop : ∀ c ∈ rest.head?, isLinear c = false)
    (hw : (o.wordBoundaries && w) = false)
    (hv : (Verdict.ofText o (blanks ++ rest)).isNone = true) :
    Shows o w (blanks ++ rest) (.piece (.blanks blanks) rest) := by
  have htake : (blanks ++ rest).takeWhile isLinear = blanks := by
    rw [takeWhile_append_of_stop hstop, List.takeWhile_eq_self_iff.2 hblanks]
  have hdrop : (blanks ++ rest).dropWhile isLinear = rest := by
    have hsplit := List.takeWhile_append_dropWhile (p := isLinear) (l := blanks ++ rest)
    rw [htake] at hsplit
    exact List.append_cancel_left hsplit
  obtain ⟨b, more, rfl⟩ := List.exists_cons_of_ne_nil hne
  have hlinear := hblanks b List.mem_cons_self
  have hshows : Shows o w (b :: (more ++ rest)) _ :=
    .blanks (Hiding.hides_of_isInert (isInert_of_isLinear hlinear) _) hw hv hlinear
  rwa [← List.cons_append, htake, hdrop] at hshows

/-- Word characters are passed over one by one as ordinary text, if words are kept whole and one is
open, or if the separator begins at none of them. -/
theorem exists_passage_of_word {w : Bool} (hword : ∀ c ∈ word, isWord c = true)
    (h : (o.wordBoundaries && w) = true ∨ ∀ inside behind, word = inside ++ behind → behind ≠ [] →
      AsciiCase.begins o.separator.toList (behind ++ rest) = false) :
    ∃ w', Passage o w (word ++ rest) (word.map .ordinary) w' rest := by
  induction word generalizing w with
  | nil => exact ⟨w, .stay w rest⟩
  | cons c word ih =>
      obtain ⟨hc, hword⟩ := List.forall_mem_cons.1 hword
      have hh : Hiding.Hides o (c :: (word ++ rest)) .plain :=
        Hiding.hides_of_isInert (isInert_of_isWord hc rfl) _
      have hends : (Piece.ordinary c).endsInWord = true := hc
      have hnext : (o.wordBoundaries && (Piece.ordinary c).endsInWord) = true ∨
          ∀ inside behind, word = inside ++ behind → behind ≠ [] →
            AsciiCase.begins o.separator.toList (behind ++ rest) = false := by
        rcases h with hw | hfree
        · rw [hends, Bool.and_true]
          exact .inl (Bool.and_eq_true_iff.1 hw).1
        · exact .inr fun inside behind heq => hfree (c :: inside) behind (congrArg _ heq)
      obtain ⟨w', hp⟩ := ih hword hnext
      refine ⟨w', .step ?_ hp⟩
      cases hw : o.wordBoundaries && w with
      | true => exact .word hh hw
      | false =>
          have hfree := h.resolve_left (by simp [hw])
          have hv := Verdict.isNone_of_not_begins hc (hfree [] (c :: word) rfl (by simp))
          exact .ordinary hh hw hv (isLinear_of_isWord hc)

/-- Where words are kept whole, or no separator begins within it, a look-alike is passed over as
ordinary text. -/
theorem Occurs.exists_passage {w : Bool} (hocc : Occurs o l word) (ho : HasLookalikes o)
    (hw : (o.wordBoundaries && w) = false)
    (hsafe : o.wordBoundaries = true ∨ Free o word rest) :
    ∃ w', Passage o w (word ++ rest) (word.map .ordinary) w' rest := by
  have hword := hocc.isWord ho
  have hnone : ∀ c ∈ ([] : List Char), isLinear c = true := by simp
  have habsent := Verdict.ofText_of_occurs ho hnone hocc rest
  obtain ⟨c, more, rfl⟩ := List.exists_cons_of_ne_nil (hocc.ne_nil ho)
  obtain ⟨hc, hmore⟩ := List.forall_mem_cons.1 hword
  rw [List.nil_append, List.cons_append] at habsent
  have hfirst : Outlook.Shows o w (c :: (more ++ rest)) (.piece (.ordinary c) (more ++ rest)) :=
    .ordinary (Hiding.hides_of_isInert (isInert_of_isWord hc rfl) _) hw (by rw [habsent]; rfl)
      (isLinear_of_isWord hc)
  -- Look-alikes are tried at the first place only: what guards the others is the word state, or
  -- that there is no separator.
  have hguard : (o.wordBoundaries && (Piece.ordinary c).endsInWord) = true ∨
      ∀ inside behind, more = inside ++ behind → behind ≠ [] →
        AsciiCase.begins o.separator.toList (behind ++ rest) = false := by
    have hends : (Piece.ordinary c).endsInWord = true := hc
    rw [hends, Bool.and_true]
    exact hsafe.imp_right fun hfree inside behind heq =>
      hfree (c :: inside) behind (congrArg _ heq) (by simp)
  obtain ⟨w', hp⟩ := exists_passage_of_word hmore hguard
  exact ⟨w', .step hfirst hp⟩

/-- And so is one behind blanks, which are passed over first. -/
theorem Occurs.exists_passage_of_blanks {w : Bool} (hocc : Occurs o l word)
    (ho : HasLookalikes o) (hblanks : ∀ c ∈ blanks, isLinear c = true)
    (hw : (o.wordBoundaries && w) = false)
    (hsafe : o.wordBoundaries = true ∨ Free o word rest) :
    ∃ pieces w', Passage o w (blanks ++ (word ++ rest)) pieces w' rest ∧
      sources pieces = blanks ++ word ∧ ∀ piece ∈ pieces, piece.isPlain = true := by
  have hsources : sources (word.map .ordinary) = word := by
    simp [sources, List.flatMap_map, Piece.source]
  have hplain : ∀ piece ∈ word.map Piece.ordinary, piece.isPlain = true := by
    simp [Piece.isPlain]
  by_cases hne : blanks = []
  · subst hne
    obtain ⟨w', hp⟩ := hocc.exists_passage ho hw hsafe
    exact ⟨_, w', hp, hsources, hplain⟩
  · have hv : (Verdict.ofText o (blanks ++ (word ++ rest))).isNone = true := by
      rw [Verdict.ofText_of_occurs ho hblanks hocc rest]
      rfl
    have hshows := Outlook.shows_of_blanks hne hblanks (hocc.isLinear_head? ho rest) hw hv
    obtain ⟨w', hp⟩ := hocc.exists_passage ho (Bool.and_false _) hsafe
    refine ⟨_, w', .step hshows hp, ?_, List.forall_mem_cons.2 ⟨rfl, hplain⟩⟩
    rw [sources_cons, hsources, Piece.source]

/-! ### Text in one segment -/

theorem Visit.of_isPlain {piece : Piece} (h : piece.isPlain = true) (p : Position) :
    (ofPiece p piece).isStatement = false ∧ (ofPiece p piece).isComment = false := by
  cases piece with
  | blanks run => exact ⟨rfl, rfl⟩
  | ordinary c => exact ⟨rfl, rfl⟩
  | _ => cases h

namespace Segment

/-- Text is held. -/
theorem ofVisits_of_text {stretch : List Visit} (h : ∀ visit ∈ stretch, visit.isStatement = false)
    (held later : List Visit) :
    ofVisits held (stretch ++ later) = ofVisits (held ++ stretch) later := by
  induction stretch generalizing held with
  | nil => rw [List.nil_append, List.append_nil]
  | cons visit stretch ih =>
      obtain ⟨hvisit, hstretch⟩ := List.forall_mem_cons.1 h
      rw [List.cons_append, ofVisits]
      split
      · rename_i count hregion
        rw [Visit.isStatement, hregion] at hvisit
        cases hvisit
      · rw [ih hstretch, List.append_assoc, List.singleton_append]

/-- What is held goes into the first segment. -/
theorem exists_of_held (held later : List Visit) :
    ∃ segment ∈ ofVisits held later, ∃ after, segment.visits = held ++ after := by
  induction later generalizing held with
  | nil => exact ⟨_, List.mem_singleton_self _, [], (List.append_nil held).symm⟩
  | cons visit later ih =>
      rw [ofVisits]
      split
      · exact ⟨_, List.mem_cons_self, [], (List.append_nil held).symm⟩
      · obtain ⟨segment, hmem, after, hvisits⟩ := ih (held ++ [visit])
        exact ⟨segment, hmem, visit :: after, by rw [hvisits, List.append_assoc]; rfl⟩

/-- Text without statements goes into one segment, whatever is read before it and behind it. -/
theorem exists_of_text {stretch : List Visit} (h : ∀ visit ∈ stretch, visit.isStatement = false)
    (held earlier later : List Visit) :
    ∃ segment ∈ ofVisits held (earlier ++ (stretch ++ later)), ∃ before after,
      segment.visits = before ++ (stretch ++ after) := by
  induction earlier generalizing held with
  | nil =>
      rw [List.nil_append, ofVisits_of_text h]
      obtain ⟨segment, hmem, after, hvisits⟩ := exists_of_held (held ++ stretch) later
      exact ⟨segment, hmem, held, after, by rw [hvisits, List.append_assoc]⟩
  | cons visit earlier ih =>
      rw [List.cons_append, ofVisits]
      split
      · obtain ⟨segment, hmem, hvisits⟩ := ih []
        exact ⟨segment, List.mem_cons_of_mem _ hmem, hvisits⟩
      · exact ih (held ++ [visit])

end Segment

/-- A text of a script, from a position on, that is copied whole. Regions that cover it stand next
to each other in one segment, and the draft of the segment takes the text up as it stands, behind
what is read before it. -/
structure CopiedWhole (o : Options) (script : String) (p : Position) (text : List Char)
    (segment : Segment) (before stretch after : List Visit) : Prop where
  mem : segment ∈ segments o script
  visits_eq : segment.visits = before ++ (stretch ++ after)
  begins : ∀ visit ∈ stretch.head?, visit.position = p
  covers : stretch.flatMap Visit.text = text
  copied : ∃ back, (segment.draft o.keepComments).text.toList =
    (before.foldl (Segment.copy o.keepComments) {}).text.toList ++ (text ++ back)

/-- What is passed over as blanks and ordinary text is copied whole. -/
theorem exists_copiedWhole {script : String} {w : Bool} {front pieces more : List Piece}
    {fault : Option Fault} (hp : Passage o false script.toList (front ++ (pieces ++ more)) w rest)
    (hh : Halt o w rest fault) (hplain : ∀ piece ∈ pieces, piece.isPlain = true) :
    ∃ segment before stretch after, CopiedWhole o script
      (({} : Position).after (sources front)) (sources pieces) segment before stretch after := by
  obtain ⟨p, hpos⟩ : ∃ p, p = ({} : Position).after (sources front) := ⟨_, rfl⟩
  have hcourse := (split_of_halt hp hh).1
  have hvisits : course o script = Visit.ofPieces {} front ++
      (Visit.ofPieces p pieces ++ Visit.ofPieces (p.after (sources pieces)) more) := by
    rw [hcourse, Visit.ofPieces_append, Visit.ofPieces_append, hpos]
  have hstretch : ∀ visit ∈ Visit.ofPieces p pieces,
      visit.isStatement = false ∧ visit.isComment = false := by
    intro visit hmem
    obtain ⟨earlier, later, heq⟩ := List.append_of_mem hmem
    obtain ⟨before, piece, after, rfl, -, rfl⟩ := Visit.exists_piece heq
    exact Visit.of_isPlain (hplain piece (by simp)) _
  obtain ⟨segment, hmem, before, after, hsegment⟩ := Segment.exists_of_text
    (fun visit hv => (hstretch visit hv).1) [] (Visit.ofPieces {} front)
    (Visit.ofPieces (p.after (sources pieces)) more)
  rw [← hvisits] at hmem
  have hcopied : ∀ visit ∈ segment.visits, visit.IsCopied := by
    rw [hcourse] at hmem
    exact Segment.isCopied_of_mem_ofVisits (by simp) hmem
  refine ⟨segment, before, Visit.ofPieces p pieces, after, hmem, hsegment, ?_,
    Visit.flatMap_text_ofPieces p pieces, ?_⟩
  · rw [← hpos]
    cases pieces with
    | nil => exact fun _ hv => nomatch hv
    | cons piece pieces =>
        rintro visit ⟨⟩
        rfl
  · rw [hsegment] at hcopied
    have hbefore := fun visit hv => hcopied visit (List.mem_append_left _ hv)
    have hkept :
        (Visit.ofPieces p pieces).filter (fun visit => o.keepComments || !visit.isComment) =
          Visit.ofPieces p pieces :=
      List.filter_eq_self.2 fun visit hv => by simp [(hstretch visit hv).2]
    refine ⟨(after.filter fun visit => o.keepComments || !visit.isComment).flatMap Visit.text, ?_⟩
    rw [Segment.draft, hsegment, Segment.text_foldl_copy _ _ hcopied,
      Segment.text_foldl_copy _ _ hbefore, List.filter_append, List.filter_append, hkept,
      List.flatMap_append, List.flatMap_append, Visit.flatMap_text_ofPieces, List.append_assoc]

/-! ### Where a look-alike is sighted -/

/-- A look-alike behind blanks where a stream stands and a separator is looked for: in some state
that the stream gets to, in which no word is open that is to be kept whole. -/
structure Sighting (o : Options) (script : String) (s : BatchStream) (l : String)
    (blanks word rest : List Char) : Prop where
  reached : ∃ held, BatchStream.Reaches o script s held
  goesOn : s.finished = false
  attempted : (o.wordBoundaries && s.afterWord) = false
  ahead : s.reading.cursor.ahead = blanks ++ (word ++ rest)
  blanks : ∀ c ∈ blanks, isLinear c = true
  occurs : Occurs o l word

variable {script : String} {s : BatchStream}

namespace Sighting

/-- The passage up to a look-alike that is sighted. -/
theorem exists_front (h : Sighting o script s l blanks word rest) :
    ∃ pieces w, Passage o false script.toList pieces w (blanks ++ (word ++ rest)) ∧
      (o.wordBoundaries && w) = false ∧
      s.reading.cursor.position = ({} : Position).after (sources pieces) := by
  obtain ⟨held, hreached⟩ := h.reached
  obtain ⟨pieces, w, text, hp, -, hopen⟩ := hreached.standing.exists_passage
  obtain ⟨hs, hpos⟩ := hopen h.goesOn
  obtain rfl : blanks ++ (word ++ rest) = text := h.ahead.symm.trans hs.ahead
  obtain rfl : s.afterWord = w := hs.afterWord
  exact ⟨pieces, _, hp, h.attempted, hpos⟩

/-- A keyword that begins within a look-alike is one that the look-alike agrees with from there
on, and it does not begin where the look-alike does. -/
theorem agree_of_mark (h : Sighting o script s l blanks word rest) {mark : Mark}
    (hmark : mark ∈ marks o script) {inside behind : List Char} (hword : word = inside ++ behind)
    (hat : mark.keyword = s.reading.cursor.position.after (blanks ++ inside)) :
      inside ≠ [] ∧ Agree o.separator.toList (l.toList.drop inside.length) := by
  obtain ⟨pieces, w, hp, -, hpos⟩ := h.exists_front
  obtain ⟨front, w', lead, keyword, tail, length, -, hstands⟩ := exists_stands_of_mem_marks hmark
  have heq : (sources front ++ lead) ++ (keyword ++ tail) =
      (sources pieces ++ (blanks ++ inside)) ++ (behind ++ rest) := by
    have hscript := hstands.script_eq.symm.trans hp.text_eq
    rw [hword] at hscript
    simpa only [List.append_assoc] using hscript
  have hcut : ({} : Position).after (sources front ++ lead) =
      ({} : Position).after (sources pieces ++ (blanks ++ inside)) := by
    rw [← hstands.keyword_eq, hat, hpos, ← Position.after_append]
  obtain ⟨-, htext⟩ := eq_of_after_eq heq hcut
  refine ⟨?_, ?_⟩
  · rintro rfl
    rw [List.nil_append] at hword
    have hlook := hstands.keyed.lookalikes l h.occurs.mem
    rw [htext, ← hword, AsciiCase.begins_iff.2 ⟨word, rest, rfl, h.occurs.toLower⟩] at hlook
    cases hlook
  · have hocc := h.occurs
    rw [hword] at hocc
    rw [← hocc.agree_iff]
    have hbegins : AsciiCase.begins o.separator.toList (behind ++ rest) = true :=
      AsciiCase.begins_iff.2 ⟨keyword, tail, htext.symm, hstands.keyed.toLower⟩
    exact agree_of_begins hbegins

/-- Where words are kept whole, or no separator begins within the look-alike, no keyword of a
statement does and the look-alike is copied whole. -/
theorem copiedWhole (h : Sighting o script s l blanks word rest) (ho : HasLookalikes o)
    (hsafe : o.wordBoundaries = true ∨ Free o word rest) :
    (∀ mark ∈ marks o script, ∀ inside behind, word = inside ++ behind → behind ≠ [] →
      mark.keyword ≠ s.reading.cursor.position.after (blanks ++ inside)) ∧
    ∃ segment before stretch after, CopiedWhole o script s.reading.cursor.position
      (blanks ++ word) segment before stretch after := by
  obtain ⟨front, w, hfront, hw, hpos⟩ := h.exists_front
  obtain ⟨pieces, w', hpieces, hsources, hplain⟩ :=
    h.occurs.exists_passage_of_blanks ho h.blanks hw hsafe
  obtain ⟨more, w₁, rest', fault, hmore, hh⟩ := exists_passage o w' rest
  have hp := hfront.append (hpieces.append hmore)
  refine ⟨fun mark hmark inside behind hword hne hat => ?_, ?_⟩
  · have hoffset := congrArg Position.offset hat
    have hbytes := bytes_pos hne
    have hend := (({} : Position).after (sources front)).offset_after_bytes (blanks ++ word)
    have hsum : bytes word = bytes inside + bytes behind := by rw [hword, bytes_append]
    rw [Position.offset_after_bytes, hpos, bytes_append] at hoffset
    rw [bytes_append, hsum] at hend
    rw [marks, (split_of_halt hp hh).1, Visit.ofPieces_append, Visit.ofPieces_append,
      List.filterMap_append, List.filterMap_append, List.mem_append, List.mem_append] at hmark
    rcases hmark with hmark | hmark | hmark
    · have := (hfront.bounds_of_mark {}).1 mark hmark
      omega
    · obtain ⟨visit, hvisit, hsome⟩ := List.mem_filterMap.1 hmark
      obtain ⟨earlier, later, heq⟩ := List.append_of_mem hvisit
      obtain ⟨before, piece, after, rfl, -, rfl⟩ := Visit.exists_piece heq
      have htext := Piece.isSeparator_of_isPlain (hplain piece (by simp))
      rw [Visit.mark?_of_text htext] at hsome
      cases hsome
    · have := (hmore.bounds_of_mark _).1 mark hmark
      rw [hsources] at this
      omega
  · rw [hpos, ← hsources]
    exact exists_copiedWhole hp hh hplain

end Sighting

/-- **Look-alikes.** Where a look-alike is sighted no statement is found, and no statement read
anywhere in the script has its keyword there. Where words are kept whole, or no separator begins at
a later character of it, none has it within the look-alike either, which is copied whole. So it is
for a look-alike that does not overlap the separator, whatever follows it. Otherwise, and only where
words are not kept whole, a keyword may begin where the rest of the look-alike and the separator
agree as far as both go. -/
theorem keyword_of_sighting (ho : HasLookalikes o) (h : Sighting o script s l blanks word rest) :
    Scan.separator o s.reading = .ok none s.reading ∧
    (∀ mark ∈ marks o script, ∀ inside behind, word = inside ++ behind → behind ≠ [] →
      mark.keyword = s.reading.cursor.position.after (blanks ++ inside) →
        inside ≠ [] ∧ o.wordBoundaries = false ∧
          Agree o.separator.toList (l.toList.drop inside.length)) ∧
    (o.wordBoundaries = true ∨ Free o word rest →
      (∀ mark ∈ marks o script, ∀ inside behind, word = inside ++ behind → behind ≠ [] →
        mark.keyword ≠ s.reading.cursor.position.after (blanks ++ inside)) ∧
      ∃ segment before stretch after, CopiedWhole o script s.reading.cursor.position
        (blanks ++ word) segment before stretch after) ∧
    (Apart o l → Free o word rest) := by
  refine ⟨?_, fun mark hmark inside behind hword hne hat => ?_, h.copiedWhole ho,
    fun hapart => h.occurs.free_of_apart hapart rest⟩
  · rw [Scan.separator_run, h.ahead, Verdict.ofText_of_occurs ho h.blanks h.occurs]
  · obtain ⟨hinside, hagree⟩ := h.agree_of_mark hmark hword hat
    refine ⟨hinside, ?_, hagree⟩
    rw [← Bool.not_eq_true]
    exact fun hwhole => (h.copiedWhole ho (.inl hwhole)).1 mark hmark inside behind hword hne hat

/-- The usual look-alike does not overlap the usual separator. -/
example : Apart {} "GOTO" := by decide

/-- A look-alike that does overlap it: two separators in a row. -/
theorem hasLookalikes_of_gogo (whole : Bool) :
    HasLookalikes { lookalikes := ["GOGO"], wordBoundaries := whole } where
  separator := by
    cases whole <;> decide
  lookalikes := by
    rw [List.forall_mem_singleton, ← List.all_eq_true]
    decide
  separator_ne_nil := by
    cases whole <;> decide
  starts := by
    rw [List.forall_mem_singleton]
    cases whole <;> decide
  longer := by
    rw [List.forall_mem_singleton]
    cases whole <;> decide

/-- It is sighted at the beginning of a script, behind a blank. -/
theorem sighting_of_gogo (whole : Bool) :
    Sighting { lookalikes := ["GOGO"], wordBoundaries := whole } " gogo\ngo"
      (.ofString { lookalikes := ["GOGO"], wordBoundaries := whole } " gogo\ngo") "GOGO" [' ']
      ['g', 'o', 'g', 'o'] ['\n', 'g', 'o'] where
  reached := ⟨[], .start⟩
  goesOn := rfl
  attempted := Bool.and_false whole
  ahead := rfl
  blanks := List.forall_mem_singleton.2 rfl
  occurs := ⟨List.mem_singleton_self _, by decide⟩

/-- Where words are kept whole it is copied whole. -/
theorem copiedWhole_of_gogo :
    HasLookalikes { lookalikes := ["GOGO"] } ∧
      Sighting { lookalikes := ["GOGO"] } " gogo\ngo"
        (.ofString { lookalikes := ["GOGO"] } " gogo\ngo") "GOGO" [' '] ['g', 'o', 'g', 'o']
        ['\n', 'g', 'o'] ∧
      ∃ segment before stretch after, CopiedWhole { lookalikes := ["GOGO"] } " gogo\ngo" {}
        " gogo".toList segment before stretch after := by
  obtain ⟨-, -, hcopied, -⟩ :=
    keyword_of_sighting (hasLookalikes_of_gogo true) (sighting_of_gogo true)
  exact ⟨hasLookalikes_of_gogo true, sighting_of_gogo true, (hcopied (.inl rfl)).2⟩

/-- Where words are not kept whole its second half is a separator statement. -/
theorem keyword_within_gogo :
    ¬ ∀ (o : Options) (script : String) (s : BatchStream) (l : String)
        (blanks word rest : List Char),
      HasLookalikes o → Sighting o script s l blanks word rest →
        ∀ mark ∈ marks o script, ∀ inside behind, word = inside ++ behind → behind ≠ [] →
          mark.keyword ≠ s.reading.cursor.position.after (blanks ++ inside) := by
  intro h
  have hpieces : pieces? { lookalikes := ["GOGO"], wordBoundaries := false } 7 false
      " gogo\ngo".toList =
        some
          [.blanks [' '], .ordinary 'g', .ordinary 'o', .separator .once ['g', 'o'],
            .ordinary '\n', .separator .once ['g', 'o']] := by
    decide +kernel
  have hmark : (⟨⟨3, 1, 4⟩, ⟨5, 1, 6⟩, .once⟩ : Mark) ∈
      marks { lookalikes := ["GOGO"], wordBoundaries := false } " gogo\ngo" := by
    rw [marks, course_of_pieces? hpieces]
    decide +kernel
  exact h _ _ _ _ _ _ _ (hasLookalikes_of_gogo false) (sighting_of_gogo false) _ hmark ['g', 'o']
    ['g', 'o'] rfl (by simp) rfl

end BatchScript
