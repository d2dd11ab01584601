import BatchScript.Proofs.Pointer
import BatchScript.Proofs.WordBoundary
import Mathlib.Data.List.Sort

/-!
# Marks of separator statements

Where a script is cut. Every separator statement read on the way through a script leaves a mark: the
position of its keyword, the position behind the statement, and the count. The blanks in front of
the keyword are left out, so that two ways through a script can be compared that divide blanks
differently.

## Main results

* `exists_stands_of_mem_marks` — what stands in the script at a mark, and the passage up to there.
* `mem_marks_of_shows` — a statement behind a passage leaves a mark.
* `Passage.bounds_of_mark` — the marks of a passage lie within it.
* `marks_sublist` — marks that are among those of other options are in the same order there.
-/

namespace BatchScript

/-! ### Marks -/

/-- Where a separator statement is read, and with which count. -/
structure Mark where
  /-- Where its keyword begins. -/
  keyword : Position
  /-- The position behind it. -/
  ending : Position
  count : RepeatCount
deriving DecidableEq, Repr

/-- The mark that a visit leaves, if a separator statement is read. -/
def Visit.mark? (visit : Visit) : Option Mark :=
  match visit.region with
  | .separator count =>
    some
      { keyword := visit.position.after (visit.text.takeWhile isLinear),
        ending := visit.position.after visit.text, count }
  | _ => none

/-- The marks of the separator statements read on the way through a script. -/
def marks (o : Options) (script : String) : List Mark :=
  (course o script).filterMap Visit.mark?

/-- A position tells how a text is cut there. -/
theorem eq_of_after_eq {front front' tail tail' : List Char} (heq : front ++ tail = front' ++ tail')
    (hat : ({} : Position).after front = ({} : Position).after front') :
    front = front' ∧ tail = tail' := by
  have hbytes : bytes front = bytes front' := by
    have hoffset := congrArg Position.offset hat
    rw [Position.offset_after_bytes, Position.offset_after_bytes] at hoffset
    omega
  have hnil (between : List Char) (h : bytes between = 0) : between = [] :=
    Classical.byContradiction fun hne => (bytes_pos hne).ne' h
  rcases List.append_eq_append_iff.1 heq with ⟨between, rfl, rfl⟩ | ⟨between, rfl, rfl⟩
  · rw [bytes_append] at hbytes
    obtain rfl := hnil between (by omega)
    simp
  · rw [bytes_append] at hbytes
    obtain rfl := hnil between (by omega)
    simp

/-- What stands in a script at a mark: behind some text blanks, the keyword, and a tail with which
the statement goes on for so many characters. -/
structure Mark.Stands (o : Options) (script : List Char) (mark : Mark)
    (front blanks keyword tail : List Char) (length : Nat) : Prop where
  script_eq : script = front ++ (blanks ++ (keyword ++ tail))
  keyed : Verdict.Keyed o blanks keyword tail
  joined : Verdict.joined o tail = false
  keyword_eq : mark.keyword = ({} : Position).after (front ++ blanks)
  ending_eq : mark.ending =
    ({} : Position).after (front ++ (blanks ++ (keyword ++ tail.take length)))
  tail : Verdict.Tail tail (.found mark.count length)

variable {o : Options} {script : String} {w w' : Bool} {text rest : List Char}
  {pieces : List Piece} {mark : Mark}

theorem Visit.mark?_of_text {piece : Piece} (hp : piece.isSeparator = false) (p : Position) :
    (ofPiece p piece).mark? = none := by
  cases piece with
  | separator count statement => cases hp
  | _ => rfl

/-- The mark of a statement that begins with some blanks and a keyword. -/
theorem Visit.mark?_of_keyed {blanks keyword tail : List Char}
    (hk : Verdict.Keyed o blanks keyword tail) (length : Nat) (count : RepeatCount) (p : Position) :
    (ofPiece p (.separator count (blanks ++ (keyword ++ tail.take length)))).mark? =
      some
        { keyword := p.after blanks,
          ending := p.after (blanks ++ (keyword ++ tail.take length)), count } := by
  have hstop : ∀ c ∈ (keyword ++ tail.take length).head?, isLinear c = false := by
    obtain ⟨c, more, rfl⟩ := List.exists_cons_of_ne_nil hk.keyword_ne_nil
    simpa using hk.maximal c rfl
  simp only [mark?, ofPiece, Piece.region, Piece.source, takeWhile_append_of_stop hstop,
    List.takeWhile_eq_self_iff.2 hk.isLinear]

/-! ### Marks and statements -/

/-- What stands where a piece leaves a mark: blanks, the keyword, and a tail with which the
statement goes on. -/
theorem Visit.exists_keyed_of_mark? {piece : Piece}
    (h : Outlook.Shows o w text (.piece piece rest)) {p : Position}
    (hmark : (ofPiece p piece).mark? = some mark) :
    ∃ blanks keyword tail length, text = blanks ++ (keyword ++ tail) ∧
      piece.source = blanks ++ (keyword ++ tail.take length) ∧
      Verdict.Keyed o blanks keyword tail ∧ Verdict.joined o tail = false ∧
      Verdict.Tail tail (.found mark.count length) ∧ mark.keyword = p.after blanks ∧
      mark.ending = p.after piece.source := by
  cases hsep : piece.isSeparator with
  | false =>
      rw [mark?_of_text hsep] at hmark
      cases hmark
  | true =>
      obtain ⟨count, statement, rfl⟩ := Piece.eq_separator hsep
      obtain rfl : text = statement ++ rest := Outlook.text_eq h
      obtain ⟨blanks, keyword, tail, length, htext, rfl, hkeyed, hjoined, htail⟩ :=
        Verdict.exists_keyed_of_found (Outlook.found_of_separator h)
      rw [mark?_of_keyed hkeyed, Option.some.injEq] at hmark
      subst hmark
      exact ⟨blanks, keyword, tail, length, htext, rfl, hkeyed, hjoined, htail, rfl, rfl⟩

/-- A statement behind a passage leaves a mark. -/
theorem mem_marks_of_shows {piece : Piece} (hp : Passage o false script.toList pieces w text)
    (h : Outlook.Shows o w text (.piece piece rest))
    (hmark : (Visit.ofPiece (({} : Position).after (sources pieces)) piece).mark? = some mark) :
    mark ∈ marks o script := by
  obtain ⟨more, w₁, rest₁, fault, hmore, hh⟩ := exists_passage o piece.endsInWord rest
  have hcourse := (split_of_halt (hp.append (.step h hmore)) hh).1
  rw [marks, hcourse, Visit.ofPieces_append, List.mem_filterMap]
  exact ⟨_, List.mem_append_right _ List.mem_cons_self, hmark⟩

/-- What stands in the script at a mark, and the passage up to there. -/
theorem exists_stands_of_mem_marks (h : mark ∈ marks o script) :
    ∃ pieces w blanks keyword tail length,
      Passage o false script.toList pieces w (blanks ++ (keyword ++ tail)) ∧
      mark.Stands o script.toList (sources pieces) blanks keyword tail length := by
  obtain ⟨visit, hvisit, hmark⟩ := List.mem_filterMap.1 h
  obtain ⟨earlier, later, hcourse⟩ := List.append_of_mem hvisit
  obtain ⟨pieces, w, text, piece, rest, hp, hshows, rfl, rfl⟩ := exists_shows_of_course hcourse
  obtain ⟨blanks, keyword, tail, length, rfl, hsource, hkeyed, hjoined, htail, hkeyword, hending⟩ :=
    Visit.exists_keyed_of_mark? hshows hmark
  rw [← Position.after_append] at hkeyword
  rw [hsource, ← Position.after_append] at hending
  exact ⟨pieces, w, blanks, keyword, tail, length, hp, hp.text_eq, hkeyed, hjoined, hkeyword,
    hending, htail⟩

/-! ### The order of marks -/

/-- The mark of a piece lies within the piece. -/
theorem Visit.bounds_of_mark? {piece : Piece} (h : Outlook.Shows o w text (.piece piece rest))
    {p : Position} (hmark : (ofPiece p piece).mark? = some mark) :
    p.offset ≤ mark.keyword.offset ∧ mark.keyword.offset < mark.ending.offset ∧
      mark.ending.offset = (p.after piece.source).offset := by
  obtain ⟨blanks, keyword, tail, length, -, hsource, hkeyed, -, -, hkeyword, hending⟩ :=
    exists_keyed_of_mark? h hmark
  have hpos := bytes_pos hkeyed.keyword_ne_nil
  refine ⟨?_, ?_, congrArg Position.offset hending⟩
  · rw [hkeyword, Position.offset_after_bytes]
    omega
  · rw [hkeyword, hending, hsource]
    simp only [Position.offset_after_bytes, bytes_append]
    omega

/-- The marks of a passage lie within it, one behind the other. -/
theorem Passage.bounds_of_mark (h : Passage o w text pieces w' rest) (p : Position) :
    (∀ mark ∈ (Visit.ofPieces p pieces).filterMap Visit.mark?,
      p.offset ≤ mark.keyword.offset ∧ mark.keyword.offset < mark.ending.offset ∧
        mark.ending.offset ≤ (p.after (sources pieces)).offset) ∧
      ((Visit.ofPieces p pieces).filterMap Visit.mark?).Pairwise
        fun a b => a.keyword.offset < b.keyword.offset := by
  induction h generalizing p with
  | stay => exact ⟨fun _ hmark => (nomatch hmark), .nil⟩
  | @step _ _ _ _ _ piece pieces shows _ ih =>
      obtain ⟨hbounds, hsorted⟩ := ih (p.after piece.source)
      have hle := Position.offset_after_bytes p piece.source
      have hle' := Position.offset_after_bytes (p.after piece.source) (sources pieces)
      have hcons : Visit.ofPieces p (piece :: pieces) =
          Visit.ofPiece p piece :: Visit.ofPieces (p.after piece.source) pieces := rfl
      rw [hcons, sources_cons, Position.after_append, List.filterMap_cons]
      cases hmark : (Visit.ofPiece p piece).mark? with
      | none =>
          refine ⟨fun mark hmem => ?_, hsorted⟩
          have := hbounds mark hmem
          omega
      | some first =>
          have hfirst := Visit.bounds_of_mark? shows hmark
          refine ⟨List.forall_mem_cons.2 ⟨by omega, fun mark hmem => ?_⟩,
            .cons (fun mark hmem => ?_) hsorted⟩
          · have := hbounds mark hmem
            omega
          · have := hbounds mark hmem
            omega

/-- The marks of a script are in the order of their keywords. -/
theorem pairwise_marks (o : Options) (script : String) :
    (marks o script).Pairwise fun a b => a.keyword.offset < b.keyword.offset := by
  obtain ⟨pieces, w, rest, fault, hp, hh⟩ := exists_passage o false script.toList
  rw [marks, (split_of_halt hp hh).1]
  exact (hp.bounds_of_mark {}).2

/-- Marks that are among those of other options are in the same order there. -/
theorem marks_sublist {o' : Options} (h : ∀ mark ∈ marks o script, mark ∈ marks o' script) :
    (marks o script).Sublist (marks o' script) := by
  have hsorted := pairwise_marks o script
  have hnodup : (marks o script).Nodup := by
    refine hsorted.imp fun hlt heq => ?_
    rw [heq] at hlt
    exact Nat.lt_irrefl _ hlt
  have : Std.Antisymm fun a b : Mark => a.keyword.offset < b.keyword.offset :=
    ⟨fun a b hab hba => absurd hba (Nat.lt_asymm hab)⟩
  exact List.sublist_of_subperm_of_pairwise (List.subperm_of_subset hnodup h) hsorted
    (pairwise_marks o' script)

end BatchScript
