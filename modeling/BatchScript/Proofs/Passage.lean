import BatchScript.Proofs.Piece

/-!
# Passages through a script

A passage reads pieces one after the other, each with the text that really follows it in view, and
with the state that the piece before it leaves: whether a word is open. `Passage o w text pieces
w' rest` says that from `text` in state `w` the pieces lead to `rest` in state `w'`.

## Main results

* `Passage.text_eq` — the pieces cover the text up to the rest, and nothing else.
* `Passage.append`, `Passage.split` — passages are joined, and cut between any two pieces.
* `Passage.congr` — passages depend on what texts go on with, and on nothing else.
* `exists_passage` — from every text a passage leads to the end of it, or to a construct left open.
* `passage_of_pieces?` — the passage of a text that leaves nothing open can be computed.
-/

namespace BatchScript

/-- The text that pieces cover together. -/
def sources (pieces : List Piece) : List Char :=
  pieces.flatMap Piece.source

@[simp] theorem sources_nil : sources [] = [] := rfl

@[simp] theorem sources_cons (piece : Piece) (pieces : List Piece) :
    sources (piece :: pieces) = piece.source ++ sources pieces := rfl

@[simp] theorem sources_append (pieces more : List Piece) :
    sources (pieces ++ more) = sources pieces ++ sources more := by
  simp [sources]

/-- Pieces read one after the other, from a text and a state to a rest and a state. -/
inductive Passage (o : Options) :
    Bool → List Char → List Piece → Bool → List Char → Prop
  | stay (w : Bool) (text : List Char) : Passage o w text [] w text
  | step {w w' : Bool} {text rest rest' : List Char} {piece : Piece} {pieces : List Piece}
      (shows : Outlook.Shows o w text (.piece piece rest))
      (tail : Passage o piece.endsInWord rest pieces w' rest') :
      Passage o w text (piece :: pieces) w' rest'

/-- Where reading comes to a stop: at the end of the text, or before a construct left open. -/
inductive Halt (o : Options) (w : Bool) : List Char → Option Fault → Prop
  | finished : Halt o w [] none
  | fault {text : List Char} {fault : Fault} (shows : Outlook.Shows o w text (.fault fault)) :
      Halt o w text (some fault)

namespace Passage

variable {o : Options} {w w' w'' : Bool} {text rest rest' : List Char} {pieces more : List Piece}

/-- The pieces cover the text up to the rest. -/
theorem text_eq (h : Passage o w text pieces w' rest) : text = sources pieces ++ rest := by
  induction h with
  | stay => rfl
  | step shows _ ih => rw [Outlook.text_eq shows, ih, sources_cons, List.append_assoc]

/-- One passage after another is a passage. -/
theorem append (h : Passage o w text pieces w' rest) (h' : Passage o w' rest more w'' rest') :
    Passage o w text (pieces ++ more) w'' rest' := by
  induction h with
  | stay => exact h'
  | step shows _ ih => exact .step shows (ih h')

/-- A passage can be cut between any two of its pieces. -/
theorem split (h : Passage o w text (pieces ++ more) w'' rest') :
    ∃ w' rest, Passage o w text pieces w' rest ∧ Passage o w' rest more w'' rest' := by
  induction pieces generalizing w text with
  | nil => exact ⟨w, text, .stay w text, h⟩
  | cons piece pieces ih =>
      cases h with
      | step shows tail =>
          obtain ⟨w', rest, first, second⟩ := ih tail
          exact ⟨w', rest, .step shows first, second⟩

/-- Where nothing is left no piece is read. -/
theorem eq_nil_of_nil (h : Passage o w [] pieces w' rest) : pieces = [] := by
  cases h with
  | stay => rfl
  | step shows _ =>
      have hsource := Outlook.source_ne_nil shows
      have htext := Outlook.text_eq shows
      simp [hsource] at htext

/-- The last piece says whether a word is open behind a passage. -/
theorem endsInWord_eq (h : Passage o w text pieces w' rest) :
    w' = (pieces.getLast?.map Piece.endsInWord).getD w := by
  induction h with
  | stay w text => rfl
  | @step _ _ _ _ _ piece pieces _ _ ih =>
      rw [ih, List.getLast?_cons]
      cases pieces.getLast? <;> rfl

/-- Options under which every text goes on with the same things have the same passages. -/
theorem congr {o' : Options} (ho : ∀ w text, Outlook.ofText o w text = Outlook.ofText o' w text)
    (h : Passage o w text pieces w' rest) : Passage o' w text pieces w' rest := by
  induction h with
  | stay w text => exact .stay w text
  | step shows _ ih =>
      have hshows := Outlook.ofText_eq_iff.1 ((ho _ _).symm.trans shows.eq_ofText)
      exact .step hshows ih

end Passage

/-- And they stop reading at the same places. -/
theorem Halt.congr {o o' : Options} {w : Bool} {text : List Char} {fault : Option Fault}
    (ho : ∀ w text, Outlook.ofText o w text = Outlook.ofText o' w text)
    (h : Halt o w text fault) : Halt o' w text fault := by
  cases h with
  | finished => exact .finished
  | fault shows => exact .fault (Outlook.ofText_eq_iff.1 ((ho _ _).symm.trans shows.eq_ofText))

/-- From every text a passage leads to where reading stops. -/
theorem exists_passage (o : Options) (w : Bool) (text : List Char) :
    ∃ pieces w' rest fault, Passage o w text pieces w' rest ∧ Halt o w' rest fault := by
  induction hn : text.length using Nat.strongRecOn generalizing w text with
  | ind n ih =>
      have hshows := Outlook.shows_ofText o w text
      cases hk : Outlook.ofText o w text with
      | finished =>
          rw [hk] at hshows
          cases hshows
          exact ⟨[], w, [], none, .stay w [], .finished⟩
      | fault fault => exact ⟨[], w, text, some fault, .stay w text, .fault (hk ▸ hshows)⟩
      | piece piece rest =>
          rw [hk] at hshows
          have hlen : rest.length < n := by
            have hpos := List.length_pos_iff.2 (Outlook.source_ne_nil hshows)
            have := congrArg List.length (Outlook.text_eq hshows)
            rw [List.length_append] at this
            omega
          obtain ⟨pieces, w', rest', fault, h, hh⟩ := ih _ hlen piece.endsInWord rest rfl
          exact ⟨piece :: pieces, w', rest', fault, .step hshows h, hh⟩

/-- The pieces of a text, if there are fewer than so many and nothing is left open. -/
def pieces? (o : Options) : Nat → Bool → List Char → Option (List Piece)
  | 0, _, _ => none
  | limit + 1, w, text =>
    match Outlook.ofText o w text with
    | .finished => some []
    | .piece piece rest => (pieces? o limit piece.endsInWord rest).map (piece :: ·)
    | .fault _ => none

/-- The pieces of a text make a passage to its end. -/
theorem passage_of_pieces? {o : Options} {limit : Nat} {w : Bool} {text : List Char}
    {pieces : List Piece} (h : pieces? o limit w text = some pieces) :
    ∃ w', Passage o w text pieces w' [] := by
  induction limit generalizing w text pieces with
  | zero => cases h
  | succ limit ih =>
      have hshows := Outlook.shows_ofText o w text
      rw [pieces?] at h
      cases hk : Outlook.ofText o w text with
      | finished =>
          rw [hk] at h hshows
          cases h
          cases hshows
          exact ⟨w, .stay w []⟩
      | fault fault =>
          rw [hk] at h
          cases h
      | piece piece rest =>
          rw [hk] at h hshows
          obtain ⟨more, hmore, rfl⟩ := Option.map_eq_some_iff.1 h
          obtain ⟨w', hp⟩ := ih hmore
          exact ⟨w', .step hshows hp⟩

end BatchScript
