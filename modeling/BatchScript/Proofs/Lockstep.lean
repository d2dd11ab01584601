import BatchScript.Proofs.Delivery
import Mathlib.Data.List.Forall2

/-!
# Two scripts read in lockstep

Two scripts that differ in what does not matter are read piece by piece alike, each with its own
options: where one goes on with a piece of text so does the other, where one is cut so is the other,
with the same count, and both end together or leave the same construct open at the same place. Now
and then the second script has a piece that the first one has not, of characters that do not matter.

What does not matter is given by a `Blur`, which keeps of a text what is to be compared.

## Main results

* `Blur.map_wrapRepeat` — texts that look alike make loops that look alike.
* `Yields.step` — what reading on comes to, over one more piece.
* `Lockstep.exists_yields` — drafts that look alike are carried to outcomes that look alike.
* `alike_of_lockstep` — scripts read in lockstep fail alike, or are split into batches pairwise
  alike.
-/

namespace BatchScript

/-! ### What is compared -/

/-- What is kept of a text when it is compared. Whether a text is blank, and where its line breaks
stand at the ends, can be seen in what is kept. -/
structure Blur where
  map : List Char → List Char
  append : ∀ s t, map (s ++ t) = map s ++ map t
  all_isBlank : ∀ text, (map text).all isBlank = text.all isBlank
  strip : ∀ text, map (stripLineBreaks text) = stripLineBreaks (map text)

namespace Blur

variable {f : Blur} {s t : List Char}

theorem all_isBlank_eq (h : f.map s = f.map t) : s.all isBlank = t.all isBlank := by
  rw [← f.all_isBlank s, h, f.all_isBlank t]

/-- Texts that look alike make loops that look alike. -/
theorem map_wrapRepeat {body body' : String} (h : f.map body.toList = f.map body'.toList)
    (count : RepeatCount) (counter : String) :
    f.map (wrapRepeat body count counter).toList =
      f.map (wrapRepeat body' count counter).toList := by
  have hbody : f.map (stripLineBreaks body.toList) = f.map (stripLineBreaks body'.toList) := by
    rw [f.strip, f.strip, h]
  have hcons (c : Char) {s t : List Char} (hst : f.map s = f.map t) :
      f.map (c :: s) = f.map (c :: t) := by
    rw [← List.singleton_append, f.append, hst, ← f.append, List.singleton_append]
  have happend (front : List Char) {s t : List Char} (hst : f.map s = f.map t) :
      f.map (front ++ s) = f.map (front ++ t) := by
    rw [f.append, hst, ← f.append]
  simp only [toList_wrapRepeat]
  refine happend _ (hcons _ (happend _ (hcons _ (happend _ (hcons _ ?_)))))
  rw [f.append, hbody, ← f.append]

end Blur

/-- Batches that are alike but for what does not matter in their texts. -/
structure Batch.Alike (f : Blur) (b b' : Batch) : Prop where
  repeatCount_eq : b.repeatCount = b'.repeatCount
  line_eq : b.line = b'.line
  wrapped_eq : b.wrapped = b'.wrapped
  text_eq : f.map b.text.toList = f.map b'.text.toList

/-- Outcomes that are alike: the same error, or as many batches, pairwise alike. -/
inductive Outcomes.Alike (f : Blur) :
    Except Failure (List Batch) → Except Failure (List Batch) → Prop
  | failed (e : Malformed) : Alike f (.error (.malformed e)) (.error (.malformed e))
  | split {batches batches' : List Batch} (h : List.Forall₂ (Batch.Alike f) batches batches') :
      Alike f (.ok batches) (.ok batches')

/-- Batches that are alike to the same ones are alike to each other. -/
theorem Batch.forall₂_alike {f : Blur} {batches batches' middle : List Batch}
    (h : List.Forall₂ (Alike f) batches middle) (h' : List.Forall₂ (Alike f) batches' middle) :
    List.Forall₂ (Alike f) batches batches' := by
  induction h generalizing batches' with
  | nil =>
      cases h'
      exact .nil
  | cons hb _ ih =>
      cases h' with
      | cons hb' htail =>
          exact .cons ⟨hb.repeatCount_eq.trans hb'.repeatCount_eq.symm,
            hb.line_eq.trans hb'.line_eq.symm, hb.wrapped_eq.trans hb'.wrapped_eq.symm,
            hb.text_eq.trans hb'.text_eq.symm⟩ (ih htail)

/-- Outcomes that are alike to the same one are alike to each other. -/
theorem Outcomes.Alike.trans_symm {f : Blur}
    {result result' middle : Except Failure (List Batch)} (h : Alike f result middle)
    (h' : Alike f result' middle) : Alike f result result' := by
  cases h with
  | failed e =>
      cases h'
      exact .failed e
  | split h =>
      cases h' with
      | split h' => exact .split (Batch.forall₂_alike h h')

theorem Batch.alike_toList {f : Blur} {b b' : Option Batch} (h : Option.Rel (Alike f) b b') :
    List.Forall₂ (Alike f) b.toList b'.toList := by
  cases h with
  | none => exact .nil
  | some h => exact .cons h .nil

/-- A batch completed on either side, or on neither, in front of outcomes that are alike. -/
theorem Outcomes.Alike.prepend {f : Blur} {b b' : Option Batch}
    {result result' : Except Failure (List Batch)} (hb : Option.Rel (Batch.Alike f) b b')
    (h : Alike f result result') :
    Alike f (result.map (b.toList ++ ·)) (result'.map (b'.toList ++ ·)) := by
  cases h with
  | failed e => exact .failed e
  | split h => exact .split (List.rel_append (Batch.alike_toList hb) h)

/-- Drafts that are alike but for what does not matter in their texts. -/
structure Draft.Alike (f : Blur) (d d' : Draft) : Prop where
  text_eq : f.map d.text.toList = f.map d'.text.toList
  line_eq : d.line = d'.line

/-- Options under which a batch is finished in the same way. -/
structure Options.FinishAlike (o o' : Options) : Prop where
  repetition_eq : o.repetition = o'.repetition
  counterVariable_eq : o.counterVariable = o'.counterVariable

section Drafts

variable {f : Blur} {o o' : Options} {d d' : Draft}

theorem Batch.alike_finish (ho : o.FinishAlike o') {body body' : String}
    (h : f.map body.toList = f.map body'.toList) (count : RepeatCount) (line : Nat) :
    Alike f (finish o body count line) (finish o' body' count line) := by
  rw [finish, finish, ← ho.repetition_eq, ← ho.counterVariable_eq]
  split
  · exact ⟨rfl, rfl, rfl, f.map_wrapRepeat h count _⟩
  · exact ⟨rfl, rfl, rfl, h⟩

namespace Draft

theorem Alike.refl (f : Blur) (d : Draft) : Alike f d d :=
  ⟨rfl, rfl⟩

theorem Alike.add (h : Alike f d d') (line : Nat) {piece piece' : String}
    (hp : f.map piece.toList = f.map piece'.toList) :
    Alike f (d.add line piece) (d'.add line piece') := by
  have hblank : allBlank piece = allBlank piece' := Blur.all_isBlank_eq hp
  refine ⟨?_, ?_⟩
  · rw [text_add, text_add, String.toList_append, String.toList_append, f.append, f.append,
      h.text_eq, hp]
  · simp only [Draft.add, h.line_eq, hblank]

/-- A piece of which nothing is kept makes no difference. -/
theorem Alike.add_right (h : Alike f d d') (line : Nat) {piece : String}
    (hp : f.map piece.toList = []) : Alike f d (d'.add line piece) := by
  have hblank : allBlank piece = true := by
    rw [allBlank, ← f.all_isBlank, hp]
    rfl
  refine ⟨?_, ?_⟩
  · rw [text_add, String.toList_append, f.append, hp, List.append_nil, h.text_eq]
  · simp only [Draft.add, h.line_eq, hblank, if_true]
    cases d'.line <;> rfl

theorem Alike.finish? (ho : o.FinishAlike o') (h : Alike f d d') (count : RepeatCount) :
    Option.Rel (Batch.Alike f) (d.finish? o count) (d'.finish? o' count) := by
  have hblank : allBlank d.text = allBlank d'.text := Blur.all_isBlank_eq h.text_eq
  rw [Draft.finish?, Draft.finish?, hblank, h.line_eq]
  split
  · exact .none
  · exact .some (Batch.alike_finish ho h.text_eq count _)

end Draft

end Drafts

/-! ### What reading on comes to -/

theorem delivery_cons (o : Options) (d : Draft) (p : Position) (piece : Piece)
    (pieces : List Piece) :
    delivery o d p (piece :: pieces) =
      (d.absorb o p.line piece).2.toList ++
        delivery o (d.absorb o p.line piece).1 (p.after piece.source) pieces := by
  rw [delivery, deliver, delivery, List.append_assoc]

/-- What a script is split into from a position on, with the draft begun there, or why it is not
split. -/
inductive Yields (o : Options) (d : Draft) (p : Position) (w : Bool) (text : List Char) :
    Except Failure (List Batch) → Prop
  | finished {pieces : List Piece} {w' : Bool} (h : Passage o w text pieces w' []) :
      Yields o d p w text (.ok (delivery o d p pieces))
  | failed {pieces : List Piece} {w' : Bool} {rest : List Char} {fault : Fault}
      (h : Passage o w text pieces w' rest) (shows : Outlook.Shows o w' rest (.fault fault)) :
      Yields o d p w text (.error (.malformed (fault.malformed (p.after (sources pieces)) rest)))

theorem split_of_yields {o : Options} {script : String} {result : Except Failure (List Batch)}
    (h : Yields o {} {} false script.toList result) : split o script = result := by
  cases h with
  | finished h => exact split_of_passage h .finished
  | failed h shows => exact split_of_passage h (.fault shows)

namespace Yields

variable {o : Options} {d : Draft} {p : Position} {w : Bool} {text rest : List Char}
  {result : Except Failure (List Batch)}

/-- Reading on over one more piece gives the batch that the piece completes, if it does, and what
comes then. -/
theorem step {piece : Piece} (shows : Outlook.Shows o w text (.piece piece rest))
    (h : Yields o (d.absorb o p.line piece).1 (p.after piece.source) piece.endsInWord rest result) :
    Yields o d p w text (result.map ((d.absorb o p.line piece).2.toList ++ ·)) := by
  cases h with
  | finished h =>
      rw [Except.map, ← delivery_cons]
      exact .finished (.step shows h)
  | failed h hfault =>
      rw [← Position.after_append, ← sources_cons]
      exact .failed (.step shows h) hfault

theorem step_text {piece : Piece} (hp : piece.isSeparator = false)
    (shows : Outlook.Shows o w text (.piece piece rest))
    (h : Yields o (d.add p.line (piece.region.copied o.keepComments)) (p.after piece.source)
      piece.endsInWord rest result) : Yields o d p w text result := by
  have habsorb : d.absorb o p.line piece =
      (d.add p.line (piece.region.copied o.keepComments), none) := Draft.absorb_text hp
  have hstep : Yields o d p w text (result.map ((d.absorb o p.line piece).2.toList ++ ·)) :=
    step shows (by rwa [habsorb])
  rw [habsorb] at hstep
  cases result <;> exact hstep

end Yields

/-! ### Lockstep -/

/-- Two texts at positions in their scripts that are read alike to the end, each with its own
options and in its own state. -/
inductive Lockstep (f : Blur) (o o' : Options) :
    Position → Bool → List Char → Position → Bool → List Char → Prop
  | finished (p : Position) (w : Bool) (p' : Position) (w' : Bool) :
      Lockstep f o o' p w [] p' w' []
  | fault {p p' : Position} {w w' : Bool} {text text' : List Char} {fault fault' : Fault}
      (shows : Outlook.Shows o w text (.fault fault))
      (shows' : Outlook.Shows o' w' text' (.fault fault'))
      (same : fault.malformed p text = fault'.malformed p' text') :
      Lockstep f o o' p w text p' w' text'
  | text {p p' : Position} {w w' : Bool} {text text' rest rest' : List Char} {piece piece' : Piece}
      (shows : Outlook.Shows o w text (.piece piece rest))
      (shows' : Outlook.Shows o' w' text' (.piece piece' rest'))
      (hp : piece.isSeparator = false) (hp' : piece'.isSeparator = false)
      (line : p.line = p'.line) (copied : f.map (piece.copied o) = f.map (piece'.copied o'))
      (tail : Lockstep f o o' (p.after piece.source) piece.endsInWord rest
        (p'.after piece'.source) piece'.endsInWord rest') :
      Lockstep f o o' p w text p' w' text'
  | statement {p p' : Position} {w w' : Bool} {text text' rest rest' : List Char}
      {statement statement' : List Char} {count : RepeatCount}
      (shows : Outlook.Shows o w text (.piece (.separator count statement) rest))
      (shows' : Outlook.Shows o' w' text' (.piece (.separator count statement') rest'))
      (tail : Lockstep f o o' (p.after statement) false rest (p'.after statement') false rest') :
      Lockstep f o o' p w text p' w' text'
  /-- A piece of the second text of which nothing is kept. -/
  | extra {p p' : Position} {w w' : Bool} {text text' rest' : List Char} {piece' : Piece}
      (shows' : Outlook.Shows o' w' text' (.piece piece' rest'))
      (hp' : piece'.isSeparator = false) (copied : f.map (piece'.copied o') = [])
      (tail : Lockstep f o o' p w text (p'.after piece'.source) piece'.endsInWord rest') :
      Lockstep f o o' p w text p' w' text'

section Lockstep

variable {f : Blur} {o o' : Options} {p p' : Position} {w w' : Bool} {text text' : List Char}

/-- Drafts that look alike are carried to outcomes that look alike. The induction is on the steps;
what is carried along is that the drafts are alike. -/
theorem Lockstep.exists_yields (ho : o.FinishAlike o') (h : Lockstep f o o' p w text p' w' text')
    {d d' : Draft} (hd : d.Alike f d') :
    ∃ result result', Yields o d p w text result ∧ Yields o' d' p' w' text' result' ∧
      Outcomes.Alike f result result' := by
  induction h generalizing d d' with
  | finished p w p' w' =>
      exact ⟨_, _, .finished (.stay w []), .finished (.stay w' []),
        .split (Batch.alike_toList (hd.finish? ho .once))⟩
  | fault shows shows' same =>
      refine ⟨_, _, .failed (.stay _ _) shows, .failed (.stay _ _) shows', ?_⟩
      rw [sources_nil, Position.after_nil, Position.after_nil, same]
      exact .failed _
  | text shows shows' hp hp' line copied tail ih =>
      rw [Piece.copied, Piece.copied] at copied
      obtain ⟨result, result', h, h', halike⟩ := ih (hd.add _ copied)
      refine ⟨result, result', .step_text hp shows h, .step_text hp' shows' ?_, halike⟩
      rwa [← line]
  | statement shows shows' tail ih =>
      obtain ⟨result, result', h, h', halike⟩ := ih (.refl f {})
      exact ⟨_, _, .step shows h, .step shows' h', halike.prepend (hd.finish? ho _)⟩
  | extra shows' hp' copied tail ih =>
      obtain ⟨result, result', h, h', halike⟩ := ih (hd.add_right _ copied)
      exact ⟨result, result', h, .step_text hp' shows' h', halike⟩

/-- **Lockstep.** Scripts read in lockstep fail with the same error, or are split into as many
batches, pairwise alike. -/
theorem alike_of_lockstep (ho : o.FinishAlike o') {script script' : String}
    (h : Lockstep f o o' {} false script.toList {} false script'.toList) :
    Outcomes.Alike f (split o script) (split o' script') := by
  obtain ⟨result, result', hyields, hyields', halike⟩ := h.exists_yields ho (.refl f {})
  rwa [split_of_yields hyields, split_of_yields hyields']

end Lockstep

end BatchScript
