import BatchScript.Options.Datum
import Mathlib.Data.List.Nodup
import Mathlib.Data.List.Perm.Basic

/-!
# Options in either shape

Options are read from a record, where fields may stand in any order, be missing, or be unknown; and
from a list of values, which tells the fields by their order alone. A record is read by looking up
names, a list from the left. The two agree because both go through the fields in one order: a
reading of each kind is put together field by field, and each field is read by one rule.

## Main results

* `Options.Holds.ofFields?` — a record is read by the fields that are found in it.
* `Options.holds_of_perm` — fields are found in any order, and with others among them.
* `RowReads.all?` — a list is read as the record that pairs its values with names.
* `Options.rowReads_row` — so are options, field by field.
* `Options.ofDatum?_entries` — options survive being written, in part or whole and in either shape.
-/

namespace BatchScript

namespace Options

/-! ### Fields -/

/-- The fields of options. -/
inductive Field
  | separator
  | lookalikes
  | doubleQuotedLiterals
  | bracketedIdentifiers
  | keepComments
  | wordBoundaries
  | repetition
  | counterVariable
deriving DecidableEq, Repr

namespace Field

/-- All fields, in their order. -/
def all : List Field :=
  [separator, lookalikes, doubleQuotedLiterals, bracketedIdentifiers, keepComments,
    wordBoundaries, repetition, counterVariable]

/-- The name of a field in a record. -/
def name : Field → String
  | separator => "separator"
  | lookalikes => "lookalikes"
  | doubleQuotedLiterals => "double_quoted_literals"
  | bracketedIdentifiers => "bracketed_identifiers"
  | keepComments => "keep_comments"
  | wordBoundaries => "word_boundaries"
  | repetition => "repeat"
  | counterVariable => "counter_variable"

/-- What a field of some options is written as. -/
def datum (o : Options) : Field → Datum
  | separator => .text o.separator
  | lookalikes => .ofTexts o.lookalikes
  | doubleQuotedLiterals => .truth o.doubleQuotedLiterals
  | bracketedIdentifiers => .truth o.bracketedIdentifiers
  | keepComments => .truth o.keepComments
  | wordBoundaries => .truth o.wordBoundaries
  | repetition => o.repetition.toDatum
  | counterVariable => .text o.counterVariable

theorem mem_all (f : Field) : f ∈ all := by
  cases f <;> decide

theorem nodup_names : (all.map name).Nodup := by
  decide

/-- No two fields have the same name. -/
theorem name_injective : Function.Injective name := by
  intro f g h
  exact List.inj_on_of_nodup_map nodup_names f.mem_all g.mem_all h

end Field

/-- The entries of a record for those fields of some options that are kept. -/
def entries (o : Options) (kept : Field → Bool) : List (String × Datum) :=
  (Field.all.filter kept).map fun f => (f.name, f.datum o)

/-- Options are written as the record of all their fields. -/
theorem toDatum_eq_entries (o : Options) : o.toDatum = .record (o.entries fun _ => true) := rfl

/-- The options with every field at its default that is not kept. -/
def keeping (o : Options) (kept : Field → Bool) : Options :=
  let standard : Options := {}
  { separator := if kept .separator then o.separator else standard.separator
    lookalikes := if kept .lookalikes then o.lookalikes else standard.lookalikes
    doubleQuotedLiterals :=
      if kept .doubleQuotedLiterals then o.doubleQuotedLiterals else standard.doubleQuotedLiterals
    bracketedIdentifiers :=
      if kept .bracketedIdentifiers then o.bracketedIdentifiers else standard.bracketedIdentifiers
    keepComments := if kept .keepComments then o.keepComments else standard.keepComments
    wordBoundaries := if kept .wordBoundaries then o.wordBoundaries else standard.wordBoundaries
    repetition := if kept .repetition then o.repetition else standard.repetition
    counterVariable :=
      if kept .counterVariable then o.counterVariable else standard.counterVariable }

/-! ### Records -/

/-- A record in which, of the fields of options, those are found that are kept, as they are
written. -/
def Holds (fields : List (String × Datum)) (o : Options) (kept : Field → Bool) : Prop :=
  ∀ f : Field, fields.lookup f.name = if kept f then some (f.datum o) else none

variable {o : Options} {kept : Field → Bool} {fields extras : List (String × Datum)}

/-- A field that is kept is read as it was written, and one that is not takes its default. -/
theorem Holds.fieldOr (h : Holds fields o kept) (f : Field) {α : Type} {read : Datum → Option α}
    {value default : α} (hread : read (f.datum o) = some value) :
    fieldOr read f.name default fields = some (if kept f then value else default) := by
  rw [BatchScript.fieldOr, h f]
  cases kept f with
  | true => exact hread
  | false => rfl

/-- One reading after another that succeeds. -/
theorem bind_eq_some_of {α β : Type} {m : Option α} {next : α → Option β} {a : α} {b : β}
    (hm : m = some a) (hnext : next a = some b) : (m >>= next) = some b := by
  rw [hm]
  exact hnext

/-- A record is read by the fields that are found in it. -/
theorem Holds.ofFields? (h : Holds fields o kept) : ofFields? fields = some (o.keeping kept) :=
  bind_eq_some_of (h.fieldOr .separator rfl) <|
  bind_eq_some_of (h.fieldOr .lookalikes (Datum.texts?_ofTexts _)) <|
  bind_eq_some_of (h.fieldOr .doubleQuotedLiterals rfl) <|
  bind_eq_some_of (h.fieldOr .bracketedIdentifiers rfl) <|
  bind_eq_some_of (h.fieldOr .keepComments rfl) <|
  bind_eq_some_of (h.fieldOr .wordBoundaries rfl) <|
  bind_eq_some_of (h.fieldOr .repetition (Repetition.ofDatum?_toDatum _)) <|
  bind_eq_some_of (h.fieldOr .counterVariable rfl) rfl

theorem mem_entries_iff {f : Field} {d : Datum} :
    (f.name, d) ∈ o.entries kept ↔ kept f = true ∧ d = f.datum o := by
  rw [entries, List.mem_map]
  constructor
  · rintro ⟨g, hg, heq⟩
    obtain ⟨hname, hdatum⟩ := Prod.mk.inj heq
    obtain rfl := Field.name_injective hname
    exact ⟨(List.mem_filter.1 hg).2, hdatum.symm⟩
  · rintro ⟨hkept, rfl⟩
    exact ⟨f, List.mem_filter.2 ⟨f.mem_all, hkept⟩, rfl⟩

/-- In a record of some fields, in any order and mixed with others of unknown names, the fields are
found as they are written. -/
theorem holds_of_perm (hextras : ∀ e ∈ extras, ∀ f : Field, e.1 ≠ f.name)
    (hfields : fields.Perm (o.entries kept ++ extras)) : Holds fields o kept := by
  intro f
  have hmem (d : Datum) : (f.name, d) ∈ fields ↔ kept f = true ∧ d = f.datum o := by
    rw [hfields.mem_iff, List.mem_append, mem_entries_iff, or_iff_left]
    intro hextra
    exact hextras _ hextra f rfl
  cases hlookup : fields.lookup f.name with
  | none =>
      have hnone : kept f = false := by
        refine Bool.eq_false_iff.2 fun hkept => ?_
        have hne := List.lookup_eq_none_iff.1 hlookup _ ((hmem _).2 ⟨hkept, rfl⟩)
        simp at hne
      rw [hnone]
      rfl
  | some d =>
      obtain ⟨front, back, hsplit, -⟩ := List.lookup_eq_some_iff.1 hlookup
      obtain ⟨hkept, rfl⟩ := (hmem d).1 (by simp [hsplit])
      rw [hkept]
      rfl

end Options

/-! ### Lists -/

/-- A reading of values in order that comes to what a reading of a record does, if the values are
paired with the given names; the record is read by these names only. -/
structure RowReads {α : Type} (names : List String) (row : Row α)
    (record : List (String × Datum) → Option α) : Prop where
  run : ∀ values, row values = (record (names.zip values)).map (·, values.drop names.length)
  unread : ∀ name value fields, name ∉ names → record ((name, value) :: fields) = record fields

namespace RowReads

variable {α β : Type} {names : List String} {name : String}

/-- Nothing is read. -/
theorem pure (a : α) : RowReads [] (Pure.pure a) fun _ => some a :=
  ⟨fun _ => rfl, fun _ _ _ _ => rfl⟩

/-- One more field is read in front of others. -/
theorem next {read : Datum → Option α} {default : α} {row : α → Row β}
    {record : α → List (String × Datum) → Option β} (hname : name ∉ names)
    (h : ∀ a, RowReads names (row a) (record a)) :
    RowReads (name :: names) (Row.next read default >>= row) fun fields =>
      fieldOr read name default fields >>= fun a => record a fields := by
  refine ⟨fun values => ?_, fun other value fields hother => ?_⟩
  · cases values with
    | nil =>
        have hrun := (h default).run []
        rw [List.zip_nil_right, List.drop_nil] at hrun
        rw [List.zip_nil_right, List.drop_nil]
        exact hrun
    | cons value values =>
        have hfield : fieldOr read name default ((name, value) :: names.zip values) =
            read value := by
          rw [fieldOr, List.lookup_cons, beq_self_eq_true]
        rw [List.zip_cons_cons, hfield]
        simp only [Bind.bind, StateT.bind, Row.next]
        cases read value with
        | none => rfl
        | some a =>
            have hrest := (h a).unread name value (names.zip values) hname
            simp only [Option.map_some, Option.bind_some, (h a).run, hrest, List.length_cons,
              List.drop_succ_cons]
  · obtain ⟨hne, hnot⟩ := not_or.1 (List.mem_cons.not.1 hother)
    have hfield : fieldOr read name default ((other, value) :: fields) =
        fieldOr read name default fields := by
      rw [fieldOr, fieldOr, List.lookup_cons, beq_false_of_ne (Ne.symm hne)]
    rw [hfield]
    exact congrArg _ (funext fun a => (h a).unread other value fields hnot)

/-- A whole list is read as the record that pairs its values with the names. One that is too long is
refused. -/
theorem all? {row : Row α} {record : List (String × Datum) → Option α}
    (h : RowReads names row record) (values : List Datum) :
    row.all? values =
      if values.length ≤ names.length then record (names.zip values) else none := by
  rw [Row.all?, h.run]
  by_cases hlength : values.length ≤ names.length
  · rw [if_pos hlength, List.drop_eq_nil_iff.2 hlength]
    cases record (names.zip values) <;> rfl
  · obtain ⟨value, rest, hrest⟩ :=
      List.exists_cons_of_ne_nil (mt List.drop_eq_nil_iff.1 hlength)
    rw [if_neg hlength, hrest]
    cases record (names.zip values) <;> rfl

end RowReads

namespace Options

/-- Options are read from values in the order of the fields. -/
theorem rowReads_row : RowReads (Field.all.map Field.name) row ofFields? :=
  .next (by decide) fun _ =>
  .next (by decide) fun _ =>
  .next (by decide) fun _ =>
  .next (by decide) fun _ =>
  .next (by decide) fun _ =>
  .next (by decide) fun _ =>
  .next (by decide) fun _ =>
  .next (by decide) fun _ => .pure _

/-- **Options survive being written.** Options are written as a record of their eight fields, and
read back as they were. So they are if some fields are left out, others of unknown names are put in,
and all stand in any order; only, the fields left out take their defaults. A list of values is read
as the record that gives the values to the first fields, with the same outcome whatever the values
are; and a list of more than eight is refused. -/
theorem ofDatum?_entries :
    (∀ o : Options, o.toDatum = .record (o.entries fun _ => true) ∧
      ofDatum? o.toDatum = some o) ∧
    (∀ (o : Options) (kept : Field → Bool) (extras fields : List (String × Datum)),
      (∀ e ∈ extras, ∀ f : Field, e.1 ≠ f.name) →
      fields.Perm (o.entries kept ++ extras) →
        ofDatum? (.record fields) = some (o.keeping kept)) ∧
    ∀ values : List Datum,
      ofDatum? (.list values) =
        if values.length ≤ 8 then
          ofDatum? (.record ((Field.all.map Field.name).zip values))
        else
          none := by
  refine ⟨fun o => ⟨o.toDatum_eq_entries, ofDatum?_toDatum o⟩,
    fun o kept extras fields hextras hfields => ?_, fun values => ?_⟩
  · exact (holds_of_perm hextras hfields).ofFields?
  · exact rowReads_row.all? values

/-- Two fields, in front of them one whose name is not spelled like that of any field, and all
others missing. -/
theorem ofDatum?_of_two_fields :
    (∀ e ∈ [("Separator", Datum.null)], ∀ f : Field, e.1 ≠ f.name) ∧
      ofDatum?
          (.record
            [("Separator", .null), ("repeat", .text "delegate"), ("keep_comments", .truth true)]) =
        some { keepComments := true, repetition := .delegate } := by
  have hextras : ∀ e ∈ [("Separator", Datum.null)], ∀ f : Field, e.1 ≠ f.name := by
    intro e he f
    rw [List.mem_singleton.1 he]
    cases f <;> decide
  have hfields := List.reverse_perm
    (entries { separator := ";", keepComments := true, repetition := .delegate }
      (fun f => f = .keepComments || f = .repetition) ++ [("Separator", Datum.null)])
  exact ⟨hextras, ofDatum?_entries.2.1 _ _ _ _ hextras hfields⟩

end Options

end BatchScript
