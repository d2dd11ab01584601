import BatchScript.Failure
import BatchScript.Options

/-!
# Quotations

The kinds of quoted text: which delimiters they stand between, and what is left open when the
closing one is missing. Single quotes always quote; double quotes and brackets do if the options
say so.

## Main results

* `Quotation.kinds_of_ofOpener?` — the three kinds, each with what the options have to say for it.
* `Quotation.opener_of_ofOpener?` — a kind of quoted text opens with the character it is found by.
* `Quotation.close_of_ofOpener?` — it is closed by a quote or a bracket.
-/

namespace BatchScript

/-- A kind of quoted text. -/
structure Quotation where
  /-- The delimiter that opens it. -/
  opener : Char
  /-- The delimiter that closes it, and that stands for itself when doubled. -/
  close : Char
  /-- What is left open when the script ends in it. -/
  construct : Construct
deriving DecidableEq, Repr

/-- The kind of quoted text that a character opens, if any. -/
def Quotation.ofOpener? (o : Options) (c : Char) : Option Quotation :=
  match c with
  | '\'' => some { opener := c, close := '\'', construct := .stringLiteral }
  | '"' =>
    if o.doubleQuotedLiterals then
      some { opener := c, close := '"', construct := .stringLiteral }
    else
      none
  | '[' =>
    if o.bracketedIdentifiers then
      some { opener := c, close := ']', construct := .bracketedIdentifier }
    else
      none
  | _ => none

namespace Quotation

variable {o : Options} {c : Char} {q : Quotation}

/-- The three kinds of quoted text. -/
theorem kinds_of_ofOpener? (h : ofOpener? o c = some q) :
    (c = '\'' ∧ q = ⟨'\'', '\'', .stringLiteral⟩) ∨
      (c = '"' ∧ o.doubleQuotedLiterals = true ∧ q = ⟨'"', '"', .stringLiteral⟩) ∨
      (c = '[' ∧ o.bracketedIdentifiers = true ∧ q = ⟨'[', ']', .bracketedIdentifier⟩) := by
  rw [ofOpener?.eq_def] at h
  split at h
  · exact .inl ⟨rfl, (Option.some.inj h).symm⟩
  · split at h
    · rename_i hdouble
      exact .inr (.inl ⟨rfl, hdouble, (Option.some.inj h).symm⟩)
    · cases h
  · split at h
    · rename_i hbracketed
      exact .inr (.inr ⟨rfl, hbracketed, (Option.some.inj h).symm⟩)
    · cases h
  · cases h

/-- A kind of quoted text opens with the character that it was found by. -/
theorem opener_of_ofOpener? (h : ofOpener? o c = some q) : q.opener = c := by
  rcases kinds_of_ofOpener? h with ⟨rfl, rfl⟩ | ⟨rfl, -, rfl⟩ | ⟨rfl, -, rfl⟩ <;> rfl

/-- A kind of quoted text is closed by one of three delimiters. -/
theorem close_of_ofOpener? (h : ofOpener? o c = some q) : q.close ∈ ['\'', '"', ']'] := by
  rcases kinds_of_ofOpener? h with ⟨-, rfl⟩ | ⟨-, -, rfl⟩ | ⟨-, -, rfl⟩ <;> simp

end Quotation

end BatchScript
