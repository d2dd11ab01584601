/-!
# Comparison ignoring ASCII case

Keywords are compared ignoring the case of the twenty-six ASCII letters; every other character
has to be equal. `AsciiCase.eq` compares two characters, `AsciiCase.begins` asks whether a text
begins with a literal.

## Main results

* `toLower_toLower`, `isAlpha_toLower` — folding a character again changes nothing, and letters stay
  letters.
* `eq_or_eq_toUpper_of_toLower` — only letters have another case, and only one.
* `eq_iff` — two characters are equal ignoring case when they fold to the same character.
* `begins_iff` — a text begins with a literal exactly when its first characters, as many as the
  literal has, are one by one equal to it ignoring case.
-/

namespace BatchScript.AsciiCase

/-- Equality of characters ignoring the case of ASCII letters. -/
def eq (a b : Char) : Bool :=
  a.toLower == b.toLower

theorem eq_iff {a b : Char} : eq a b = true ↔ a.toLower = b.toLower := by
  simp [eq]

/-! ### Letters and their lower case -/

theorem isUpper_iff {c : Char} : c.isUpper = true ↔ 65 ≤ c.toNat ∧ c.toNat ≤ 90 := by
  unfold Char.isUpper
  simp [UInt32.le_iff_toNat_le]

theorem isLower_iff {c : Char} : c.isLower = true ↔ 97 ≤ c.toNat ∧ c.toNat ≤ 122 := by
  unfold Char.isLower
  simp [UInt32.le_iff_toNat_le]

/-- The code of an upper-case letter, moved by the distance of the cases, is that of a lower-case
letter. -/
theorem lower_of_upper {c : Char} (h : 'A'.val ≤ c.val ∧ c.val ≤ 'Z'.val) :
    'a'.val ≤ c.val + ('a'.val - 'A'.val) ∧ c.val + ('a'.val - 'A'.val) ≤ 'z'.val := by
  simp only [UInt32.le_iff_toNat_le, UInt32.toNat_add] at h ⊢
  have h₁ : 'A'.val.toNat = 65 := rfl
  have h₂ : 'Z'.val.toNat = 90 := rfl
  have h₃ : 'a'.val.toNat = 97 := rfl
  have h₄ : 'z'.val.toNat = 122 := rfl
  have h₅ : ('a'.val - 'A'.val).toNat = 32 := rfl
  omega

theorem isLower_toLower {c : Char} (h : c.isUpper = true) : c.toLower.isLower = true := by
  unfold Char.isUpper at h
  have hc : 'A'.val ≤ c.val ∧ c.val ≤ 'Z'.val := by simpa using h
  have hlow := lower_of_upper hc
  unfold Char.toLower Char.isLower
  rw [dif_pos hc]
  simpa using hlow

/-- Only upper-case letters have another lower case. -/
theorem toLower_of_not_isUpper {c : Char} (h : c.isUpper = false) : c.toLower = c := by
  unfold Char.toLower
  unfold Char.isUpper at h
  rw [dif_neg]
  simpa using h

theorem toLower_of_not_isAlpha {c : Char} (h : c.isAlpha = false) : c.toLower = c :=
  toLower_of_not_isUpper (Bool.or_eq_false_iff.1 h).1

theorem isUpper_of_isLower {c : Char} (h : c.isLower = true) : c.isUpper = false := by
  have hlow := isLower_iff.1 h
  rw [← Bool.not_eq_true, isUpper_iff]
  omega

theorem isAlpha_toLower {c : Char} (h : c.isAlpha = true) : c.toLower.isAlpha = true := by
  cases hu : c.isUpper with
  | true => exact Bool.or_eq_true_iff.2 (.inr (isLower_toLower hu))
  | false => rwa [toLower_of_not_isUpper hu]

theorem toLower_toLower (c : Char) : c.toLower.toLower = c.toLower := by
  cases hu : c.isUpper with
  | true => exact toLower_of_not_isUpper (isUpper_of_isLower (isLower_toLower hu))
  | false => rw [toLower_of_not_isUpper hu, toLower_of_not_isUpper hu]

/-- A character folds to another one only if it is the upper-case letter of it. -/
theorem eq_or_eq_toUpper_of_toLower {c d : Char} (h : c.toLower = d) : c = d ∨ c = d.toUpper := by
  unfold Char.toLower at h
  split at h
  · rename_i hc
    have hup := lower_of_upper hc
    have hback : 'a'.val - 'A'.val + ('A'.val - 'a'.val) = 0 := by decide
    have hval : c.val + ('a'.val - 'A'.val) + ('A'.val - 'a'.val) = c.val := by
      rw [UInt32.add_assoc, hback, UInt32.add_zero]
    subst h
    refine .inr (Char.ext ?_)
    unfold Char.toUpper
    simp only [hup, and_self, dite_true, hval]
  · exact .inl h

/-- A character that folds to one that is no lower-case letter is that one. -/
theorem eq_of_toLower {c d : Char} (hd : d.isLower = false) (h : c.toLower = d) : c = d := by
  rcases eq_or_eq_toUpper_of_toLower h with rfl | rfl
  · rfl
  · unfold Char.toUpper
    unfold Char.isLower at hd
    rw [dif_neg]
    simpa using hd

/-! ### Literals -/

/-- Whether a text begins with a literal, ignoring the case of ASCII letters. -/
def begins : List Char → List Char → Bool
  | [], _ => true
  | _ :: _, [] => false
  | expected :: literal, found :: text => eq found expected && begins literal text

@[simp] theorem begins_nil (text : List Char) : begins [] text = true := by
  simp [begins]

/-- A text begins with a literal when its first characters match the literal's one by one. -/
theorem begins_iff {literal text : List Char} :
    begins literal text = true ↔
      ∃ taken rest, text = taken ++ rest ∧ taken.map Char.toLower = literal.map Char.toLower := by
  induction literal generalizing text with
  | nil => exact ⟨fun _ => ⟨[], text, rfl, rfl⟩, fun _ => begins_nil text⟩
  | cons expected literal ih =>
    cases text with
    | nil =>
      constructor
      · intro h
        simp [begins] at h
      · rintro ⟨taken, rest, ht, hm⟩
        obtain ⟨rfl, -⟩ := List.append_eq_nil_iff.1 ht.symm
        simp at hm
    | cons found text =>
      rw [begins, Bool.and_eq_true, eq_iff, ih]
      constructor
      · rintro ⟨h, taken, rest, rfl, hm⟩
        exact ⟨found :: taken, rest, rfl, by simp [h, hm]⟩
      · rintro ⟨taken, rest, ht, hm⟩
        cases taken with
        | nil => simp at hm
        | cons c taken =>
          simp only [List.cons_append, List.cons.injEq] at ht
          simp only [List.map_cons, List.cons.injEq] at hm
          obtain ⟨rfl, rfl⟩ := ht
          exact ⟨hm.1, taken, rest, rfl, hm.2⟩

/-- A text that begins with a literal is at least as long as it. -/
theorem length_le_of_begins {literal text : List Char} (h : begins literal text = true) :
    literal.length ≤ text.length := by
  obtain ⟨taken, rest, rfl, hm⟩ := begins_iff.1 h
  have := congrArg List.length hm
  simp only [List.length_map] at this
  simp [this]

end BatchScript.AsciiCase
