/-!
# Repeat counts

How many times a batch is to run: from one to 4294967295. A separator statement writes the count
in decimal digits, and a written number outside these bounds is no count.

## Main results

* `ofNat?_eq_some_iff` — a number is a count exactly when it lies within the bounds.
* `ofDigits?_toDigits` — a count written in decimal reads back as itself.
-/

namespace BatchScript

/-- How many times a batch is to run. -/
structure RepeatCount where
  /-- The number of runs. -/
  val : Nat
  /-- A batch runs at least once. -/
  one_le : 1 ≤ val
  /-- The number fits thirty-two bits. -/
  le_max : val ≤ 4294967295
deriving DecidableEq, Repr

namespace RepeatCount

@[ext] theorem ext {m n : RepeatCount} (h : m.val = n.val) : m = n := by
  cases m
  cases n
  cases h
  rfl

/-- A single run. -/
def once : RepeatCount :=
  ⟨1, by decide, by decide⟩

instance : Inhabited RepeatCount := ⟨once⟩

@[simp] theorem val_once : once.val = 1 := rfl

/-- The count of so many runs, if there can be so many. -/
def ofNat? (n : Nat) : Option RepeatCount :=
  if h : 1 ≤ n ∧ n ≤ 4294967295 then some ⟨n, h.1, h.2⟩ else none

theorem ofNat?_eq_some_iff {n : Nat} {count : RepeatCount} :
    ofNat? n = some count ↔ count.val = n := by
  rw [ofNat?]
  split
  · rename_i h
    rw [Option.some.injEq]
    exact ⟨fun e => e ▸ rfl, fun e => RepeatCount.ext e.symm⟩
  · rename_i h
    constructor
    · intro e
      cases e
    · rintro rfl
      exact absurd ⟨count.one_le, count.le_max⟩ h

@[simp] theorem ofNat?_val (count : RepeatCount) : ofNat? count.val = some count :=
  ofNat?_eq_some_iff.2 rfl

theorem ofNat?_eq_none_iff {n : Nat} : ofNat? n = none ↔ n = 0 ∨ 4294967295 < n := by
  rw [ofNat?]
  split
  · rename_i h
    simp
    omega
  · rename_i h
    simp
    omega

/-- The count that decimal digits write, of any number and with leading zeros allowed. No digits
write a single run. -/
def ofDigits? (digits : List Char) : Option RepeatCount :=
  if digits.isEmpty then some once else ofNat? (Nat.ofDigitChars 10 digits 0)

@[simp] theorem ofDigits?_nil : ofDigits? [] = some once := rfl

theorem ofDigits?_toDigits (count : RepeatCount) :
    ofDigits? (Nat.toDigits 10 count.val) = some count := by
  have h : (Nat.toDigits 10 count.val).isEmpty = false := by
    simp [List.isEmpty_eq_false_iff]
  simp [ofDigits?, h]

end RepeatCount

end BatchScript
