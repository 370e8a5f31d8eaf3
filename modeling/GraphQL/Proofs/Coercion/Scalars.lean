import Mathlib
import GraphQL.Coercion.ToLiteral
import GraphQL.Number.Notation

/-!
# Literals of the scalars of every schema

Which literals `Int`, `String`, `Boolean` and `ID` accept, with the values that they make of them.
An integer is what its own decimal text reads as (`readInteger?_toString`), and one of at most 53
bits goes through floating-point numbers unchanged (`Binary64.toInt?_ofInt?`).
-/

namespace GraphQL

/-! ## Texts of integers -/

theorem digitsValue_toDigits (n : ℕ) : digitsValue (Nat.toDigits 10 n) = n :=
  Nat.ofDigitChars_toDigits (by decide) (by decide)

theorem isDigit_toDigits (n : ℕ) : ∀ c ∈ Nat.toDigits 10 n, c.isDigit :=
  fun _ hmem => Nat.isDigit_of_mem_toDigits (by decide) (by decide) hmem

theorem splitSign_of_isDigit {c : Char} {rest : List Char} (h : c.isDigit) :
    splitSign (c :: rest) = (false, c :: rest) := by
  unfold splitSign
  split
  · rename_i heq
    obtain ⟨rfl, -⟩ := List.cons.inj heq
    simp at h
  · rename_i heq
    obtain ⟨rfl, -⟩ := List.cons.inj heq
    simp at h
  · rfl

theorem readInteger?_toDigits (n : ℕ) : readInteger? (Nat.toDigits 10 n) = some (n : ℤ) := by
  have hdigits := isDigit_toDigits n
  have hvalue := digitsValue_toDigits n
  cases htext : Nat.toDigits 10 n with
  | nil => exact absurd htext Nat.toDigits_ne_nil
  | cons c rest =>
      rw [htext] at hdigits hvalue
      have hall : (c :: rest).all Char.isDigit := List.all_eq_true.mpr hdigits
      simp only [readInteger?, splitSign_of_isDigit (hdigits c List.mem_cons_self), hall, hvalue,
        List.isEmpty_cons, Bool.not_true, Bool.or_self, Bool.false_eq_true, if_false]

theorem readInteger?_neg_toDigits (n : ℕ) :
    readInteger? ('-' :: Nat.toDigits 10 n) = some (-(n : ℤ)) := by
  have hall : (Nat.toDigits 10 n).all Char.isDigit := List.all_eq_true.mpr (isDigit_toDigits n)
  have hne : (Nat.toDigits 10 n).isEmpty = false := List.isEmpty_eq_false_iff.mpr Nat.toDigits_ne_nil
  simp only [readInteger?, splitSign, hall, hne, digitsValue_toDigits, Bool.not_true, Bool.or_self,
    Bool.false_eq_true, if_false, if_true]

/-- The text of an integer: its digits, after a minus sign if it is negative. -/
theorem toList_toString (i : ℤ) : (toString i).toList =
    if 0 ≤ i then Nat.toDigits 10 i.toNat else '-' :: Nat.toDigits 10 (-i).toNat := by
  rw [show toString i = i.repr from rfl, Int.repr_eq_if]
  split <;> simp [Nat.toList_repr]

theorem readInteger?_toString (i : ℤ) : readInteger? (toString i).toList = some i := by
  rw [toList_toString]
  split
  · rw [readInteger?_toDigits, Int.toNat_of_nonneg ‹_›]
  · rw [readInteger?_neg_toDigits, Int.toNat_of_nonneg (by omega), neg_neg]

theorem readInt64?_toString {i : ℤ} (h : isInt64 i) : readInt64? (toString i).toList = some i := by
  rw [readInt64?, readInteger?_toString, Option.filter_some, if_pos h]

/-- The digits of a positive number do not begin with a zero. -/
theorem head?_toDigits_ne_zero {n : ℕ} (h : 0 < n) : (Nat.toDigits 10 n).head? ≠ some '0' := by
  induction n using Nat.strongRecOn with
  | ind n ih =>
      rw [Nat.toDigits_eq_if (by decide)]
      split
      · rename_i hlt
        intro hhead
        have hdigit : n.digitChar = '0' := by simpa using hhead
        interval_cases n <;> simp [Nat.digitChar] at hdigit
      · rename_i hge
        have hquotient := ih (n / 10) (by omega) (by omega)
        rwa [List.head?_append_of_ne_nil _ Nat.toDigits_ne_nil]

/-- The text of a natural number: no zero in front of other digits. -/
theorem exists_cons_toDigits (n : ℕ) : ∃ c rest, Nat.toDigits 10 n = c :: rest ∧
    (∀ d ∈ c :: rest, d.isDigit) ∧ (c = '0' → rest = []) := by
  have hdigits := isDigit_toDigits n
  cases htext : Nat.toDigits 10 n with
  | nil => exact absurd htext Nat.toDigits_ne_nil
  | cons c rest =>
      refine ⟨c, rest, rfl, htext ▸ hdigits, ?_⟩
      rintro rfl
      obtain rfl : n = 0 := by
        by_contra hne
        exact head?_toDigits_ne_zero (Nat.pos_of_ne_zero hne) (by simp [htext])
      exact (List.cons.inj htext).2.symm

/-! ## Integers as floating-point numbers -/

namespace Binary64

theorem scaledRatio_neg (n k : ℕ) : scaledRatio n 1 (-(k : ℤ)) = (n * 2 ^ k, 1) := by
  unfold scaledRatio
  split
  · obtain rfl : k = 0 := by omega
    simp
  · rw [neg_neg, Int.toNat_natCast]
    rfl

theorem roundHalfEven_one (n : ℕ) : roundHalfEven n 1 = n := by
  simp [roundHalfEven, Nat.mod_one]

/-- A number of at most 53 bits is kept by shifting it until its significand is full. -/
theorem ofRatio?_one {n : ℕ} (negative : Bool) (hpos : n ≠ 0) (hn : n < 2 ^ 53) :
    ofRatio? negative n 1 =
      some ⟨negative, n * 2 ^ (52 - n.log2), -((52 - n.log2 : ℕ) : ℤ)⟩ := by
  have hlog : n.log2 ≤ 52 := by
    have := (Nat.log2_lt hpos).mpr hn
    omega
  have hlower : 2 ^ 52 ≤ n * 2 ^ (52 - n.log2) := by
    calc 2 ^ 52 = 2 ^ n.log2 * 2 ^ (52 - n.log2) := by rw [← pow_add, Nat.add_sub_cancel' hlog]
      _ ≤ n * 2 ^ (52 - n.log2) := Nat.mul_le_mul_right _ (Nat.log2_self_le hpos)
  have hupper : n * 2 ^ (52 - n.log2) < 2 ^ 53 := by
    calc n * 2 ^ (52 - n.log2) < 2 ^ (n.log2 + 1) * 2 ^ (52 - n.log2) :=
          Nat.mul_lt_mul_of_pos_right Nat.lt_log2_self (by positivity)
      _ = 2 ^ 53 := by rw [← pow_add]; congr 1; omega
  have hguess : (n.log2 : ℤ) - ((1 : ℕ).log2 : ℤ) - 52 = -((52 - n.log2 : ℕ) : ℤ) := by
    have : (1 : ℕ).log2 = 0 := by decide
    omega
  have hleast : leastFull = 2 ^ 52 := rfl
  have hbound : significandBound = 2 ^ 53 := rfl
  generalize hk : 52 - n.log2 = k at *
  have hexponent : max minExponent (-(k : ℤ)) = -(k : ℤ) := by
    rw [minExponent]
    omega
  have hmax : ¬ maxExponent < -(k : ℤ) := by
    rw [maxExponent]
    omega
  simp only [ofRatio?, if_neg hpos, hguess, scaledRatio_neg, Nat.div_one, hleast,
    if_neg (Nat.not_lt.mpr hlower), hexponent, roundHalfEven_one, hbound, if_neg hupper.ne,
    if_neg hmax]

theorem toInt?_shifted (negative : Bool) (n k : ℕ) :
    toInt? ⟨negative, n * 2 ^ k, -(k : ℤ)⟩ = some (if negative then -(n : ℤ) else n) := by
  have hmagnitude : magnitude ⟨negative, n * 2 ^ k, -(k : ℤ)⟩ = (n * 2 ^ k, 2 ^ k) := by
    unfold magnitude
    split
    · rename_i hk
      obtain rfl : k = 0 := by
        simp only at hk
        omega
      simp
    · simp
  have hpos : 0 < 2 ^ k := by positivity
  simp only [toInt?, hmagnitude, Nat.mul_mod_left, if_true, Nat.mul_div_cancel _ hpos]

/-- An integer of at most 53 bits is itself as a floating-point number. -/
theorem toInt?_ofInt? {i : ℤ} (h : i.natAbs < 2 ^ 53) : (ofInt? i).bind toInt? = some i := by
  unfold ofInt?
  by_cases hzero : i.natAbs = 0
  · obtain rfl := Int.natAbs_eq_zero.mp hzero
    decide +kernel
  · rw [ofRatio?_one _ hzero h, Option.bind_some, toInt?_shifted]
    by_cases hneg : i < 0
    · simp [hneg, abs_of_neg]
    · simp [hneg, abs_of_nonneg (not_lt.mp hneg)]

end Binary64

/-! ## Literals -/

namespace Scalar

theorem natAbs_lt_of_isInt32 {i : ℤ} (h : isInt32 i) : i.natAbs < 2 ^ 53 := by
  have h32 : Int32.minValue.toInt ≤ i ∧ i ≤ Int32.maxValue.toInt := by simpa [isInt32] using h
  have hmin : Int32.minValue.toInt = -2147483648 := by decide
  have hmax : Int32.maxValue.toInt = 2147483647 := by decide
  omega

/-- An integer of 32 bits passes. -/
theorem checkInt_ofInt? {i : ℤ} (h : isInt32 i) (value : Json) :
    checkInt (Binary64.ofInt? i) value = .ok (.int i) := by
  rw [checkInt, Binary64.toInt?_ofInt? (natAbs_lt_of_isInt32 h)]
  simp [h]

theorem exists_of_parseIntLiteral {literal : Value} {value : Json}
    (h : parseIntLiteral literal = .ok value) : ∃ text span i, literal = .int text span ∧
      readInt64? text.toList = some i ∧ isInt32 i ∧ value = .int i := by
  unfold parseIntLiteral at h
  split at h
  · rename_i text span
    split at h
    · rename_i i hread
      obtain ⟨hread, h32⟩ := Option.filter_eq_some_iff.mp hread
      exact ⟨text, span, i, rfl, hread, h32, (Except.ok.inj h).symm⟩
    · cases h
  · cases h

theorem exists_of_parseStringLiteral {literal : Value} {value : Json}
    (h : parseStringLiteral literal = .ok value) :
    ∃ text block span, literal = .string text block span ∧ value = .string text := by
  unfold parseStringLiteral at h
  split at h
  · rename_i text block span
    exact ⟨text, block, span, rfl, (Except.ok.inj h).symm⟩
  · cases h

theorem exists_of_parseBooleanLiteral {literal : Value} {value : Json}
    (h : parseBooleanLiteral literal = .ok value) :
    ∃ b span, literal = .boolean b span ∧ value = .bool b := by
  unfold parseBooleanLiteral at h
  split at h
  · rename_i b span
    exact ⟨b, span, rfl, (Except.ok.inj h).symm⟩
  · cases h

/-- What a scalar type of every schema makes of a literal. -/
theorem ofLiteral?_builtin (name description : String) (serialize parseValue : Coercion)
    (parseLiteral : Value → Except String Json) (literal : Value) :
    (builtin name description serialize parseValue parseLiteral).ofLiteral? literal =
      some (parseLiteral literal) := rfl

theorem exists_of_parseIdLiteral {literal : Value} {value : Json}
    (h : parseIdLiteral literal = .ok value) : ∃ text, value = .string text := by
  unfold parseIdLiteral at h
  split at h
  · exact ⟨_, (Except.ok.inj h).symm⟩
  · exact ⟨_, (Except.ok.inj h).symm⟩
  · cases h

/-! ## Literals of values -/

/-- An integer is written as an integer literal. -/
theorem isIntegerText_toString (i : ℤ) : Literal.isIntegerText (toString i) := by
  rw [Literal.isIntegerText, toList_toString]
  by_cases hnonneg : 0 ≤ i
  · rw [if_pos hnonneg]
    obtain ⟨c, rest, htext, hdigits, hzero⟩ := exists_cons_toDigits i.toNat
    rw [htext]
    by_cases hc : c = '0'
    · obtain rfl := hc
      obtain rfl := hzero rfl
      rfl
    · have hminus : c ≠ '-' := by
        rintro rfl
        simpa using hdigits '-' List.mem_cons_self
      simpa [hc, hminus] using hdigits
  · rw [if_neg hnonneg]
    obtain ⟨c, rest, htext, hdigits, hzero⟩ := exists_cons_toDigits (-i).toNat
    rw [htext]
    by_cases hc : c = '0'
    · obtain rfl := hc
      obtain rfl := hzero rfl
      rfl
    · simpa [hc] using hdigits

end Scalar

end GraphQL
