import BranchPaint.Proofs.Number.Decimal
import BranchPaint.Value.Operator

/-!
# Whole numbers as indices

Every whole number below `2 ^ 53` is a double, and the double nearest to it is the number itself
(`units_nearest`). So a run of digits that names an index below that bound and is the text of a
number names the index that the number has as a value (`Value.index?_of_numberText`).
-/

namespace BranchPaint

namespace Double

open Float.Model

/-! ## Numbers without a sign are not negative -/

/-- Without the highest bit the sign is positive. -/
theorem unpackSign_of_lt {bits : Nat} (h : bits < 2 ^ 63) :
    UnpackedFloat.Sign.ofBitVec (@UnpackedFloat.unpackSign Format.binary64 (BitVec.ofNat 64 bits)) =
      .positive := by
  have hzero : (@UnpackedFloat.unpackSign Format.binary64 (BitVec.ofNat 64 bits)).toNat = 0 := by
    simp only [UnpackedFloat.unpackSign, BitVec.toNat_cast, BitVec.extractLsb_toNat,
      Nat.shiftRight_eq_div_pow]
    change bits % 2 ^ 64 / 2 ^ 63 % 2 ^ (63 - 63 + 1) = 0
    omega
  have : @UnpackedFloat.unpackSign Format.binary64 (BitVec.ofNat 64 bits) = 0#1 :=
    BitVec.eq_of_toNat_eq hzero
  rw [this]
  rfl

/-- A finite number without a sign is at least zero. -/
theorem zero_le_ofMagnitudeBits {bits : Nat} (h : bits < infinityBits) :
    (0 : Float) ≤ ofMagnitudeBits false bits := by
  have hlt : bits < 2 ^ 63 := Nat.lt_trans h (by decide)
  have hsign := unpackSign_of_lt hlt
  have hfinite := isFinite_unpacked h
  change decide ((0 : Float).toModel.unpack.le (ofMagnitudeBits false bits).toModel.unpack = true) =
    true
  rw [unpack_ofMagnitudeBits (Nat.le_of_lt h),
    show (0 : Float).toModel.unpack = .zero .positive from rfl, decide_eq_true_eq]
  revert hfinite
  unfold unpacked
  fun_cases UnpackedFloat.unpack Format.binary64 (BitVec.ofNat 64 bits) with
  | case1 => exact fun h => Bool.noConfusion h
  | case2 => exact fun h => Bool.noConfusion h
  | case3 m e signVec sign =>
    intro _
    rfl
  | case4 m e s signVec sign =>
    intro _
    rw [show sign = .positive from hsign]
    rfl
  | case5 m e s signVec sign =>
    intro _
    rw [show sign = .positive from hsign]
    rfl

/-! ## Whole numbers are exact -/

/-- The bits of a significand of 53 digits at a scale tell the scale. -/
theorem scale_of_significand {s m : Nat} (hge : 2 ^ 52 ≤ m) (hlt : m < 2 ^ 53) :
    scale (s * Nat.pow 2 52 + m) = s := by
  simp only [scale, show Nat.pow 2 52 = 2 ^ 52 from rfl]
  omega

/-- A significand of 53 digits at its scale has as many units as it says. -/
theorem units_of_significand {s m : Nat} (hge : 2 ^ 52 ≤ m) (hlt : m < 2 ^ 53) :
    units (s * Nat.pow 2 52 + m) = m * Nat.pow 2 s := by
  unfold units significand
  rw [scale_of_significand hge hlt, Nat.add_sub_cancel_left]

/-- A whole number of at most 53 binary digits is nearest to the double that it is, whatever the
least unit. -/
theorem nearest_aux {i u : Nat} (hpos : 0 < i) (hlt : i < 2 ^ 53) (hu : 52 ≤ u) :
    ∃ s m, 2 ^ 52 ≤ m ∧ m < 2 ^ 53 ∧ m * Nat.pow 2 s = i * Nat.pow 2 u ∧ s ≤ u ∧
      (i * Nat.pow 2 u).log2 - 52 = s ∧ roundDiv (i * Nat.pow 2 u) (Nat.pow 2 s) = m := by
  have hne : i ≠ 0 := Nat.ne_of_gt hpos
  have hlog : i.log2 < 53 := (Nat.log2_lt hne).2 hlt
  have hself : 2 ^ i.log2 ≤ i := Nat.log2_self_le hne
  have hsucc : i < 2 ^ (i.log2 + 1) := Nat.lt_log2_self
  have hprod : i * Nat.pow 2 u ≠ 0 := Nat.mul_ne_zero hne (Nat.ne_of_gt (Nat.two_pow_pos u))
  have hlog2 : (i * Nat.pow 2 u).log2 = i.log2 + u := by
    rw [Nat.log2_eq_iff hprod]
    constructor
    · rw [Nat.pow_add]
      exact Nat.mul_le_mul_right _ hself
    · rw [show i.log2 + u + 1 = (i.log2 + 1) + u by omega, Nat.pow_add]
      exact Nat.mul_lt_mul_of_pos_right hsucc (Nat.two_pow_pos u)
  -- the significand is the number, moved up to 53 digits
  have hsplit : i * Nat.pow 2 u = i * Nat.pow 2 (52 - i.log2) * Nat.pow 2 (i.log2 + u - 52) := by
    simp only [Nat.pow_eq]
    rw [Nat.mul_assoc, ← Nat.pow_add, show 52 - i.log2 + (i.log2 + u - 52) = u by omega]
  refine ⟨i.log2 + u - 52, i * Nat.pow 2 (52 - i.log2), ?_, ?_, hsplit.symm, by omega,
    by rw [hlog2], ?_⟩
  · calc 2 ^ 52 = 2 ^ i.log2 * 2 ^ (52 - i.log2) := by
          rw [← Nat.pow_add, show i.log2 + (52 - i.log2) = 52 by omega]
      _ ≤ i * Nat.pow 2 (52 - i.log2) := Nat.mul_le_mul_right _ hself
  · calc i * Nat.pow 2 (52 - i.log2) < 2 ^ (i.log2 + 1) * 2 ^ (52 - i.log2) :=
          Nat.mul_lt_mul_of_pos_right hsucc (Nat.two_pow_pos _)
      _ = 2 ^ 53 := by rw [← Nat.pow_add, show i.log2 + 1 + (52 - i.log2) = 53 by omega]
  · rw [hsplit, Nat.pow_eq, Nat.pow_eq, roundDiv_mul_self _ (Nat.two_pow_pos _)]

/-- Below `2 ^ 53` every whole number is a finite double, and is a whole number of ones there. -/
theorem units_nearest {i : Nat} (h : i < 2 ^ 53) :
    nearest i 1 < infinityBits ∧ units (nearest i 1) = i * unitsPerOne := by
  by_cases hzero : i = 0
  · subst hzero
    have : nearest 0 1 = 0 := by
      apply nearest_of_small
      rw [Nat.zero_mul]
      decide
    rw [this]
    exact ⟨by decide, by rw [Nat.zero_mul]; rfl⟩
  · unfold unitsPerOne nearest unitsPerOne
    simp only [Nat.div_one, Nat.one_mul]
    have hu : 52 ≤ 1074 := by decide
    have hu' : 1074 < 2046 := by decide
    -- nothing is to be computed with this power
    generalize 1074 = u at hu hu' ⊢
    obtain ⟨s, m, hge, hlt, hunits, hs, hlog, hround⟩ := nearest_aux (Nat.pos_of_ne_zero hzero) h hu
    rw [hlog, hround]
    have hbelow : s * Nat.pow 2 52 + m < infinityBits := by
      have : s * Nat.pow 2 52 ≤ 2045 * Nat.pow 2 52 := Nat.mul_le_mul_right _ (by omega)
      have hinf : infinityBits = 2045 * Nat.pow 2 52 + 2 * 2 ^ 52 := by decide
      omega
    rw [Nat.min_eq_left (Nat.le_of_lt hbelow)]
    exact ⟨hbelow, (units_of_significand hge hlt).trans hunits⟩

end Double

/-! ## Indices -/

/-- An index is written with at least one digit and nothing else. -/
theorem digits_of_indexOfDigits? {ds : List Char} {i : Nat} (h : indexOfDigits? ds = some i) :
    ds ≠ [] ∧ ∀ c ∈ ds, c.isDigit := by
  unfold indexOfDigits? at h
  split at h
  · cases h
  · rename_i hdigits
    simpa [List.isEmpty_iff, not_or] using hdigits

/-- A whole number below `2 ^ 53`, as a value, is the index that it is. -/
theorem Value.index?_nearest {i : Nat} (h : i < 2 ^ 53) :
    (Value.num (Double.ofMagnitudeBits false (Double.nearest i 1))).index? = some i := by
  obtain ⟨hlt, hunits⟩ := Double.units_nearest h
  have hle := Nat.le_of_lt hlt
  have hwhole : Double.isWhole (Double.nearest i 1) = true := by
    unfold Double.isWhole
    rw [hunits, Nat.mul_mod_left]
    rfl
  have hpart : Double.wholePart (Double.nearest i 1) = i := by
    unfold Double.wholePart
    rw [hunits, Nat.mul_div_cancel _ Double.unitsPerOne_pos]
  unfold Value.index?
  dsimp only
  rw [Double.magnitudeBits_ofMagnitudeBits hle, (Double.isFinite_ofMagnitudeBits hle).2 hlt,
    hwhole, hpart]
  simp [Double.zero_le_ofMagnitudeBits hlt]

/-- If the text of a literal is digits that name an index below `2 ^ 53`, then that is its index as
a value. -/
theorem Value.index?_of_literal {x : Float} (hx : IsLiteral x) {i : Nat}
    (htext : indexOfDigits? (numberText x).toList = some i) (hi : i < 2 ^ 53) :
    (Value.num x).index? = some i := by
  obtain ⟨hne, hdigits⟩ := digits_of_indexOfDigits? htext
  have hvalue : Decimal.ofDigits (numberText x).toList = i := by
    unfold indexOfDigits? at htext
    split at htext
    · cases htext
    · dsimp only at htext
      split at htext
      · exact Option.some.inj htext
      · cases htext
  -- the text is read as the number it came from, and as the decimal that its digits are
  have hread := Lexer.number_numberText hx (r := []) (fun _ hc => absurd hc (by simp)) .start
  have hscan := Decimal.scan?_digits hne hdigits (r := []) (fun _ hc => absurd hc (by simp)) .start
  unfold Lexer.number at hread
  rw [hscan, Option.map_some, hvalue] at hread
  have hx' : Decimal.toFloat ⟨i, 0⟩ false = x := congrArg Prod.fst (Option.some.inj hread)
  have hbits : (⟨i, 0⟩ : Decimal).nearestBits = Double.nearest i 1 := by
    rw [Decimal.nearestBits_eq]
    change Double.nearest (i * Nat.pow 10 0) (Nat.pow 10 0) = _
    rw [show Nat.pow 10 0 = 1 from rfl, Nat.mul_one]
  rw [← hx', Decimal.toFloat, hbits]
  exact Value.index?_nearest hi

/-- A number whose text is digits is a literal or a zero. -/
theorem isLiteral_of_digits {x : Float} (hdigits : ∀ c ∈ (numberText x).toList, c.isDigit) :
    IsLiteral x ∨ Double.magnitudeBits x = 0 := by
  by_cases hzero : Double.magnitudeBits x = 0
  · exact .inr hzero
  left
  unfold numberText at hdigits
  cases hnan : x.isNaN with
  | true =>
    rw [if_pos hnan] at hdigits
    exact absurd (hdigits 'N' (by decide)) (by decide)
  | false =>
    rw [if_neg (by rw [hnan]; exact Bool.false_ne_true)] at hdigits
    simp only [if_neg hzero] at hdigits
    cases hneg : Double.isNegative x with
    | true =>
      simp only [hneg, if_true] at hdigits
      split at hdigits
      · exact absurd (hdigits '-' (by decide)) (by decide)
      · exact absurd (hdigits '-' (by simp)) (by decide)
    | false =>
      have hle := Double.magnitudeBits_le hneg hnan
      refine ⟨Double.magnitudeBits x, Nat.lt_of_le_of_ne hle fun hinf => ?_,
        (Double.ofMagnitudeBits_self hneg).symm⟩
      simp only [hneg, if_pos hinf] at hdigits
      exact absurd (hdigits 'I' (by decide)) (by decide)

/-- A number of magnitude zero is one of the two zeros. -/
theorem Double.toBits_of_zero {x : Float} (h : magnitudeBits x = 0) :
    x.toBits = UInt64.ofNat 0 ∨ x.toBits = UInt64.ofNat (Nat.pow 2 63) := by
  have hlt : x.toBits.toNat < 2 ^ 64 := x.toBits.toNat_lt
  have hmod : x.toBits.toNat % 2 ^ 63 = 0 := h
  rcases (by omega : x.toBits.toNat = 0 ∨ x.toBits.toNat = 2 ^ 63) with h | h
  · exact .inl (UInt64.toNat.inj h)
  · exact .inr (UInt64.toNat.inj h)

/-- Zero is written as the index 0 and is that index. -/
theorem Value.index?_of_zero {x : Float} (h : Double.magnitudeBits x = 0) :
    indexOfDigits? (numberText x).toList = some 0 ∧ (Value.num x).index? = some 0 := by
  rw [← Float.ofBits_toBits x]
  rcases Double.toBits_of_zero h with h | h
  · rw [h]
    decide +kernel
  · rw [h]
    decide +kernel

/-- If the text of a number is digits that name an index below `2 ^ 53`, then that is its index as a
value. -/
theorem Value.index?_of_numberText {x : Float} {i : Nat}
    (htext : indexOfDigits? (numberText x).toList = some i) (hi : i < 2 ^ 53) :
    (Value.num x).index? = some i := by
  rcases isLiteral_of_digits (digits_of_indexOfDigits? htext).2 with hx | hzero
  · exact index?_of_literal hx htext hi
  · obtain ⟨hindex, hvalue⟩ := index?_of_zero hzero
    rw [hindex] at htext
    rwa [← Option.some.inj htext]

end BranchPaint
