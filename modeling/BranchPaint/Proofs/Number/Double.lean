import BranchPaint.Number.Double
import Mathlib

/-!
# Doubles and their bits

A double with its sign off is determined by its bits, a natural number up to `infinityBits`: packing
the parts of such bits gives the bits back (`magnitudeBits_ofMagnitudeBits`). Rounding a quotient is
a function of the quotient alone (`nearest_mul`), sends every finite double to its own bits
(`nearest_units`), sends what is beyond every double to infinity and what is below half the least
unit to zero.
-/

namespace BranchPaint.Double

open Float.Model
open Float.Model.UnpackedFloat

/-! ## Packing what was unpacked -/

/-- A sign is packed into the bit from which it was taken. -/
theorem toBitVec_ofBitVec (b : BitVec 1) : (Sign.ofBitVec b).toBitVec = b := by
  revert b
  decide

/-- The parts of a double are packed into its bits again. -/
theorem packComponents_unpack (b : BitVec 64) :
    packComponents Format.binary64 (Sign.ofBitVec (@unpackSign Format.binary64 b))
      (@unpackExponent Format.binary64 b) (@unpackMantissa Format.binary64 b) = b := by
  simp only [packComponents, toBitVec_ofBitVec]
  apply BitVec.eq_of_getLsbD_eq
  intro i hi
  simp only [unpackSign, unpackExponent, unpackMantissa, BitVec.getLsbD_append, BitVec.getLsbD_cast,
    BitVec.getLsbD_extract]
  have hi64 : i < 64 := hi
  by_cases h52 : i < 52
  · have : i ≤ 51 := by omega
    simp [h52, this]
  · by_cases h63 : i - 52 < 11
    · have : i - 52 ≤ 10 := by omega
      simp [h52, h63, this, show 52 + (i - 52) = i by omega]
    · simp [h52, h63, show i - 52 - 11 = 0 by omega, show 63 = i by omega]

/-- So is the double, if it is a number. -/
theorem pack_unpack (b : BitVec 64) (h : UnpackedFloat.unpack Format.binary64 b ≠ .notANumber) :
    UnpackedFloat.pack Format.binary64 (UnpackedFloat.unpack Format.binary64 b) = b := by
  have hb := packComponents_unpack b
  have hmlt : (@unpackMantissa Format.binary64 b).toNat < 2 ^ 52 := BitVec.isLt _
  have helt : (@unpackExponent Format.binary64 b).toNat < 2 ^ 11 := BitVec.isLt _
  revert h
  fun_cases UnpackedFloat.unpack Format.binary64 b with
  | case1 m e signVec sign he hm =>
    intro _
    change packComponents Format.binary64 _ (-1#11) 0#52 = b
    rw [← he, ← hm]
    exact hb
  | case2 => exact fun h => absurd rfl h
  | case3 m e signVec sign hne he hm =>
    intro _
    change packComponents Format.binary64 _ 0#11 0#52 = b
    rw [← he, ← hm]
    exact hb
  | case4 m e s signVec sign hne he hm =>
    intro _
    have hne : m.toNat ≠ 0 := by
      intro h0
      exact hm (BitVec.eq_of_toNat_eq h0)
    have hlog : m.toNat.log2 < 52 := (Nat.log2_lt hne).2 hmlt
    have hbiased : (s + 1 + Format.binary64.exponentBias + (52 : Nat)).toNat = 1 := by
      have h0 : e.toNat = 0 := by rw [he]; rfl
      change ((e.toNat : Int) - (1023 + 52) + 1 + 1023 + 52).toNat = 1
      omega
    simp only [UnpackedFloat.pack, hbiased]
    rw [if_neg (by decide), if_neg (by change _ ≠ 53; omega), BitVec.ofNat_toNat]
    rw [← he]
    exact hb
  | case5 m e s signVec sign hne he =>
    intro _
    have hmax : e.toNat ≠ 2047 := fun h => hne (BitVec.eq_of_toNat_eq h)
    have hbiased : (s + Format.binary64.exponentBias + (52 : Nat)).toNat = e.toNat := by
      change ((e.toNat : Int) - (1023 + 52) + 1023 + 52).toNat = e.toNat
      omega
    have hone : (1#1 ++ m).toNat = 2 ^ 52 + m.toNat := by
      rw [BitVec.toNat_append, ← Nat.shiftLeft_add_eq_or_of_lt hmlt]
      rfl
    have hlog : (2 ^ 52 + m.toNat).log2 = 52 := by
      rw [Nat.log2_eq_iff (by omega)]
      have : m.toNat < 2 ^ 52 := hmlt
      omega
    simp only [UnpackedFloat.pack, hbiased, hone, hlog]
    rw [if_neg (by change e.toNat < 2 ^ 11 at helt; omega), if_pos (by decide), BitVec.ofNat_toNat]
    have hclear : BitVec.ofNat 52 (2 ^ 52 + m.toNat) = m := by
      apply BitVec.eq_of_toNat_eq
      rw [BitVec.toNat_ofNat, Nat.add_mod_left]
      exact Nat.mod_eq_of_lt hmlt
    rw [hclear]
    exact hb

/-! ## Bits without a sign -/

/-- The exponent stands in the eleven bits behind the sign. -/
theorem toNat_unpackExponent (b : BitVec 64) :
    (@unpackExponent Format.binary64 b).toNat = b.toNat / 2 ^ 52 % 2 ^ 11 := by
  simp [unpackExponent, Nat.shiftRight_eq_div_pow]

/-- The mantissa stands in the last 52 bits. -/
theorem toNat_unpackMantissa (b : BitVec 64) :
    (@unpackMantissa Format.binary64 b).toNat = b.toNat % 2 ^ 52 := by
  simp [unpackMantissa]

/-- What bits below the sign stand for. -/
def unpacked (bits : Nat) : UnpackedFloat :=
  UnpackedFloat.unpack Format.binary64 (BitVec.ofNat 64 bits)

/-- The bits of a magnitude stand for a number. -/
theorem unpacked_ne_notANumber {bits : Nat} (h : bits ≤ infinityBits) :
    unpacked bits ≠ .notANumber := by
  have hlt : bits < 2 ^ 64 := Nat.lt_of_le_of_lt h (by decide)
  have he := toNat_unpackExponent (BitVec.ofNat 64 bits)
  have hm := toNat_unpackMantissa (BitVec.ofNat 64 bits)
  rw [BitVec.toNat_ofNat, Nat.mod_eq_of_lt hlt] at he hm
  unfold unpacked
  fun_cases UnpackedFloat.unpack Format.binary64 (BitVec.ofNat 64 bits) with
  | case2 m e hexp hman =>
    -- the largest exponent leaves no mantissa but zero up to infinity
    have hexp' : bits / 2 ^ 52 % 2 ^ 11 = 2047 := by
      rw [← he]
      exact congrArg BitVec.toNat hexp
    have hzero : bits % 2 ^ 52 = 0 := by
      unfold infinityBits at h
      omega
    have hmantissa : m = 0#52 := by
      apply BitVec.eq_of_toNat_eq
      exact hm.trans hzero
    exact absurd hmantissa hman
  | case1 => exact UnpackedFloat.noConfusion
  | case3 => exact UnpackedFloat.noConfusion
  | case4 => exact UnpackedFloat.noConfusion
  | case5 => exact UnpackedFloat.noConfusion

/-- Below infinity the bits stand for a finite number. -/
theorem isFinite_unpacked {bits : Nat} (h : bits < infinityBits) : (unpacked bits).isFinite := by
  have hlt : bits < 2 ^ 64 := Nat.lt_trans h (by decide)
  have he := toNat_unpackExponent (BitVec.ofNat 64 bits)
  rw [BitVec.toNat_ofNat, Nat.mod_eq_of_lt hlt] at he
  have hne : ∀ e : BitVec 11, e.toNat = bits / 2 ^ 52 % 2 ^ 11 → e ≠ -1#11 := by
    intro e he heq
    subst heq
    have : bits / 2 ^ 52 % 2 ^ 11 = 2047 := he.symm
    unfold infinityBits at h
    omega
  unfold unpacked
  fun_cases UnpackedFloat.unpack Format.binary64 (BitVec.ofNat 64 bits) with
  | case1 _ _ _ _ hexp => exact absurd hexp (hne _ he)
  | case2 _ _ hexp => exact absurd hexp (hne _ he)
  | case3 => rfl
  | case4 => rfl
  | case5 => rfl

/-- Behind infinity the bits stand for no number. -/
theorem unpacked_eq_notANumber {bits : Nat} (h : infinityBits < bits) (hlt : bits < 2 ^ 63) :
    unpacked bits = .notANumber := by
  have hlt' : bits < 2 ^ 64 := Nat.lt_trans hlt (by decide)
  have he := toNat_unpackExponent (BitVec.ofNat 64 bits)
  have hm := toNat_unpackMantissa (BitVec.ofNat 64 bits)
  rw [BitVec.toNat_ofNat, Nat.mod_eq_of_lt hlt'] at he hm
  have hexp : @UnpackedFloat.unpackExponent Format.binary64 (BitVec.ofNat 64 bits) = -1#11 := by
    apply BitVec.eq_of_toNat_eq
    refine he.trans ?_
    change _ = 2047
    unfold infinityBits at h
    omega
  have hman : @UnpackedFloat.unpackMantissa Format.binary64 (BitVec.ofNat 64 bits) ≠ 0#52 := by
    intro heq
    have hzero : bits % 2 ^ 52 = 0 := by
      rw [← hm]
      exact congrArg BitVec.toNat heq
    unfold infinityBits at h
    omega
  unfold unpacked UnpackedFloat.unpack
  dsimp only
  rw [if_pos hexp, if_neg hman]

/-- A double that is made from bits has these bits. -/
theorem toBits_ofMagnitudeBits {bits : Nat} (h : bits ≤ infinityBits) :
    (ofMagnitudeBits false bits).toBits = UInt64.ofNat bits := by
  change UInt64.ofBitVec (UnpackedFloat.pack Format.binary64 (unpacked bits)) = UInt64.ofNat bits
  unfold unpacked
  rw [pack_unpack _ (unpacked_ne_notANumber h)]
  rfl

/-- The bits of a magnitude are kept by the number made of them. -/
theorem magnitudeBits_ofMagnitudeBits {bits : Nat} (h : bits ≤ infinityBits) :
    magnitudeBits (ofMagnitudeBits false bits) = bits := by
  have hlt : bits < Nat.pow 2 63 := Nat.lt_of_le_of_lt h (by decide)
  have hword : (UInt64.ofNat bits).toNat = bits :=
    UInt64.toNat_ofNat_of_lt' (Nat.lt_trans hlt (by decide))
  unfold magnitudeBits
  rw [toBits_ofMagnitudeBits h, hword]
  exact Nat.mod_eq_of_lt hlt

/-- It is not negative. -/
theorem isNegative_ofMagnitudeBits {bits : Nat} (h : bits ≤ infinityBits) :
    isNegative (ofMagnitudeBits false bits) = false := by
  have hlt : bits < Nat.pow 2 63 := Nat.lt_of_le_of_lt h (by decide)
  have hword : (UInt64.ofNat bits).toNat = bits :=
    UInt64.toNat_ofNat_of_lt' (Nat.lt_trans hlt (by decide))
  unfold isNegative
  rw [toBits_ofMagnitudeBits h, hword]
  exact decide_eq_false (Nat.not_le_of_lt hlt)

/-- Its parts are those of the bits. -/
theorem unpack_ofMagnitudeBits {bits : Nat} (h : bits ≤ infinityBits) :
    (ofMagnitudeBits false bits).toModel.unpack = unpacked bits := by
  change UnpackedFloat.unpack Format.binary64 (ofMagnitudeBits false bits).toBits.toBitVec = _
  rw [toBits_ofMagnitudeBits h]
  rfl

/-- It is a number. -/
theorem isNaN_ofMagnitudeBits {bits : Nat} (h : bits ≤ infinityBits) :
    (ofMagnitudeBits false bits).isNaN = false := by
  change (ofMagnitudeBits false bits).toModel.unpack.isNaN = false
  rw [unpack_ofMagnitudeBits h]
  rcases hu : unpacked bits with s | _ | s | ⟨s, m, e⟩
  · rfl
  · exact absurd hu (unpacked_ne_notANumber h)
  · rfl
  · rfl

/-- Only infinity is not finite. -/
theorem isFinite_ofMagnitudeBits {bits : Nat} (h : bits ≤ infinityBits) :
    (ofMagnitudeBits false bits).isFinite ↔ bits < infinityBits := by
  change (ofMagnitudeBits false bits).toModel.unpack.isFinite ↔ _
  rw [unpack_ofMagnitudeBits h]
  refine ⟨fun hf => Nat.lt_of_le_of_ne h fun heq => ?_, isFinite_unpacked⟩
  subst heq
  exact absurd hf (by decide)

/-- A number without a sign is made of its bits. -/
theorem ofMagnitudeBits_self {x : Float} (h : isNegative x = false) :
    ofMagnitudeBits false (magnitudeBits x) = x := by
  have hlt : x.toBits.toNat < Nat.pow 2 63 := Nat.lt_of_not_le (of_decide_eq_false h)
  unfold ofMagnitudeBits magnitudeBits
  rw [Nat.mod_eq_of_lt hlt]
  change Float.ofBits (UInt64.ofNat x.toBits.toNat) = x
  rw [UInt64.ofNat_toNat, Float.ofBits_toBits]

/-- The bits of a number without a sign are those of a magnitude. -/
theorem magnitudeBits_le {x : Float} (h : isNegative x = false) (hnan : x.isNaN = false) :
    magnitudeBits x ≤ infinityBits := by
  by_contra hgt
  have hlt : x.toBits.toNat < 2 ^ 63 := Nat.lt_of_not_le (of_decide_eq_false h)
  have hbits : magnitudeBits x = x.toBits.toNat := Nat.mod_eq_of_lt hlt
  have hunpack : x.toModel.unpack = .notANumber := by
    have := unpacked_eq_notANumber (Nat.lt_of_not_le hgt) (hbits ▸ hlt)
    rw [hbits] at this
    rw [← this]
    unfold unpacked
    change UnpackedFloat.unpack Format.binary64 x.toBits.toBitVec = _
    congr 1
    apply BitVec.eq_of_toNat_eq
    rw [BitVec.toNat_ofNat, Nat.mod_eq_of_lt]
    · rfl
    · omega
  have : x.isNaN = true := by
    change x.toModel.unpack.isNaN = true
    rw [hunpack]
    rfl
  rw [hnan] at this
  cases this

/-! ## Rounding quotients -/

/-- One is some units. -/
theorem unitsPerOne_pos : 0 < unitsPerOne := by
  unfold unitsPerOne
  generalize 1074 = n
  exact Nat.two_pow_pos n

/-- Two ones are a power of two of units. -/
theorem two_mul_unitsPerOne : 2 * unitsPerOne = Nat.pow 2 1075 := by decide +kernel

/-- Multiplying by a power of two adds to the logarithm. -/
theorem le_log2_mul_pow_two {n a b : Nat} (h : Nat.pow 2 a ≤ n) :
    a + b ≤ (n * Nat.pow 2 b).log2 := by
  have hle : Nat.pow 2 (a + b) ≤ n * Nat.pow 2 b := by
    rw [Nat.pow_eq, Nat.pow_add]
    exact Nat.mul_le_mul_right _ h
  have hne : n * Nat.pow 2 b ≠ 0 := Nat.ne_of_gt (Nat.lt_of_lt_of_le (Nat.two_pow_pos _) hle)
  exact (Nat.le_log2 hne).2 hle

/-- A quotient does not change when both its parts are multiplied. -/
theorem roundDiv_mul {c : Nat} (hc : 0 < c) (p q : Nat) :
    roundDiv (c * p) (c * q) = roundDiv p q := by
  have htwice : 2 * (c * (p % q)) = c * (2 * (p % q)) := by
    rw [Nat.mul_left_comm]
  simp only [roundDiv, Nat.mul_div_mul_left _ _ hc, Nat.mul_mod_mul_left, htwice,
    Nat.mul_lt_mul_left hc, Nat.mul_right_inj (Nat.ne_of_gt hc)]

/-- The nearest double to a quotient does not change when both its parts are multiplied. -/
theorem nearest_mul {c : Nat} (hc : 0 < c) (num den : Nat) :
    nearest (c * num) (c * den) = nearest num den := by
  simp only [nearest, Nat.mul_assoc c, Nat.mul_div_mul_left _ _ hc, roundDiv_mul hc]

/-- A whole number stays where it is. -/
theorem roundDiv_mul_self (n : Nat) {q : Nat} (hq : 0 < q) : roundDiv (n * q) q = n := by
  simp [roundDiv, Nat.mul_div_cancel n hq, hq]

/-- Rounding is never below the whole part. -/
theorem div_le_roundDiv (p q : Nat) : p / q ≤ roundDiv p q := by
  unfold roundDiv
  dsimp only
  split
  · exact Nat.le_refl _
  · exact Nat.le_succ _

/-- Less than half a unit is rounded to nothing. -/
theorem roundDiv_of_lt {p q : Nat} (h : 2 * p < q) : roundDiv p q = 0 := by
  have hpq : p < q := by omega
  simp [roundDiv, Nat.div_eq_of_lt hpq, Nat.mod_eq_of_lt hpq, h]

/-- A quotient below half the least unit is nearest to zero. -/
theorem nearest_of_small {num den : Nat} (h : 2 * (num * unitsPerOne) < den) :
    nearest num den = 0 := by
  have hdiv : num * unitsPerOne / den = 0 := Nat.div_eq_of_lt (by omega)
  simp only [nearest, hdiv]
  rw [show Nat.log2 0 - 52 = 0 by decide, show den * Nat.pow 2 0 = den from Nat.mul_one den,
    roundDiv_of_lt h]
  rfl

/-- A number of at least `2 ^ 1024` is nearest to infinity. -/
theorem nearest_of_large {num : Nat} (h : Nat.pow 2 1024 ≤ num) : nearest num 1 = infinityBits := by
  have hpos : 0 < num := by
    generalize 1024 = n at h
    exact Nat.lt_of_lt_of_le (Nat.two_pow_pos n) h
  have hne : num * unitsPerOne ≠ 0 := Nat.ne_of_gt (Nat.mul_pos hpos unitsPerOne_pos)
  have hlog : 1024 + 1074 ≤ (num * unitsPerOne).log2 := by
    unfold unitsPerOne
    generalize 1024 = a at h ⊢
    generalize 1074 = b
    exact le_log2_mul_pow_two h
  obtain ⟨s, hs⟩ : ∃ s, (num * unitsPerOne).log2 = s + 52 :=
    ⟨_, (Nat.sub_add_cancel (by omega)).symm⟩
  simp only [nearest, Nat.div_one, Nat.one_mul, hs, Nat.add_sub_cancel]
  have hsig : Nat.pow 2 52 ≤ roundDiv (num * unitsPerOne) (Nat.pow 2 s) := by
    refine Nat.le_trans ?_ (div_le_roundDiv _ _)
    rw [Nat.pow_eq, Nat.pow_eq, Nat.le_div_iff_mul_le (Nat.two_pow_pos s), ← Nat.pow_add,
      Nat.add_comm, ← hs]
    exact Nat.log2_self_le hne
  apply Nat.min_eq_right
  have hscale : 2046 * Nat.pow 2 52 ≤ s * Nat.pow 2 52 := Nat.mul_le_mul_right _ (by omega)
  calc infinityBits = 2046 * Nat.pow 2 52 + Nat.pow 2 52 := by decide
    _ ≤ _ := Nat.add_le_add hscale hsig

/-! ## Every finite double is nearest to itself -/

/-- A significand has 53 binary digits, or fewer at scale zero. -/
theorem significand_cases (bits : Nat) :
    (scale bits = 0 ∧ significand bits = bits ∧ bits < 2 ^ 53) ∨
      (2 ^ 52 ≤ significand bits ∧ significand bits < 2 ^ 53) := by
  simp only [significand, scale, show Nat.pow 2 52 = 2 ^ 52 from rfl]
  omega

/-- Scale and significand put together are the bits. -/
theorem scale_add_significand (bits : Nat) :
    scale bits * Nat.pow 2 52 + significand bits = bits := by
  simp only [significand, scale, show Nat.pow 2 52 = 2 ^ 52 from rfl]
  omega

/-- The scale is the logarithm less 52. -/
theorem log2_units (bits : Nat) : (units bits).log2 - 52 = scale bits := by
  unfold units
  rcases significand_cases bits with ⟨hscale, hsig, hlt⟩ | ⟨hge, hlt⟩
  · rw [hscale, hsig, show bits * Nat.pow 2 0 = bits from Nat.mul_one bits]
    by_cases h0 : bits = 0
    · subst h0
      rfl
    · have := (Nat.log2_lt h0).2 hlt
      omega
  · have hpos : significand bits * Nat.pow 2 (scale bits) ≠ 0 :=
      Nat.mul_ne_zero (by omega) (Nat.ne_of_gt (Nat.two_pow_pos _))
    have hlog : (significand bits * Nat.pow 2 (scale bits)).log2 = 52 + scale bits := by
      rw [Nat.log2_eq_iff hpos]
      constructor
      · rw [Nat.pow_add]
        exact Nat.mul_le_mul_right _ hge
      · rw [show 52 + scale bits + 1 = 53 + scale bits by omega, Nat.pow_add]
        exact Nat.mul_lt_mul_of_pos_right hlt (Nat.two_pow_pos _)
    omega

/-- Every finite double, as the quotient that it is, is nearest to itself. -/
theorem nearest_units {bits : Nat} (h : bits < infinityBits) :
    nearest (units bits) unitsPerOne = bits := by
  have hpow : 0 < Nat.pow 2 (scale bits) := Nat.two_pow_pos _
  simp only [nearest, Nat.mul_div_cancel _ unitsPerOne_pos, log2_units]
  rw [Nat.mul_comm (units bits), roundDiv_mul unitsPerOne_pos, units, roundDiv_mul_self _ hpow,
    scale_add_significand]
  exact Nat.min_eq_left (Nat.le_of_lt h)

end BranchPaint.Double
