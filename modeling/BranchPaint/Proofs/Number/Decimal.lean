import BranchPaint.Grammar.Lexeme
import BranchPaint.Proofs.Number.Double
import BranchPaint.Proofs.Source.Cursor

/-!
# Numbers read back from their text

The text of every finite number without a sign reads as the number itself
(`Lexer.number_numberText`). A decimal is a quotient, and its nearest double depends on the quotient
alone, so the guards of `nearestBits` and trailing zeros make no difference. The search for few
digits keeps only what reads back; where it finds nothing, the expansion in full is the number
exactly.
-/

namespace BranchPaint

namespace Decimal

/-! ## Decimals as quotients -/

/-- The numerator of the quotient that a decimal is. -/
def numerator (d : Decimal) : Nat := d.digits * Nat.pow 10 d.exponent.toNat

/-- The denominator of the quotient that a decimal is. -/
def denominator (d : Decimal) : Nat := Nat.pow 10 (-d.exponent).toNat

/-- The denominator is not zero. -/
theorem denominator_pos (d : Decimal) : 0 < d.denominator := Nat.pow_pos (by decide)

/-- `10 ^ 401` is beyond every double. -/
theorem pow_two_le_pow_ten {e : Nat} (h : 400 < e) : Nat.pow 2 1024 ≤ Nat.pow 10 e := by
  have hfirst : Nat.pow 2 1024 ≤ Nat.pow 10 (400 + 1) := by decide +kernel
  refine Nat.le_trans hfirst ?_
  generalize 400 = k at h ⊢
  exact Nat.pow_le_pow_right (by decide) h

/-- Three binary digits are less than a decimal one. -/
theorem pow_two_lt_pow_ten {a b : Nat} (h : a < 3 * b) : Nat.pow 2 a < Nat.pow 10 b := by
  calc Nat.pow 2 a < Nat.pow 2 (3 * b) := Nat.pow_lt_pow_right (by decide) h
    _ = Nat.pow (Nat.pow 2 3) b := Nat.pow_mul 2 3 b
    _ ≤ Nat.pow 10 b := Nat.pow_le_pow_left (by decide) b

/-- A decimal that the second guard takes for zero is below half the least unit. -/
theorem small_of_log2 {m e : Nat} (h : m.log2 + 1 + 1075 < 3 * e) :
    2 * (m * Double.unitsPerOne) < Nat.pow 10 e := by
  have hm : m < Nat.pow 2 (m.log2 + 1) := Nat.lt_log2_self
  rw [Nat.mul_left_comm, Double.two_mul_unitsPerOne]
  generalize 1075 = k at h ⊢
  calc m * Nat.pow 2 k < Nat.pow 2 (m.log2 + 1) * Nat.pow 2 k :=
        Nat.mul_lt_mul_of_pos_right hm (Nat.two_pow_pos k)
    _ = Nat.pow 2 (m.log2 + 1 + k) := (Nat.pow_add 2 _ _).symm
    _ < Nat.pow 10 e := pow_two_lt_pow_ten h

/-- The nearest double is that of the quotient: the two guards answer as rounding would. -/
theorem nearestBits_eq (d : Decimal) :
    d.nearestBits = Double.nearest d.numerator d.denominator := by
  obtain ⟨m, e⟩ := d
  unfold nearestBits
  by_cases hm : m = 0
  · rw [if_pos hm]
    subst hm
    refine (Double.nearest_of_small ?_).symm
    simp only [numerator, Nat.zero_mul, Nat.mul_zero]
    exact denominator_pos _
  · rw [if_neg hm]
    rcases e with e | e
    · change (if 400 < e then Double.infinityBits else Double.nearest (m * Nat.pow 10 e) 1) =
        Double.nearest (m * Nat.pow 10 e) (Nat.pow 10 (-(e : Int)).toNat)
      rw [show (-(e : Int)).toNat = 0 by omega]
      split
      · rename_i he
        refine (Double.nearest_of_large (Nat.le_trans (pow_two_le_pow_ten he) ?_)).symm
        exact Nat.le_mul_of_pos_left _ (Nat.pos_of_ne_zero hm)
      · rfl
    · change (if m.log2 + 1 + 1075 < 3 * (e + 1) then 0 else Double.nearest m
        (Nat.pow 10 (e + 1))) = Double.nearest (m * Nat.pow 10 0) (Nat.pow 10 (e + 1))
      rw [show m * Nat.pow 10 0 = m from Nat.mul_one m]
      split
      · rename_i he
        exact (Double.nearest_of_small (small_of_log2 he)).symm
      · rfl

/-- The nearest double is infinity at most. -/
theorem nearestBits_le (d : Decimal) : d.nearestBits ≤ Double.infinityBits := by
  rw [nearestBits_eq]
  exact Nat.min_le_right _ _

/-- Equal quotients have the same nearest double. -/
theorem nearestBits_congr {d d' : Decimal}
    (h : d.numerator * d'.denominator = d'.numerator * d.denominator) :
    d.nearestBits = d'.nearestBits := by
  rw [nearestBits_eq, nearestBits_eq, ← Double.nearest_mul d'.denominator_pos d.numerator,
    ← Double.nearest_mul d.denominator_pos d'.numerator, Nat.mul_comm d'.denominator d.numerator, h,
    Nat.mul_comm d.denominator d'.numerator, Nat.mul_comm d.denominator d'.denominator]

/-- A zero at the end of the digits may as well stand in the exponent. -/
theorem nearestBits_shift (m : Nat) (e : Int) :
    (⟨10 * m, e⟩ : Decimal).nearestBits = (⟨m, e + 1⟩ : Decimal).nearestBits := by
  apply nearestBits_congr
  have hpow (e : Nat) : Nat.pow 10 (e + 1) = 10 * Nat.pow 10 e := Nat.pow_succ'
  simp only [numerator, denominator]
  rcases e with e | e
  · rw [show (Int.ofNat e + 1).toNat = e + 1 by simp, show (-Int.ofNat e).toNat = 0 by simp,
      show (-(Int.ofNat e + 1)).toNat = 0 by change (-((e : Int) + 1)).toNat = 0; omega,
      show (Int.ofNat e).toNat = e by simp, hpow]
    rw [Nat.mul_left_comm m, Nat.mul_assoc 10]
  · rw [show (Int.negSucc e + 1).toNat = 0 by omega, show (-Int.negSucc e).toNat = e + 1 by omega,
      show (-(Int.negSucc e + 1)).toNat = e by omega, show (Int.negSucc e).toNat = 0 by rfl, hpow,
      show Nat.pow 10 0 = 1 from rfl, Nat.mul_one, Nat.mul_one, Nat.mul_assoc, Nat.mul_left_comm]

/-- Zeros at the end do not change the nearest double. -/
theorem nearestBits_trimZeros (n : Nat) (d : Decimal) :
    (trimZeros n d).nearestBits = d.nearestBits := by
  induction n generalizing d with
  | zero => rfl
  | succ n ih =>
    unfold trimZeros
    split
    · rename_i h
      have hten : 10 * (d.digits / 10) = d.digits := by
        simp only [Bool.and_eq_true, decide_eq_true_eq] at h
        omega
      rw [ih, ← nearestBits_shift, hten]
    · rfl

/-- A whole power of ten in the exponent may as well stand in the digits. -/
theorem nearestBits_expand (m e : Nat) :
    (⟨m * Nat.pow 10 e, 0⟩ : Decimal).nearestBits = (⟨m, e⟩ : Decimal).nearestBits := by
  apply nearestBits_congr
  simp only [numerator, denominator]
  rw [show ((e : Int)).toNat = e by simp, show (-(e : Int)).toNat = 0 by omega]
  rw [show ((0 : Int)).toNat = 0 from rfl, show (-(0 : Int)).toNat = 0 from rfl,
    show Nat.pow 10 0 = 1 from rfl, Nat.mul_one]

/-! ## The fewest digits read back -/

/-- Fives above a power of ten leave a power of two below. -/
theorem nearestBits_pow_five (m k : Nat) :
    (⟨m * Nat.pow 5 k, -(k : Int)⟩ : Decimal).nearestBits = Double.nearest m (Nat.pow 2 k) := by
  have hfive : 0 < Nat.pow 5 k := Nat.pow_pos (by decide)
  have hten : Nat.pow 10 k = Nat.pow 5 k * Nat.pow 2 k := Nat.mul_pow 5 2 k
  rw [nearestBits_eq, numerator, denominator, show (-(k : Int)).toNat = 0 by omega,
    show (- -(k : Int)).toNat = k by omega, hten, show Nat.pow 10 0 = 1 from rfl, Nat.mul_one,
    Nat.mul_comm m, Double.nearest_mul hfive]

/-- The exact decimal of a finite double is nearest to it. -/
theorem nearestBits_exact {bits : Nat} (h : bits < Double.infinityBits) :
    (exact bits).nearestBits = bits := by
  have hunits := Double.nearest_units h
  unfold Double.unitsPerOne at hunits
  unfold exact
  rw [show (-1074 : Int) = -((1074 : Nat) : Int) from rfl]
  -- nothing is to be computed with this power
  generalize 1074 = k at hunits ⊢
  rw [nearestBits_pow_five, hunits]

/-- A short decimal that is taken for a double is nearest to it. -/
theorem nearestBits_of_reading? {bits : Nat} {below above d : Decimal} {first : Bool}
    (h : reading? bits below above first = some d) : d.nearestBits = bits := by
  unfold reading? at h
  split at h
  · rename_i hbelow habove
    cases first
    · cases h
      exact beq_iff_eq.1 habove
    · cases h
      exact beq_iff_eq.1 hbelow
  · cases h
    exact beq_iff_eq.1 ‹_›
  · cases h
    exact beq_iff_eq.1 ‹_›
  · cases h

/-- So is one that is found next to it. -/
theorem nearestBits_of_neighbour? {bits : Nat} {g : Int} {d : Decimal}
    (h : neighbour? bits g = some d) : d.nearestBits = bits :=
  nearestBits_of_reading? h

/-- What the search finds reads back, and so does what stands in for it. -/
theorem nearestBits_shortest {bits : Nat} (h : bits < Double.infinityBits) :
    (shortest bits).nearestBits = bits := by
  unfold shortest
  simp only
  cases hfind : (List.range 17).findSome? fun n =>
      neighbour? bits (magnitude (Double.units bits) Double.unitsPerOne - (n + 1 : Nat)) with
  | none => exact nearestBits_exact h
  | some d =>
    obtain ⟨n, -, hn⟩ := List.exists_of_findSome?_eq_some hfind
    exact nearestBits_of_neighbour? hn

/-! ## Reading digits -/

/-- The value of digits is that of the library. -/
theorem ofDigits_eq (ds : List Char) : ofDigits ds = Nat.ofDigitChars 10 ds 0 := rfl

/-- The digits of a number have its value. -/
@[simp] theorem ofDigits_toDigits (n : Nat) : ofDigits (Nat.toDigits 10 n) = n :=
  Nat.ofDigitChars_ten_toDigits

/-- Zeros behind the digits multiply. -/
theorem ofDigits_append_zeros (ds : List Char) (n : Nat) :
    ofDigits (ds ++ List.replicate n '0') = ofDigits ds * Nat.pow 10 n := by
  rw [ofDigits_eq, Nat.ofDigitChars_append, Nat.ofDigitChars_replicate_zero, Nat.mul_comm]
  rfl

/-- Zeros before the digits do not count. -/
theorem ofDigits_zeros_append (n : Nat) (ds : List Char) :
    ofDigits (List.replicate n '0' ++ ds) = ofDigits ds := by
  rw [ofDigits_eq, Nat.ofDigitChars_append, Nat.ofDigitChars_replicate_zero, Nat.mul_zero]
  rfl

/-- A text with which no number goes on. -/
def EndsNumber (r : List Char) : Prop :=
  ∀ c ∈ r.head?, c.isDigit = false ∧ c ≠ '.' ∧ c ≠ 'e' ∧ c ≠ 'E'

/-- Where a number ends, no digit follows. -/
theorem EndsNumber.digits {r : List Char} (h : EndsNumber r) : ∀ c ∈ r.head?, c.isDigit = false :=
  fun c hc => (h c hc).1

/-- Nor does a point or the mark of an exponent. -/
theorem EndsNumber.literal? {r : List Char} (h : EndsNumber r) {c : Char}
    (hc : c = '.' ∨ c = 'e' ∨ c = 'E') (p : Position) : (⟨r, p⟩ : Cursor).literal? [c] = none := by
  cases r with
  | nil => rfl
  | cons d r =>
    obtain ⟨-, hdot, he, hE⟩ := h d rfl
    apply Cursor.literal?_cons_of_ne
    rcases hc with rfl | rfl | rfl
    · exact hdot
    · exact he
    · exact hE

/-- So neither fraction nor exponent is read there. -/
theorem scanScale_of_endsNumber (d : Decimal) {r : List Char} (h : EndsNumber r) (p : Position) :
    d.scanScale ⟨r, p⟩ = (d, ⟨r, p⟩) := by
  unfold scanScale
  rw [h.literal? (.inr (.inl rfl)), h.literal? (.inr (.inr rfl))]
  rfl

/-- Digits alone are read as a whole number. -/
theorem scan?_digits {ds r : List Char} (hne : ds ≠ []) (hds : ∀ c ∈ ds, c.isDigit)
    (hr : EndsNumber r) (p : Position) :
    scan? ⟨ds ++ r, p⟩ = some (⟨ofDigits ds, 0⟩, ⟨r, p.advance ds⟩) := by
  unfold scan?
  rw [Cursor.takeWhile_append hds hr.digits]
  cases ds with
  | nil => exact absurd rfl hne
  | cons c ds =>
    dsimp only
    rw [hr.literal? (.inl rfl)]
    dsimp only
    rw [scanScale_of_endsNumber _ hr]

/-- Digits, a point and digits are read as the digits, with a place for each behind the point. -/
theorem scan?_point {ds fs r : List Char} (hne : ds ≠ []) (hds : ∀ c ∈ ds, c.isDigit)
    (hfs : ∀ c ∈ fs, c.isDigit) (hr : EndsNumber r) (p : Position) :
    scan? ⟨ds ++ '.' :: fs ++ r, p⟩ =
      some (⟨ofDigits (ds ++ fs), -(fs.length : Int)⟩, ⟨r, p.advance (ds ++ '.' :: fs)⟩) := by
  have hpoint : ∀ c ∈ ('.' :: (fs ++ r)).head?, c.isDigit = false := by
    intro c hc
    cases hc
    rfl
  have htext : ds ++ '.' :: fs ++ r = ds ++ '.' :: (fs ++ r) := by simp
  unfold scan?
  rw [htext, Cursor.takeWhile_append hds hpoint]
  cases ds with
  | nil => exact absurd rfl hne
  | cons c ds =>
    dsimp only
    rw [Cursor.literal?_cons_self, Cursor.literal?_nil]
    dsimp only
    rw [Cursor.takeWhile_append hfs hr.digits]
    dsimp only
    rw [scanScale_of_endsNumber _ hr, Position.advance_append (p) (c :: ds),
      Position.advance_cons _ '.']

/-- The digits of a number are digits. -/
theorem isDigit_toDigits (n : Nat) : ∀ c ∈ Nat.toDigits 10 n, c.isDigit := fun _ hc =>
  Nat.isDigit_of_mem_toDigits (by decide) (by decide) hc

/-- Zeros are digits. -/
theorem isDigit_zeros (n : Nat) : ∀ c ∈ List.replicate n '0', c.isDigit := by
  intro c hc
  rw [(List.mem_replicate.1 hc).2]
  rfl

/-- A decimal that is written out is digits, or digits around a point, and these have its value. -/
theorem positional_form (d : Decimal) :
    ∃ ds fs, ds ≠ [] ∧ (∀ c ∈ ds, c.isDigit) ∧ (∀ c ∈ fs, c.isDigit) ∧
      (d.positional.toList = ds ∧ (⟨ofDigits ds, 0⟩ : Decimal).nearestBits = d.nearestBits ∨
        d.positional.toList = ds ++ '.' :: fs ∧
          (⟨ofDigits (ds ++ fs), -(fs.length : Int)⟩ : Decimal) = d) := by
  obtain ⟨m, e⟩ := d
  have hne : Nat.toDigits 10 m ≠ [] := Nat.toDigits_ne_nil
  have hdigits := isDigit_toDigits m
  unfold positional
  rcases e with e | e
  · refine ⟨Nat.toDigits 10 m ++ List.replicate e '0', [], by simp, ?_, by simp, .inl ⟨by simp, ?_⟩⟩
    · intro c hc
      rcases List.mem_append.1 hc with hc | hc
      · exact hdigits c hc
      · exact isDigit_zeros e c hc
    · rw [ofDigits_append_zeros, ofDigits_toDigits]
      exact nearestBits_expand m e
  · dsimp only
    generalize hds : Nat.toDigits 10 m = ds at *
    have hvalue : ofDigits ds = m := hds ▸ ofDigits_toDigits m
    split
    · -- the point stands between two of the digits
      rename_i hlt
      refine ⟨ds.take (ds.length - (e + 1)), ds.drop (ds.length - (e + 1)), ?_, ?_, ?_,
        .inr ⟨by simp, ?_⟩⟩
      · apply List.ne_nil_of_length_pos
        rw [List.length_take]
        omega
      · exact fun c hc => hdigits c (List.mem_of_mem_take hc)
      · exact fun c hc => hdigits c (List.mem_of_mem_drop hc)
      · rw [List.take_append_drop, hvalue, List.length_drop, Decimal.mk.injEq]
        exact ⟨rfl, by omega⟩
    · -- the digits stand behind the point, with zeros before them
      rename_i hle
      refine ⟨['0'], List.replicate (e + 1 - ds.length) '0' ++ ds, by simp, isDigit_zeros 1, ?_,
        .inr ⟨by simp, ?_⟩⟩
      · intro c hc
        rcases List.mem_append.1 hc with hc | hc
        · exact isDigit_zeros _ c hc
        · exact hdigits c hc
      · have hzero : ['0'] ++ (List.replicate (e + 1 - ds.length) '0' ++ ds) =
            List.replicate (e + 1 - ds.length + 1) '0' ++ ds := rfl
        rw [hzero, ofDigits_zeros_append, hvalue, List.length_append, List.length_replicate,
          Decimal.mk.injEq]
        exact ⟨rfl, by omega⟩

/-- A decimal starts with a digit. -/
theorem head_positional (d : Decimal) : ∃ c r, d.positional.toList = c :: r ∧ c.isDigit := by
  obtain ⟨ds, fs, hne, hds, -, htext⟩ := positional_form d
  cases ds with
  | nil => exact absurd rfl hne
  | cons c ds =>
    have hc := hds c List.mem_cons_self
    rcases htext with ⟨htext, -⟩ | ⟨htext, -⟩
    · exact ⟨c, _, htext, hc⟩
    · exact ⟨c, _, htext, hc⟩

/-- A decimal that is written out reads as an equal quotient. -/
theorem scan?_positional (d : Decimal) {r : List Char} (hr : EndsNumber r) (p : Position) :
    ∃ d' : Decimal, d'.nearestBits = d.nearestBits ∧
      scan? ⟨d.positional.toList ++ r, p⟩ = some (d', ⟨r, p.advance d.positional.toList⟩) := by
  obtain ⟨ds, fs, hne, hds, hfs, ⟨htext, hvalue⟩ | ⟨htext, hvalue⟩⟩ := positional_form d
  · exact ⟨_, hvalue, htext ▸ scan?_digits hne hds hr p⟩
  · exact ⟨_, congrArg nearestBits hvalue, htext ▸ scan?_point hne hds hfs hr p⟩

/-- The text of a finite double is read as a decimal that is nearest to it. -/
theorem scan?_textOfBits {bits : Nat} (h : bits < Double.infinityBits) {r : List Char}
    (hr : EndsNumber r) (p : Position) :
    ∃ d : Decimal, d.nearestBits = bits ∧
      scan? ⟨(textOfBits bits).toList ++ r, p⟩ =
        some (d, ⟨r, p.advance (textOfBits bits).toList⟩) := by
  unfold textOfBits
  dsimp only
  obtain ⟨d, hd, hscan⟩ :=
    scan?_positional (trimZeros (digitCount (shortest bits).digits) (shortest bits)) hr p
  refine ⟨d, ?_, hscan⟩
  rw [hd, nearestBits_trimZeros, nearestBits_shortest h]

end Decimal

/-! ## Numbers -/

/-- Numbers as they are read from text: finite ones without a sign. -/
def IsLiteral (x : Float) : Prop :=
  ∃ bits < Double.infinityBits, x = Double.ofMagnitudeBits false bits

/-- The text of a literal is a zero or digits found by the search. -/
theorem numberText_ofMagnitudeBits {bits : Nat} (h : bits < Double.infinityBits) :
    numberText (Double.ofMagnitudeBits false bits) = if bits = 0 then "0"
      else Decimal.textOfBits bits := by
  have hle := Nat.le_of_lt h
  unfold numberText
  rw [Double.isNaN_ofMagnitudeBits hle, Double.magnitudeBits_ofMagnitudeBits hle,
    Double.isNegative_ofMagnitudeBits hle]
  simp [Nat.ne_of_lt h]

/-- The text of a literal starts with a digit. -/
theorem head_numberText {x : Float} (h : IsLiteral x) :
    ∃ c r, (numberText x).toList = c :: r ∧ c.isDigit := by
  obtain ⟨bits, hbits, rfl⟩ := h
  rw [numberText_ofMagnitudeBits hbits]
  split
  · exact ⟨'0', [], rfl, rfl⟩
  · exact Decimal.head_positional _

/-- A literal is read back from its text. -/
theorem Lexer.number_numberText {x : Float} (h : IsLiteral x) {r : List Char}
    (hr : Decimal.EndsNumber r) (p : Position) :
    Lexer.number ⟨(numberText x).toList ++ r, p⟩ =
      some (x, ⟨r, p.advance (numberText x).toList⟩) := by
  obtain ⟨bits, hbits, rfl⟩ := h
  rw [numberText_ofMagnitudeBits hbits]
  unfold Lexer.number
  split
  · rename_i hzero
    subst hzero
    have hdigits : ∀ c ∈ ['0'], c.isDigit := Decimal.isDigit_zeros 1
    rw [show "0".toList = ['0'] from rfl, Decimal.scan?_digits (by simp) hdigits hr]
    rfl
  · obtain ⟨d, hd, hscan⟩ := Decimal.scan?_textOfBits hbits hr p
    rw [hscan, Option.map_some]
    dsimp only [Decimal.toFloat]
    rw [hd]

end BranchPaint
