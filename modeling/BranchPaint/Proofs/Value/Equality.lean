import BranchPaint.Value.Operator
import Mathlib

/-!
# Laws of the two equalities

Strict and loose equality are symmetric, strict equality implies loose equality, and the two values
that stand for nothing are loosely equal to one another and to no other value
(`Value.equality_laws`). Neither is reflexive: what is no number differs from itself.

Loose equality is told in one sweep, but it stands for a run that converts one operand at a time and
starts again with what it got: a truth value becomes a number, and a list beside a number or a text
becomes a text (`Value.Converts`). `Value.Compares` is such a run. Each conversion uses up one of
the operands that can be converted (`Value.Converts.work_eq`) and keeps the answer
(`Value.Converts.looseEquals_eq`), so every run ends, and all of them end with the same answer
(`Value.Compares.eq_looseEquals`).
-/

namespace BranchPaint.Value

/-! ## Symmetry -/

mutual

/-- Strict equality does not depend on the order of its sides. -/
theorem strictEquals_comm : (l r : Value) → strictEquals l r = strictEquals r l
  | .undefined, r | .null, r => by
    cases r
    all_goals rfl
  | .bool a, r => by
    cases r with
    | bool b => exact Bool.beq_comm
    | _ => rfl
  | .num a, r => by
    cases r with
    | num b => exact BEq.comm
    | _ => rfl
  | .str a, r => by
    cases r with
    | str b => exact BEq.comm
    | _ => rfl
  | .list as, r => by
    cases r with
    | list bs => exact strictEqualsAll_comm as bs
    | _ => rfl

/-- The same for lists of values. -/
theorem strictEqualsAll_comm : (as bs : List Value) → strictEqualsAll as bs = strictEqualsAll bs as
  | [], [] | [], _ :: _ | _ :: _, [] => rfl
  | a :: as, b :: bs => by
    rw [strictEqualsAll, strictEqualsAll, strictEquals_comm a b, strictEqualsAll_comm as bs]

end

/-- Numbers and texts compare alike in both orders; a list takes part as its text, unless both are
lists. -/
theorem looseEqualsPresent_comm (l r : Value) :
    looseEqualsPresent l r = looseEqualsPresent r l := by
  cases l with
  | num a =>
    cases r with
    | str b | list bs => exact BEq.comm
    | _ => exact strictEquals_comm _ _
  | str a =>
    cases r with
    | num b => exact BEq.comm
    | _ => exact strictEquals_comm _ _
  | list as =>
    cases r with
    | num b => exact BEq.comm
    | _ => exact strictEquals_comm _ _
  | _ =>
    cases r
    all_goals exact strictEquals_comm _ _

/-- Loose equality does not depend on the order of its sides. -/
theorem looseEquals_comm (l r : Value) : looseEquals l r = looseEquals r l := by
  unfold looseEquals
  cases l.isNothing with
  | true =>
    cases r.isNothing
    all_goals rfl
  | false =>
    cases r.isNothing with
    | true => rfl
    | false => exact looseEqualsPresent_comm _ _

/-! ## Strict and loose equality -/

/-- Conversions do not tell apart what is equal without them. -/
theorem looseEquals_of_strictEquals {l r : Value} (h : strictEquals l r = true) :
    looseEquals l r = true := by
  cases l with
  | undefined | null =>
    cases r with
    | undefined | null => rfl
    | _ => cases h
  | bool a =>
    cases r with
    | bool b =>
      obtain rfl : a = b := eq_of_beq h
      -- zero and one are equal to themselves
      cases a
      all_goals rfl
    | _ => cases h
  | num a =>
    cases r with
    | num b => exact h
    | _ => cases h
  | str a =>
    cases r with
    | str b => exact h
    | _ => cases h
  | list as =>
    cases r with
    | list bs => exact h
    | _ => cases h

/-- Only `undefined` and `null` are nothing. -/
theorem isNothing_iff {v : Value} : v.isNothing = true ↔ v = undefined ∨ v = null := by
  cases v
  all_goals simp [isNothing]

/-- What stands for nothing is loosely equal to what stands for nothing, and to nothing else. -/
theorem looseEquals_of_isNothing {l : Value} (h : l.isNothing = true) (r : Value) :
    looseEquals l r = r.isNothing := by
  unfold looseEquals
  rw [h]
  cases r.isNothing
  all_goals rfl

/-! ## Conversions, one at a time -/

/-- Is this a number or a text? -/
def isPlain : Value → Bool
  | num _ | str _ => true
  | _ => false

/-- Operands before and after the conversion of one of them. -/
inductive Converts : Value → Value → Value → Value → Prop
  | boolLeft {a : Bool} {r : Value} (h : r.isNothing = false) :
      Converts (bool a) r (num (bool a).toNumber) r
  | boolRight {l : Value} {b : Bool} (h : l.isNothing = false) :
      Converts l (bool b) l (num (bool b).toNumber)
  | listLeft {as : List Value} {r : Value} (h : r.isPlain = true) :
      Converts (list as) r (list as).primitive r
  | listRight {l : Value} {bs : List Value} (h : l.isPlain = true) :
      Converts l (list bs) l (list bs).primitive

/-- Operands that are compared as they are. -/
inductive Settled : Value → Value → Prop
  | nothingLeft {l r : Value} (h : l.isNothing = true) : Settled l r
  | nothingRight {l r : Value} (h : r.isNothing = true) : Settled l r
  | plain {l r : Value} (hl : l.isPlain = true) (hr : r.isPlain = true) : Settled l r
  | lists {as bs : List Value} : Settled (list as) (list bs)

/-- Equality of operands that are compared as they are. -/
def settledEquals (l r : Value) : Bool :=
  match l, r with
  | num a, str b => a == (str b).toNumber
  | str a, num b => (str a).toNumber == b
  | l, r => (l.isNothing && r.isNothing) || strictEquals l r

/-- A run of loose equality: so many conversions lead to operands that are compared as they are,
with this answer. -/
inductive Compares : Value → Value → Nat → Bool → Prop
  | direct {l r : Value} (h : Settled l r) : Compares l r 0 (settledEquals l r)
  | convert {l r l' r' : Value} {n : Nat} {b : Bool} (h : Converts l r l' r')
      (rest : Compares l' r' n b) : Compares l r (n + 1) b

/-- How often an operand can be converted. -/
def work : Value → Nat
  | bool _ | list _ => 1
  | undefined | null | num _ | str _ => 0

/-- A value is converted once at most. -/
theorem work_le_one (v : Value) : v.work ≤ 1 := by
  unfold work
  split
  all_goals decide

variable {l r l' r' : Value}

/-- Either both sides are compared as they are, or one of them is converted first. -/
theorem settled_or_converts (l r : Value) : Settled l r ∨ ∃ l' r', Converts l r l' r' := by
  cases l with
  | undefined | null => exact .inl (.nothingLeft rfl)
  | bool a =>
    cases r with
    | undefined | null => exact .inl (.nothingRight rfl)
    | _ => exact .inr ⟨_, _, .boolLeft rfl⟩
  | num _ | str _ =>
    cases r with
    | undefined | null => exact .inl (.nothingRight rfl)
    | num _ | str _ => exact .inl (.plain rfl rfl)
    | bool b => exact .inr ⟨_, _, .boolRight rfl⟩
    | list bs => exact .inr ⟨_, _, .listRight rfl⟩
  | list as =>
    cases r with
    | undefined | null => exact .inl (.nothingRight rfl)
    | num _ | str _ => exact .inr ⟨_, _, .listLeft rfl⟩
    | bool b => exact .inr ⟨_, _, .boolRight rfl⟩
    | list bs => exact .inl .lists

namespace Converts

/-- A conversion uses up one operand that can be converted. -/
theorem work_eq (h : Converts l r l' r') : l.work + r.work = l'.work + r'.work + 1 := by
  cases h
  all_goals simp only [work, primitive]
  all_goals omega

/-- A conversion does not change the answer. -/
theorem looseEquals_eq (h : Converts l r l' r') : looseEquals l r = looseEquals l' r' := by
  cases h with
  | boolLeft hr =>
    cases r
    all_goals rfl
  | boolRight hl =>
    cases l
    all_goals rfl
  | listLeft hr =>
    cases r with
    | num _ | str _ => rfl
    | _ => cases hr
  | listRight hl =>
    cases l with
    | num _ | str _ => rfl
    | _ => cases hl

end Converts

/-- Sides that are compared as they are, are loosely equal if the comparison says so. -/
theorem Settled.looseEquals_eq (h : Settled l r) : looseEquals l r = settledEquals l r := by
  cases h with
  | nothingLeft hl =>
    cases l with
    | undefined | null =>
      cases r
      all_goals rfl
    | _ => cases hl
  | nothingRight hr =>
    cases r with
    | undefined | null =>
      cases l
      all_goals rfl
    | _ => cases hr
  | plain hl hr =>
    cases l with
    | num _ | str _ =>
      cases r with
      | num _ | str _ => rfl
      | _ => cases hr
    | _ => cases hl
  | lists => rfl

/-- Whichever operand is converted first, a run ends with the answer of loose equality. -/
theorem Compares.eq_looseEquals {n : Nat} {b : Bool} (h : Compares l r n b) :
    b = looseEquals l r ∧ n ≤ l.work + r.work := by
  induction h with
  | direct h => exact ⟨h.looseEquals_eq.symm, Nat.zero_le _⟩
  | convert h _ ih =>
    rw [h.looseEquals_eq, h.work_eq]
    exact ⟨ih.1, Nat.succ_le_succ ih.2⟩

/-- There is a run for all operands, by induction on what can be converted. -/
theorem exists_compares (l r : Value) : ∃ n b, Compares l r n b := by
  induction hwork : l.work + r.work using Nat.strong_induction_on generalizing l r with
  | h n ih =>
  rcases settled_or_converts l r with h | ⟨l', r', h⟩
  · exact ⟨0, _, .direct h⟩
  · have hless : l'.work + r'.work < n := by
      rw [← hwork, h.work_eq]
      exact Nat.lt_succ_self _
    obtain ⟨k, b, hrest⟩ := ih _ hless l' r' rfl
    exact ⟨k + 1, b, .convert h hrest⟩

/-! ## The laws -/

/-- The laws of equality, for all values.

Loose equality comes to an end: every run makes at most two conversions, and its answer is that of
`looseEquals`. Both equalities are symmetric, strict equality implies loose equality, and
`undefined` and `null` are loosely equal to themselves, to each other and to nothing else. -/
theorem equality_laws (l r : Value) :
    ((∃ n b, Compares l r n b) ∧ ∀ n b, Compares l r n b → n ≤ 2 ∧ b = looseEquals l r) ∧
    looseEquals l r = looseEquals r l ∧
    strictEquals l r = strictEquals r l ∧
    (strictEquals l r = true → looseEquals l r = true) ∧
    (looseEquals undefined r = true ↔ r = undefined ∨ r = null) ∧
    (looseEquals null r = true ↔ r = undefined ∨ r = null) := by
  refine ⟨⟨exists_compares l r, fun n b h => ?_⟩, looseEquals_comm l r, strictEquals_comm l r,
    looseEquals_of_strictEquals, ?_, ?_⟩
  · obtain ⟨hb, hn⟩ := h.eq_looseEquals
    exact ⟨hn.trans (Nat.add_le_add l.work_le_one r.work_le_one), hb⟩
  · rw [looseEquals_of_isNothing rfl, isNothing_iff]
  · rw [looseEquals_of_isNothing rfl, isNothing_iff]

end BranchPaint.Value
