import BranchPaint.Grammar.Rule
import Mathlib

/-!
# What rules read

A reply has two parts, the place reached and what was read. Whether and what a text reads as depends
on the second part alone, so this module says, for each way of combining rules, what the combination
reads in terms of what its parts read. Proofs about readings rewrite with these equations and never
look at `Reply` again.
-/

namespace BranchPaint.Rule

variable {α β : Type}

/-- Giving a value reads nothing. -/
@[simp] theorem result_pure (a : α) (s : Cursor) : ((pure a : Rule α) s).result = some (a, s) := rfl

/-- One rule after the other: the second starts where the first stopped. -/
@[simp] theorem result_bind (p : Rule α) (f : α → Rule β) (s : Cursor) :
    ((p >>= f) s).result = (p s).result.bind fun x => (f x.1 x.2).result := by
  simp only [Bind.bind]
  rcases p s with ⟨r, _ | ⟨a, t⟩⟩ <;> rfl

/-- Refusing gives nothing. -/
@[simp] theorem result_fail (s : Cursor) : ((fail : Rule α) s).result = none := rfl

/-- Asking for the position reads nothing. -/
@[simp] theorem result_position (s : Cursor) : (position s).result = some (s.pos, s) := rfl

/-- Blanks are skipped in any case. -/
@[simp] theorem result_blanks (s : Cursor) : (blanks s).result = some ((), s.skipBlanks) := rfl

/-- A fixed text is read if it stands there. -/
@[simp] theorem result_literal (word : String) (s : Cursor) :
    (literal word s).result = (s.literal? word.toList).map fun t => ((), t) := rfl

/-- Reporting changes the place reached and nothing else. -/
@[simp] theorem result_reporting (p : Rule α) (s : Cursor) :
    (reporting p s).result = (p s).result := by
  unfold reporting
  rcases h : p s with ⟨r, _ | x⟩ <;> rfl

/-- A token is what the lexer finds. -/
@[simp] theorem result_token (lex : Lexer α) (s : Cursor) : (token lex s).result = lex s := by
  unfold token
  cases lex s <;> rfl

/-- The second rule counts only where the first gives up. -/
@[simp] theorem result_orElse (p q : Rule α) (s : Cursor) :
    (orElse p q s).result = (p s).result.or (q s).result := by
  unfold orElse
  rcases p s with ⟨r, _ | x⟩ <;> rfl

/-- Of no rules none applies. -/
@[simp] theorem result_firstOf_nil (s : Cursor) : ((firstOf [] : Rule α) s).result = none := rfl

/-- Of several rules the first that applies counts. -/
@[simp] theorem result_firstOf_cons (p : Rule α) (ps : List (Rule α)) (s : Cursor) :
    (firstOf (p :: ps) s).result = (p s).result.or (firstOf ps s).result :=
  result_orElse p (firstOf ps) s

/-- An optional part always succeeds, on the same text if there is nothing to read. -/
theorem result_optional (p : Rule α) (s : Cursor) :
    (optional p s).result =
      match (p s).result with
      | none => some (none, s)
      | some (a, t) => some (some a, t) := by
  unfold optional
  rcases p s with ⟨r, _ | ⟨a, t⟩⟩ <;> rfl

/-- An optional part may be missing. -/
theorem result_optional_of_none {p : Rule α} {s : Cursor} (h : (p s).result = none) :
    (optional p s).result = some (none, s) := by
  rw [result_optional, h]

/-- An optional part is read if it is there. -/
theorem result_optional_of_some {p : Rule α} {s t : Cursor} {a : α}
    (h : (p s).result = some (a, t)) : (optional p s).result = some (some a, t) := by
  rw [result_optional, h]

/-- A rule with its span tells where it was read. -/
@[simp] theorem result_spanned (p : Rule α) (s : Cursor) :
    (spanned p s).result =
      (p s).result.map fun x => ((x.1, Span.between s.pos x.2.pos), x.2) := by
  simp only [spanned, result_bind, result_position, Option.bind_some]
  cases (p s).result <;> rfl

/-- Without fuel nothing is repeated. -/
@[simp] theorem result_many_zero (p : Rule α) (s : Cursor) : (many p 0 s).result = some ([], s) :=
  rfl

/-- A repetition whose next round gives up ends before the blanks of that round. -/
theorem result_many_of_none {p : Rule α} {s : Cursor} (n : Nat)
    (h : (p s.skipBlanks).result = none) : (many p n s).result = some ([], s) := by
  cases n with
  | zero => rfl
  | succ n =>
    rcases hp : p s.skipBlanks with ⟨r, x⟩
    rw [hp] at h
    subst h
    simp only [many, hp]

/-- A repetition goes on behind a round that succeeds. -/
theorem result_many_of_some {p : Rule α} {s t : Cursor} {a : α} (n : Nat)
    (h : (p s.skipBlanks).result = some (a, t)) :
    (many p (n + 1) s).result = (many p n t).result.map fun x => (a :: x.1, x.2) := by
  rcases hp : p s.skipBlanks with ⟨r, x⟩
  rw [hp] at h
  subst h
  simp only [many, hp]
  rcases many p n t with ⟨r', _ | ⟨as, u⟩⟩ <;> rfl

/-- A repetition that read something: its first round, and the others behind it. -/
theorem result_many_cons {p : Rule α} {n : Nat} {s u : Cursor} {a : α} {as : List α}
    (h : (many p n s).result = some (a :: as, u)) :
    ∃ m t, n = m + 1 ∧ (p s.skipBlanks).result = some (a, t) ∧
      (many p m t).result = some (as, u) := by
  cases n with
  | zero => cases h
  | succ m =>
    cases hp : (p s.skipBlanks).result with
    | none =>
      rw [result_many_of_none _ hp] at h
      cases h
    | some x =>
      rw [result_many_of_some m hp] at h
      obtain ⟨⟨bs, v⟩, hv, heq⟩ := Option.map_eq_some_iff.1 h
      cases heq
      exact ⟨m, x.2, rfl, rfl, hv⟩

/-- A repetition that read nothing has not moved. -/
theorem result_many_nil {p : Rule α} {n : Nat} {s u : Cursor}
    (h : (many p n s).result = some ([], u)) : u = s := by
  cases n with
  | zero =>
    cases h
    rfl
  | succ m =>
    cases hp : (p s.skipBlanks).result with
    | none =>
      rw [result_many_of_none _ hp] at h
      cases h
      rfl
    | some x =>
      rw [result_many_of_some m hp] at h
      obtain ⟨⟨bs, v⟩, -, heq⟩ := Option.map_eq_some_iff.1 h
      cases heq

end BranchPaint.Rule
