import BranchPaint.Grammar.Lexeme
import BranchPaint.Proofs.Source.Cursor

/-!
# Lexers move forward

A lexer moves over what it reads (`Lexer.Moves`), and what it reads is at least one character long
(`Lexer.Consumes`). The two are proved together: `Lexer.Passes` is both, and hands on along the
steps of a lexer if one of these steps reads anything.
-/

namespace BranchPaint

/-- The second cursor is what the first becomes by moving over at least one character. -/
def Cursor.Passes (s t : Cursor) : Prop := s.Leads t ∧ t.rest.length < s.rest.length

namespace Cursor.Passes

variable {s t u : Cursor}

/-- What was passed stays passed when the cursor goes on. -/
theorem trans (h : s.Passes t) (h' : t.Leads u) : s.Passes u :=
  ⟨h.1.trans h', Nat.lt_of_le_of_lt h'.length_le h.2⟩

/-- A character is passed. -/
theorem cons {c : Char} {r : List Char} {p : Position} (h : (⟨r, p.next c⟩ : Cursor).Leads t) :
    (⟨c :: r, p⟩ : Cursor).Passes t :=
  ⟨.cons h, Nat.lt_succ_of_le h.length_le⟩

/-- A fixed text that is not empty is passed. -/
theorem literal? {w : List Char} (h : s.literal? w = some t) (hw : w ≠ []) : s.Passes t := by
  have hlength := length_of_literal? h
  have hpos := List.length_pos_iff.2 hw
  exact ⟨.literal? h, by omega⟩

/-- A run that is not empty is passed. -/
theorem takeWhile {f : Char → Bool} {cs : List Char} (h : s.takeWhile f = (cs, t)) (hcs : cs ≠ []) :
    s.Passes t := by
  have hleads := Leads.takeWhile f s
  have hlength := length_takeWhile f s
  have hpos := List.length_pos_iff.2 hcs
  rw [h] at hleads hlength
  exact ⟨hleads, by simp only at hlength; omega⟩

end Cursor.Passes

namespace Lexer

variable {α : Type} {lex : Lexer α}

/-- A lexer that reads at least one character. -/
def Consumes (lex : Lexer α) : Prop :=
  ∀ s a t, lex s = some (a, t) → t.rest.length < s.rest.length

/-- A lexer that moves over what it reads. -/
def Moves (lex : Lexer α) : Prop := ∀ s a t, lex s = some (a, t) → s.Leads t

/-- A lexer that moves over at least one character. -/
def Passes (lex : Lexer α) : Prop := ∀ s a t, lex s = some (a, t) → s.Passes t

/-- A lexer that passes something consumes it. -/
theorem Passes.consumes (h : lex.Passes) : lex.Consumes := fun s a t ht => (h s a t ht).2

/-- A lexer that passes something moves on. -/
theorem Passes.moves (h : lex.Passes) : lex.Moves := fun s a t ht => (h s a t ht).1

/-! ## Words -/

/-- A word is not empty. -/
theorem passes_word : Passes word := by
  intro s a t h
  obtain ⟨_ | ⟨c, r⟩, p⟩ := s
  · simp [word] at h
  · simp only [word, Cursor.peek_cons] at h
    split at h
    · rename_i hc
      cases h
      have hchar : isWordChar c := by
        simp only [isWordStart, isWordChar, Char.isAlphanum] at hc ⊢
        grind
      exact .takeWhile rfl (by simp [hchar])
    · cases h

/-- An identifier is a word. -/
theorem word_of_identifier {s t : Cursor} {w : String} (h : identifier s = some (w, t)) :
    word s = some (w, t) := by
  unfold identifier at h
  split at h
  · split at h
    · cases h
    · cases h
      assumption
  · cases h

/-- A keyword is a word. -/
theorem word_of_keyword {k : String} {s t : Cursor} {u : Unit} (h : keyword k s = some (u, t)) :
    word s = some (k, t) := by
  unfold keyword at h
  split at h
  · split at h
    · rename_i hw heq
      cases h
      rw [hw, heq]
    · cases h
  · cases h

/-- So is a word of declarations. -/
theorem word_of_declareWord {s t : Cursor} {d : DeclareWord} (h : declareWord s = some (d, t)) :
    ∃ w, word s = some (w, t) := by
  unfold declareWord at h
  split at h
  · obtain ⟨d, -, hd⟩ := Option.map_eq_some_iff.1 h
    cases hd
    exact ⟨_, ‹_›⟩
  · cases h

/-- So is a truth value. -/
theorem word_of_boolean {s t : Cursor} {v : Bool} (h : boolean s = some (v, t)) :
    ∃ w, word s = some (w, t) := by
  unfold boolean at h
  split at h
  · split at h
    · cases h
      exact ⟨_, ‹_›⟩
    · split at h
      · cases h
        exact ⟨_, ‹_›⟩
      · cases h
  · cases h

/-- A lexer that accepts only some of the words passes what a word passes. -/
theorem passes_of_word (h : ∀ s a t, lex s = some (a, t) → ∃ w, word s = some (w, t)) :
    Passes lex := by
  intro s a t hs
  obtain ⟨w, hw⟩ := h s a t hs
  exact passes_word s w t hw

/-- An identifier is not empty. -/
theorem passes_identifier : Passes identifier :=
  passes_of_word fun _ w _ h => ⟨w, word_of_identifier h⟩

/-- A keyword is not empty. -/
theorem passes_keyword (k : String) : Passes (keyword k) :=
  passes_of_word fun _ _ _ h => ⟨k, word_of_keyword h⟩

/-- A word of declarations is not empty. -/
theorem passes_declareWord : Passes declareWord :=
  passes_of_word fun _ _ _ h => word_of_declareWord h

/-- A truth value is not empty. -/
theorem passes_boolean : Passes boolean := passes_of_word fun _ _ _ h => word_of_boolean h

/-! ## Symbols -/

/-- What a symbol lexer that succeeded has moved over. -/
theorem literal?_of_symbol {ys : List (Symbol α)} {s t : Cursor} {a : α}
    (h : symbol ys s = some (a, t)) :
    ∃ y ∈ ys, y.meaning = a ∧ s.literal? y.text.toList = some t ∧
      t.peek y.notBefore.contains = false := by
  induction ys with
  | nil => cases h
  | cons y ys ih =>
    have later : symbol ys s = some (a, t) → ∃ z ∈ y :: ys, z.meaning = a ∧
        s.literal? z.text.toList = some t ∧ t.peek z.notBefore.contains = false := fun h =>
      let ⟨z, hz, hread⟩ := ih h
      ⟨z, List.mem_cons_of_mem _ hz, hread⟩
    simp only [symbol] at h
    split at h
    · rename_i u hu
      split at h
      · exact later h
      · rename_i hpeek
        cases h
        exact ⟨y, List.mem_cons_self, rfl, hu, by simpa using hpeek⟩
    · exact later h

/-- Symbols do not go back. -/
theorem moves_symbol (ys : List (Symbol α)) : Moves (symbol ys) := by
  intro s a t h
  obtain ⟨y, -, -, hread, -⟩ := literal?_of_symbol h
  exact .literal? hread

/-- Symbols of at least one character are not empty where they are read. -/
theorem passes_symbol {ys : List (Symbol α)} (hys : ∀ y ∈ ys, y.text.toList ≠ []) :
    Passes (symbol ys) := by
  intro s a t h
  obtain ⟨y, hy, -, hread, -⟩ := literal?_of_symbol h
  exact .literal? hread (hys y hy)

/-- The signs of operators in front are not empty. -/
theorem unarySymbols_ne_nil : ∀ y ∈ unarySymbols, y.text.toList ≠ [] := by decide

/-- An operator in front is not empty. -/
theorem passes_unaryOp : Passes unaryOp := by
  intro s a t h
  unfold unaryOp at h
  split at h
  · rename_i u v hv
    cases h
    exact passes_keyword _ s u t hv
  · exact passes_symbol unarySymbols_ne_nil s a t h

end Lexer

/-! ## Numbers -/

namespace Decimal

/-- An exponent leads on. -/
theorem leads_scanExponent? {s t : Cursor} {e : Int} (h : scanExponent? s = some (e, t)) :
    s.Leads t := by
  unfold scanExponent? at h
  split at h
  rename_i negative u hu
  have hsign : s.Leads u := by
    split at hu
    all_goals cases hu
    · exact .literal? ‹_›
    · exact .literal? ‹s.literal? ['-'] = some u›
    · exact .refl s
  split at h
  · cases h
  · rename_i ds v hne hv
    cases h
    exact hsign.trans (Cursor.Passes.takeWhile hv hne).1

/-- A scale may be missing. -/
theorem leads_scanScale (d : Decimal) (s : Cursor) : s.Leads (d.scanScale s).2 := by
  unfold scanScale
  split
  · exact .refl s
  · rename_i marked hmarked
    split
    · exact .refl s
    · rename_i e t ht
      refine Cursor.Leads.trans ?_ (leads_scanExponent? ht)
      rcases Option.or_eq_some_iff.1 hmarked with h | ⟨-, h⟩
      · exact .literal? h
      · exact .literal? h

/-- A decimal has at least one digit. -/
theorem passes_scan? {s t : Cursor} {d : Decimal} (h : scan? s = some (d, t)) : s.Passes t := by
  have hscale : ∀ {d' : Decimal} {u : Cursor}, some (d'.scanScale u) = some (d, t) →
      u.Leads t := fun {d' u} heq => by
    have hleads := d'.leads_scanScale u
    rwa [Option.some.inj heq] at hleads
  unfold scan? at h
  split at h
  · split at h
    · cases h
    · rename_i u hu
      split at h
      · cases h
      · rename_i fs v hne hv
        exact (Cursor.Passes.literal? hu (by decide)).trans
          ((Cursor.Passes.takeWhile hv hne).1.trans (hscale h))
  · rename_i ds u hne hu
    refine (Cursor.Passes.takeWhile hu hne).trans ?_
    split at h
    · exact hscale h
    · rename_i v hv
      exact (Cursor.Leads.literal? hv).trans
        ((Cursor.Leads.takeWhile Char.isDigit v).trans (hscale h))

end Decimal

/-- A number is not empty. -/
theorem Lexer.passes_number : Passes number := by
  intro s a t h
  obtain ⟨⟨d, u⟩, hd, hu⟩ := Option.map_eq_some_iff.1 h
  cases hu
  exact Decimal.passes_scan? hd

/-! ## Quoted text -/

namespace Quoted

/-- The closing mark is read too. -/
theorem passes_body? {mark : Char} {cs : List Char} {p : Position} {text : List Char} {t : Cursor}
    (h : body? mark cs p = some (text, t)) : (⟨cs, p⟩ : Cursor).Passes t := by
  fun_induction body? mark cs p generalizing text t with
  | case1 => cases h
  | case2 => cases h
  | case3 p c r ih =>
    obtain ⟨⟨cs, u⟩, hu, heq⟩ := Option.map_eq_some_iff.1 h
    cases heq
    exact .cons (.cons (ih hu).1)
  | case4 =>
    cases h
    exact .cons (.refl _)
  | case5 => cases h
  | case6 p c r _ _ _ _ ih =>
    obtain ⟨⟨cs, u⟩, hu, heq⟩ := Option.map_eq_some_iff.1 h
    cases heq
    exact .cons (ih hu).1

/-- A quoted text is not empty. -/
theorem passes_scan? : Lexer.Passes scan? := by
  intro s a t h
  obtain ⟨_ | ⟨c, r⟩, p⟩ := s
  · cases h
  · simp only [scan?] at h
    split at h
    · obtain ⟨⟨cs, u⟩, hu, heq⟩ := Option.map_eq_some_iff.1 h
      cases heq
      exact .cons (passes_body? hu).1
    · cases h

end Quoted

end BranchPaint
