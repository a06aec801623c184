import BranchPaint.Proofs.Grammar.Lexeme
import BranchPaint.Proofs.Grammar.Progress

/-!
# First characters and first words

The first character of a text decides most alternatives of the grammar: operands start with letters,
digits, quotes, a point or an opening mark, and expressions also with a sign. A rule gives up on
every other character, and where an operand was read no operator can have been meant.
-/

namespace BranchPaint

/-- Can an operand start with this character? -/
def startsOperand (c : Char) : Bool :=
  isWordStart c || c.isDigit || c = '.' || c = '\'' || c = '"' || c = '[' || c = '('

/-- Can an expression start with this character? -/
def startsExpr (c : Char) : Bool := startsOperand c || c = '!' || c = '~' || c = '-' || c = '+'

namespace Cursor

/-- Text with another first character is not the literal. -/
theorem literal?_of_peek {f : Char → Bool} {s : Cursor} (h : s.peek f = false) {c : Char} (hc : f c)
    (w : List Char) : s.literal? (c :: w) = none := by
  obtain ⟨_ | ⟨d, r⟩, p⟩ := s
  · rfl
  · rw [peek_cons] at h
    exact literal?_cons_of_ne (ne_of_class hc h).symm w r p

/-- What is not in a class is not in a smaller one. -/
theorem peek_mono {f g : Char → Bool} {s : Cursor} (h : s.peek g = false) (hfg : ∀ c, f c → g c) :
    s.peek f = false := by
  obtain ⟨_ | ⟨d, r⟩, p⟩ := s
  · simp
  · rw [peek_cons] at h ⊢
    cases hd : f d with
    | false => rfl
    | true => rw [hfg d hd] at h; cases h

/-- What a literal has read is the front of the text. -/
theorem literal?_inv {w : List Char} {s t : Cursor} (h : s.literal? w = some t) :
    s.rest = w ++ t.rest := by
  induction w generalizing s with
  | nil =>
    rw [literal?_nil] at h
    cases h
    rfl
  | cons c w ih =>
    obtain ⟨_ | ⟨d, r⟩, p⟩ := s
    · cases h
    · simp only [literal?] at h
      split at h
      · rename_i hd
        subst hd
        have hr : r = w ++ t.rest := ih h
        rw [List.cons_append, ← hr]
      · cases h

end Cursor

/-! ## Lexers on a wrong first character -/

namespace Lexer

/-- No word is read where none starts. -/
theorem word_of_peek {s : Cursor} (h : s.peek isWordStart = false) : word s = none := by
  simp [word, h]

/-- Without a word there is no identifier. -/
theorem identifier_of_word {s : Cursor} (h : word s = none) : identifier s = none := by
  simp [identifier, h]

/-- Nor is there a keyword. -/
theorem keyword_of_word {s : Cursor} (h : word s = none) (k : String) : keyword k s = none := by
  simp [keyword, h]

/-- The only operator that is a word is `typeof`. -/
theorem unaryOp_of_keyword {s : Cursor} (h : keyword "typeof" s = none) :
    unaryOp s = symbol unarySymbols s := by
  simp only [unaryOp, h]

/-- Nor is there a truth value. -/
theorem boolean_of_word {s : Cursor} (h : word s = none) : boolean s = none := by
  simp [boolean, h]

/-- Nor is there a word of declarations. -/
theorem declareWord_of_word {s : Cursor} (h : word s = none) : declareWord s = none := by
  simp [declareWord, h]

/-- No number is read where no operand starts. -/
theorem number_of_peek {s : Cursor} (h : s.peek startsOperand = false) : number s = none := by
  obtain ⟨_ | ⟨c, r⟩, p⟩ := s
  · simp
  · rw [Cursor.peek_cons] at h
    simp only [startsOperand, Bool.or_eq_false_iff, decide_eq_false_iff_not] at h
    exact number_of_head h.1.1.1.1.1.2 h.1.1.1.1.2 r p

/-- Nor is a quoted text. -/
theorem scan?_of_peek {s : Cursor} (h : s.peek startsOperand = false) : Quoted.scan? s = none := by
  obtain ⟨_ | ⟨c, r⟩, p⟩ := s
  · simp
  · rw [Cursor.peek_cons] at h
    simp only [startsOperand, Bool.or_eq_false_iff, decide_eq_false_iff_not] at h
    exact Quoted.scan?_of_head h.1.1.1.2 h.1.1.2 r p

/-- Symbols whose first characters are of a class are not read elsewhere. -/
theorem symbol_of_peek {α : Type} {ys : List (Symbol α)} {f : Char → Bool} {s : Cursor}
    (h : s.peek f = false) (hys : ∀ y ∈ ys, ∃ c w, y.text.toList = c :: w ∧ f c) :
    symbol ys s = none := by
  induction ys with
  | nil => rfl
  | cons y ys ih =>
    obtain ⟨c, w, hy, hc⟩ := hys y List.mem_cons_self
    simp only [symbol, hy, Cursor.literal?_of_peek h hc]
    exact ih fun z hz => hys z (List.mem_cons_of_mem _ hz)

/-- What a symbol lexer that succeeded has read. -/
theorem symbol_inv {α : Type} {ys : List (Symbol α)} {s t : Cursor} {a : α}
    (h : symbol ys s = some (a, t)) :
    ∃ y ∈ ys, y.meaning = a ∧ s.rest = y.text.toList ++ t.rest ∧
      t.peek y.notBefore.contains = false := by
  obtain ⟨y, hy, hmeaning, hread, hpeek⟩ := literal?_of_symbol h
  exact ⟨y, hy, hmeaning, Cursor.literal?_inv hread, hpeek⟩

end Lexer

namespace Grammar

open Rule

variable {n : Nat} {inner : Inner} {s : Cursor}

/-- What starts a word starts an operand. -/
theorem isWordStart_startsOperand (c : Char) (h : isWordStart c) : startsOperand c := by
  simp [startsOperand, h]

/-- What starts an operand starts an expression. -/
theorem startsOperand_startsExpr (c : Char) (h : startsOperand c) : startsExpr c := by
  simp [startsExpr, h]

/-! ## Operands -/

/-- A leaf is what the lexer finds, with its span. -/
theorem result_leaf {α : Type} (lex : Lexer α) (make : α → Span → Expr) (s : Cursor) :
    (leaf lex make s).result = (lex s).map fun x => (make x.1 (.between s.pos x.2.pos), x.2) := by
  simp only [leaf, result_bind, result_spanned, result_token]
  cases lex s <;> rfl

/-- No list is read without its bracket. -/
theorem listLiteral_of_literal? (h : s.literal? ['['] = none) :
    (listLiteral n inner s).result = none := by
  simp [listLiteral, h]

/-- Nor is an expression in parentheses without its parenthesis. -/
theorem parenthesized_of_literal? (h : s.literal? ['('] = none) :
    (parenthesized n inner s).result = none := by
  simp [parenthesized, h]

/-- No operand starts with another character. -/
theorem primary_of_peek (h : s.peek startsOperand = false) : (primary n inner s).result = none := by
  have hword : Lexer.word s = none :=
    Lexer.word_of_peek (Cursor.peek_mono h isWordStart_startsOperand)
  have hlist : s.literal? ['['] = none := Cursor.literal?_of_peek h (by decide) []
  have hparen : s.literal? ['('] = none := Cursor.literal?_of_peek h (by decide) []
  simp [primary, result_leaf, Lexer.number_of_peek h, Lexer.scan?_of_peek h,
    Lexer.boolean_of_word hword, Lexer.keyword_of_word hword, Lexer.identifier_of_word hword,
    listLiteral_of_literal? hlist, parenthesized_of_literal? hparen]

/-- A reserved word is no operand, unless it is the name of a value. -/
theorem primary_of_word {w : String} {t : Cursor} (hw : Lexer.word s = some (w, t))
    (hres : w ∈ reservedWords) (hvalue : w ∉ ["true", "false", "null"]) :
    (primary n inner s).result = none := by
  simp only [List.mem_cons, List.not_mem_nil, or_false, not_or] at hvalue
  obtain ⟨⟨c, cs, hc, hstart, -⟩, htext⟩ := Lexer.word_inv hw
  obtain ⟨r, p⟩ := s
  rw [hc, List.cons_append] at htext
  generalize cs ++ t.rest = r' at htext
  subst htext
  have hnumber : Lexer.number ⟨c :: r', p⟩ = none := by
    refine Lexer.number_of_head ?_ (ne_of_class hstart (by decide)) _ _
    cases hd : c.isDigit with
    | false => rfl
    | true => rw [isWordStart_of_isDigit hd] at hstart; cases hstart
  have hquoted : Quoted.scan? ⟨c :: r', p⟩ = none :=
    Quoted.scan?_of_head (ne_of_class hstart (by decide)) (ne_of_class hstart (by decide)) _ _
  have hboolean : Lexer.boolean ⟨c :: r', p⟩ = none := by
    simp [Lexer.boolean, hw, hvalue]
  have hnull : Lexer.keyword "null" ⟨c :: r', p⟩ = none := by
    simp [Lexer.keyword, hw, hvalue]
  have hidentifier : Lexer.identifier ⟨c :: r', p⟩ = none := by
    simp [Lexer.identifier, hw, hres]
  have hlist : (⟨c :: r', p⟩ : Cursor).literal? ['['] = none :=
    Cursor.literal?_cons_of_ne (ne_of_class hstart (by decide)) _ _ _
  have hparen : (⟨c :: r', p⟩ : Cursor).literal? ['('] = none :=
    Cursor.literal?_cons_of_ne (ne_of_class hstart (by decide)) _ _ _
  simp only [primary, result_firstOf_cons, result_leaf, hnumber, hquoted, hboolean, hnull,
    hidentifier, listLiteral_of_literal? hlist, parenthesized_of_literal? hparen, Option.map_none,
    Option.or_none, result_firstOf_nil]

/-- The signs of operators in front start expressions, and no operands. -/
theorem unarySymbols_heads (y : Symbol UnaryOp) (hy : y ∈ unarySymbols) :
    ∃ c w, y.text.toList = c :: w ∧ startsOperand c = false ∧ startsExpr c := by
  simp only [unarySymbols, List.mem_cons, List.not_mem_nil, or_false] at hy
  rcases hy with rfl | rfl | rfl | rfl
  · exact ⟨'!', [], rfl, by decide, by decide⟩
  · exact ⟨'~', [], rfl, by decide, by decide⟩
  · exact ⟨'-', [], rfl, by decide, by decide⟩
  · exact ⟨'+', [], rfl, by decide, by decide⟩

/-- So do those of steps by one. -/
theorem updateSymbols_heads (y : Symbol UpdateOp) (hy : y ∈ updateSymbols) :
    ∃ c w, y.text.toList = c :: w ∧ startsOperand c = false ∧ startsExpr c := by
  simp only [updateSymbols, List.mem_cons, List.not_mem_nil, or_false] at hy
  rcases hy with rfl | rfl
  · exact ⟨'+', ['+'], rfl, by decide, by decide⟩
  · exact ⟨'-', ['-'], rfl, by decide, by decide⟩

/-- A character of one class is seen, so none outside of it is. -/
theorem peek_not {f : Char → Bool} {s : Cursor} (h : s.peek f = true) :
    s.peek (fun c => !f c) = false := by
  obtain ⟨_ | ⟨c, r⟩, p⟩ := s
  · simp at h
  · rw [Cursor.peek_cons] at h ⊢
    rw [h]
    rfl

/-- The symbols that stand in front of operands are not read where they cannot start. -/
theorem symbols_of_peek {f : Char → Bool} (h : s.peek f = false)
    (hf : ∀ c, startsOperand c = false → startsExpr c → f c) :
    Lexer.symbol unarySymbols s = none ∧ Lexer.symbol updateSymbols s = none := by
  constructor
  · refine Lexer.symbol_of_peek h fun y hy => ?_
    obtain ⟨c, w, hy, hoperand, hexpr⟩ := unarySymbols_heads y hy
    exact ⟨c, w, hy, hf c hoperand hexpr⟩
  · refine Lexer.symbol_of_peek h fun y hy => ?_
    obtain ⟨c, w, hy, hoperand, hexpr⟩ := updateSymbols_heads y hy
    exact ⟨c, w, hy, hf c hoperand hexpr⟩

/-- Where an operand was read, no operator in front of it was meant. -/
theorem operators_of_primary {x : Expr × Cursor} (h : (primary n inner s).result = some x) :
    Lexer.unaryOp s = none ∧ Lexer.symbol updateSymbols s = none := by
  have hpeek : s.peek startsOperand = true := by
    cases hp : s.peek startsOperand with
    | true => rfl
    | false => rw [primary_of_peek hp] at h; cases h
  obtain ⟨hunary, hupdate⟩ := symbols_of_peek (peek_not hpeek) fun c hoperand _ => by
    rw [hoperand]; rfl
  have htypeof : Lexer.keyword "typeof" s = none := by
    cases hk : Lexer.word s with
    | none => exact Lexer.keyword_of_word hk _
    | some wt =>
      obtain ⟨w, t⟩ := wt
      by_cases hw : w = "typeof"
      · subst hw
        rw [primary_of_word hk (by decide) (by decide)] at h
        cases h
      · simp [Lexer.keyword, hk, hw]
  exact ⟨(Lexer.unaryOp_of_keyword htypeof).trans hunary, hupdate⟩

/-! ## Expressions -/

/-- A text that starts neither an operand nor with an operator. -/
structure NoExpr (s : Cursor) : Prop where
  primary : ∀ n inner, (primary n inner s).result = none
  unaryOp : Lexer.unaryOp s = none
  update : Lexer.symbol updateSymbols s = none

/-- No expression is read where none starts. -/
theorem noExpr_of_peek (h : s.peek startsExpr = false) : NoExpr s := by
  have hoperand : s.peek startsOperand = false := Cursor.peek_mono h startsOperand_startsExpr
  have hword : Lexer.word s = none :=
    Lexer.word_of_peek (Cursor.peek_mono hoperand isWordStart_startsOperand)
  obtain ⟨hunary, hupdate⟩ := symbols_of_peek h fun _ _ hexpr => hexpr
  exact ⟨fun n inner => primary_of_peek hoperand,
    (Lexer.unaryOp_of_keyword (Lexer.keyword_of_word hword _)).trans hunary, hupdate⟩

/-- The reserved words that start statements only, and `else`. -/
def statementWords : List String :=
  ["function", "let", "const", "var", "if", "else", "while", "for", "return", "break", "continue"]

/-- Nor is one at a word that starts a statement. -/
theorem noExpr_of_word {w : String} {t : Cursor} (hw : Lexer.word s = some (w, t))
    (h : w ∈ statementWords) : NoExpr s := by
  have hres : w ∈ reservedWords ∧ w ∉ ["true", "false", "null"] ∧ w ≠ "typeof" := by
    revert h w
    simp only [statementWords, List.mem_cons, List.not_mem_nil, or_false]
    rintro w - (rfl | rfl | rfl | rfl | rfl | rfl | rfl | rfl | rfl | rfl | rfl)
    all_goals decide
  obtain ⟨⟨c, cs, hc, hstart, -⟩, htext⟩ := Lexer.word_inv hw
  have hpeek : s.peek isWordStart = true := by
    obtain ⟨r, p⟩ := s
    rw [hc] at htext
    subst htext
    simpa using hstart
  have htypeof : Lexer.keyword "typeof" s = none := by
    simp only [Lexer.keyword, hw, hres.2.2, if_false]
  obtain ⟨hunary, hupdate⟩ := symbols_of_peek (peek_not hpeek) fun c hoperand _ => by
    cases hword : isWordStart c with
    | false => rfl
    | true => rw [isWordStart_startsOperand c hword] at hoperand; cases hoperand
  exact ⟨fun n inner => primary_of_word hw hres.1 hres.2.1,
    (Lexer.unaryOp_of_keyword htypeof).trans hunary, hupdate⟩

namespace NoExpr

variable (h : NoExpr s)
include h

/-- No expression with suffixes is read there. -/
theorem suffixed : (Grammar.suffixed n inner s).result = none := by
  simp [Grammar.suffixed, h.primary]

/-- Nor is one with an operator on one side. -/
theorem unaryRule : (Grammar.unaryRule inner (Grammar.suffixed n inner) s).result = none := by
  simp [Grammar.unaryRule, unaryApplied, updateBefore, updateAfter, h.unaryOp, h.update, h.suffixed]

/-- The same for the rule as it is used. -/
theorem unaryFull : (Grammar.unaryFull s).result = none := by
  rw [unaryFull_eq (Nat.lt_succ_self _)]
  exact h.unaryRule

/-- Nor is a chain of connectives. -/
theorem chain (levels : List (List (Symbol Connective))) :
    (Grammar.chain n Grammar.unaryFull levels Grammar.unaryFull s).result = none := by
  induction levels with
  | nil => exact h.unaryFull
  | cons level tighter ih => simp [Grammar.chain, ih]

/-- Nor is an assignment. -/
theorem assignmentFull : (Grammar.assignmentFull s).result = none := by
  rw [assignmentFull_eq (Nat.lt_succ_self _), result_reporting, result_orElse]
  have hstore : (store fullInner (Grammar.suffixed (s.rest.length + 1) fullInner) s).result =
      none := by
    simp only [store, result_bind, result_spanned, h.suffixed, Option.bind_none, Option.map_none]
  rw [hstore, Option.none_or, conditional, result_reporting]
  simp only [result_bind, result_spanned, h.chain, Option.bind_none, Option.map_none]

/-- Nor is a sequence. -/
theorem sequence : (Grammar.sequence n Grammar.assignmentFull s).result = none := by
  simp [Grammar.sequence, commaList, h.assignmentFull]

end NoExpr

end Grammar

end BranchPaint
