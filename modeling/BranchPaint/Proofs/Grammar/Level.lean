import BranchPaint.Proofs.Grammar.Head
import BranchPaint.Proofs.Script.Reading

/-!
# Levels of the grammar

The rules for expressions form a ladder of levels, numbered like precedences: sequences at 0,
assignments at 1, conditionals at 2, the six levels of connectives at 3 to 8, unary operators at 9,
steps by one behind an operand at 10, and suffixed primaries at 11. `Stops k rest` says that nothing
in `rest` continues an expression of level `k`, and `ReadsAs k text e` that the rule of level `k`
reads `text` as what the text of `e` stands for (`Expr.asRead`), up to spans, whenever it stops
behind it.

The ladder can be climbed down (`ReadsAs.loosen`): what a tighter rule reads, every looser rule
reads too. The one step that needs an argument is from conditionals to assignments, since an
assignment is tried first there: where a conditional reads on behind its first operand, what follows
is no assignment operator.
-/

namespace BranchPaint

/-! ## The next token -/

/-- The text from the next token on. -/
def nextToken (rest : List Char) : List Char := (⟨rest, .start⟩ : Cursor).skipBlanks.rest

/-- Where the next token is does not depend on the position. -/
theorem Cursor.rest_skipBlanks (rest : List Char) (p : Position) :
    (⟨rest, p⟩ : Cursor).skipBlanks.rest = nextToken rest :=
  rest_skipBlanksFrom _ _ _ _

/-- Where a token starts, it is the next one. -/
theorem nextToken_of_atToken {rest : List Char} (h : AtToken rest) : nextToken rest = rest := by
  unfold nextToken
  rw [Cursor.skipBlanks_of_atToken h]

/-- A blank in front does not change the next token. -/
theorem nextToken_cons_blank {c : Char} (h : isBlankChar c) (r : List Char) :
    nextToken (c :: r) = nextToken r := by
  unfold nextToken
  rw [Cursor.skipBlanks_cons_blank h, Cursor.rest_skipBlanks]
  rfl

/-- The same token is next. -/
def Cursor.SameToken (s t : Cursor) : Prop := s.skipBlanks = t.skipBlanks

namespace Cursor.SameToken

/-- A cursor has the same next token as itself. -/
theorem refl (s : Cursor) : SameToken s s := rfl

/-- Skipping blanks keeps the next token. -/
theorem skipBlanks_left {s t : Cursor} (h : SameToken s t) : SameToken s.skipBlanks t := by
  unfold SameToken
  rw [skipBlanks_skipBlanks]
  exact h

/-- With the same next token, skipping blanks leads to it. -/
theorem eq_next {s : Cursor} {rest : List Char} {p : Position} (h : SameToken s ⟨rest, p⟩) :
    ∃ q, s.skipBlanks = ⟨nextToken rest, q⟩ := by
  refine ⟨s.skipBlanks.pos, ?_⟩
  rw [← rest_skipBlanks rest p, ← h]

end Cursor.SameToken

namespace Grammar

open Rule

/-! ## What the rules read -/

section results

variable (n : Nat) (inner : Inner) (operand first : Rule Expr) (s : Cursor)

/-- One suffix with its span. -/
def suffixItem : Rule (Suffix × Span) :=
  spanned (firstOf [propertySuffix, indexSuffix n inner, callSuffix n inner])

/-- A primary expression is read, and then all its suffixes. -/
theorem result_suffixed :
    (suffixed n inner s).result = (primary n inner s).result.bind fun x =>
      (many (suffixItem n inner) n x.2.skipBlanks).result.map fun y =>
          (y.1.foldl attach x.1, y.2) := by
  simp only [suffixed, suffixItem, result_reporting, result_bind, result_blanks, result_pure,
    Option.bind_some]
  cases (primary n inner s).result with
  | none => rfl
  | some x => simp only [Option.bind_some, Option.map_eq_bind, Function.comp_def]

/-- One connective with its right operand. -/
def connectiveItem (level : List (Symbol Connective)) (tighter : List (List (Symbol Connective))) :
    Rule (Connective × Expr) := do
  let op ← token (Lexer.symbol level)
  blanks
  let e ← chain n operand tighter operand
  pure (op, e)

/-- A chain of one level is a first operand of the next level and the items behind it. -/
theorem result_chain_cons (level : List (Symbol Connective))
    (tighter : List (List (Symbol Connective))) :
    (chain n operand (level :: tighter) first s).result =
      (chain n operand tighter first s).result.bind fun x =>
      (many (connectiveItem n operand level tighter) n x.2.skipBlanks).result.map fun y =>
        (y.1.foldl join x.1, y.2) := by
  simp only [chain, connectiveItem, result_reporting, result_bind, result_blanks, Option.bind_some]
  cases (chain n operand tighter first s).result with
  | none => rfl
  | some x => simp only [Option.bind_some, Option.map_eq_bind, Function.comp_def, result_pure]

/-- The two sides of a choice. -/
def choiceItem : Rule (Expr × Expr) := do
  literal "?"
  blanks
  let t ← inner.assignment
  blanks
  literal ":"
  blanks
  let e ← inner.assignment
  pure (t, e)

/-- A conditional whose condition is followed by no question mark is its condition. -/
theorem result_conditional_of_none {c : Expr} {t : Cursor}
    (hc : (chain n operand connectiveLevels first s).result = some (c, t))
    (hitem : (choiceItem inner t.skipBlanks).result = none) :
    (conditional n inner operand first s).result = some (c, t.skipBlanks) := by
  have hopt := result_optional_of_none hitem
  simp only [choiceItem] at hopt
  simp only [conditional, result_reporting, result_bind, result_spanned, hc, Option.bind_some,
    result_blanks, hopt, result_pure, Option.map_some]

/-- Behind a condition both choices are read, if the question mark is there. -/
theorem result_conditional_of_some {c a b : Expr} {t u : Cursor}
    (hc : (chain n operand connectiveLevels first s).result = some (c, t))
    (hitem : (choiceItem inner t.skipBlanks).result = some ((a, b), u)) :
    (conditional n inner operand first s).result =
      some (.ternary c a b (.between s.pos u.pos), u) := by
  have hopt := result_optional_of_some hitem
  simp only [choiceItem] at hopt
  simp only [conditional, result_reporting, result_bind, result_spanned, hc, Option.bind_some,
    result_blanks, hopt, result_pure, Option.map_some]

/-- A step by one is read behind its operand, if it is there. -/
theorem result_updateAfter {e : Expr} {t : Cursor} (he : (operand s).result = some (e, t)) :
    (updateAfter operand s).result =
      match Lexer.symbol updateSymbols t.skipBlanks with
      | none => some (e, t.skipBlanks)
      | some (op, u) => some (.update op false e (.between s.pos u.pos), u) := by
  simp only [updateAfter, result_bind, result_spanned, he, Option.bind_some, result_blanks]
  rcases hsym : Lexer.symbol updateSymbols t.skipBlanks with _ | ⟨op, u⟩
  · have hopt := result_optional_of_none
      ((result_token (Lexer.symbol updateSymbols) t.skipBlanks).trans hsym)
    simp only [hopt, Option.bind_some, result_pure, Option.map_some]
  · have hopt := result_optional_of_some
      ((result_token (Lexer.symbol updateSymbols) t.skipBlanks).trans hsym)
    simp only [hopt, Option.bind_some, result_pure, Option.map_some]

/-- Where an operand can be read, a unary rule reads it. -/
theorem result_unaryRule {x : Expr × Cursor} (hx : (primary n inner s).result = some x) :
    (unaryRule inner operand s).result = (updateAfter operand s).result := by
  obtain ⟨hop, hupdate⟩ := operators_of_primary hx
  simp only [unaryRule, unaryApplied, updateBefore, result_reporting, result_orElse, result_bind,
    result_spanned, result_token, hop, hupdate, Option.bind_none, Option.map_none, Option.none_or]

end results

/-! ## Assignment operators and what else follows an operand -/

/-- An assignment operator starts with an operator and `=`, or is a single `=`. -/
theorem assign_inv {s t : Cursor} {op : AssignOp}
    (h : Lexer.symbol assignSymbols s = some (op, t)) :
    (∃ c r, c ∈ ['+', '-', '*', '/', '%'] ∧ s.rest = c :: '=' :: r) ∨
      ∃ r, s.rest = '=' :: r ∧ r.head? ≠ some '=' := by
  obtain ⟨y, hy, -, hrest, hpeek⟩ := Lexer.symbol_inv h
  simp only [assignSymbols, List.mem_cons, List.not_mem_nil, or_false] at hy
  rcases hy with rfl | rfl | rfl | rfl | rfl | rfl
  · exact .inl ⟨'+', t.rest, by decide, hrest⟩
  · exact .inl ⟨'-', t.rest, by decide, hrest⟩
  · exact .inl ⟨'*', t.rest, by decide, hrest⟩
  · exact .inl ⟨'/', t.rest, by decide, hrest⟩
  · exact .inl ⟨'%', t.rest, by decide, hrest⟩
  · refine .inr ⟨t.rest, hrest, ?_⟩
    obtain ⟨_ | ⟨c, r⟩, p⟩ := t
    · simp
    · simpa using hpeek

/-- A connective is not the front of an assignment operator. -/
theorem assign_of_connective {level : List (Symbol Connective)} (hl : level ∈ connectiveLevels)
    {s t : Cursor} {op : Connective} (h : Lexer.symbol level s = some (op, t)) :
    Lexer.symbol assignSymbols s = none := by
  cases ha : Lexer.symbol assignSymbols s with
  | none => rfl
  | some x =>
    obtain ⟨a, u⟩ := x
    obtain ⟨r, p⟩ := s
    simp only [connectiveLevels, List.mem_cons, List.not_mem_nil, or_false] at hl
    rcases assign_inv ha with ⟨c, r', hc, hr⟩ | ⟨r', hr, hne⟩
    · simp only at hr
      subst hr
      simp only [List.mem_cons, List.not_mem_nil, or_false] at hc
      rcases hc with rfl | rfl | rfl | rfl | rfl
      all_goals
        rcases hl with rfl | rfl | rfl | rfl | rfl | rfl
        all_goals simp [Lexer.symbol, Cursor.literal?] at h
    · simp only at hr
      subst hr
      rcases r' with _ | ⟨d, r'⟩
      · rcases hl with rfl | rfl | rfl | rfl | rfl | rfl
        all_goals simp [Lexer.symbol, Cursor.literal?] at h
      · have hd : d ≠ '=' := by simpa using hne
        rcases hl with rfl | rfl | rfl | rfl | rfl | rfl
        all_goals simp [Lexer.symbol, Cursor.literal?, hd] at h

/-- A step by one is no assignment. -/
theorem assign_of_update {s t : Cursor} {op : UpdateOp}
    (h : Lexer.symbol updateSymbols s = some (op, t)) : Lexer.symbol assignSymbols s = none := by
  obtain ⟨y, hy, -, hrest, -⟩ := Lexer.symbol_inv h
  obtain ⟨r, p⟩ := s
  simp only [updateSymbols, List.mem_cons, List.not_mem_nil, or_false] at hy
  simp only at hrest
  subst hrest
  rcases hy with rfl | rfl
  all_goals simp [Lexer.symbol, assignSymbols, Cursor.literal?]

/-- The start of a choice is no assignment. -/
theorem assign_of_choice {inner : Inner} {s : Cursor} {x : (Expr × Expr) × Cursor}
    (h : (choiceItem inner s).result = some x) : Lexer.symbol assignSymbols s = none := by
  cases hq : s.literal? ['?'] with
  | none => simp [choiceItem, hq] at h
  | some t =>
    have hrest := Cursor.literal?_inv hq
    obtain ⟨r, p⟩ := s
    simp only at hrest
    subst hrest
    simp [Lexer.symbol, assignSymbols, Cursor.literal?]

/-- A chain either stops behind its first operand or reads a connective there. -/
theorem assign_of_chain {n : Nat} {operand first : Rule Expr}
    {levels : List (List (Symbol Connective))} (hsub : ∀ l ∈ levels, l ∈ connectiveLevels)
    {s c c' : Cursor} {a e : Expr} (hfirst : (first s).result = some (a, c))
    (h : (chain n operand levels first s).result = some (e, c')) :
    Lexer.symbol assignSymbols c.skipBlanks = none ∨ c'.SameToken c := by
  induction levels generalizing e c' with
  | nil =>
    have heq : some (a, c) = some (e, c') := hfirst.symm.trans h
    cases heq
    exact .inr rfl
  | cons level tighter ih =>
    rw [result_chain_cons] at h
    cases htight : (chain n operand tighter first s).result with
    | none => rw [htight] at h; cases h
    | some x =>
      obtain ⟨e₁, c₁⟩ := x
      rw [htight, Option.bind_some] at h
      rcases ih (fun l hl => hsub l (List.mem_cons_of_mem _ hl)) htight with hblocked | hsame
      · exact .inl hblocked
      · cases hitem : (connectiveItem n operand level tighter c₁.skipBlanks.skipBlanks).result with
        | none =>
          rw [result_many_of_none n hitem, Option.map_some] at h
          cases h
          exact .inr hsame.skipBlanks_left
        | some y =>
          -- the connective stands where the first operand ended
          refine .inl ?_
          rw [Cursor.skipBlanks_skipBlanks] at hitem
          cases hop : Lexer.symbol level c₁.skipBlanks with
          | none => simp [connectiveItem, hop] at hitem
          | some z =>
            have hblocked := assign_of_connective (hsub level List.mem_cons_self) hop
            rwa [hsame] at hblocked

/-- Where a conditional was read and no assignment operator follows it, none follows its first
operand. -/
theorem assign_of_conditional {n : Nat} {s c c' : Cursor} {a e : Expr} (hn : s.rest.length < n)
    (hfirst : (suffixed n fullInner s).result = some (a, c))
    (h : (conditional n fullInner unaryFull unaryFull s).result = some (e, c'))
    (hstop : Lexer.symbol assignSymbols c'.skipBlanks = none) :
    Lexer.symbol assignSymbols c.skipBlanks = none := by
  obtain ⟨x, hprimary⟩ : ∃ x, (primary n fullInner s).result = some x := by
    cases hp : (primary n fullInner s).result with
    | none => rw [result_suffixed, hp] at hfirst; cases hfirst
    | some x => exact ⟨x, rfl⟩
  have hunary := result_updateAfter _ _ hfirst
  rw [← result_unaryRule n fullInner _ _ hprimary, ← unaryFull_eq hn] at hunary
  rcases hsym : Lexer.symbol updateSymbols c.skipBlanks with _ | ⟨op, u⟩
  · rw [hsym] at hunary
    cases hchain : (chain n unaryFull connectiveLevels unaryFull s).result with
    | none => simp [conditional, hchain] at h
    | some y =>
      obtain ⟨e₁, c₁⟩ := y
      rcases assign_of_chain (fun _ h => h) hunary hchain with hblocked | hsame
      · rwa [Cursor.skipBlanks_skipBlanks] at hblocked
      · have hc₁ : c₁.skipBlanks = c.skipBlanks := by
          rw [hsame, Cursor.skipBlanks_skipBlanks]
        cases hitem : (choiceItem fullInner c₁.skipBlanks).result with
        | none =>
          rw [result_conditional_of_none _ _ _ _ _ hchain hitem] at h
          cases h
          rwa [Cursor.skipBlanks_skipBlanks, hc₁] at hstop
        | some z =>
          rw [← hc₁]
          exact assign_of_choice hitem
  · exact assign_of_update hsym

/-! ## The ladder -/

/-- The rule of a level, with `n` rounds for its repetitions. -/
def levelRule (n : Nat) : Nat → Rule Expr
  | 0 => sequence n assignmentFull
  | 1 => assignmentFull
  | 2 => conditional n fullInner unaryFull unaryFull
  | 3 => chain n unaryFull connectiveLevels unaryFull
  | 4 => chain n unaryFull (connectiveLevels.drop 1) unaryFull
  | 5 => chain n unaryFull (connectiveLevels.drop 2) unaryFull
  | 6 => chain n unaryFull (connectiveLevels.drop 3) unaryFull
  | 7 => chain n unaryFull (connectiveLevels.drop 4) unaryFull
  | 8 => chain n unaryFull (connectiveLevels.drop 5) unaryFull
  | 9 => unaryFull
  | 10 => updateAfter (suffixed n fullInner)
  | _ => suffixed n fullInner

/-- The levels from three on are chains of connectives. -/
theorem levelRule_connective {i : Nat} (hi : i ≤ 6) (n : Nat) :
    levelRule n (3 + i) = chain n unaryFull (connectiveLevels.drop i) unaryFull := by
  match i, hi with
  | 0, _ => simp only [levelRule, List.drop_zero]
  | 1, _ | 2, _ | 3, _ | 4, _ | 5, _ => simp only [levelRule]
  | 6, _ => simp only [levelRule, show connectiveLevels.drop 6 = [] from rfl, chain]

/-- Nothing in `rest` continues an expression of level `k`. -/
structure Stops (k : Nat) (rest : List Char) : Prop where
  /-- No word goes on. -/
  word : EndsWord rest
  /-- No suffix follows. -/
  suffix : ∀ c ∈ (nextToken rest).head?, c ≠ '.' ∧ c ≠ '[' ∧ c ≠ '('
  /-- No step by one follows an operand. -/
  update : k ≤ 10 → ∀ p, Lexer.symbol updateSymbols ⟨nextToken rest, p⟩ = none
  /-- No connective of the level follows, nor of a tighter one. -/
  connective : ∀ i level, connectiveLevels[i]? = some level → k ≤ 3 + i →
    ∀ p, Lexer.symbol level ⟨nextToken rest, p⟩ = none
  /-- No choice follows a condition. -/
  choice : k ≤ 2 → (nextToken rest).head? ≠ some '?'
  /-- No assignment operator follows. -/
  assign : k ≤ 1 → ∀ p, Lexer.symbol assignSymbols ⟨nextToken rest, p⟩ = none
  /-- No comma follows in a sequence. -/
  comma : k = 0 → (nextToken rest).head? ≠ some ','

/-- What stops a looser level stops a tighter one. -/
theorem Stops.mono {j k : Nat} {rest : List Char} (h : Stops j rest) (hjk : j ≤ k) :
    Stops k rest where
  word := h.word
  suffix := h.suffix
  update hk := h.update (Nat.le_trans hjk hk)
  connective i level hi hk := h.connective i level hi (Nat.le_trans hjk hk)
  choice hk := h.choice (Nat.le_trans hjk hk)
  assign hk := h.assign (Nat.le_trans hjk hk)
  comma hk := h.comma (by omega)

/-- The rule reads `text` as `e`, up to spans, and stops before `rest` or behind the blanks of
`rest`. -/
def Reads (rule : Rule Expr) (text rest : List Char) (e : Expr) : Prop :=
  ∀ p, ∃ e' c, (rule ⟨text ++ rest, p⟩).result = some (e', c) ∧ e'.eraseSpans = e.asRead ∧
    c.SameToken ⟨rest, p.advance text⟩

/-- The rule of level `k` reads `text` as `e` wherever it stops behind it. -/
def ReadsAs (k : Nat) (text : List Char) (e : Expr) : Prop :=
  ∀ n rest, (text ++ rest).length < n → Stops k rest → Reads (levelRule n k) text rest e

/-- A conditional that no assignment operator follows is read as an assignment too. -/
theorem Reads.assign_of_conditional {n : Nat} {text rest : List Char} {e : Expr}
    (h : Reads (levelRule n 2) text rest e) (hn : (text ++ rest).length < n)
    (hstop : Stops 1 rest) : Reads (levelRule n 1) text rest e := by
  intro p
  obtain ⟨e', c, hread, he, hc⟩ := h p
  obtain ⟨q, hq⟩ := hc.eq_next
  refine ⟨e', c, ?_, he, hc⟩
  simp only [levelRule] at hread ⊢
  have hblocked : Lexer.symbol assignSymbols c.skipBlanks = none := by
    rw [hq]
    exact hstop.assign (by decide) q
  have hstore : (store fullInner (suffixed n fullInner) ⟨text ++ rest, p⟩).result = none := by
    cases hfirst : (suffixed n fullInner ⟨text ++ rest, p⟩).result with
    | none => simp [store, hfirst]
    | some x =>
      have := Grammar.assign_of_conditional hn hfirst hread hblocked
      simp [store, hfirst, this]
  rw [assignmentFull_eq hn, result_reporting, result_orElse, hstore, Option.none_or, hread]

namespace ReadsAs

variable {k : Nat} {text : List Char} {e : Expr}

/-- A suffixed primary is read with no step by one behind it. -/
theorem loosen_update (h : ReadsAs 11 text e) : ReadsAs 10 text e := by
  intro n rest hn hstop p
  obtain ⟨e', c, hread, he, hc⟩ := h n rest hn (hstop.mono (by decide)) p
  obtain ⟨q, hq⟩ := hc.eq_next
  refine ⟨e', c.skipBlanks, ?_, he, hc.skipBlanks_left⟩
  simp only [levelRule] at hread ⊢
  rw [result_updateAfter _ _ hread, hq, hstop.update (by decide)]

/-- Where an operand was read, the unary rule reads the same. -/
theorem loosen_unary (h : ReadsAs 10 text e) : ReadsAs 9 text e := by
  intro n rest hn hstop p
  obtain ⟨e', c, hread, he, hc⟩ := h n rest hn (hstop.mono (by decide)) p
  refine ⟨e', c, ?_, he, hc⟩
  simp only [levelRule] at hread ⊢
  cases hp : (primary n fullInner ⟨text ++ rest, p⟩).result with
  | none =>
    have hnone : (suffixed n fullInner ⟨text ++ rest, p⟩).result = none := by
      rw [result_suffixed, hp]
      rfl
    simp [updateAfter, hnone] at hread
  | some x => rw [unaryFull_eq hn, result_unaryRule n fullInner _ _ hp, hread]

/-- One operand is read as a chain of one. -/
theorem loosen_connective {i : Nat} (hi : i < 6) (h : ReadsAs (3 + (i + 1)) text e) :
    ReadsAs (3 + i) text e := by
  intro n rest hn hstop p
  obtain ⟨e', c, hread, he, hc⟩ := h n rest hn (hstop.mono (by omega)) p
  obtain ⟨q, hq⟩ := hc.eq_next
  have hlen : i < connectiveLevels.length := hi
  have hget : connectiveLevels[i]? = some connectiveLevels[i] := List.getElem?_eq_getElem hlen
  rw [levelRule_connective hi] at hread
  refine ⟨e', c.skipBlanks, ?_, he, hc.skipBlanks_left⟩
  rw [levelRule_connective (Nat.le_of_lt hi), List.drop_eq_getElem_cons hlen, result_chain_cons,
    hread, Option.bind_some]
  have hitem : (connectiveItem n unaryFull connectiveLevels[i] (connectiveLevels.drop (i + 1))
      c.skipBlanks.skipBlanks).result = none := by
    rw [Cursor.skipBlanks_skipBlanks, hq]
    simp only [connectiveItem, result_bind, result_token, hstop.connective i _ hget (Nat.le_refl _),
      Option.bind_none]
  rw [result_many_of_none n hitem]
  rfl

/-- A chain is read as a condition without a choice. -/
theorem loosen_choice (h : ReadsAs 3 text e) : ReadsAs 2 text e := by
  intro n rest hn hstop p
  obtain ⟨e', c, hread, he, hc⟩ := h n rest hn (hstop.mono (by decide)) p
  obtain ⟨q, hq⟩ := hc.eq_next
  simp only [levelRule] at hread
  refine ⟨e', c.skipBlanks, ?_, he, hc.skipBlanks_left⟩
  simp only [levelRule]
  refine result_conditional_of_none _ _ _ _ _ hread ?_
  rw [hq]
  have hne := hstop.choice (by decide)
  cases ht : nextToken rest with
  | nil => rfl
  | cons d r =>
    have hd : d ≠ '?' := by
      rintro rfl
      rw [ht] at hne
      exact hne rfl
    simp [choiceItem, Cursor.literal?_cons_of_ne hd]

/-- A conditional is read where an assignment could stand. -/
theorem loosen_assign (h : ReadsAs 2 text e) : ReadsAs 1 text e := fun n rest hn hstop =>
  (h n rest hn (hstop.mono (by decide))).assign_of_conditional hn hstop

/-- One expression is read as a sequence of one. -/
theorem loosen_sequence (h : ReadsAs 1 text e) : ReadsAs 0 text e := by
  intro n rest hn hstop p
  obtain ⟨e', c, hread, he, hc⟩ := h n rest hn (hstop.mono (by decide)) p
  obtain ⟨q, hq⟩ := hc.eq_next
  refine ⟨e', c.skipBlanks, ?_, he, hc.skipBlanks_left⟩
  simp only [levelRule] at hread
  have hne := hstop.comma rfl
  have hitem : ((do literal ","; blanks; assignmentFull : Rule Expr)
      c.skipBlanks.skipBlanks).result = none := by
    rw [Cursor.skipBlanks_skipBlanks, hq]
    cases ht : nextToken rest with
    | nil => rfl
    | cons d r =>
      have hd : d ≠ ',' := by
        rintro rfl
        rw [ht] at hne
        exact hne rfl
      simp [Cursor.literal?_cons_of_ne hd]
  simp [levelRule, sequence, commaList, hread, result_many_of_none n hitem]

/-- What a tighter rule reads, every looser one reads too. -/
theorem loosen {j : Nat} (h : ReadsAs k text e) (hk : k ≤ 11) (hj : j ≤ k) : ReadsAs j text e := by
  induction k with
  | zero =>
    rw [Nat.le_zero.1 hj]
    exact h
  | succ k ih =>
    rcases Nat.lt_or_ge k j with hlt | hge
    · rw [show j = k + 1 by omega]
      exact h
    · refine ih ?_ (by omega) hge
      match k, hk with
      | 0, _ => exact h.loosen_sequence
      | 1, _ => exact h.loosen_assign
      | 2, _ => exact h.loosen_choice
      | 3, _ => exact loosen_connective (i := 0) (by decide) h
      | 4, _ => exact loosen_connective (i := 1) (by decide) h
      | 5, _ => exact loosen_connective (i := 2) (by decide) h
      | 6, _ => exact loosen_connective (i := 3) (by decide) h
      | 7, _ => exact loosen_connective (i := 4) (by decide) h
      | 8, _ => exact loosen_connective (i := 5) (by decide) h
      | 9, _ => exact h.loosen_unary
      | 10, _ => exact h.loosen_update

end ReadsAs

end Grammar

end BranchPaint
