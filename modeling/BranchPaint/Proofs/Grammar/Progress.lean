import BranchPaint.Grammar.Statement
import BranchPaint.Proofs.Grammar.Lexer
import BranchPaint.Proofs.Grammar.Result

/-!
# Progress, and fuel that never runs out

The grammar is closed with fuel: every step inwards costs one unit, and repetitions are bounded by
the same number. This module shows that the fuel does not show. The carrying notion is `Agree bound
used p q`: on texts shorter than `bound` the rules `p` and `q` give the same reply, and whatever
they read is at least `used` characters long. It is stated for two rules at once because the same
composition lemmas then serve for both purposes: with `p = q` it is progress, and with different
fuel on the two sides it is independence of fuel.

Reading at least one character lowers the bound for what follows (`Agree.bind`), and that is exactly
what the step inwards needs: the rules one level further in have to agree on shorter texts only.

At the end, `unaryFull`, `assignmentFull` and `statementFull` are the rules with as much fuel as the
text asks for. They satisfy the equations of the grammar with themselves as inner rules, and every
proof about readings uses these equations instead of fuel.
-/

namespace BranchPaint

/-! ## Agreement of rules -/

namespace Rule

variable {α β : Type}

/-- On texts shorter than `bound` the two rules give the same reply, and what they read is at least
`used` characters long. -/
def Agree (bound used : Nat) (p q : Rule α) : Prop :=
  ∀ s : Cursor, s.rest.length < bound →
    p s = q s ∧ ∀ a t, (p s).result = some (a, t) → t.rest.length + used ≤ s.rest.length

namespace Agree

variable {bound bound' used used' n m : Nat} {p q : Rule α}

/-- Agreement on more is agreement on less. -/
theorem weaken (h : Agree bound used p q) (hb : bound' ≤ bound) (hu : used' ≤ used) :
    Agree bound' used' p q := by
  intro s hs
  obtain ⟨heq, hread⟩ := h s (Nat.lt_of_lt_of_le hs hb)
  refine ⟨heq, fun a t ht => ?_⟩
  have := hread a t ht
  omega

/-- It need not be told how much is read. -/
theorem loose (h : Agree bound used p q) : Agree bound 0 p q :=
  h.weaken (Nat.le_refl _) (Nat.zero_le _)

/-- A value is given without reading. -/
theorem pure (a : α) : Agree bound 0 (Pure.pure a : Rule α) (Pure.pure a) := by
  intro s _
  refine ⟨rfl, fun b t ht => ?_⟩
  cases ht
  exact Nat.le_refl _

/-- What the first rule reads is no longer there for the second, so the second has to agree on
shorter texts only. -/
theorem bind {f g : α → Rule β} (h : Agree bound used p q)
    (hf : ∀ a, Agree (bound - used) used' (f a) (g a)) :
    Agree bound (used + used') (p >>= f) (q >>= g) := by
  intro s hs
  obtain ⟨heq, hread⟩ := h s hs
  change Bind.bind p f s = Bind.bind q g s ∧ ∀ b u, (Bind.bind p f s).result = some (b, u) → _
  simp only [Bind.bind, ← heq]
  rcases hp : p s with ⟨r, _ | ⟨a, t⟩⟩
  · exact ⟨rfl, fun b u hu => by cases hu⟩
  · have hat := hread a t (by rw [hp])
    obtain ⟨heq', hread'⟩ := hf a t (by omega)
    refine ⟨congrArg (fun x : Reply β => (⟨r.later x.reach, x.result⟩ : Reply β)) heq',
      fun b u hu => ?_⟩
    have := hread' b u hu
    omega

/-- The second rule behind a first one that may read nothing. -/
theorem bind_loose {f g : α → Rule β} (h : Agree bound 0 p q)
    (hf : ∀ a, Agree bound used' (f a) (g a)) : Agree bound used' (p >>= f) (q >>= g) := by
  have := bind h hf
  rwa [Nat.zero_add] at this

/-- A second rule that may read nothing. -/
theorem bind_any {f g : α → Rule β} (h : Agree bound used p q)
    (hf : ∀ a, Agree (bound - used) 0 (f a) (g a)) : Agree bound used (p >>= f) (q >>= g) :=
  bind h hf

/-- The second rule behind a first one that reads something. -/
theorem bind_strict {f g : α → Rule β} (h : Agree (bound + 1) 1 p q)
    (hf : ∀ a, Agree bound 0 (f a) (g a)) : Agree (bound + 1) 1 (p >>= f) (q >>= g) :=
  bind h hf

/-- A refusal agrees with itself. -/
theorem fail : Agree bound used (Rule.fail : Rule α) Rule.fail :=
  fun _ _ => ⟨rfl, fun _ _ ht => by cases ht⟩

/-- Asking for the position reads nothing. -/
theorem position : Agree bound 0 Rule.position Rule.position := by
  intro s _
  refine ⟨rfl, fun a t ht => ?_⟩
  cases ht
  exact Nat.le_refl _

/-- Blanks are read alike, and may be missing. -/
theorem blanks : Agree bound 0 Rule.blanks Rule.blanks := by
  intro s _
  refine ⟨rfl, fun a t ht => ?_⟩
  cases ht
  exact s.length_skipBlanks_le

/-- A fixed text that is not empty reads something. -/
theorem literal {word : String} (h : word.toList ≠ []) :
    Agree bound 1 (Rule.literal word) (Rule.literal word) := by
  intro s _
  refine ⟨rfl, fun a t ht => ?_⟩
  obtain ⟨u, hu, heq⟩ := Option.map_eq_some_iff.1 ht
  cases heq
  have hlen := Cursor.length_of_literal? hu
  have hpos := List.length_pos_iff.2 h
  omega

/-- So does a token. -/
theorem token {lex : Lexer α} (h : lex.Consumes) :
    Agree bound 1 (Rule.token lex) (Rule.token lex) := by
  intro s _
  refine ⟨rfl, fun a t ht => ?_⟩
  rw [result_token] at ht
  exact h s a t ht

/-- Reporting reads what the rule reads. -/
theorem reporting (h : Agree bound used p q) :
    Agree bound used (Rule.reporting p) (Rule.reporting q) := by
  intro s hs
  obtain ⟨heq, hread⟩ := h s hs
  refine ⟨by simp only [Rule.reporting, heq], fun a t ht => ?_⟩
  rw [result_reporting] at ht
  exact hread a t ht

/-- Of two rules each agrees with its twin. -/
theorem orElse {p' q' : Rule α} (h : Agree bound used p q) (h' : Agree bound used p' q') :
    Agree bound used (Rule.orElse p p') (Rule.orElse q q') := by
  intro s hs
  obtain ⟨heq, hread⟩ := h s hs
  obtain ⟨heq', hread'⟩ := h' s hs
  refine ⟨by simp only [Rule.orElse, heq, heq'], fun a t ht => ?_⟩
  rw [result_orElse] at ht
  rcases Option.or_eq_some_iff.1 ht with hp | ⟨-, hp'⟩
  · exact hread a t hp
  · exact hread' a t hp'

/-- Without rules to choose from nothing is read. -/
theorem firstOf_nil : Agree bound used (Rule.firstOf [] : Rule α) (Rule.firstOf []) := fail

/-- Of several rules each agrees with its twin. -/
theorem firstOf_cons {ps qs : List (Rule α)} (h : Agree bound used p q)
    (h' : Agree bound used (Rule.firstOf ps) (Rule.firstOf qs)) :
    Agree bound used (Rule.firstOf (p :: ps)) (Rule.firstOf (q :: qs)) :=
  orElse h h'

/-- An optional part may read nothing. -/
theorem optional (h : Agree bound used p q) :
    Agree bound 0 (Rule.optional p) (Rule.optional q) := by
  intro s hs
  obtain ⟨heq, hread⟩ := h s hs
  refine ⟨by simp only [Rule.optional, heq], fun a t ht => ?_⟩
  rw [result_optional] at ht
  rcases hp : (p s).result with _ | ⟨b, u⟩
  · rw [hp] at ht
    cases ht
    exact Nat.le_refl _
  · rw [hp] at ht
    cases ht
    have := hread b t hp
    omega

/-- The same if the part may read nothing. -/
theorem optional_loose (h : Agree bound 0 p q) :
    Agree bound 0 (Rule.optional p) (Rule.optional q) :=
  optional h

/-- Every round of a repetition reads something, so a number of rounds above the length of the text
is as good as any other. -/
theorem many (h : Agree bound 1 p q) (hn : bound ≤ n) (hm : bound ≤ m) :
    Agree bound 0 (Rule.many p n) (Rule.many q m) := by
  induction bound generalizing n m with
  | zero => exact fun s hs => absurd hs (Nat.not_lt_zero _)
  | succ b ih =>
    obtain ⟨n, rfl⟩ := Nat.exists_eq_add_of_lt hn
    obtain ⟨m, rfl⟩ := Nat.exists_eq_add_of_lt hm
    intro s hs
    have hskip := s.length_skipBlanks_le
    obtain ⟨heq, hread⟩ := h s.skipBlanks (by omega)
    simp only [Rule.many, ← heq]
    rcases hp : p s.skipBlanks with ⟨r, _ | ⟨a, t⟩⟩
    · refine ⟨rfl, fun as u hu => ?_⟩
      cases hu
      exact Nat.le_refl _
    · have hat := hread a t (by rw [hp])
      have shorter := ih (h.weaken (Nat.le_succ b) (Nat.le_refl 1)) (n := b + n) (m := b + m)
        (by omega) (by omega)
      obtain ⟨heq', hread'⟩ := shorter t (by omega)
      dsimp only
      refine ⟨by rw [← heq'], fun as u hu => ?_⟩
      rcases hq : Rule.many p (b + n) t with ⟨r', _ | ⟨bs, v⟩⟩
      · rw [hq] at hu
        cases hu
      · rw [hq] at hu
        cases hu
        have := hread' bs u (by rw [hq])
        omega

/-- The span does not change what is read. -/
theorem spanned (h : Agree bound used p q) : Agree bound used (Rule.spanned p) (Rule.spanned q) :=
  bind_loose position fun _ =>
    bind h fun _ => bind_loose position fun _ => pure _

/-- Parts with commas between them are read alike with any fuel that is enough. -/
theorem commaList (h : Agree bound 1 p q) (hn : bound ≤ n) (hm : bound ≤ m) :
    Agree bound 1 (Rule.commaList n p) (Rule.commaList m q) := by
  have item : Agree bound 1 (do Rule.literal ","; Rule.blanks; p)
      (do Rule.literal ","; Rule.blanks; q) :=
    (bind (literal (by decide)) fun _ =>
      bind_loose blanks fun _ => (h.weaken (Nat.sub_le _ _) (Nat.zero_le 1))).weaken (Nat.le_refl _)
        (Nat.le_refl _)
  exact bind h fun _ => bind_loose blanks fun _ =>
    bind_loose (many (item.weaken (Nat.sub_le _ _) (Nat.le_refl _)) (by omega) (by omega)) fun _ =>
      pure _

end Agree

end Rule

/-! ## The rules of expressions -/

namespace Grammar

open Rule

/-- The inner rules agree on texts shorter than `bound`. -/
structure Inner.Agree (bound : Nat) (i j : Inner) : Prop where
  unary : Rule.Agree bound 1 i.unary j.unary
  assignment : Rule.Agree bound 1 i.assignment j.assignment

variable {bound n m : Nat} {i j : Inner}

/-- Expressions with commas between them are read alike with any fuel that is enough. -/
theorem agree_sequence {p q : Rule Expr} (h : Agree bound 1 p q) (hn : bound ≤ n) (hm : bound ≤ m) :
    Agree bound 1 (sequence n p) (sequence m q) :=
  .reporting (.bind (.spanned (.commaList h hn hm)) fun _ => .pure _)

/-- Items of a list or arguments of a call are read alike with any fuel that is enough. -/
theorem agree_items {p q : Rule Expr} (h : Agree bound 1 p q) (hn : bound ≤ n) (hm : bound ≤ m) :
    Agree bound 0 (items n p) (items m q) := by
  refine .bind_loose (.optional (.commaList h hn hm)) fun x => ?_
  rcases x with _ | ⟨e, es⟩
  · exact .pure _
  · exact .pure _

/-- A list in brackets is read alike with any fuel that is enough. -/
theorem agree_listLiteral (h : i.Agree bound j) (hn : bound ≤ n) (hm : bound ≤ m) :
    Agree (bound + 1) 1 (listLiteral n i) (listLiteral m j) := by
  refine .reporting (.bind_strict (.spanned (.bind_strict (.literal (by decide)) fun _ => ?_))
    fun _ => .pure _)
  refine .bind_loose .blanks fun _ => .bind_loose (agree_items h.assignment hn hm) fun _ => ?_
  refine .bind_loose .blanks fun _ => .bind_loose (.optional (.literal (by decide))) fun _ => ?_
  exact .bind_loose .blanks fun _ => .bind_loose (Agree.literal (by decide)).loose fun _ => .pure _

/-- An expression in parentheses is read alike with any fuel that is enough. -/
theorem agree_parenthesized (h : i.Agree bound j) (hn : bound ≤ n) (hm : bound ≤ m) :
    Agree (bound + 1) 1 (parenthesized n i) (parenthesized m j) := by
  refine .bind_strict (.literal (by decide)) fun _ => .bind_loose .blanks fun _ => ?_
  refine .bind_loose (agree_sequence h.assignment hn hm).loose fun _ =>
    .bind_loose .blanks fun _ => ?_
  exact .bind_loose (Agree.literal (by decide)).loose fun _ => .pure _

/-- A leaf is read without fuel. -/
theorem agree_leaf {α : Type} {lex : Lexer α} (h : lex.Consumes) (make : α → Span → Expr) :
    Agree bound 1 (leaf lex make) (leaf lex make) :=
  .bind (.spanned (.token h)) fun _ => .pure _

/-- The expressions without operators are read alike with any fuel that is enough. -/
theorem agree_primary (h : i.Agree bound j) (hn : bound ≤ n) (hm : bound ≤ m) :
    Agree (bound + 1) 1 (primary n i) (primary m j) := by
  refine .firstOf_cons (agree_leaf Lexer.passes_number.consumes _)
    (.firstOf_cons (agree_leaf Quoted.passes_scan?.consumes _) ?_)
  refine .firstOf_cons (agree_leaf Lexer.passes_boolean.consumes _)
    (.firstOf_cons (agree_leaf (Lexer.passes_keyword _).consumes _) ?_)
  refine .firstOf_cons (agree_listLiteral h hn hm)
    (.firstOf_cons (agree_leaf Lexer.passes_identifier.consumes _) ?_)
  exact .firstOf_cons (agree_parenthesized h hn hm) .firstOf_nil

/-- A member behind a dot is read without fuel. -/
theorem agree_propertySuffix : Agree (bound + 1) 1 propertySuffix propertySuffix := by
  refine .reporting (.bind_strict (.literal (by decide)) fun _ => .bind_loose .blanks fun _ => ?_)
  exact .bind_loose (Agree.spanned (.token Lexer.passes_word.consumes)).loose fun _ => .pure _

/-- An index in brackets is read alike with any fuel that is enough. -/
theorem agree_indexSuffix (h : i.Agree bound j) (hn : bound ≤ n) (hm : bound ≤ m) :
    Agree (bound + 1) 1 (indexSuffix n i) (indexSuffix m j) := by
  refine .reporting (.bind_strict (.literal (by decide)) fun _ => .bind_loose .blanks fun _ => ?_)
  refine .bind_loose (agree_sequence h.assignment hn hm).loose fun _ =>
    .bind_loose .blanks fun _ => ?_
  exact .bind_loose (Agree.literal (by decide)).loose fun _ => .pure _

/-- The arguments of a call are read alike with any fuel that is enough. -/
theorem agree_callSuffix (h : i.Agree bound j) (hn : bound ≤ n) (hm : bound ≤ m) :
    Agree (bound + 1) 1 (callSuffix n i) (callSuffix m j) := by
  refine .reporting (.bind_strict (.literal (by decide)) fun _ => .bind_loose .blanks fun _ => ?_)
  refine .bind_loose (agree_items h.assignment hn hm) fun _ => .bind_loose .blanks fun _ => ?_
  exact .bind_loose (Agree.literal (by decide)).loose fun _ => .pure _

/-- A primary expression with its suffixes is read alike with any fuel that is enough. -/
theorem agree_suffixed (h : i.Agree bound j) (hn : bound < n) (hm : bound < m) :
    Agree (bound + 1) 1 (suffixed n i) (suffixed m j) := by
  have suffix :
      Agree (bound + 1) 1 (spanned (firstOf [propertySuffix, indexSuffix n i, callSuffix n i]))
      (spanned (firstOf [propertySuffix, indexSuffix m j, callSuffix m j])) :=
    .spanned (.firstOf_cons agree_propertySuffix (.firstOf_cons (agree_indexSuffix h (by omega)
        (by omega)) (.firstOf_cons (agree_callSuffix h (by omega) (by omega)) .firstOf_nil)))
  refine .reporting (.bind_strict (agree_primary h (by omega) (by omega)) fun _ =>
    .bind_loose .blanks fun _ => ?_)
  exact .bind_loose (.many (suffix.weaken (Nat.le_succ _) (Nat.le_refl _)) (by omega) (by omega))
    fun _ => .pure _

/-! The symbols of the grammar are not empty. -/

/-- The signs of steps by one are not empty. -/
theorem updateSymbols_ne_nil : ∀ y ∈ updateSymbols, y.text.toList ≠ [] := by decide

/-- Nor are those of assignments. -/
theorem assignSymbols_ne_nil : ∀ y ∈ assignSymbols, y.text.toList ≠ [] := by decide

/-- Nor are those of connectives. -/
theorem connectiveLevels_ne_nil : ∀ level ∈ connectiveLevels, ∀ y ∈ level, y.text.toList ≠ [] := by
  decide

/-- A step by one in front of its operand is read alike with any fuel that is enough. -/
theorem agree_updateBefore (h : i.Agree bound j) :
    Agree (bound + 1) 1 (updateBefore i) (updateBefore j) := by
  refine .bind_strict (.spanned (.bind_strict
      (.token (Lexer.passes_symbol updateSymbols_ne_nil).consumes) fun _ => ?_)) fun _ => .pure _
  exact .bind_loose .blanks fun _ => .bind_loose h.unary.loose fun _ => .pure _

/-- An operand, with or without a step by one behind it, is read alike with any fuel that is
enough. -/
theorem agree_updateAfter {p q : Rule Expr} (h : Agree bound 1 p q) :
    Agree bound 1 (updateAfter p) (updateAfter q) := by
  refine .bind_any (.spanned (.bind_any h fun _ => .bind_loose .blanks fun _ => ?_)) fun x => ?_
  · exact .bind_loose (.optional (.token (Lexer.passes_symbol updateSymbols_ne_nil).consumes))
      fun _ => .pure _
  · obtain ⟨⟨e, _ | op⟩, span⟩ := x
    · exact .pure _
    · exact .pure _

/-- An operator in front of its operand is read alike with any fuel that is enough. -/
theorem agree_unaryApplied (h : i.Agree bound j) :
    Agree (bound + 1) 1 (unaryApplied i) (unaryApplied j) := by
  refine .bind_strict (.spanned (.bind_strict (.token Lexer.passes_unaryOp.consumes) fun _ => ?_))
    fun _ => .pure _
  exact .bind_loose .blanks fun _ => .bind_loose h.unary.loose fun _ => .pure _

/-- The expressions with operators on one side are read alike with any fuel that is enough. -/
theorem agree_unaryRule {p q : Rule Expr} (h : i.Agree bound j) (hp : Agree (bound + 1) 1 p q) :
    Agree (bound + 1) 1 (unaryRule i p) (unaryRule j q) :=
  .reporting (.orElse (agree_unaryApplied h)
    (.reporting (.orElse (agree_updateBefore h) (agree_updateAfter hp))))

/-- A chain of connectives is read alike with any fuel that is enough. -/
theorem agree_chain {p q p' q' : Rule Expr} (h : Agree bound 1 p q) (h' : Agree bound 1 p' q')
    (hn : bound ≤ n) (hm : bound ≤ m) (levels : List (List (Symbol Connective)))
    (hlevels : ∀ level ∈ levels, ∀ y ∈ level, y.text.toList ≠ []) :
    Agree bound 1 (chain n p levels p') (chain m q levels q') := by
  induction levels generalizing p' q' with
  | nil => exact h'
  | cons level tighter ih =>
    have inner := fun level h => hlevels level (List.mem_cons_of_mem _ h)
    have item : Agree bound 1
        (do let op ← token (Lexer.symbol level); blanks
            let e ← chain n p tighter p; pure (op, e))
        (do let op ← token (Lexer.symbol level); blanks
            let e ← chain m q tighter q; pure (op, e)) := by
      refine .bind_any (.token (Lexer.passes_symbol (hlevels level List.mem_cons_self)).consumes)
        fun _ => ?_
      refine .bind_loose .blanks fun _ => .bind_loose ?_ fun _ => .pure _
      exact (ih h inner).weaken (Nat.sub_le _ _) (Nat.zero_le _)
    refine .reporting (.bind_any (ih h' inner) fun _ => .bind_loose .blanks fun _ => ?_)
    exact .bind_loose (.many (item.weaken (Nat.sub_le _ _) (Nat.le_refl _)) (by omega) (by omega))
      fun _ => .pure _

/-- A condition with or without its two choices is read alike with any fuel that is enough. -/
theorem agree_conditional {p q : Rule Expr} (h : i.Agree bound j) (hp : Agree (bound + 1) 1 p q)
    (hn : bound < n) (hm : bound < m) :
    Agree (bound + 1) 1 (conditional n i p p) (conditional m j q q) := by
  refine .reporting (.bind_strict (.spanned (.bind_strict
    (agree_chain hp hp (by omega) (by omega) _ connectiveLevels_ne_nil) fun _ => ?_)) fun x => ?_)
  · refine .bind_loose .blanks fun _ => .bind_loose (.optional_loose ?_) fun _ => .pure _
    refine .bind_loose (Agree.literal (by decide)).loose fun _ => .bind_loose .blanks fun _ => ?_
    refine .bind_loose h.assignment.loose fun _ => .bind_loose .blanks fun _ => ?_
    refine .bind_loose (Agree.literal (by decide)).loose fun _ => .bind_loose .blanks fun _ => ?_
    exact .bind_loose h.assignment.loose fun _ => .pure _
  · obtain ⟨⟨c, _ | ⟨t, e⟩⟩, span⟩ := x
    · exact .pure _
    · exact .pure _

/-- An assignment is read alike with any fuel that is enough. -/
theorem agree_store {p q : Rule Expr} (h : i.Agree bound j) (hp : Agree (bound + 1) 1 p q) :
    Agree (bound + 1) 1 (store i p) (store j q) := by
  refine .bind_strict (.spanned (.bind_strict hp fun _ => .bind_loose .blanks fun _ => ?_)) fun _ =>
    .pure _
  refine .bind_loose (Agree.token (Lexer.passes_symbol assignSymbols_ne_nil).consumes).loose
    fun _ => ?_
  exact .bind_loose .blanks fun _ => .bind_loose h.assignment.loose fun _ => .pure _

/-! ### An operand read once

An assignment reads the operand at its place once and hands the reply to both alternatives. Rules
that use their operand at the place where they start do not notice. -/

/-- The operand of an expression with operators is only read where it starts. -/
theorem unaryRule_here (inner : Inner) (operand : Rule Expr) (s : Cursor) :
    unaryRule inner (fun _ => operand s) s = unaryRule inner operand s := rfl

/-- So is the left side of an assignment. -/
theorem store_here (inner : Inner) (operand : Rule Expr) (s : Cursor) :
    store inner (fun _ => operand s) s = store inner operand s := rfl

/-- The first operand of a chain only matters where the chain starts. -/
theorem chain_congr (n : Nat) (operand : Rule Expr) (levels : List (List (Symbol Connective)))
    {first first' : Rule Expr} {s : Cursor} (h : first s = first' s) :
    chain n operand levels first s = chain n operand levels first' s := by
  induction levels with
  | nil => exact h
  | cons level tighter ih => simp only [chain, reporting, Bind.bind, ih]

/-- So it is with a condition. -/
theorem conditional_congr (n : Nat) (inner : Inner) (operand : Rule Expr) {first first' : Rule Expr}
    {s : Cursor} (h : first s = first' s) :
    conditional n inner operand first s = conditional n inner operand first' s := by
  simp only [conditional, reporting, spanned, Bind.bind, position, chain_congr n operand _ h]

/-- The rule of assignments with its operand in both places. -/
theorem assignmentRule_eq (n : Nat) (inner : Inner) (s : Cursor) :
    assignmentRule n inner s =
      reporting (orElse (store inner (suffixed n inner))
        (conditional n inner (unaryRule inner (suffixed n inner))
          (unaryRule inner (suffixed n inner)))) s := by
  have hcond := conditional_congr n inner (unaryRule inner (suffixed n inner))
    (unaryRule_here inner (suffixed n inner) s)
  simp only [assignmentRule, reporting, orElse, store_here, hcond]

/-- An assignment or a conditional expression is read alike with any fuel that is enough. -/
theorem agree_assignmentRule (h : i.Agree bound j) (hn : bound < n) (hm : bound < m) :
    Agree (bound + 1) 1 (assignmentRule n i) (assignmentRule m j) := by
  intro s hs
  rw [assignmentRule_eq, assignmentRule_eq]
  have hsuffixed := agree_suffixed h hn hm
  exact Agree.reporting (.orElse (agree_store h hsuffixed)
    (agree_conditional h (agree_unaryRule h hsuffixed) hn hm)) s hs

/-! ### The circle -/

/-- With one more unit of fuel operands may be read with one less. -/
theorem unary_succ (n : Nat) :
    unary (n + 1) = unaryRule ⟨unary n, assignment n⟩
      (suffixed (n + 1) ⟨unary n, assignment n⟩) := by
  funext s
  simp only [unary]

/-- So it is with assignments. -/
theorem assignment_succ (n : Nat) :
    assignment (n + 1) = assignmentRule (n + 1) ⟨unary n, assignment n⟩ := by
  funext s
  simp only [assignment]

/-- Fuel above the length of the text is as good as any other. -/
theorem agree_inner (hn : bound ≤ n) (hm : bound ≤ m) :
    Inner.Agree bound ⟨unary n, assignment n⟩ ⟨unary m, assignment m⟩ := by
  induction bound generalizing n m with
  | zero =>
    exact ⟨fun s hs => absurd hs (Nat.not_lt_zero _), fun s hs => absurd hs (Nat.not_lt_zero _)⟩
  | succ bound ih =>
    obtain ⟨n, rfl⟩ := Nat.exists_eq_add_of_lt hn
    obtain ⟨m, rfl⟩ := Nat.exists_eq_add_of_lt hm
    have further := ih (Nat.le_add_right bound n) (Nat.le_add_right bound m)
    refine ⟨?_, ?_⟩
    · simp only [unary_succ]
      exact agree_unaryRule further (agree_suffixed further (by omega) (by omega))
    · simp only [assignment_succ]
      exact agree_assignmentRule further (by omega) (by omega)

/-- All expressions are read alike with any fuel that is enough. -/
theorem agree_expression (hn : bound ≤ n) (hm : bound ≤ m) :
    Agree bound 1 (expression n) (expression m) :=
  agree_sequence (agree_inner hn hm).assignment hn hm

/-! ## The rules of statements -/

/-- A name that is declared, with or without a value, is read alike with any fuel that is enough. -/
theorem agree_declarator (hn : bound ≤ n) (hm : bound ≤ m) :
    Agree bound 1 (declarator n) (declarator m) := by
  refine .reporting (.bind_any
    (.spanned (.bind_any (.token Lexer.passes_identifier.consumes) fun _ => ?_)) fun _ => .pure _)
  refine .bind_loose .blanks fun _ => .bind_loose (.optional_loose ?_) fun _ => .pure _
  refine .bind_loose (Agree.literal (by decide)).loose fun _ => .bind_loose .blanks fun _ => ?_
  exact (agree_inner (Nat.le_trans (Nat.sub_le _ _) hn)
    (Nat.le_trans (Nat.sub_le _ _) hm)).assignment.loose

/-- A word of declarations and the names behind it are read alike with any fuel that is enough. -/
theorem agree_declaration (hn : bound ≤ n) (hm : bound ≤ m) :
    Agree bound 1 (declaration n) (declaration m) := by
  refine .reporting (.bind_any (.token Lexer.passes_declareWord.consumes) fun _ =>
    .bind_loose .blanks fun _ => ?_)
  have names : Agree bound 1 (commaList n (declarator n)) (commaList m (declarator m)) :=
    .commaList (agree_declarator hn hm) hn hm
  exact .bind_loose (names.weaken (Nat.sub_le _ _) (Nat.zero_le _)) fun _ => .pure _

/-- A semicolon, which may be missing, is read without fuel. -/
theorem agree_semicolon : Agree bound 0 semicolon semicolon :=
  .bind_loose .blanks fun _ => .bind_loose (.optional (.literal (by decide))) fun _ => .pure _

/-- A test in parentheses is read alike with any fuel that is enough. -/
theorem agree_test (hn : bound ≤ n) (hm : bound ≤ m) : Agree bound 0 (test n) (test m) := by
  refine .bind_loose .blanks fun _ => .bind_loose (Agree.literal (by decide)).loose fun _ => ?_
  refine .bind_loose .blanks fun _ => .bind_loose (agree_expression hn hm).loose fun _ => ?_
  refine .bind_loose .blanks fun _ => .bind_loose (Agree.literal (by decide)).loose fun _ => ?_
  exact .bind_loose .blanks fun _ => .pure _

variable {p q : Rule Stmt}

/-- Statements in braces are read alike with any fuel that is enough. -/
theorem agree_braces (h : Agree bound 1 p q) (hn : bound ≤ n) (hm : bound ≤ m) :
    Agree (bound + 1) 1 (braces n p) (braces m q) := by
  refine .reporting (.bind_strict (.literal (by decide)) fun _ => .bind_loose .blanks fun _ => ?_)
  refine .bind_loose (.many h hn hm) fun _ => .bind_loose .blanks fun _ => ?_
  exact .bind_loose (Agree.literal (by decide)).loose fun _ => .pure _

/-- Parameters with commas between them are read alike with any fuel that is enough. -/
theorem agree_paramList (hn : bound ≤ n) (hm : bound ≤ m) :
    Agree bound 1 (paramList n) (paramList m) :=
  .reporting (.bind_any (.commaList (.token Lexer.passes_identifier.consumes) hn hm)
    fun _ => .pure _)

/-- A function is read alike with any fuel that is enough. -/
theorem agree_functionRule (h : Agree bound 1 p q) (hn : bound < n) (hm : bound < m) :
    Agree (bound + 1) 1 (functionRule n p) (functionRule m q) := by
  have body : Agree (bound + 1) 1 (braces n p) (braces m q) := agree_braces h (by omega) (by omega)
  refine .reporting (.bind_strict (.spanned (.bind_strict (.token (Lexer.passes_keyword _).consumes)
      fun _ => ?_)) fun _ => .pure _)
  refine .bind_loose .blanks fun _ =>
    .bind_loose (Agree.token Lexer.passes_identifier.consumes).loose fun _ => ?_
  refine .bind_loose .blanks fun _ => .bind_loose (Agree.literal (by decide)).loose fun _ => ?_
  refine .bind_loose .blanks fun _ =>
    .bind_loose (.optional (agree_paramList (by omega) (by omega))) fun _ => ?_
  refine .bind_loose .blanks fun _ => .bind_loose (Agree.literal (by decide)).loose fun _ => ?_
  exact .bind_loose .blanks fun _ => .bind_loose (body.weaken (Nat.le_succ _) (Nat.zero_le _))
    fun _ => .pure _

/-- A declaration is read alike with any fuel that is enough. -/
theorem agree_declareRule (hn : bound ≤ n) (hm : bound ≤ m) :
    Agree bound 1 (declareRule n) (declareRule m) := by
  refine .reporting (.bind_any (.spanned (.bind_any (agree_declaration hn hm) fun _ => ?_))
    fun _ => .pure _)
  exact .bind_loose agree_semicolon fun _ => .pure _

/-- What stands behind `else` is read alike with any fuel that is enough. -/
theorem agree_elseClause (h : Agree bound 1 p q) :
    Agree (bound + 1) 1 (elseClause p) (elseClause q) :=
  .reporting (.bind_strict (.token (Lexer.passes_keyword _).consumes) fun _ => .bind_loose .blanks
    fun _ => h.loose)

/-- A branch is read alike with any fuel that is enough. -/
theorem agree_branchRule (h : Agree bound 1 p q) (hn : bound < n) (hm : bound < m) :
    Agree (bound + 1) 1 (branchRule n p) (branchRule m q) := by
  have alternative : Agree bound 0 (optional (elseClause p)) (optional (elseClause q)) :=
    .optional ((agree_elseClause h).weaken (Nat.le_succ _) (Nat.le_refl _))
  refine .reporting (.bind_strict (.spanned (.bind_strict (.token (Lexer.passes_keyword _).consumes)
      fun _ => ?_)) fun _ => .pure _)
  refine .bind_loose (agree_test (by omega) (by omega)) fun _ => .bind_loose h.loose fun _ => ?_
  exact .bind_loose .blanks fun _ => .bind_loose alternative fun _ => .pure _

/-- A loop is read alike with any fuel that is enough. -/
theorem agree_whileRule (h : Agree bound 1 p q) (hn : bound < n) (hm : bound < m) :
    Agree (bound + 1) 1 (whileRule n p) (whileRule m q) := by
  refine .reporting (.bind_strict (.spanned (.bind_strict (.token (Lexer.passes_keyword _).consumes)
      fun _ => ?_)) fun _ => .pure _)
  exact .bind_loose (agree_test (by omega) (by omega)) fun _ => .bind_loose h.loose fun _ => .pure _

/-- The start of a counting loop is read alike with any fuel that is enough. -/
theorem agree_forInit (hn : bound ≤ n) (hm : bound ≤ m) : Agree bound 1 (forInit n) (forInit m) :=
  .reporting (.orElse (.bind_any (agree_declaration hn hm) fun _ => .pure _)
    (.bind_any (agree_expression hn hm) fun _ => .pure _))

/-- A counting loop is read alike with any fuel that is enough. -/
theorem agree_forRule (h : Agree bound 1 p q) (hn : bound < n) (hm : bound < m) :
    Agree (bound + 1) 1 (forRule n p) (forRule m q) := by
  have clause : Agree bound 0 (optional (reporting (expression n)))
      (optional (reporting (expression m))) :=
    .optional (.reporting (agree_expression (by omega) (by omega)))
  refine .reporting (.bind_strict (.spanned (.bind_strict (.token (Lexer.passes_keyword _).consumes)
      fun _ => ?_)) fun _ => .pure _)
  refine .bind_loose .blanks fun _ => .bind_loose (Agree.literal (by decide)).loose fun _ => ?_
  refine .bind_loose .blanks fun _ => .bind_loose (.optional (agree_forInit (by omega) (by omega)))
    fun _ => ?_
  refine .bind_loose .blanks fun _ => .bind_loose (Agree.literal (by decide)).loose fun _ => ?_
  refine .bind_loose .blanks fun _ => .bind_loose clause fun _ => ?_
  refine .bind_loose .blanks fun _ => .bind_loose (Agree.literal (by decide)).loose fun _ => ?_
  refine .bind_loose .blanks fun _ => .bind_loose clause fun _ => ?_
  refine .bind_loose .blanks fun _ => .bind_loose (Agree.literal (by decide)).loose fun _ => ?_
  exact .bind_loose .blanks fun _ => .bind_loose h.loose fun _ => .pure _

/-- A `return` is read alike with any fuel that is enough. -/
theorem agree_returnRule (hn : bound ≤ n) (hm : bound ≤ m) :
    Agree bound 1 (returnRule n) (returnRule m) := by
  refine .reporting (.bind_any
    (.spanned (.bind_any (.token (Lexer.passes_keyword _).consumes) fun _ => ?_)) fun _ => .pure _)
  refine .bind_loose .blanks fun _ => .bind_loose (.optional (agree_expression ?_ ?_)) fun _ => ?_
  · omega
  · omega
  · exact .bind_loose agree_semicolon fun _ => .pure _

/-- A statement of one word is read without fuel. -/
theorem agree_wordRule (word : String) (make : Span → Stmt) :
    Agree bound 1 (wordRule word make) (wordRule word make) :=
  .reporting (.bind_any (.spanned (.bind_any (.token (Lexer.passes_keyword _).consumes) fun _ =>
      agree_semicolon)) fun _ => .pure _)

/-- An expression that stands alone is read alike with any fuel that is enough. -/
theorem agree_exprRule (hn : bound ≤ n) (hm : bound ≤ m) :
    Agree bound 1 (exprRule n) (exprRule m) :=
  .reporting (.bind_any (.spanned (.bind_any (agree_expression hn hm) fun _ =>
    .bind_loose agree_semicolon fun _ => .pure _)) fun _ => .pure _)

/-- The empty statement is read without fuel. -/
theorem agree_emptyRule : Agree bound 1 emptyRule emptyRule :=
  .reporting (.bind_any (.spanned (.literal (by decide))) fun _ => .pure _)

/-- All statements are read alike with any fuel that is enough. -/
theorem agree_statementRule (h : Agree bound 1 p q) (hn : bound < n) (hm : bound < m) :
    Agree (bound + 1) 1 (statementRule n p) (statementRule m q) := by
  refine .reporting
    (.firstOf_cons (agree_functionRule h hn hm) (.firstOf_cons (agree_declareRule hn hm) ?_))
  refine .firstOf_cons (agree_branchRule h hn hm) (.firstOf_cons (agree_whileRule h hn hm) ?_)
  refine .firstOf_cons (agree_forRule h hn hm) (.firstOf_cons (agree_returnRule hn hm) ?_)
  refine .firstOf_cons (agree_wordRule _ _) (.firstOf_cons (agree_wordRule _ _) ?_)
  refine .firstOf_cons (.bind_any (.spanned (agree_braces h (by omega) (by omega)))
    fun _ => .pure _) ?_
  exact .firstOf_cons agree_emptyRule (.firstOf_cons (agree_exprRule hn hm) .firstOf_nil)

/-- With one more unit of fuel statements inside may be read with one less. -/
theorem statement_succ (n : Nat) : statement (n + 1) = statementRule (n + 1) (statement n) := by
  funext s
  simp only [statement]

/-- Fuel above the length of the text is as good as any other, for statements too. -/
theorem agree_statement (hn : bound ≤ n) (hm : bound ≤ m) :
    Agree bound 1 (statement n) (statement m) := by
  induction bound generalizing n m with
  | zero => exact fun s hs => absurd hs (Nat.not_lt_zero _)
  | succ bound ih =>
    obtain ⟨n, rfl⟩ := Nat.exists_eq_add_of_lt hn
    obtain ⟨m, rfl⟩ := Nat.exists_eq_add_of_lt hm
    simp only [statement_succ]
    exact agree_statementRule (ih (Nat.le_add_right bound n) (Nat.le_add_right bound m))
      (by omega) (by omega)

/-- The end of the text is found without fuel. -/
theorem agree_endOfText : Agree bound 0 endOfText endOfText := by
  intro s _
  refine ⟨rfl, fun a t ht => ?_⟩
  rw [endOfText, result_token] at ht
  split at ht
  · cases ht
    exact Nat.le_refl _
  · cases ht

/-- Fuel above the length of the text is as good as any other, for whole programs. -/
theorem agree_program (hn : bound ≤ n) (hm : bound ≤ m) :
    Agree bound 0 (program n) (program m) := by
  refine .reporting (.bind_loose (.spanned (.bind_loose .blanks fun _ => ?_)) fun _ => .pure _)
  refine .bind_loose (.many (agree_statement hn hm) hn hm) fun _ => ?_
  exact .bind_loose .blanks fun _ => .bind_loose agree_endOfText fun _ => .pure _

/-! ## The grammar without fuel -/

/-- An operand of a connective, with fuel for the whole text. -/
def unaryFull : Rule Expr := fun s => unary (s.rest.length + 1) s

/-- An assignment or anything tighter, with fuel for the whole text. -/
def assignmentFull : Rule Expr := fun s => assignment (s.rest.length + 1) s

/-- The inner rules with fuel for the whole text. -/
def fullInner : Inner := ⟨unaryFull, assignmentFull⟩

/-- Operands in full are read by the rule in full. -/
@[simp] theorem fullInner_unary : fullInner.unary = unaryFull := rfl

/-- So are assignments. -/
@[simp] theorem fullInner_assignment : fullInner.assignment = assignmentFull := rfl

/-- A statement, with fuel for the whole text. -/
def statementFull : Rule Stmt := fun s => statement (s.rest.length + 1) s

/-- With enough fuel operands are read as in full. -/
theorem agree_fullInner (hn : bound ≤ n) : Inner.Agree bound ⟨unary n, assignment n⟩ fullInner := by
  refine ⟨fun s hs => ?_, fun s hs => ?_⟩
  · exact (agree_inner (Nat.le_trans hs hn) (Nat.le_refl _)).unary s (Nat.lt_succ_self _)
  · exact (agree_inner (Nat.le_trans hs hn) (Nat.le_refl _)).assignment s (Nat.lt_succ_self _)

/-- So are statements. -/
theorem agree_statementFull (hn : bound ≤ n) : Agree bound 1 (statement n) statementFull :=
  fun s hs => agree_statement (Nat.le_trans hs hn) (Nat.le_refl _) s (Nat.lt_succ_self _)

/-- In full an expression with operators is read as its rule says. -/
theorem unaryFull_eq {s : Cursor} (hn : s.rest.length < n) :
    unaryFull s = unaryRule fullInner (suffixed n fullInner) s := by
  have further : Inner.Agree s.rest.length ⟨unary s.rest.length, assignment s.rest.length⟩
      fullInner :=
    agree_fullInner (Nat.le_refl _)
  rw [unaryFull, unary_succ]
  exact (agree_unaryRule further (agree_suffixed further (Nat.lt_succ_self _) hn) s
    (Nat.lt_succ_self _)).1

/-- The rule agrees with reading in full. -/
theorem agree_unaryRule_full :
    Agree n 1 (unaryRule fullInner (suffixed n fullInner)) unaryFull := by
  intro s hs
  refine ⟨(unaryFull_eq hs).symm, ?_⟩
  rw [← unaryFull_eq hs]
  exact ((agree_inner (Nat.le_refl _) (Nat.le_refl _)).unary s (Nat.lt_succ_self _)).2

/-- The rule of assignments with itself as the inner rule. -/
theorem assignmentFull_eq {s : Cursor} (hn : s.rest.length < n) :
    assignmentFull s =
      reporting (orElse (store fullInner (suffixed n fullInner))
        (conditional n fullInner unaryFull unaryFull)) s := by
  have further : Inner.Agree s.rest.length ⟨unary s.rest.length, assignment s.rest.length⟩
      fullInner :=
    agree_fullInner (Nat.le_refl _)
  have hstep := (agree_assignmentRule further (Nat.lt_succ_self _) hn s (Nat.lt_succ_self _)).1
  rw [assignmentFull, assignment_succ, hstep, assignmentRule_eq]
  obtain ⟨k, rfl⟩ := Nat.exists_eq_add_of_lt hn
  have same : fullInner.Agree s.rest.length fullInner := by
    refine ⟨fun t ht => ⟨rfl, ?_⟩, fun t ht => ⟨rfl, ?_⟩⟩
    · exact (further.unary t ht).1 ▸ (further.unary t ht).2
    · exact (further.assignment t ht).1 ▸ (further.assignment t ht).2
  have hsuffixed := agree_suffixed same hn hn
  have hunary : Agree (s.rest.length + 1) 1
      (unaryRule fullInner (suffixed (s.rest.length + k + 1) fullInner)) unaryFull :=
    agree_unaryRule_full.weaken (by omega) (Nat.le_refl _)
  exact (Agree.reporting (.orElse (agree_store same hsuffixed)
      (agree_conditional same hunary hn hn)) s (Nat.lt_succ_self _)).1

/-- The rule of statements with itself as the inner rule. -/
theorem statementFull_eq {s : Cursor} (hn : s.rest.length < n) :
    statementFull s = statementRule n statementFull s := by
  rw [statementFull, statement_succ]
  exact (agree_statementRule (agree_statementFull (Nat.le_refl _)) (Nat.lt_succ_self _) hn s
    (Nat.lt_succ_self _)).1

end Grammar

end BranchPaint
