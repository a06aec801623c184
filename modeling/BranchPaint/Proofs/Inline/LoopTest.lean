import BranchPaint.Inline.LoopTest
import BranchPaint.Proofs.Grammar.Formed
import BranchPaint.Proofs.RoundTrip.Operand
import BranchPaint.Proofs.Script.Inside
import BranchPaint.Proofs.Script.Names

/-!
# The words in the text of a test

What a loop test watches is found in its text. The scan for words takes the text of an expression
apart as it was put together: it finds the words of the parts, in order (`Scans`). So it finds every
name that the test mentions (`LoopTest.observes_of_mem_mentions`), and nothing but the words of the
expression (`LoopTest.names_ofExpr`). What these words are is told node by node: names, and the few
words that stand for values and for an operator (`Program.watched_names`).
-/

namespace BranchPaint

namespace WordScan

/-- Does the character belong to no word and open no quotes? -/
def isMark (c : Char) : Bool := !isWordChar c && c ≠ '\'' && c ≠ '"'

/-- A mark is no part of a word. -/
theorem isWordChar_of_isMark {c : Char} (hc : isMark c = true) : isWordChar c = false := by
  simp only [isMark, Bool.and_eq_true, Bool.not_eq_true'] at hc
  exact hc.1.1

/-- Between words a letter starts one, a digit a number, and a mark may start quotes. -/
theorem words_between_cons (c : Char) (r : List Char) :
    between.words (c :: r) = (if isWordChar c then (if c.isDigit then number else word [c])
      else afterMark c).words r := rfl

/-- A word goes on up to the first mark. -/
theorem words_word_cons (letters : List Char) (c : Char) (r : List Char) :
    (word letters).words (c :: r) =
      if isWordChar c then (word (c :: letters)).words r
        else String.ofList letters.reverse :: (afterMark c).words r := rfl

/-- A number goes on up to the first mark. -/
theorem words_number_cons (c : Char) (r : List Char) :
    number.words (c :: r) = (if isWordChar c then number else afterMark c).words r := rfl

/-- Quotes go on up to their mark, unless a backslash stands in front of it. -/
theorem words_quoted_cons (q c : Char) (r : List Char) :
    (quoted q).words (c :: r) = (if c = '\\' then escaped q else if c = q then between
      else quoted q).words r := rfl

/-- Between words a plain mark says nothing. -/
theorem words_between_mark {c : Char} (hc : isMark c = true) (r : List Char) :
    between.words (c :: r) = between.words r := by
  simp only [isMark, Bool.and_eq_true, Bool.not_eq_true', decide_eq_true_eq] at hc
  simp [words_between_cons, afterMark, hc]

/-- A word or a number ends in front of a character that belongs to none; from there on, the scan is
between words. -/
theorem words_word_of_endsWord {r : List Char} (hr : EndsWord r) (letters : List Char) :
    (word letters).words r = String.ofList letters.reverse :: between.words r := by
  cases r with
  | nil => rfl
  | cons c r => simp [words_word_cons, words_between_cons, hr c rfl]

/-- A number that ends is left. -/
theorem words_number_of_endsWord {r : List Char} (hr : EndsWord r) :
    number.words r = between.words r := by
  cases r with
  | nil => rfl
  | cons c r => simp [words_number_cons, words_between_cons, hr c rfl]

end WordScan

open WordScan

/-! ## Texts and their words -/

/-- The scan finds these words in the text, whatever follows that no word goes on with. -/
def Scans (text : List Char) (ws : List String) : Prop :=
  ∀ rest, EndsWord rest → between.words (text ++ rest) = ws ++ between.words rest

namespace Scans

variable {text text' : List Char} {ws ws' : List String}

/-- The empty text has no words. -/
theorem nil : Scans [] [] := fun _ _ => rfl

/-- A mark in front adds no word. -/
theorem mark {c : Char} (hc : isMark c = true) (h : Scans text ws) : Scans (c :: text) ws := by
  intro rest hrest
  rw [List.cons_append, words_between_mark hc]
  exact h rest hrest

/-- Marks in front add no words. -/
theorem marks {cs : List Char} (hcs : cs.all isMark = true) (h : Scans text ws) :
    Scans (cs ++ text) ws := by
  induction cs with
  | nil => exact h
  | cons c cs ih =>
    obtain ⟨hc, hcs⟩ := Bool.and_eq_true_iff.1 hcs
    exact (ih hcs).mark hc

/-- Two texts with a mark between them. -/
theorem append (h : Scans text ws) {c : Char} (hc : isMark c = true) (h' : Scans text' ws') :
    Scans (text ++ c :: text') (ws ++ ws') := by
  intro rest hrest
  rw [List.append_assoc, List.cons_append, h _ (endsWord_cons (isWordChar_of_isMark hc) _),
    words_between_mark hc, h' rest hrest, List.append_assoc]

/-- Marks behind add no words. -/
theorem append_marks (h : Scans text ws) {cs : List Char} (hcs : cs.all isMark = true) :
    Scans (text ++ cs) ws := by
  cases cs with
  | nil =>
    rw [List.append_nil]
    exact h
  | cons c cs =>
    obtain ⟨hc, hcs⟩ := Bool.and_eq_true_iff.1 hcs
    have happend := h.append hc (nil.marks hcs)
    rw [List.append_nil, List.append_nil] at happend
    exact happend

/-- A word is found. -/
theorem word {w : String} (hw : IsWord w) : Scans w.toList [w] := by
  intro rest hrest
  obtain ⟨c, cs, htext, hc, hcs⟩ := hw
  have hscan : ∀ cs letters, (∀ d ∈ cs, isWordChar d) →
      (WordScan.word letters).words (cs ++ rest) = String.ofList (letters.reverse ++ cs) ::
        between.words rest := by
    intro cs
    induction cs with
    | nil =>
      intro letters _
      rw [List.append_nil]
      exact words_word_of_endsWord hrest letters
    | cons d cs ih =>
      intro letters h
      obtain ⟨hd, hcs⟩ := List.forall_mem_cons.1 h
      simp only [List.cons_append, words_word_cons, hd, if_true, ih (d :: letters) hcs,
        List.reverse_cons, List.append_assoc, List.nil_append]
  have hdigit : c.isDigit = false := by
    cases hd : c.isDigit with
    | false => rfl
    | true => exact absurd (isWordStart_of_isDigit hd) (by simp [hc])
  have hname : String.ofList (c :: cs) = w := by rw [← htext, String.ofList_toList]
  rw [htext, List.cons_append]
  simp only [words_between_cons, isWordChar_of_isWordStart hc, hdigit, if_true, Bool.false_eq_true,
    if_false, hscan cs [c] hcs]
  simp [hname]

/-- Digits are no word. -/
theorem digits {ds : List Char} (hds : ∀ c ∈ ds, c.isDigit) : Scans ds [] := by
  intro rest hrest
  have hscan : ∀ ds : List Char, (∀ c ∈ ds, c.isDigit) →
      number.words (ds ++ rest) = between.words rest := by
    intro ds
    induction ds with
    | nil => exact fun _ => words_number_of_endsWord hrest
    | cons d ds ih =>
      intro h
      obtain ⟨hd, hds⟩ := List.forall_mem_cons.1 h
      simp only [List.cons_append, words_number_cons, isWordChar_of_isDigit hd, if_true, ih hds]
  cases ds with
  | nil => rfl
  | cons d ds =>
    obtain ⟨hd, hds⟩ := List.forall_mem_cons.1 hds
    simp only [List.cons_append, words_between_cons, isWordChar_of_isDigit hd, hd, if_true,
      hscan ds hds, List.nil_append]

/-- A number is no word. -/
theorem number {x : Float} (hx : IsLiteral x) : Scans (numberText x).toList [] := by
  obtain ⟨bits, hbits, rfl⟩ := hx
  rw [numberText_ofMagnitudeBits hbits]
  split
  · exact digits (Decimal.isDigit_zeros 1)
  · obtain ⟨ds, fs, -, hds, hfs, ⟨htext, -⟩ | ⟨htext, -⟩⟩ :=
      Decimal.positional_form (Decimal.trimZeros
          (Decimal.digitCount (Decimal.shortest bits).digits) (Decimal.shortest bits))
    · exact htext ▸ digits hds
    · exact htext ▸ (digits hds).append (by decide) (digits hfs)

/-- Nothing in quotes is a word. -/
theorem quote (v : String) : Scans (Quoted.quote v).toList [] := by
  intro rest _
  have hescape (c : Char) (r : List Char) : (quoted '\'').words (Quoted.escape c ++ r) =
      (quoted '\'').words r := by
    rcases Quoted.escape_cases c with ⟨d, hc, -, -⟩ | ⟨hc, hslash, hquote, -⟩
    · rw [hc]
      rfl
    · rw [hc, List.singleton_append, words_quoted_cons, if_neg hslash, if_neg hquote]
  have hbody : ∀ cs : List Char, (quoted '\'').words (cs.flatMap Quoted.escape ++ '\'' :: rest) =
      between.words rest := by
    intro cs
    induction cs with
    | nil => rfl
    | cons c cs ih => rw [List.flatMap_cons, List.append_assoc, hescape, ih]
  rw [Quoted.toList_quote_append, List.nil_append, ← hbody v.toList]
  rfl

/-- Parentheses add no words. -/
theorem parens (h : Scans text ws) : Scans ('(' :: (text ++ [')'])) ws :=
  (h.append_marks (by decide)).mark (by decide)

end Scans

/-! ## The words of an expression -/

/-- The words that an operator is written with. -/
def UnaryOp.words : UnaryOp → List String
  | typeOf => ["typeof"]
  | not | neg | plus | bitNot => []

mutual

/-- The words that an expression is written with, in order: its names, with those behind a point,
and the words that stand for values and operators. A number that is too large is written as a word
too. -/
def Expr.words : Expr → List String
  | .bool v _ => [if v then "true" else "false"]
  | .null _ => ["null"]
  | .ident n _ => [n]
  | .num v _ => if v.isFinite then [] else ["Infinity"]
  | .str _ _ => []
  | .list es _ | .sequence es _ => wordsAll es
  | .member o p _ _ => o.words ++ p.words
  | .call f args _ => f.words ++ wordsAll args
  | .binary _ l r _ | .logical _ l r _ | .assign _ l r _ => l.words ++ r.words
  | .unary op a _ => op.words ++ a.words
  | .update _ _ a _ => a.words
  | .ternary c t e _ => c.words ++ (t.words ++ e.words)

/-- The words that expressions are written with. -/
def Expr.wordsAll : List Expr → List String
  | [] => []
  | e :: es => e.words ++ wordsAll es

end

namespace Expr

/-- An operand has its words, with or without parentheses. -/
theorem scans_charsAt {e : Expr} (h : Scans e.chars e.words) (k : Nat) :
    Scans (e.charsAt k) e.words := by
  rcases Nat.lt_or_ge e.precedence k with hlt | hge
  · rw [charsAt_of_lt hlt]
    exact h.parens
  · rw [charsAt_of_le hge]
    exact h

/-- So has an object in front of a member. -/
theorem scans_object {o : Expr} (h : Scans o.chars o.words) (computed : Bool) :
    Scans (parens (o.needsParensAsObject computed) o.text).toList o.words := by
  cases hparens : o.needsParensAsObject computed with
  | false => simpa [parens, chars] using h
  | true => simpa [parens, chars] using h.parens

/-- Items have their words in order. -/
theorem scans_items {es : List Expr} (h : ∀ e ∈ es, Scans e.chars e.words) :
    Scans (Grammar.itemsChars es) (wordsAll es) := by
  have hcons : ∀ (e : Expr) (es : List Expr), (∀ f ∈ e :: es, Scans f.chars f.words) →
      Scans (e.charsAt 1 ++ Grammar.tailText (charsAt · 1) es) (e.words ++ wordsAll es) := by
    intro e es
    induction es generalizing e with
    | nil =>
      intro h
      rw [Grammar.tailText_nil, List.append_nil, wordsAll, List.append_nil]
      exact scans_charsAt (h e List.mem_cons_self) 1
    | cons f es ih =>
      intro h
      obtain ⟨he, hes⟩ := List.forall_mem_cons.1 h
      rw [Grammar.tailText_cons]
      exact (scans_charsAt he 1).append (by decide) ((ih f hes).mark (by decide))
  cases es with
  | nil => exact .nil
  | cons e es =>
    rw [Grammar.itemsChars_cons]
    exact hcons e es h

/-- The sign of an assignment is made of marks. -/
theorem isMark_of_assignOp (op : AssignOp) : op.text.toList.all isMark = true := by
  cases op with
  | assign => decide
  | compound op =>
    cases op
    all_goals decide

/-- Two operands with an operator between them have the words of both. -/
theorem scans_operands {l r : List Char} {ws ws' : List String} (hl : Scans l ws) {op : List Char}
    (hop : op.all isMark = true) (hr : Scans r ws') :
    Scans (l ++ ' ' :: (op ++ ' ' :: r)) (ws ++ ws') :=
  hl.append (by decide) ((hr.mark (by decide)).marks hop)

/-- An operator in front has its own words, and then those of its operand. -/
theorem scans_unary (op : UnaryOp) (operand : String) {ws : List String}
    (h : Scans operand.toList ws) :
    Scans (op.text.toList ++ ((op.gap operand).toList ++ operand.toList)) (op.words ++ ws) := by
  have hgap : (op.gap operand).toList.all isMark = true := by
    rcases op.gap_cases operand with hgap | hgap
    all_goals
      rw [hgap]
      decide
  cases op with
  | typeOf =>
    have hword := (Scans.word (by decide : IsWord "typeof")).append
      (by decide : isMark ' ' = true) h
    simpa [UnaryOp.text, UnaryOp.gap, UnaryOp.words] using hword
  | not | neg | plus | bitNot => exact (h.marks hgap).mark (by decide)

/-- The scan finds the words of an expression in its text. -/
theorem scans_chars (e : Expr) (he : e.Forall Formed) : Scans e.chars e.words := by
  induction e using Expr.induction with
  | step e ih =>
  have hin : ∀ c ∈ e.children, Scans c.chars c.words := fun c hc => ih c hc (he.inside c hc)
  have hhere := he.here
  clear ih he
  cases e with
  | bool v s =>
    cases v
    · exact Scans.word (by decide : IsWord "false")
    · exact Scans.word (by decide : IsWord "true")
  | num v s =>
    rw [words]
    cases hv : v.isFinite with
    | true => exact .number (isLiteral_of_isUnsigned hhere hv)
    | false =>
      have hchars : (num v s).chars = "Infinity".toList :=
        congrArg String.toList (numberText_of_isUnsigned hhere hv)
      rw [hchars]
      exact Scans.word (by decide)
  | str v s => exact .quote v
  | null s => exact Scans.word (by decide : IsWord "null")
  | ident n s => exact .word hhere.1
  | list es s =>
    have hchars : (list es s).chars = '[' :: (Grammar.itemsChars es ++ [']']) := by
      simp [chars, text, Grammar.itemsChars]
    rw [hchars]
    exact ((scans_items hin).append_marks (by decide)).mark (by decide)
  | sequence es s => exact scans_items hin
  | member o p computed s =>
    have ho := scans_object (hin o (by cases computed <;> simp [children])) computed
    cases computed with
    | false =>
      obtain ⟨name, t, rfl, hname⟩ := hhere rfl
      have hchars : (member o (.ident name t) false s).chars =
          (parens (o.needsParensAsObject false) o.text).toList ++ '.' :: name.toList := by
        simp [chars, text, precedence, Precedence.primary, parens]
      rw [hchars]
      exact ho.append (by decide) (.word hname)
    | true =>
      have hchars : (member o p true s).chars =
          (parens (o.needsParensAsObject true) o.text).toList ++ '[' :: (p.chars ++ [']']) := by
        simp [chars, text]
      rw [hchars]
      exact ho.append (by decide) ((hin p (by simp [children])).append_marks (by decide))
  | call f args s =>
    have hargs : Scans (Grammar.itemsChars args) (wordsAll args) :=
      scans_items fun a ha => hin a (by simp [children, ha])
    have hchars : (call f args s).chars = f.charsAt Precedence.call ++ '(' ::
        (Grammar.itemsChars args ++ [')']) := by
      simp [chars, text, charsAt, textAt, Grammar.itemsChars]
    rw [hchars]
    exact (scans_charsAt (hin f (by simp [children])) _).append (by decide)
      (hargs.append_marks (by decide))
  | binary op l r s =>
    have hchars : (binary op l r s).chars =
        l.charsAt op.precedence ++ ' ' ::
          (op.text.toList ++ ' ' :: r.charsAt (op.precedence + 1)) := by
      simp [chars, text, charsAt, textAt]
    rw [hchars]
    exact scans_operands (scans_charsAt (hin l (by simp [children])) _) (by cases op <;> decide)
      (scans_charsAt (hin r (by simp [children])) _)
  | logical op l r s =>
    have hchars : (logical op l r s).chars =
        l.charsAt op.precedence ++ ' ' ::
          (op.text.toList ++ ' ' :: r.charsAt (op.precedence + 1)) := by
      simp [chars, text, charsAt, textAt]
    rw [hchars]
    exact scans_operands (scans_charsAt (hin l (by simp [children])) _) (by cases op <;> decide)
      (scans_charsAt (hin r (by simp [children])) _)
  | assign op t v s =>
    have hchars : (assign op t v s).chars =
        t.charsAt Precedence.call ++ ' ' ::
          (op.text.toList ++ ' ' :: v.charsAt Precedence.assignment) := by
      simp [chars, text, charsAt, textAt]
    rw [hchars]
    exact scans_operands (scans_charsAt (hin t (by simp [children])) _) (isMark_of_assignOp op)
      (scans_charsAt (hin v (by simp [children])) _)
  | unary op a s =>
    have hchars : (unary op a s).chars =
        op.text.toList ++
          ((op.gap (a.textAt Precedence.unary)).toList ++ (a.textAt Precedence.unary).toList) := by
      simp [chars, text, textAt]
    rw [hchars]
    exact scans_unary op _ (scans_charsAt (hin a (by simp [children])) _)
  | update op before a s =>
    have ha := scans_charsAt (hin a (by simp [children]))
    cases before with
    | true =>
      have hchars : (update op true a s).chars = op.text.toList ++ a.charsAt Precedence.unary := by
        simp [chars, text, charsAt, textAt]
      rw [hchars]
      exact (ha _).marks (by cases op <;> decide)
    | false =>
      have hchars : (update op false a s).chars = a.charsAt Precedence.call ++ op.text.toList := by
        simp [chars, text, charsAt, textAt]
      rw [hchars]
      exact (ha _).append_marks (by cases op <;> decide)
  | ternary c t e s =>
    have hchars : (ternary c t e s).chars =
        c.charsAt Precedence.logicalOr ++ ' ' ::
          (['?'] ++ ' ' :: (t.charsAt Precedence.assignment ++
          ' ' :: ([':'] ++ ' ' :: e.charsAt Precedence.assignment))) := by
      simp [chars, text, charsAt, textAt]
    rw [hchars]
    exact scans_operands (scans_charsAt (hin c (by simp [children])) _) (by decide)
      (scans_operands (scans_charsAt (hin t (by simp [children])) _) (by decide)
      (scans_charsAt (hin e (by simp [children])) _))

/-- The words of expressions in a row are those of each. -/
theorem mem_wordsAll {es : List Expr} {w : String} : w ∈ wordsAll es ↔ ∃ e ∈ es, w ∈ e.words := by
  induction es with
  | nil => simp [wordsAll]
  | cons e es ih => simp [wordsAll, ih]

/-- A name that is mentioned is among the words. -/
theorem mem_words_of_mem_mentions {e : Expr} {n : String} (h : n ∈ e.mentions) : n ∈ e.words := by
  induction e using Expr.induction with
  | step e ih =>
  rcases mem_collect.1 h with hown | ⟨c, hc, hmem⟩
  · unfold ownName at hown
    split at hown
    · exact hown
    · cases hown
  · have hwords := ih c hc hmem
    cases e with
    | list es s | sequence es s => exact mem_wordsAll.2 ⟨c, hc, hwords⟩
    | call f args s =>
      rcases List.mem_cons.1 hc with rfl | hc
      · exact List.mem_append_left _ hwords
      · exact List.mem_append_right _ (mem_wordsAll.2 ⟨c, hc, hwords⟩)
    | member o p computed s =>
      cases computed
      all_goals
        simp only [children] at hc
        grind [words]
    | _ =>
      simp only [children] at hc
      grind [words]

end Expr

namespace LoopTest

/-- A test watches the words that it is written with. -/
theorem names_ofExpr {e : Expr} (he : e.Forall Expr.Formed) : (ofExpr e).names = e.words := by
  have hscan := e.scans_chars he [] endsWord_nil
  rw [List.append_nil] at hscan
  exact hscan.trans (List.append_nil _)

/-- A test watches every name that it mentions. -/
theorem observes_of_mem_mentions {e : Expr} (he : e.Forall Expr.Formed) {n : String}
    (h : n ∈ e.mentions) : (ofExpr e).observes n = true := by
  unfold observes
  rw [names_ofExpr he]
  exact List.contains_iff_mem.2 (Expr.mem_words_of_mem_mentions h)

end LoopTest

/-! ## The words of the nodes -/

namespace Expr

/-- An identifier of this name stands in the expression: a name that is read or stored, or a name
behind a point. -/
def HasName (e : Expr) (n : String) : Prop :=
  (∃ s, Inside (.ident n s) e) ∨ ∃ o s t, Inside (.member o (.ident n s) false t) e

/-- The word that a node is written with, if it is a value with a word of its own, or applies an
operator that is a word. -/
inductive Spells : Expr → String → Prop
  | yes {s : Span} : Spells (.bool true s) "true"
  | no {s : Span} : Spells (.bool false s) "false"
  | null {s : Span} : Spells (.null s) "null"
  | typeOf {a : Expr} {s : Span} : Spells (.unary .typeOf a s) "typeof"

/-- The words that a node is written with apart from those of the nodes inside. -/
def ownWords : Expr → List String
  | .bool v _ => [if v then "true" else "false"]
  | .null _ => ["null"]
  | .ident n _ => [n]
  | .member _ (.ident n _) false _ => [n]
  | .unary op _ _ => op.words
  | _ => []

/-- The words of an expression are its own and those of the nodes right inside. -/
theorem mem_words_iff_children {e : Expr} (hformed : e.Formed) (hfinite : e.FiniteNumber)
    {n : String} : n ∈ e.words ↔ n ∈ e.ownWords ∨ ∃ c ∈ e.children, n ∈ c.words := by
  cases e with
  | num v s =>
    have hv : v.isFinite = true := hfinite
    simp [words, ownWords, children, hv]
  | member o p computed s =>
    cases computed with
    | false =>
      obtain ⟨name, t, rfl, -⟩ := hformed rfl
      simp [words, ownWords, children, or_comm]
    | true => simp [words, ownWords, children]
  | _ => simp [words, ownWords, children, mem_wordsAll]

/-- The words of an expression are those of the nodes that stand inside it. -/
theorem mem_words_iff {e : Expr} (hformed : e.Forall Formed) (hfinite : e.Forall FiniteNumber)
    {n : String} : n ∈ e.words ↔ ∃ d : Expr, d.Inside e ∧ n ∈ d.ownWords := by
  induction e using Expr.induction with
  | step e ih =>
  have hchild (c : Expr) (hc : c ∈ e.children) :=
    ih c hc (hformed.inside c hc) (hfinite.inside c hc)
  rw [mem_words_iff_children hformed.here hfinite.here]
  constructor
  · rintro (hown | ⟨c, hc, hmem⟩)
    · exact ⟨e, .self, hown⟩
    · obtain ⟨d, hd, hown⟩ := (hchild c hc).1 hmem
      exact ⟨d, .child hc hd, hown⟩
  · rintro ⟨d, hd, hown⟩
    cases hd with
    | self => exact .inl hown
    | child hc hd => exact .inr ⟨_, hc, (hchild _ hc).2 ⟨d, hd, hown⟩⟩

/-- A word of an expression is a name in it, or is spelled otherwise by a part of it. -/
theorem exists_ownWords_iff {e : Expr} {n : String} :
    (∃ d : Expr, d.Inside e ∧ n ∈ d.ownWords) ↔ e.HasName n ∨ ∃ d : Expr, d.Inside e ∧
      d.Spells n := by
  constructor
  · rintro ⟨d, hd, hown⟩
    unfold ownWords at hown
    split at hown
    · rename_i v s
      cases v
      all_goals obtain rfl := List.mem_singleton.1 hown
      · exact .inr ⟨_, hd, .no⟩
      · exact .inr ⟨_, hd, .yes⟩
    · obtain rfl := List.mem_singleton.1 hown
      exact .inr ⟨_, hd, .null⟩
    · obtain rfl := List.mem_singleton.1 hown
      exact .inl (.inl ⟨_, hd⟩)
    · obtain rfl := List.mem_singleton.1 hown
      exact .inl (.inr ⟨_, _, _, hd⟩)
    · rename_i op a s
      cases op with
      | typeOf =>
        obtain rfl := List.mem_singleton.1 hown
        exact .inr ⟨_, hd, .typeOf⟩
      | not | neg | plus | bitNot => cases hown
    · cases hown
  · rintro ((⟨s, h⟩ | ⟨o, s, t, h⟩) | ⟨d, hd, hspells⟩)
    · exact ⟨_, h, List.mem_singleton_self n⟩
    · exact ⟨_, h, List.mem_singleton_self n⟩
    · refine ⟨d, hd, ?_⟩
      cases hspells
      all_goals exact List.mem_singleton_self _

end Expr

/-- What a test watches are the names of its identifiers, and the words that it is written with. -/
theorem Program.watched_names {source : String} {p : Program} (h : Program.parse source = .ok p)
    {e : Expr} (he : p.HasExpr e) (hfinite : e.Forall Expr.FiniteNumber) (n : String) :
    n ∈ (LoopTest.ofExpr e).names ↔ e.HasName n ∨ ∃ d : Expr, d.Inside e ∧ d.Spells n := by
  have hformed : e.Forall Expr.Formed := (Program.formed_of_parse h).2.of_hasExpr he
  rw [LoopTest.names_ofExpr hformed, Expr.mem_words_iff hformed hfinite, Expr.exists_ownWords_iff]

/-- A test with quotes in quotes, digits in names, and names behind points. -/
theorem Program.watched_names_sample : ∃ p e, Program.parse
      "while (a.b2.typeof < 10.5 && typeof x1 !== 'it\\'s \"y9\"' || !true) x1 = null;" =
        .ok p ∧ p.HasExpr e ∧
    e.Forall Expr.FiniteNumber ∧ (LoopTest.ofExpr e).names =
      ["a", "b2", "typeof", "typeof", "x1", "true"] ∧
    ∀ n, n ∈ (LoopTest.ofExpr e).names ↔ e.HasName n ∨ ∃ d : Expr, d.Inside e ∧ d.Spells n := by
  obtain ⟨p, hp, s, hs, e, he, hfinite, hnames⟩ := Program.exists_parse
      "while (a.b2.typeof < 10.5 && typeof x1 !== 'it\\'s \"y9\"' || !true) x1 = null;"
    (fun p => ∃ s ∈ p.body, ∃ e ∈ s.exprs, e.Forall Expr.FiniteNumber ∧
      (LoopTest.ofExpr e).names = ["a", "b2", "typeof", "typeof", "x1", "true"]) (by decide +kernel)
  have hexpr : p.HasExpr e := ⟨s, ⟨s, hs, .self⟩, e, he, .self⟩
  exact ⟨p, e, hp, hexpr, hfinite, hnames, Program.watched_names hp hexpr hfinite⟩

end BranchPaint
