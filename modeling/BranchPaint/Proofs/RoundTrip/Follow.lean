import BranchPaint.Proofs.Grammar.Level
import BranchPaint.Proofs.Script.Tree

/-!
# What follows an expression

The canonical text of an expression is followed by a closing mark, a comma, a semicolon, a colon or
an operator. Here these are shown to stop the levels they should stop (`stops_mark`,
`stops_connective`), expressions are shown to start at a token, and lists with commas between their
items are read item by item (`commaList_reads`).
-/

namespace BranchPaint

namespace Grammar

open Rule

/-! ## Where expressions start -/

/-- What starts an expression starts a token. -/
theorem atToken_of_startsExpr {c : Char} (h : startsExpr c) (r : List Char) : AtToken (c :: r) := by
  refine atToken_cons ?_ (ne_of_class h (by decide)) r
  simp only [isBlankChar, Bool.or_eq_false_iff, decide_eq_false_iff_not]
  exact ⟨⟨⟨ne_of_class h (by decide), ne_of_class h (by decide)⟩, ne_of_class h (by decide)⟩,
    ne_of_class h (by decide)⟩

/-- No level reads where no expression can start. -/
theorem levelRule_of_noExpr {s : Cursor} (h : NoExpr s) (n k : Nat) :
    (levelRule n k s).result = none := by
  unfold levelRule
  split
  · exact h.sequence
  · exact h.assignmentFull
  · simp only [conditional, result_reporting, result_bind, result_spanned, h.chain,
      Option.bind_none, Option.map_none]
  · exact h.chain _
  · exact h.chain _
  · exact h.chain _
  · exact h.chain _
  · exact h.chain _
  · exact h.chain _
  · exact h.unaryFull
  · simp only [updateAfter, result_bind, result_spanned, h.suffixed, Option.bind_none,
      Option.map_none]
  · exact h.suffixed

/-- What a level reads starts at a token. -/
theorem Reads.atToken {n k : Nat} {text rest : List Char} {e : Expr}
    (h : Reads (levelRule n k) text rest e) : AtToken (text ++ rest) := by
  obtain ⟨e', c, hread, -, -⟩ := h .start
  cases hpeek : (⟨text ++ rest, .start⟩ : Cursor).peek startsExpr with
  | false =>
    rw [levelRule_of_noExpr (noExpr_of_peek hpeek)] at hread
    cases hread
  | true =>
    generalize text ++ rest = cs at hpeek
    cases cs with
    | nil => simp at hpeek
    | cons d r =>
      rw [Cursor.peek_cons] at hpeek
      exact atToken_of_startsExpr hpeek r

/-! ## Marks -/

/-- The marks that end an expression. -/
def endMarks : List Char := [')', ']', ';', ':', ',']

/-- There are six levels of connectives. -/
theorem mem_connectiveLevels {i : Nat} {level : List (Symbol Connective)}
    (h : connectiveLevels[i]? = some level) : level ∈ connectiveLevels ∧ i < 6 :=
  ⟨List.mem_of_getElem? h, (List.getElem?_eq_some_iff.1 h).1⟩

/-- A mark stops every level, a comma all but sequences. -/
theorem stops_mark {k : Nat} {c : Char} {rest r : List Char} (hnext : nextToken rest = c :: r)
    (hword : EndsWord rest) (hc : c ∈ endMarks) (hk : c = ',' → 1 ≤ k) : Stops k rest := by
  simp only [endMarks, List.mem_cons, List.not_mem_nil, or_false] at hc
  refine ⟨hword, ?_, fun _ p => ?_, fun i level hi _ p => ?_, fun _ => ?_,
    fun _ p => ?_, fun h0 => ?_⟩
  · rw [hnext]
    rintro d ⟨⟩
    rcases hc with rfl | rfl | rfl | rfl | rfl
    all_goals decide
  · rw [hnext]
    rcases hc with rfl | rfl | rfl | rfl | rfl
    all_goals simp [Lexer.symbol, updateSymbols, Cursor.literal?]
  · have hl := (mem_connectiveLevels hi).1
    simp only [connectiveLevels, List.mem_cons, List.not_mem_nil, or_false] at hl
    rw [hnext]
    rcases hl with rfl | rfl | rfl | rfl | rfl | rfl
    all_goals
      rcases hc with rfl | rfl | rfl | rfl | rfl
      all_goals simp [Lexer.symbol, Cursor.literal?]
  · rw [hnext]
    rcases hc with rfl | rfl | rfl | rfl | rfl
    all_goals simp
  · rw [hnext]
    rcases hc with rfl | rfl | rfl | rfl | rfl
    all_goals simp [Lexer.symbol, assignSymbols, Cursor.literal?]
  · rw [hnext]
    rintro ⟨⟩
    exact absurd (hk rfl) (by omega)

/-- A mark that ends an expression is neither blank nor part of a word, and starts no expression. -/
theorem endMarks_class {c : Char} (hc : c ∈ endMarks) :
    isBlankChar c = false ∧ c ≠ '/' ∧ isWordChar c = false ∧ startsExpr c = false := by
  simp only [endMarks, List.mem_cons, List.not_mem_nil, or_false] at hc
  rcases hc with rfl | rfl | rfl | rfl | rfl
  all_goals decide

/-- Such a mark starts a token. -/
theorem atToken_mark {c : Char} (hc : c ∈ endMarks) (r : List Char) : AtToken (c :: r) :=
  atToken_cons (endMarks_class hc).1 (endMarks_class hc).2.1 r

/-- A mark right behind an expression. -/
theorem stops_mark_cons {k : Nat} {c : Char} (r : List Char) (hc : c ∈ endMarks)
    (hk : c = ',' → 1 ≤ k) : Stops k (c :: r) :=
  stops_mark (nextToken_of_atToken (atToken_mark hc r)) (endsWord_cons (endMarks_class hc).2.2.1 r)
    hc hk

/-- No expression is read there. -/
theorem noExpr_mark {c : Char} (hc : c ∈ endMarks) (r : List Char) (p : Position) :
    NoExpr ⟨c :: r, p⟩ :=
  noExpr_of_peek (by simpa using (endMarks_class hc).2.2.2)

/-! ## Operators -/

/-- An expression does not go on where no suffix and no word does. -/
theorem stops_suffixed {rest : List Char} (hword : EndsWord rest)
    (hsuffix : ∀ c ∈ (nextToken rest).head?, c ≠ '.' ∧ c ≠ '[' ∧ c ≠ '(') : Stops 11 rest := by
  refine ⟨hword, hsuffix, fun h => ?_, fun i level hi hk => ?_, fun h => ?_,
    fun h => ?_, fun h => ?_⟩
  · omega
  · have := (mem_connectiveLevels hi).2
    omega
  · omega
  · omega
  · omega

end Grammar

/-- A connective as written. -/
def Connective.text : Connective → String
  | logical op => op.text
  | binary op => op.text

/-- How tightly a connective binds. -/
def Connective.precedence : Connective → Nat
  | logical op => op.precedence
  | binary op => op.precedence

namespace Grammar

variable (c : Connective) (r : List Char) (p : Position)

/-- Connectives bind with levels from three to eight. -/
theorem precedence_connective : 3 ≤ c.precedence ∧ c.precedence ≤ 8 := by
  rcases c with op | op
  all_goals
    cases op
    all_goals decide

/-- A connective is read at its own level. -/
theorem symbol_connective : ∃ level, connectiveLevels[c.precedence - 3]? = some level ∧
    Lexer.symbol level ⟨c.text.toList ++ ' ' :: r, p⟩ =
      some (c, ⟨' ' :: r, p.advance c.text.toList⟩) := by
  rcases c with op | op
  all_goals
    cases op
    all_goals
      refine ⟨_, rfl, ?_⟩
      simp [Lexer.symbol, Connective.text, BinaryOp.text, LogicalOp.text, Cursor.literal?]

/-- A connective is not read at a tighter level. -/
theorem symbol_tighter {i : Nat} {level : List (Symbol Connective)}
    (hi : connectiveLevels[i]? = some level) (hk : c.precedence + 1 ≤ 3 + i) :
    Lexer.symbol level ⟨c.text.toList ++ ' ' :: r, p⟩ = none := by
  have hlt := (mem_connectiveLevels hi).2
  rcases c with op | op
  all_goals
    cases op
    all_goals
      interval_cases i
      all_goals
        first
        | exact absurd hk (by decide)
        | cases hi
          simp [Lexer.symbol, Connective.text, BinaryOp.text, LogicalOp.text, Cursor.literal?]

/-- A connective starts a token. -/
theorem atToken_connective : AtToken (c.text.toList ++ ' ' :: r) := by
  rcases c with op | op
  · cases op
    all_goals exact atToken_cons (by decide) (by decide) _
  · cases op with
    | div => exact atToken_slash (by simp) (by simp)
    | _ => exact atToken_cons (by decide) (by decide) _

/-- Behind a blank the connective is the next token. -/
theorem nextToken_connective :
    nextToken (' ' :: (c.text.toList ++ ' ' :: r)) = c.text.toList ++ ' ' :: r := by
  rw [nextToken_cons_blank (by decide), nextToken_of_atToken (atToken_connective c r)]

/-- An operand that binds more tightly stops in front of the connective. -/
theorem stops_connective : Stops (c.precedence + 1) (' ' :: (c.text.toList ++ ' ' :: r)) := by
  have hprec := precedence_connective c
  have hnext := nextToken_connective c r
  refine ⟨endsWord_cons (by decide) _, ?_, fun _ p => ?_, fun i level hi hk p => ?_, fun h => ?_,
    fun h => ?_, fun h => ?_⟩
  · rw [hnext]
    rcases c with op | op
    all_goals
      cases op
      all_goals simp [Connective.text, BinaryOp.text, LogicalOp.text]
  · rw [hnext]
    rcases c with op | op
    all_goals
      cases op
      all_goals simp [Lexer.symbol, updateSymbols, Connective.text, BinaryOp.text, LogicalOp.text,
        Cursor.literal?]
  · rw [hnext]
    exact symbol_tighter c r p hi hk
  · omega
  · omega
  · omega

/-- A question mark stops a condition. -/
theorem stops_question : Stops 3 (' ' :: '?' :: r) := by
  have hnext : nextToken (' ' :: '?' :: r) = '?' :: r := by
    rw [nextToken_cons_blank (by decide),
      nextToken_of_atToken (atToken_cons (by decide) (by decide) r)]
  refine ⟨endsWord_cons (by decide) _, ?_, fun _ p => ?_, fun i level hi _ p => ?_, fun h => ?_,
    fun h => ?_, fun h => ?_⟩
  · rw [hnext]
    simp
  · rw [hnext]
    simp [Lexer.symbol, updateSymbols, Cursor.literal?]
  · have hl := (mem_connectiveLevels hi).1
    simp only [connectiveLevels, List.mem_cons, List.not_mem_nil, or_false] at hl
    rw [hnext]
    rcases hl with rfl | rfl | rfl | rfl | rfl | rfl
    all_goals simp [Lexer.symbol, Cursor.literal?]
  · omega
  · omega
  · omega

open Rule

/-! ## Lists with commas -/

section lists

variable {α β γ : Type} {rule : Rule α} {text : β → List Char} {f : α → γ} {g : β → γ}
  {ok : List Char → Prop} {n : Nat}

/-- The rule reads the text of an item, in front of any text that is `ok`; `f` and `g` say what is
to agree. -/
def ReadsItem (rule : Rule α) (text : β → List Char) (f : α → γ) (g : β → γ) (ok : List Char → Prop)
    (n : Nat) (x : β) : Prop :=
  ∀ rest, ok rest → (text x ++ rest).length < n → AtToken (text x ++ rest) ∧
    ∀ q, ∃ a c, (rule ⟨text x ++ rest, q⟩).result = some (a, c) ∧ f a = g x ∧
      c.SameToken ⟨rest, q.advance (text x)⟩

/-- The text of the further items of a list. -/
def tailText (text : β → List Char) (xs : List β) : List Char :=
  xs.flatMap fun x => ',' :: ' ' :: text x

/-- Nothing stands behind the last item. -/
@[simp] theorem tailText_nil : tailText text [] = [] := rfl

/-- A comma and a blank stand in front of each further item. -/
@[simp] theorem tailText_cons (x : β) (xs : List β) :
    tailText text (x :: xs) = ',' :: ' ' :: (text x ++ tailText text xs) := by
  simp [tailText]

/-- A further item of a list. -/
def commaItem (rule : Rule α) : Rule α := do
  literal ","
  blanks
  rule

/-- Behind an item stands a comma, or what follows the list. -/
theorem ok_tailText {rest : List Char} (hcomma : ∀ r, ok (',' :: r)) (hrest : ok rest)
    (xs : List β) : ok (tailText text xs ++ rest) := by
  cases xs with
  | nil => exact hrest
  | cons x xs => exact hcomma _

/-- Items behind commas are all read if each of them is. -/
theorem many_reads {rest : List Char} (hcomma : ∀ r, ok (',' :: r)) (hrest : ok rest)
    (hend : (nextToken rest).head? ≠ some ',') {xs : List β}
    (hread : ∀ x ∈ xs, ReadsItem rule text f g ok n x) (hn : (tailText text xs ++ rest).length < n)
    {m : Nat} (hm : (tailText text xs ++ rest).length < m) {s : Cursor} {q : Position}
    (hs : s.SameToken ⟨tailText text xs ++ rest, q⟩) :
    ∃ as c, (many (commaItem rule) m s).result = some (as, c) ∧ as.map f = xs.map g ∧
      c.SameToken ⟨rest, q.advance (tailText text xs)⟩ := by
  induction xs generalizing m s q with
  | nil =>
    obtain ⟨q', hq'⟩ := hs.eq_next
    have hitem : (commaItem rule s.skipBlanks).result = none := by
      rw [hq']
      change (commaItem rule ⟨nextToken rest, q'⟩).result = none
      cases ht : nextToken rest with
      | nil => simp [commaItem]
      | cons d r =>
        have hd : d ≠ ',' := by
          rintro rfl
          rw [ht] at hend
          exact hend rfl
        simp [commaItem, Cursor.literal?_cons_of_ne hd]
    exact ⟨[], s, result_many_of_none m hitem, rfl, hs⟩
  | cons x xs ih =>
    obtain ⟨m, rfl⟩ : ∃ k, m = k + 1 := ⟨m - 1, by omega⟩
    have htext : tailText text (x :: xs) ++ rest =
        ',' :: ' ' :: (text x ++ (tailText text xs ++ rest)) := by simp
    rw [htext] at hn hm hs
    have hlen : (text x ++ (tailText text xs ++ rest)).length < n := by
      simp only [List.length_cons] at hn
      omega
    obtain ⟨htoken, hitem⟩ := hread x List.mem_cons_self _ (ok_tailText hcomma hrest xs) hlen
    obtain ⟨a, c, hresult, ha, hc⟩ := hitem ((q.next ',').next ' ')
    have hs' : s.skipBlanks = ⟨',' :: ' ' :: (text x ++ (tailText text xs ++ rest)), q⟩ := by
      rw [hs]
      exact Cursor.skipBlanks_of_atToken (atToken_cons (by decide) (by decide) _) q
    have hcomma' : (commaItem rule s.skipBlanks).result = some (a, c) := by
      rw [hs']
      simp only [commaItem, result_bind, result_literal, show ",".toList = [','] from rfl,
        Cursor.literal?_cons_self, Cursor.literal?_nil, Option.map_some, Option.bind_some,
        result_blanks, Cursor.skipBlanks_cons_blank (by decide : isBlankChar ' '),
        Cursor.skipBlanks_of_atToken htoken, hresult]
    have hshort : (tailText text xs ++ rest).length < n ∧
        (tailText text xs ++ rest).length < m := by
      simp only [List.length_cons, List.length_append] at hn hm ⊢
      omega
    obtain ⟨as, d, hmany, has, hd⟩ :=
      ih (fun y hy => hread y (List.mem_cons_of_mem _ hy)) hshort.1 hshort.2 hc
    refine ⟨a :: as, d, ?_, ?_, ?_⟩
    · rw [result_many_of_some m hcomma', hmany]
      rfl
    · rw [List.map_cons, List.map_cons, ha, has]
    · rw [tailText_cons, Position.advance_cons, Position.advance_cons, Position.advance_append]
      exact hd

/-- A list is read item by item. -/
theorem commaList_reads {rest : List Char} (hcomma : ∀ r, ok (',' :: r)) (hrest : ok rest)
    (hend : (nextToken rest).head? ≠ some ',') {x : β} {xs : List β}
    (hread : ∀ y ∈ x :: xs, ReadsItem rule text f g ok n y)
    (hn : (text x ++ tailText text xs ++ rest).length < n) (q : Position) :
    ∃ a as c, (commaList n rule ⟨text x ++ tailText text xs ++ rest, q⟩).result =
      some ((a, as), c) ∧ f a = g x ∧
      as.map f = xs.map g ∧ c.SameToken ⟨rest, q.advance (text x ++ tailText text xs)⟩ := by
  rw [List.append_assoc] at hn ⊢
  obtain ⟨-, hitem⟩ := hread x List.mem_cons_self _ (ok_tailText hcomma hrest xs) hn
  obtain ⟨a, c, hresult, ha, hc⟩ := hitem q
  have hlen : (tailText text xs ++ rest).length < n := by
    simp only [List.length_append] at hn ⊢
    omega
  obtain ⟨as, d, hmany, has, hd⟩ := many_reads hcomma hrest hend
    (fun y hy => hread y (List.mem_cons_of_mem _ hy)) hlen hlen hc.skipBlanks_left
  refine ⟨a, as, d, ?_, ha, has, ?_⟩
  · simp only [commaItem] at hmany
    simp only [commaList, result_bind, hresult, Option.bind_some, result_blanks, hmany, result_pure]
  · rw [Position.advance_append]
    exact hd

end lists

end Grammar

end BranchPaint
