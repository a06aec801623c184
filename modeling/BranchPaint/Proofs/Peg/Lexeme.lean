import BranchPaint.Proofs.Peg.Build
import BranchPaint.Proofs.Peg.Decimal

/-!
# Tokens as patterns

The atomic rules of the table, compared with the lexers that read the same. `Lexes` relates a rule
to a lexer: both stop at the same place on every text, and the text in between says what the lexer
read, in the sense in which the second stage takes it from there. Quoted text is the one token that
is no atomic rule, as its node has the text between the quotes in it.
-/

namespace BranchPaint.Peg

/-- The rule and the lexer read the same text, and the text says what the lexer gives. -/
structure Lexes {α : Type} (x : Name) (lex : Lexer α) (means : α → String → Prop) : Prop where
  scans (s : Cursor) : Scans script x.pattern s ((lex s).map Prod.snd)
  means {s t : Cursor} {a : α} : lex s = some (a, t) → means a (s.upTo t)

/-! ## Words -/

/-- The text of a word is the word. -/
theorem upTo_of_word {s t : Cursor} {w : String} (h : Lexer.word s = some (w, t)) :
    s.upTo t = w := by
  rw [Cursor.upTo_eq (Lexer.word_inv h).2, String.ofList_toList]

/-- The name of a member is any word. -/
theorem lexes_propertyName : Lexes .propertyName Lexer.word fun w text => text = w :=
  ⟨scans_word, upTo_of_word⟩

/-- A rule for one fixed word lexes it. -/
theorem lexes_keyword {x : Name} {k : String} (hx : x.pattern = .words [k]) (hk : IsWord k) :
    Lexes x (Lexer.keyword k) fun _ _ => True := by
  refine ⟨fun s => ?_, fun _ => trivial⟩
  have hscan := scans_words (g := script) [k] (by simpa using hk) (by simp [Apart]) s
  rw [hx]
  suffices h : (Lexer.keyword k s).map Prod.snd = afterWord? [k] s by rwa [h]
  unfold Lexer.keyword afterWord?
  cases Lexer.word s with
  | none => rfl
  | some y =>
    simp only [List.mem_singleton]
    split
    · rfl
    · rfl

/-- A word of declarations is found again from its text. -/
theorem lexes_declareWord :
    Lexes .declareWord Lexer.declareWord fun d text => DeclareWord.ofText? text = some d := by
  refine ⟨fun s => ?_, fun {s t d} h => ?_⟩
  · have hscan := scans_words (g := script) ["let", "const", "var"] (by decide) (by decide) s
    suffices h : (Lexer.declareWord s).map Prod.snd = afterWord? ["let", "const", "var"] s by
      rw [h]
      exact hscan
    unfold Lexer.declareWord afterWord?
    cases Lexer.word s with
    | none => rfl
    | some y =>
      obtain ⟨w, t⟩ := y
      have hmem : (DeclareWord.ofText? w).isSome ↔ w ∈ ["let", "const", "var"] := by
        unfold DeclareWord.ofText?
        split
        all_goals simp_all
      dsimp only
      cases hd : DeclareWord.ofText? w with
      | none =>
        rw [if_neg (mt hmem.2 (by simp [hd]))]
        simp
      | some d =>
        rw [if_pos (hmem.1 (by simp [hd]))]
        simp
  · unfold Lexer.declareWord at h
    split at h
    · rename_i w u hword
      obtain ⟨d', hd, heq⟩ := Option.map_eq_some_iff.1 h
      cases heq
      rw [upTo_of_word hword, hd]
    · cases h

/-- So is a truth value. -/
theorem lexes_boolean : Lexes .boolean Lexer.boolean fun b text => decide (text = "true") = b := by
  refine ⟨fun s => ?_, fun {s t b} h => ?_⟩
  · have hscan := scans_words (g := script) ["true", "false"] (by decide) (by decide) s
    suffices h : (Lexer.boolean s).map Prod.snd = afterWord? ["true", "false"] s by
      rw [h]
      exact hscan
    unfold Lexer.boolean afterWord?
    cases Lexer.word s with
    | none => rfl
    | some y =>
      obtain ⟨w, t⟩ := y
      by_cases htrue : w = "true"
      · simp [htrue]
      · by_cases hfalse : w = "false"
        · simp [hfalse]
        · simp [htrue, hfalse]
  · unfold Lexer.boolean at h
    split at h
    · rename_i w u hword
      split at h
      · rename_i htrue
        cases h
        rw [upTo_of_word hword, htrue]
        rfl
      · split at h
        · rename_i hfalse
          cases h
          rw [upTo_of_word hword, hfalse]
          rfl
        · cases h
    · cases h

/-- An identifier is its text. -/
theorem lexes_identifier : Lexes .identifier Lexer.identifier fun w text => text = w := by
  refine ⟨fun s => ?_, fun h => upTo_of_word (Lexer.word_of_identifier h)⟩
  have hkeyword : Scans script (.call .keyword) s (afterWord? reservedWords s) :=
    .call (scans_words reservedWords (by decide) (by decide) s)
  have hscan := hkeyword.not.seq fun t _ => scans_word (g := script) t
  suffices h : (Lexer.identifier s).map Prod.snd =
      (if (afterWord? reservedWords s).isSome then none else some s).bind fun t =>
        (Lexer.word t).map Prod.snd by
    rw [h]
    exact hscan
  unfold Lexer.identifier afterWord?
  cases hword : Lexer.word s with
  | none => simp [hword]
  | some y =>
    obtain ⟨w, t⟩ := y
    by_cases hw : w ∈ reservedWords
    · simp [hw]
    · simp [hw, hword]

/-- A number is read from its text again. -/
theorem lexes_number :
    Lexes .number Lexer.number fun v text => Decimal.readFloat? text = some v := by
  refine ⟨fun s => ?_, fun {s t v} h => ?_⟩
  · have hscan := scans_decimal (g := script) s
    rw [Lexer.number, Option.map_map]
    exact hscan
  · obtain ⟨⟨d, u⟩, hd, heq⟩ := Option.map_eq_some_iff.1 h
    cases heq
    exact Decimal.readFloat?_upTo hd

/-! ## Symbols -/

section symbols

variable {α : Type}

/-- Fixed text, in front of none of the characters that may not follow. -/
def symbolPattern (y : Symbol α) : Pattern Name :=
  match y.notBefore with
  | [] => .text y.text
  | c :: cs =>
    .inOrder [.text y.text, .not (.oneOf ((c :: cs).map fun c => .text (String.ofList [c])))]

/-- A choice of characters scans one of them. -/
theorem scans_oneOf_letter (cs : List Char) (s : Cursor) :
    Scans script (.oneOf (cs.map fun c => .text (String.ofList [c]))) s (s.char? cs.contains) := by
  induction cs with
  | nil =>
    have hnone : s.char? (List.contains []) = none := by
      obtain ⟨_ | ⟨c, r⟩, p⟩ := s
      · rfl
      · rfl
    rw [hnone]
    exact .oneOf_nil
  | cons c cs ih =>
    have hclass : (fun d => decide (d = c) || cs.contains d) = List.contains (c :: cs) := by
      funext d
      simp
    have hscan : Scans script (.oneOf _) s _ :=
      (Scans.letter (w := String.ofList [c]) (c := c) (by simp)).oneOf_cons ih
    rw [Cursor.char?_or, hclass] at hscan
    exact hscan

/-- A symbol is scanned unless it goes on to a longer one. -/
theorem scans_symbolPattern (y : Symbol α) (s : Cursor) :
    Scans script (symbolPattern y) s ((s.literal? y.text.toList).bind fun t =>
      if t.peek y.notBefore.contains then none else some t) := by
  obtain ⟨text, a, _ | ⟨c, cs⟩⟩ := y
  · have hscan := Scans.text (g := script) (s := s) text
    suffices h : ((s.literal? text.toList).bind fun t =>
        if t.peek (List.contains []) then none else some t) = s.literal? text.toList by
      rw [h]
      exact hscan
    cases s.literal? text.toList with
    | none => rfl
    | some t =>
      obtain ⟨_ | ⟨d, r⟩, p⟩ := t
      · rfl
      · rfl
  · have hscan := (Scans.text (g := script) (s := s) text).seq fun t _ =>
      (scans_oneOf_letter (c :: cs) t).not
    simp only [Cursor.isSome_char?] at hscan
    exact hscan

/-- Of several symbols the first that stands there is scanned. -/
theorem scans_symbol (ys : List (Symbol α)) (s : Cursor) :
    Scans script (.oneOf (ys.map symbolPattern)) s ((Lexer.symbol ys s).map Prod.snd) := by
  induction ys with
  | nil => exact .oneOf_nil
  | cons y ys ih =>
    have hscan := (scans_symbolPattern y s).oneOf_cons ih
    suffices h : (Lexer.symbol (y :: ys) s).map Prod.snd =
        ((s.literal? y.text.toList).bind fun t => if t.peek y.notBefore.contains then none
          else some t).or
          ((Lexer.symbol ys s).map Prod.snd) by
      rw [h]
      exact hscan
    rw [Lexer.symbol]
    cases s.literal? y.text.toList with
    | none => rfl
    | some t =>
      cases hpeek : t.peek y.notBefore.contains with
      | true => simp [hpeek]
      | false => simp [hpeek]

/-- A symbol that was read stands there. -/
theorem text_of_symbol {ys : List (Symbol α)} {s t : Cursor} {a : α}
    (h : Lexer.symbol ys s = some (a, t)) : ∃ y ∈ ys, y.meaning = a ∧ s.upTo t = y.text := by
  obtain ⟨y, hy, hmeaning, hread, -⟩ := Lexer.literal?_of_symbol h
  refine ⟨y, hy, hmeaning, ?_⟩
  rw [Cursor.upTo_eq (Cursor.literal?_inv hread), String.ofList_toList]

/-- A rule that has the patterns of some symbols, in order. -/
theorem lexes_symbol {x : Name} {ys : List (Symbol α)}
    (hx : x.pattern = .oneOf (ys.map symbolPattern)) {means : α → String → Prop}
    (hmeans : ∀ y ∈ ys, means y.meaning y.text) : Lexes x (Lexer.symbol ys) means := by
  refine ⟨fun s => ?_, fun {s t a} h => ?_⟩
  · rw [hx]
    exact scans_symbol ys s
  · obtain ⟨y, hy, rfl, htext⟩ := text_of_symbol h
    rw [htext]
    exact hmeans y hy

end symbols

/-- The sign of an assignment is found again from its text. -/
theorem lexes_assignOp :
    Lexes .assignOp (Lexer.symbol assignSymbols) fun op text => AssignOp.ofText? text = some op :=
  lexes_symbol rfl (by decide)

/-- So is that of a step by one. -/
theorem lexes_updateOp :
    Lexes .updateOp (Lexer.symbol updateSymbols) fun op text => updateOpOf text = op :=
  lexes_symbol rfl (by decide)

/-- So is an operator in front. -/
theorem lexes_unaryOp :
    Lexes .unaryOp Lexer.unaryOp fun op text => UnaryOp.ofText? text = some op := by
  refine ⟨fun s => ?_, fun {s t op} h => ?_⟩
  · have hword := scans_words (g := script) ["typeof"] (by decide) (by decide) s
    have hscan := hword.oneOf_cons (scans_symbol unarySymbols s)
    suffices h : (Lexer.unaryOp s).map Prod.snd =
        (afterWord? ["typeof"] s).or ((Lexer.symbol unarySymbols s).map Prod.snd) by
      rw [h]
      exact hscan
    unfold Lexer.unaryOp Lexer.keyword afterWord?
    cases Lexer.word s with
    | none => rfl
    | some y =>
      simp only [List.mem_singleton]
      by_cases hw : y.1 = "typeof"
      · simp [hw]
      · simp [hw]
  · unfold Lexer.unaryOp at h
    split at h
    · rename_i u v hkeyword
      cases h
      rw [upTo_of_word (Lexer.word_of_keyword hkeyword)]
      rfl
    · obtain ⟨y, hy, rfl, htext⟩ := text_of_symbol h
      have hall : ∀ y ∈ unarySymbols, UnaryOp.ofText? y.text = some y.meaning := by decide
      rw [htext]
      exact hall y hy

/-! ## Connectives -/

/-- The operator that a node with this text stands for is the connective. -/
def Joins (x : Name) (c : Connective) (text : String) : Prop :=
  ∀ left right span, buildJoin left right (.mk x text span []) = .ok (Grammar.join left (c, right))

/-- A level of the table and a level of connectives. -/
def LexesLevel (x : Name) (level : List (Symbol Connective)) : Prop :=
  Lexes x (Lexer.symbol level) (Joins x)

/-- The level of `||` has this connective. -/
theorem lexes_or : LexesLevel .orOp [⟨"||", .logical .or, []⟩] :=
  lexes_symbol rfl (by simp only [List.forall_mem_singleton]; exact fun _ _ _ => rfl)

/-- The level of `&&` has this connective. -/
theorem lexes_and : LexesLevel .andOp [⟨"&&", .logical .and, []⟩] :=
  lexes_symbol rfl (by simp only [List.forall_mem_singleton]; exact fun _ _ _ => rfl)

/-- A binary operator that is written as the symbol. -/
def IsBinary (y : Symbol Connective) : Bool :=
  match y.meaning with
  | .binary op => BinaryOp.ofText? y.text = some op
  | .logical _ => false

/-- The connectives of all other levels are found again from their texts. -/
theorem joins_of_isBinary {x : Name} (hor : x ≠ .orOp) (hand : x ≠ .andOp) {y : Symbol Connective}
    (h : IsBinary y) : Joins x y.meaning y.text := by
  obtain ⟨text, op | op, before⟩ := y
  · cases h
  · intro left right span
    have hop : BinaryOp.ofText? text = some op := of_decide_eq_true h
    unfold buildJoin
    split
    · exact absurd ‹_› hor
    · exact absurd ‹_› hand
    · simp only [Node.text, hop]
      rfl

/-- The level of equalities has these four connectives. -/
theorem lexes_equality :
    LexesLevel .equalityOp [⟨"===", .binary .strictEq, []⟩, ⟨"!==", .binary .strictNe, []⟩,
      ⟨"==", .binary .eq, []⟩, ⟨"!=", .binary .ne, []⟩] :=
  lexes_symbol rfl fun _ hy => joins_of_isBinary (by decide) (by decide)
    (List.all_eq_true.1 (by decide) _ hy)

/-- The level of comparisons has these four connectives. -/
theorem lexes_relational :
    LexesLevel .relationalOp [⟨"<=", .binary .le, []⟩, ⟨">=", .binary .ge, []⟩,
      ⟨"<", .binary .lt, []⟩, ⟨">", .binary .gt, []⟩] :=
  lexes_symbol rfl fun _ hy => joins_of_isBinary (by decide) (by decide)
    (List.all_eq_true.1 (by decide) _ hy)

/-- The level of sums has these two connectives. -/
theorem lexes_additive : LexesLevel .additiveOp
    [⟨"+", .binary .add, ['+', '=']⟩, ⟨"-", .binary .sub, ['-', '=']⟩] :=
  lexes_symbol rfl fun _ hy => joins_of_isBinary (by decide) (by decide)
    (List.all_eq_true.1 (by decide) _ hy)

/-- The tightest connectives. -/
def factorSymbols : List (Symbol Connective) :=
  [⟨"*", .binary .mul, ['=']⟩, ⟨"/", .binary .div, ['=']⟩, ⟨"%", .binary .rem, ['=']⟩]

/-- The symbols start with different characters, so what may not follow can be said once for all of
them. -/
theorem symbol_factorSymbols (s : Cursor) : (Lexer.symbol factorSymbols s).map Prod.snd =
    (s.char? fun c => c = '*' || (c = '/' || c = '%')).bind fun t => if t.peek (· = '=') then none
      else some t := by
  have hpeek (t : Cursor) : t.peek (List.contains ['=']) = t.peek (· = '=') := by
    obtain ⟨_ | ⟨d, r⟩, q⟩ := t
    · rfl
    · simp
  have hstep (c : Char) (r : List Char) (p : Position) (w : Char) (text : String)
      (hw : text.toList = [w]) (a : Connective) (ys : List (Symbol Connective)) :
      Lexer.symbol (⟨text, a, ['=']⟩ :: ys) ⟨c :: r, p⟩ =
      if c = w ∧ ¬ (⟨r, p.next c⟩ : Cursor).peek (· = '=') then some (a, ⟨r, p.next c⟩)
          else Lexer.symbol ys ⟨c :: r, p⟩ := by
    rw [Lexer.symbol]
    simp only [hw, hpeek]
    by_cases hc : c = w
    · subst hc
      cases hnext : (⟨r, p.next c⟩ : Cursor).peek (· = '=')
      all_goals simp [Cursor.literal?, hnext]
    · simp [Cursor.literal?, hc]
  obtain ⟨_ | ⟨c, r⟩, p⟩ := s
  · rfl
  · rw [factorSymbols, hstep c r p '*' "*" rfl, hstep c r p '/' "/" rfl, hstep c r p '%' "%" rfl,
      Cursor.char?_cons, Lexer.symbol]
    generalize (⟨r, p.next c⟩ : Cursor) = t
    cases hnext : t.peek (· = '=') with
    | true =>
      by_cases hclass : c = '*' ∨ c = '/' ∨ c = '%'
      · simp [hclass, hnext]
      · simp [hclass]
    | false =>
      by_cases hmul : c = '*'
      · simp [hmul, hnext]
      · by_cases hdiv : c = '/'
        · simp [hdiv, hnext]
        · by_cases hrem : c = '%'
          · simp [hrem, hnext]
          · simp [hmul, hdiv, hrem]

/-- The level of products has the connectives of factors. -/
theorem lexes_multiplicative : LexesLevel .multiplicativeOp factorSymbols := by
  refine ⟨fun s => ?_, fun {s t c} h => ?_⟩
  · have hfactor : Scans script (.oneOf [.text "*", .text "/", .text "%"]) s
        (s.char? fun c => c = '*' || (c = '/' || c = '%')) :=
      (Scans.letter rfl).either ((Scans.letter rfl).either (Scans.letter rfl))
    have hscan := hfactor.seq fun t _ =>
      (Scans.letter (g := script) (s := t) (w := "=") (c := '=') rfl).not
    simp only [Cursor.isSome_char?] at hscan
    rw [symbol_factorSymbols]
    exact hscan
  · obtain ⟨y, hy, rfl, htext⟩ := text_of_symbol h
    rw [htext]
    exact joins_of_isBinary (by decide) (by decide) (List.all_eq_true.1 (by decide) _ hy)

/-! ## Quoted text -/

/-- What stands between quotes, as it is written, and the cursor behind it. -/
def quotedRun (mark : Char) : List Char → Position → List Char × Cursor
  | [], p => ([], ⟨[], p⟩)
  | ['\\'], p => ([], ⟨['\\'], p⟩)
  | '\\' :: c :: r, p => ('\\' :: c :: (quotedRun mark r ((p.next '\\').next c)).1,
      (quotedRun mark r ((p.next '\\').next c)).2)
  | c :: r, p =>
    if c = mark ∨ c = '\n' then ([], ⟨c :: r, p⟩)
    else (c :: (quotedRun mark r (p.next c)).1, (quotedRun mark r (p.next c)).2)

/-- What stands between quotes and what follows make up the text. -/
theorem quotedRun_append (mark : Char) (cs : List Char) (p : Position) :
    cs = (quotedRun mark cs p).1 ++ (quotedRun mark cs p).2.rest := by
  fun_induction quotedRun mark cs p with
  | case1 => rfl
  | case2 => rfl
  | case3 c r p ih => rw [List.cons_append, List.cons_append, ← ih]
  | case4 => rfl
  | case5 c r p _ _ _ ih => rw [List.cons_append, ← ih]

/-- A character that does not open an escape. -/
theorem ne_slash {c : Char} {r : List Char} (hone : c = '\\' → r = [] → False)
    (htwo : ∀ d r', c = '\\' → r = d :: r' → False) : c ≠ '\\' := by
  intro hc
  cases r with
  | nil => exact hone hc rfl
  | cons d r => exact htwo d r hc rfl

/-- A character that is no backslash stands for itself. -/
theorem unescaped_cons {c : Char} (h : c ≠ '\\') (cs : List Char) :
    unescaped (c :: cs) = c :: unescaped cs := by
  rw [unescaped.eq_4 _ _ (fun _ _ hc _ => h hc) (fun hc _ => h hc)]

/-- Reading up to the closing mark, in two steps. -/
theorem body?_eq {mark : Char} (hslash : mark ≠ '\\') (cs : List Char) (p : Position) :
    Quoted.body? mark cs p =
      ((quotedRun mark cs p).2.literal? [mark]).map fun t =>
        (unescaped (quotedRun mark cs p).1, t) := by
  fun_induction quotedRun mark cs p with
  | case1 => rfl
  | case2 p => simp [Quoted.body?, Cursor.literal?, hslash.symm]
  | case3 c r p ih =>
    rw [Quoted.body?, ih, Option.map_map]
    rfl
  | case4 c r p hone htwo hstop =>
    rw [Quoted.body?.eq_4 _ _ _ _ hone htwo]
    by_cases hc : c = mark
    · rw [if_pos hc, hc, Cursor.literal?_cons_self, Cursor.literal?_nil]
      rfl
    · rw [if_neg hc, if_pos (hstop.resolve_left hc), Cursor.literal?_cons_of_ne hc]
      rfl
  | case5 c r p hone htwo hgo ih =>
    rw [Quoted.body?.eq_4 _ _ _ _ hone htwo, if_neg fun hc => hgo (.inl hc),
      if_neg fun hc => hgo (.inr hc), ih, Option.map_map, unescaped_cons (ne_slash hone htwo)]
    rfl

/-- The pattern of quoted text stops in front of the closing mark. -/
theorem rounds_quoted {quote : String} {mark : Char} (hquote : quote.toList = [mark])
    (cs : List Char) (p : Position) :
    Rounds script (.oneOf [.inOrder [.text "\\", .char fun _ => true],
      .inOrder [.not (.oneOf [.text quote, .text "\\", .text "\n"]), .char fun _ => true]]) ⟨cs, p⟩
      (quotedRun mark cs p).2 := by
  have hround (s : Cursor) : Scans script (.oneOf [.inOrder [.text "\\", .char fun _ => true],
        .inOrder [.not (.oneOf [.text quote, .text "\\", .text "\n"]), .char fun _ => true]]) s
      (((s.char? (· = '\\')).bind fun t => t.char? fun _ => true).or (if s.peek fun c => c = mark ||
        (c = '\\' || c = '\n') then none else s.char? fun _ => true)) := by
    have hstop : Scans script (.oneOf [.text quote, .text "\\", .text "\n"]) s
        (s.char? fun c => c = mark || (c = '\\' || c = '\n')) :=
      (Scans.letter hquote).either ((Scans.letter rfl).either (Scans.letter rfl))
    have hother := hstop.butNot
    rw [Cursor.isSome_char?] at hother
    exact ((Scans.letter rfl).seq fun t _ => Scans.char _).or hother
  fun_induction quotedRun mark cs p with
  | case1 => exact .stop (hround _)
  | case2 p =>
    have hscan := hround ⟨['\\'], p⟩
    simp [Cursor.char?_cons] at hscan
    exact .stop hscan
  | case3 c r p ih =>
    have hscan := hround ⟨'\\' :: c :: r, p⟩
    simp [Cursor.char?_cons] at hscan
    exact .step hscan ih
  | case4 c r p hone htwo hstop =>
    have hscan := hround ⟨c :: r, p⟩
    rcases hstop with rfl | rfl
    · simp [Cursor.char?_cons, ne_slash hone htwo] at hscan
      exact .stop hscan
    · simp [Cursor.char?_cons] at hscan
      exact .stop hscan
  | case5 c r p hone htwo hgo ih =>
    have hscan := hround ⟨c :: r, p⟩
    rw [not_or] at hgo
    simp [Cursor.char?_cons, ne_slash hone htwo, hgo.1, hgo.2] at hscan
    exact .step hscan ih

/-- What text in quotes of one kind leaves: a node with what is between them. -/
def quotedNode (x : Name) (mark : Char) (t : Cursor) : Node Name :=
  .mk x (t.upTo (quotedRun mark t.rest t.pos).2)
    (.between t.pos (quotedRun mark t.rest t.pos).2.pos) []

/-- The node of a quoted text holds what stands between the quotes. -/
theorem text_quotedNode (x : Name) (mark : Char) (t : Cursor) :
    (quotedNode x mark t).text = String.ofList (quotedRun mark t.rest t.pos).1 :=
  Cursor.upTo_eq (quotedRun_append mark t.rest t.pos)

/-- Quotes with what stands between them. -/
theorem matches_quotes (x : Name) (quote : String) (mark : Char) (hkind : x.kind = .atomic)
    (hpattern : x.pattern = .quotedBy quote) (hquote : quote.toList = [mark]) (s : Cursor) :
    Matches script .compound (.inOrder [.text quote, .call x, .text quote]) s
      ⟨0, (s.literal? [mark]).bind fun t =>
      ((quotedRun mark t.rest t.pos).2.literal? [mark]).map fun u =>
          ([quotedNode x mark t], u)⟩ := by
  have hopen := Matches.text (g := script) (m := .compound) (s := s) quote
  rw [hquote] at hopen
  cases hmark : s.literal? [mark] with
  | none =>
    rw [hmark] at hopen
    exact .seq_none hopen
  | some t =>
    rw [hmark] at hopen
    have hbody : Matches script (Mode.inside .compound (script.kind x)) (script.pattern x) t
        ⟨0, some ([], (quotedRun mark t.rest t.pos).2)⟩ := by
      rw [show script.kind x = .atomic from hkind,
        show script.pattern x = .quotedBy quote from hpattern]
      exact (rounds_quoted hquote t.rest t.pos).star
    have hclose := Matches.text (g := script) (m := .compound) (s :=
        (quotedRun mark t.rest t.pos).2) quote
    rw [hquote] at hclose
    have hmatch := hopen.seq Matches.skips_compound
      ((hbody.call_some (by decide)).seq Matches.skips_compound hclose)
    rw [Option.bind_some]
    cases hend : (quotedRun mark t.rest t.pos).2.literal? [mark] with
    | none | some u =>
      rw [hend] at hmatch
      exact hmatch

/-- What the reader of quoted text gives behind the opening mark. -/
theorem scan?_of_mark (x : Name) {c : Char} (hslash : c ≠ '\\') (r : List Char) (p : Position) :
    (Quoted.body? c r (p.next c)).map (fun y => (String.ofList y.1, y.2)) =
      ((quotedRun c r (p.next c)).2.literal? [c]).map fun u =>
        (String.ofList (unescaped (quotedNode x c ⟨r, p.next c⟩).text.toList), u) := by
  rw [body?_eq hslash, Option.map_map]
  simp only [text_quotedNode, String.toList_ofList]
  rfl

/-- Text in either kind of quotes is matched as it is scanned. -/
theorem matches_string (s : Cursor) :
    ∃ x, Matches script .compound (Name.pattern .string) s ⟨0, x⟩ ∧
    ((Quoted.scan? s = none ∧ x = none) ∨ ∃ text t body, Quoted.scan? s = some (text, t) ∧
      x = some ([body], t) ∧
      String.ofList (unescaped body.text.toList) = text) := by
  have hsingle := matches_quotes .singleQuoted "'" '\'' rfl rfl rfl s
  have hdouble := matches_quotes .doubleQuoted "\"" '"' rfl rfl rfl s
  obtain ⟨_ | ⟨c, r⟩, p⟩ := s
  · exact ⟨none, .or_right hsingle hdouble, .inl ⟨rfl, rfl⟩⟩
  · by_cases hc : c = '\''
    · subst hc
      rw [Cursor.literal?_cons_self, Cursor.literal?_nil, Option.bind_some] at hsingle
      rw [Cursor.literal?_cons_of_ne (by decide)] at hdouble
      have hscan : Quoted.scan? ⟨'\'' :: r, p⟩ = _ := scan?_of_mark .singleQuoted (by decide) r p
      cases hend : (quotedRun '\'' r (p.next '\'')).2.literal? ['\''] with
      | none =>
        rw [hend] at hsingle hscan
        exact ⟨none, .or_right hsingle hdouble, .inl ⟨hscan, rfl⟩⟩
      | some u =>
        rw [hend] at hsingle hscan
        exact ⟨_, .or_left hsingle, .inr ⟨_, _, _, hscan, rfl, rfl⟩⟩
    · rw [Cursor.literal?_cons_of_ne hc] at hsingle
      by_cases hc' : c = '"'
      · subst hc'
        rw [Cursor.literal?_cons_self, Cursor.literal?_nil, Option.bind_some] at hdouble
        have hscan : Quoted.scan? ⟨'"' :: r, p⟩ = _ := scan?_of_mark .doubleQuoted (by decide) r p
        cases hend : (quotedRun '"' r (p.next '"')).2.literal? ['"'] with
        | none =>
          rw [hend] at hdouble hscan
          exact ⟨none, .or_right hsingle hdouble, .inl ⟨hscan, rfl⟩⟩
        | some u =>
          rw [hend] at hdouble hscan
          exact ⟨_, .or_right hsingle hdouble, .inr ⟨_, _, _, hscan, rfl, rfl⟩⟩
      · rw [Cursor.literal?_cons_of_ne hc'] at hdouble
        exact ⟨none, .or_right hsingle hdouble, .inl ⟨Quoted.scan?_of_head hc hc' r p, rfl⟩⟩

end BranchPaint.Peg
