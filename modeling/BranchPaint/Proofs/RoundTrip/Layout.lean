import BranchPaint.Proofs.RoundTrip.Clause

/-!
# The lines of canonical text

Line feeds stand in canonical text only where the layout of statements puts them: the text of an
expression is on one line (`Expr.oneLine_chars`), since a line feed in a string is written as a
letter. So the number of lines that a statement takes is a matter of its shape (`Stmt.height`,
`Stmt.count_chars`), the same at every width and level, and so are the lines on which the branches
of a program stand (`Program.canonicalLines`).

These lines ascend (`Program.ascending_canonicalLines`): a branch starts a line unless it stands
behind `else`, and between the header of a branch and its `else` a line ends
(`Stmt.one_le_height_add_dropBehind`).
-/

namespace BranchPaint

open Grammar

/-! ## Text on one line -/

/-- Text without a line feed. -/
def OneLine (text : List Char) : Prop := '\n' ∉ text

instance (text : List Char) : Decidable (OneLine text) := inferInstanceAs (Decidable ('\n' ∉ text))

namespace OneLine

variable {as bs : List Char} {c : Char}

/-- The empty text has one line. -/
@[simp] theorem nil : OneLine [] := List.not_mem_nil

/-- A text has one line if it does not start with a line feed and the rest has one line. -/
@[simp] theorem cons_iff : OneLine (c :: as) ↔ c ≠ '\n' ∧ OneLine as := by
  simp [OneLine, eq_comm]

/-- Two texts have one line together if each has one line. -/
@[simp] theorem append_iff : OneLine (as ++ bs) ↔ OneLine as ∧ OneLine bs := by
  simp [OneLine]

/-- A text of one line has no line feeds. -/
theorem count (h : OneLine as) : as.count '\n' = 0 := List.count_eq_zero.2 h

/-- Text on one line keeps the line. -/
theorem advance_line (h : OneLine as) (p : Position) : (p.advance as).line = p.line := by
  rw [Position.advance_line, h.count, Nat.add_zero]

/-- A text of characters of a class without the line feed has one line. -/
theorem of_forall {p : Char → Bool} (hp : p '\n' = false) (h : ∀ d ∈ as, p d) :
    OneLine as := fun hmem => by
  rw [h _ hmem] at hp
  cases hp

end OneLine

/-- A word has one line. -/
theorem IsWord.oneLine {w : String} (h : IsWord w) : OneLine w.toList := by
  obtain ⟨c, cs, htext, hc, hcs⟩ := h
  rw [htext]
  refine OneLine.of_forall (by decide : isWordChar '\n' = false) fun d hd => ?_
  rcases List.mem_cons.1 hd with rfl | hd
  · exact isWordChar_of_isWordStart hc
  · exact hcs d hd

/-- Digits have one line. -/
theorem Decimal.oneLine_of_digits {ds : List Char} (h : ∀ c ∈ ds, c.isDigit) : OneLine ds :=
  .of_forall (by decide : '\n'.isDigit = false) h

/-- A number has one line. -/
theorem oneLine_numberText {x : Float} (h : IsUnsigned x) : OneLine (numberText x).toList := by
  cases hfinite : x.isFinite with
  | false =>
    rw [numberText_of_isUnsigned h hfinite]
    decide
  | true =>
    obtain ⟨bits, hbits, rfl⟩ := isLiteral_of_isUnsigned h hfinite
    rw [numberText_ofMagnitudeBits hbits]
    split
    · decide
    · obtain ⟨ds, fs, -, hds, hfs, ⟨htext, -⟩ | ⟨htext, -⟩⟩ :=
        Decimal.positional_form (Decimal.trimZeros
            (Decimal.digitCount (Decimal.shortest bits).digits) (Decimal.shortest bits))
      · exact htext ▸ Decimal.oneLine_of_digits hds
      · exact htext ▸ OneLine.append_iff.2 ⟨Decimal.oneLine_of_digits hds,
          OneLine.cons_iff.2 ⟨by decide, Decimal.oneLine_of_digits hfs⟩⟩

/-- A line feed is written as a letter. -/
theorem Quoted.oneLine_quote (text : String) : OneLine (quote text).toList :=
  feed_not_mem_quote text

/-- Parentheses do not change the number of lines. -/
@[simp] theorem oneLine_parens (wanted : Bool) (text : String) :
    OneLine (parens wanted text).toList ↔ OneLine text.toList := by
  cases wanted
  all_goals simp [parens]

/-- Texts with commas between them are on one line if each of them is. -/
theorem oneLine_intercalate {ts : List String} (h : ∀ t ∈ ts, OneLine t.toList) :
    OneLine (", ".intercalate ts).toList := by
  cases ts with
  | nil => decide
  | cons t ts =>
    rw [toList_intercalate, OneLine.append_iff]
    refine ⟨h t List.mem_cons_self, fun hmem => ?_⟩
    obtain ⟨u, hu, hmem⟩ := List.mem_flatMap.1 hmem
    have hline := h u (List.mem_cons_of_mem _ hu)
    simp_all [OneLine]

/-- Items have one line if each of them has. -/
theorem Expr.oneLine_items {es : List Expr} (h : ∀ e ∈ es, OneLine e.text.toList) :
    OneLine (itemsChars es) := by
  refine oneLine_intercalate fun t ht => ?_
  rw [itemTexts_eq] at ht
  obtain ⟨e, he, rfl⟩ := List.mem_map.1 ht
  exact (oneLine_parens _ _).2 (h e he)

section operators

/-- The sign of an operator has one line. -/
theorem BinaryOp.oneLine_text (op : BinaryOp) : OneLine op.text.toList := by
  cases op
  all_goals decide

/-- So has that of a logical operator. -/
theorem LogicalOp.oneLine_text (op : LogicalOp) : OneLine op.text.toList := by
  cases op
  all_goals decide

/-- So has that of a step by one. -/
theorem UpdateOp.oneLine_text (op : UpdateOp) : OneLine op.text.toList := by
  cases op
  all_goals decide

/-- So has that of an operator in front. -/
theorem UnaryOp.oneLine_text (op : UnaryOp) : OneLine op.text.toList := by
  cases op
  all_goals decide

/-- So has the gap behind it. -/
theorem UnaryOp.oneLine_gap (op : UnaryOp) (operand : String) :
    OneLine (op.gap operand).toList := by
  rcases op.gap_cases operand with h | h
  all_goals
    rw [h]
    decide

/-- So has the sign of an assignment. -/
theorem AssignOp.oneLine_text (op : AssignOp) : OneLine op.text.toList := by
  rcases op with _ | op
  · decide
  · cases op
    all_goals decide

end operators

/-- The text of an expression is on one line. -/
theorem Expr.oneLine_chars {e : Expr} (h : e.Forall Formed) : OneLine e.chars := by
  induction e using Expr.induction with
  | step e ih =>
  have hin : ∀ c ∈ e.children, OneLine c.text.toList := fun c hc => ih c hc (h.inside c hc)
  have hhere := h.here
  clear ih h
  unfold chars
  cases e with
  | bool v s =>
    cases v
    · exact (by decide : OneLine "false".toList)
    · exact (by decide : OneLine "true".toList)
  | num v s => exact oneLine_numberText hhere
  | str v s => exact Quoted.oneLine_quote v
  | null s => exact (by decide : OneLine "null".toList)
  | ident n s => exact hhere.1.oneLine
  | list es s =>
    have htext : (list es s).text.toList = '[' :: (itemsChars es ++ [']']) := by
      simp [text, itemsChars]
    have hitems : OneLine (itemsChars es) := oneLine_items hin
    simp [htext, hitems]
  | sequence es s => exact oneLine_items hin
  | member o p computed s =>
    cases computed with
    | false =>
      obtain ⟨name, t, rfl, hname⟩ := hhere rfl
      simp_all [children, text, hname.oneLine]
    | true => simp_all [children, text]
  | call f args s =>
    have htext : (call f args s).text.toList =
        (parens (f.precedence < Precedence.call) f.text).toList ++
          '(' :: (itemsChars args ++ [')']) := by
      simp [text, itemsChars]
    simp_all [children, oneLine_items]
  | binary op l r s => simp_all [children, text, op.oneLine_text]
  | logical op l r s => simp_all [children, text, op.oneLine_text]
  | assign op l r s => simp_all [children, text, op.oneLine_text]
  | unary op a s => simp_all [children, text, op.oneLine_text, op.oneLine_gap]
  | update op before a s =>
    cases before
    all_goals simp_all [children, text, op.oneLine_text]
  | ternary c t e s => simp_all [children, text]

/-! ## The text of each kind of statement

The equations of `Stmt.text`, one per kind, so that no proof has to unfold the whole recursion. -/

namespace Stmt

variable (width level : Nat) (s : Span)

/-- The text of a function. -/
theorem text_function (name : String) (params : List String) (body : List Stmt) :
    (function name params body s).text width level = "function " ++ name ++ "(" ++
      ", ".intercalate params ++ ") \x7b" ++ linesText width (level + 1) body ++ "\n" ++
      indentation width level ++ "\x7d" := rfl

/-- The text of a declaration. -/
theorem text_declare (word : DeclareWord) (ds : List Declarator) :
    (declare word ds s).text width level = declarationText word ds ++ ";" := rfl

/-- The text of a branch without `else`. -/
theorem text_branch (t : Expr) (c : Stmt) : (branch t c none s).text width level =
    "if (" ++ t.text ++ ")" ++ c.placed width level (c.text width (c.bodyLevel level)) := rfl

/-- The text of a branch with `else`. -/
theorem text_branchElse (t : Expr) (c a : Stmt) : (branch t c (some a) s).text width level =
    "if (" ++ t.text ++ ")" ++ c.placed width level (c.text width (c.bodyLevel level)) ++
      (if c.isBlock then " " else "\n" ++ indentation width level) ++ "else" ++
      (if a.isBranch then " " ++ a.text width level
        else a.placed width level (a.text width (a.bodyLevel level))) := rfl

/-- The text of a loop. -/
theorem text_whileLoop (t : Expr) (body : Stmt) : (whileLoop t body s).text width level =
    "while (" ++ t.text ++ ")" ++
      body.placed width level (body.text width (body.bodyLevel level)) := rfl

/-- The text of a counting loop. -/
theorem text_forLoop (init : Option ForInit) (t u : Option Expr) (body : Stmt) :
    (forLoop init t u body s).text width level =
      "for (" ++ (init.map ForInit.text).getD "" ++ ";" ++ clauseText t ++ ";" ++
        clauseText u ++ ")" ++
        body.placed width level (body.text width (body.bodyLevel level)) := rfl

/-- The text of a `return`. -/
theorem text_ret (value : Option Expr) :
    (ret value s).text width level = "return" ++ clauseText value ++ ";" := rfl

/-- The text of a block. -/
theorem text_block (body : List Stmt) : (block body s).text width level =
    "\x7b" ++ linesText width (level + 1) body ++ "\n" ++ indentation width level ++ "\x7d" := rfl

/-- The text of an expression that stands alone. -/
theorem text_expr (e : Expr) : (expr e s).text width level = e.text ++ ";" := rfl

/-- The text of the empty statement. -/
theorem text_empty : (empty s).text width level = ";" := rfl

/-- Each statement stands on a line of its own. -/
theorem linesText_cons (s : Stmt) (ss : List Stmt) : linesText width level (s :: ss) =
    "\n" ++ indentation width level ++ s.text width level ++ linesText width level ss := rfl

end Stmt

/-! ## Bodies and the gaps in front of them -/

/-- The characters of a statement. -/
def Stmt.chars (width level : Nat) (s : Stmt) : List Char := (s.text width level).toList

/-- A line feed, and the blanks in front of the next line. -/
def newLine (width level : Nat) : List Char := '\n' :: List.replicate (width * level) ' '

/-- What stands between a header and its body. -/
def Stmt.gap (width level : Nat) : Stmt → List Char
  | .empty _ => []
  | .block _ _ => [' ']
  | _ => newLine width (level + 1)

/-- What stands between `else` and an alternative. -/
def Stmt.elseGap (width level : Nat) (a : Stmt) : List Char :=
  if a.isBranch then [' '] else a.gap width level

/-- The level at which an alternative is written. -/
def Stmt.elseLevel (level : Nat) (a : Stmt) : Nat := if a.isBranch then level else a.bodyLevel level

/-- What stands between the first part of a branch and `else`. -/
def Stmt.gapBehind (width level : Nat) (c : Stmt) : List Char :=
  if c.isBlock then [' '] else newLine width level

/-- The characters of a body, with the gap in front of it. -/
def Stmt.bodyChars (width level : Nat) (s : Stmt) : List Char :=
  s.gap width level ++ s.chars width (s.bodyLevel level)

/-- The characters of an alternative, with the gap in front of it. -/
def Stmt.elseChars (width level : Nat) (a : Stmt) : List Char :=
  a.elseGap width level ++ a.chars width (a.elseLevel level)

/-- The characters of statements on lines of their own. -/
def linesChars (width level : Nat) (ss : List Stmt) : List Char :=
  ss.flatMap fun s => newLine width level ++ s.chars width level

/-- The characters of statements in braces. -/
def bracesChars (width level : Nat) (ss : List Stmt) : List Char :=
  '{' :: (linesChars width (level + 1) ss ++ newLine width level ++ ['}'])

section text

variable (width level : Nat)

/-- A line is indented by blanks. -/
theorem toList_indentation :
    (indentation width level).toList = List.replicate (width * level) ' ' := by
  simp [indentation]

/-- A statement is placed behind its gap. -/
theorem toList_placed (s : Stmt) :
    (s.placed width level (s.text width (s.bodyLevel level))).toList = s.bodyChars width level := by
  cases s
  all_goals simp [Stmt.bodyChars, Stmt.placed, Stmt.gap, Stmt.chars, Stmt.text_empty, newLine,
    toList_indentation, Stmt.bodyLevel]

/-- Behind a block `else` stands on the same line. -/
theorem toList_gapBehind (c : Stmt) :
    (if c.isBlock then " " else "\n" ++ indentation width level).toList =
      c.gapBehind width level := by
  unfold Stmt.gapBehind
  split
  · rfl
  · simp [newLine, toList_indentation]

/-- Behind `else` a branch stands on the same line. -/
theorem toList_alternative (a : Stmt) :
    (if a.isBranch then " " ++ a.text width level
      else a.placed width level (a.text width (a.bodyLevel level))).toList =
      a.elseChars width level := by
  unfold Stmt.elseChars Stmt.elseGap Stmt.elseLevel
  split
  · simp [Stmt.chars]
  · exact toList_placed width level a

/-- The characters of statements on lines of their own. -/
theorem toList_linesText (ss : List Stmt) :
    (Stmt.linesText width level ss).toList = linesChars width level ss := by
  induction ss with
  | nil => rfl
  | cons s ss ih =>
    simp [Stmt.linesText_cons, linesChars, ih, newLine, toList_indentation, Stmt.chars]

/-- They start with a new line for the first of them. -/
theorem linesChars_cons (s : Stmt) (ss : List Stmt) :
    linesChars width level (s :: ss) = newLine width level ++
      (s.chars width level ++ linesChars width level ss) := by
  simp [linesChars]

/-- A new line is blank. -/
theorem blank_newLine : ∀ c ∈ newLine width level, isBlankChar c := by
  intro c hc
  rcases List.mem_cons.1 hc with rfl | hc
  · decide
  · rw [(List.mem_replicate.1 hc).2]
    decide

/-- So is a space. -/
theorem blank_space : ∀ c ∈ [' '], isBlankChar c := by
  intro c hc
  rw [List.mem_singleton.1 hc]
  decide

/-- So is the gap in front of a statement. -/
theorem blank_gap (s : Stmt) : ∀ c ∈ s.gap width level, isBlankChar c := by
  cases s with
  | empty _ => exact fun c hc => absurd hc List.not_mem_nil
  | block _ _ => exact blank_space
  | _ => exact blank_newLine width (level + 1)

/-- So is that in front of what stands behind `else`. -/
theorem blank_elseGap (a : Stmt) : ∀ c ∈ a.elseGap width level, isBlankChar c := by
  unfold Stmt.elseGap
  split
  · exact blank_space
  · exact blank_gap width level a

/-- So is that behind a statement. -/
theorem blank_gapBehind (c : Stmt) : ∀ d ∈ c.gapBehind width level, isBlankChar d := by
  unfold Stmt.gapBehind
  split
  · exact blank_space
  · exact blank_newLine width level

/-- A new line has one line feed. -/
@[simp] theorem count_newLine : (newLine width level).count '\n' = 1 := by
  simp [newLine, List.count_replicate]

end text

/-! ## The characters of each kind of statement -/

/-- The characters of a word and a test behind it. -/
def headerChars (w : String) (t : Expr) : List Char := w.toList ++ ' ' :: '(' :: (t.chars ++ [')'])

/-- The characters of the first clause of a counting loop. -/
def initChars (init : Option ForInit) : List Char := ((init.map ForInit.text).getD "").toList

namespace Stmt

variable (width level : Nat) (s : Span)

/-- The characters of a function. -/
theorem chars_function (name : String) (params : List String) (body : List Stmt) :
    (function name params body s).chars width level = "function".toList ++ ' ' :: (name.toList ++
      '(' :: (paramsChars params ++ ')' :: ' ' :: bracesChars width level body)) := by
  simp [chars, text_function, bracesChars, paramsChars, toList_linesText, newLine,
    toList_indentation]

/-- The characters of a declaration. -/
theorem chars_declare (word : DeclareWord) (ds : List Declarator) :
    (declare word ds s).chars width level = declarationChars word ds ++ [';'] := by
  simp [chars, text_declare, declarationChars]

/-- The characters of a branch without `else`. -/
theorem chars_branch (t : Expr) (c : Stmt) :
    (branch t c none s).chars width level = headerChars "if" t ++ c.bodyChars width level := by
  simp [chars, text_branch, Expr.chars, headerChars, toList_placed]

/-- The characters of a branch with `else`. -/
theorem chars_branchElse (t : Expr) (c a : Stmt) : (branch t c (some a) s).chars width level =
    headerChars "if" t ++ (c.bodyChars width level ++
      (c.gapBehind width level ++ ("else".toList ++ a.elseChars width level))) := by
  simp only [chars, text_branchElse, String.toList_append, toList_placed, toList_gapBehind,
    toList_alternative]
  simp [headerChars, Expr.chars]

/-- The characters of a loop. -/
theorem chars_whileLoop (t : Expr) (body : Stmt) :
    (whileLoop t body s).chars width level = headerChars "while" t ++
      body.bodyChars width level := by
  simp [chars, text_whileLoop, Expr.chars, headerChars, toList_placed]

/-- The characters of a counting loop. -/
theorem chars_forLoop (init : Option ForInit) (t u : Option Expr) (body : Stmt) :
    (forLoop init t u body s).chars width level = "for".toList ++ ' ' :: '(' :: (initChars init ++
      ';' :: (clauseChars t ++ ';' :: (clauseChars u ++ ')' :: body.bodyChars width level))) := by
  simp [chars, text_forLoop, initChars, clauseChars, toList_placed]

/-- The characters of a `return`. -/
theorem chars_ret (value : Option Expr) :
    (ret value s).chars width level = "return".toList ++ (clauseChars value ++ [';']) := by
  simp [chars, text_ret, clauseChars]

/-- The characters of a block. -/
theorem chars_block (body : List Stmt) :
    (block body s).chars width level = bracesChars width level body := by
  simp [chars, text_block, bracesChars, toList_linesText, newLine, toList_indentation]

/-- The characters of an expression that stands alone. -/
theorem chars_expr (e : Expr) : (expr e s).chars width level = e.chars ++ [';'] := by
  simp [chars, text_expr, Expr.chars]

/-- The characters of the empty statement. -/
theorem chars_empty : (empty s).chars width level = [';'] := by
  simp [chars, text_empty]

end Stmt

/-! ## How many lines a statement takes -/

/-- How far below its header a body starts. -/
def Stmt.drop : Stmt → Nat
  | .empty _ | .block _ _ => 0
  | _ => 1

/-- How far below the first part of a branch its `else` stands. -/
def Stmt.dropBehind (c : Stmt) : Nat := if c.isBlock then 0 else 1

/-- How far below `else` an alternative starts. -/
def Stmt.elseDrop (a : Stmt) : Nat := if a.isBranch then 0 else a.drop

mutual

/-- How far below the first line of a statement its last line is. -/
def Stmt.height : Stmt → Nat
  | .function _ _ body _ | .block body _ => heightAll body + 1
  | .branch _ c none _ => c.drop + c.height
  | .branch _ c (some a) _ => c.drop + c.height + c.dropBehind + (a.elseDrop + a.height)
  | .whileLoop _ body _ | .forLoop _ _ _ body _ => body.drop + body.height
  | .declare _ _ _ | .ret _ _ | .expr _ _ | .breakLoop _ | .continueLoop _ | .empty _ => 0

/-- The number of lines that statements on lines of their own take. -/
def Stmt.heightAll : List Stmt → Nat
  | [] => 0
  | s :: ss => s.height + 1 + heightAll ss

end

section counts

variable (width level : Nat)

/-- The gap in front of a statement has as many line feeds as it drops lines. -/
theorem Stmt.count_gap (s : Stmt) : (s.gap width level).count '\n' = s.drop := by
  cases s
  all_goals simp [gap, drop]

/-- So has the gap behind it. -/
theorem Stmt.count_gapBehind (c : Stmt) : (c.gapBehind width level).count '\n' = c.dropBehind := by
  unfold gapBehind dropBehind
  split
  all_goals simp

/-- So has the gap in front of what stands behind `else`. -/
theorem Stmt.count_elseGap (a : Stmt) : (a.elseGap width level).count '\n' = a.elseDrop := by
  unfold elseGap elseDrop
  split
  · rfl
  · exact a.count_gap width level

/-- Lines have as many line feeds as their statements are high. -/
theorem count_linesChars {ss : List Stmt}
    (h : ∀ s ∈ ss, (s.chars width level).count '\n' = s.height) :
    (linesChars width level ss).count '\n' = Stmt.heightAll ss := by
  induction ss with
  | nil => rfl
  | cons s ss ih =>
    have hs := h s List.mem_cons_self
    have hss := ih fun t ht => h t (List.mem_cons_of_mem _ ht)
    rw [linesChars_cons, List.count_append, List.count_append, count_newLine, hs, hss,
      Stmt.heightAll]
    omega

/-- In braces there is one more. -/
theorem count_bracesChars {ss : List Stmt}
    (h : ∀ s ∈ ss, (s.chars width (level + 1)).count '\n' = s.height) :
    (bracesChars width level ss).count '\n' = Stmt.heightAll ss + 1 := by
  simp [bracesChars, List.count_append, count_linesChars width (level + 1) h]

end counts

section headers

/-- A head word and its test have one line. -/
theorem oneLine_headerChars {w : String} (hw : IsWord w) {t : Expr} (ht : t.Forall Expr.Formed) :
    OneLine (headerChars w t) := by
  simp [headerChars, hw.oneLine, Expr.oneLine_chars ht]

/-- A clause has one line. -/
theorem oneLine_clauseChars {o : Option Expr} (h : ∀ e ∈ o, e.Forall Expr.Formed) :
    OneLine (clauseChars o) := by
  cases o with
  | none => exact .nil
  | some e => simp [Expr.oneLine_chars (h e rfl)]

/-- Parameters have one line. -/
theorem oneLine_paramsChars {params : List String} (h : ∀ p ∈ params, IsIdentifier p) :
    OneLine (paramsChars params) :=
  oneLine_intercalate fun p hp => (h p hp).1.oneLine

/-- A declaration has one line. -/
theorem oneLine_declarationChars (word : DeclareWord) {ds : List Declarator} (hds : FormedNames ds)
    (hinit : ∀ e ∈ ds.flatMap Declarator.exprs, e.Forall Expr.Formed) :
    OneLine (declarationChars word ds) := by
  have htexts : OneLine (", ".intercalate (ds.map Declarator.text)).toList := by
    refine oneLine_intercalate fun t ht => ?_
    obtain ⟨d, hd, rfl⟩ := List.mem_map.1 ht
    have hname := (hds.2 d hd).1.oneLine
    unfold Declarator.text
    split
    · rename_i e he
      have hline :=
        Expr.oneLine_chars (hinit e (List.mem_flatMap.2 ⟨d, hd, Option.mem_toList.2 he⟩))
      simp_all [Expr.textAt, Expr.chars]
    · exact hname
  rw [declarationChars_eq, OneLine.append_iff, OneLine.cons_iff]
  exact ⟨(isWord_declareWord word).1.oneLine, by decide, htexts⟩

/-- The start of a counting loop has one line. -/
theorem oneLine_initChars {init : Option ForInit} (hnames : ∀ w ds, init = some (.declare w ds) →
      FormedNames ds) (hinit : ∀ e ∈ init.toList.flatMap ForInit.exprs, e.Forall Expr.Formed) :
    OneLine (initChars init) := by
  match init with
  | none => exact .nil
  | some (.declare w ds) =>
    exact oneLine_declarationChars w (hnames w ds rfl) fun e he =>
      hinit e (by simpa [ForInit.exprs] using he)
  | some (.expr e) => exact Expr.oneLine_chars (hinit e (by simp [ForInit.exprs]))

end headers

/-- What holds of all expressions of a counting loop holds of those in its clauses. -/
theorem Stmt.forLoop_clauses {P : Expr → Prop} {init : Option ForInit} {t u : Option Expr}
    {body : Stmt} {s : Span} (h : ∀ e ∈ (forLoop init t u body s).exprs, P e) :
    (∀ e ∈ init.toList.flatMap ForInit.exprs, P e) ∧ (∀ e ∈ t, P e) ∧ ∀ e ∈ u, P e := by
  refine ⟨fun e he => h e ?_, fun e he => h e ?_, fun e he => h e ?_⟩
  all_goals simp only [exprs, List.mem_append]
  · exact .inl (.inl he)
  · exact .inl (.inr (Option.mem_toList.2 he))
  · exact .inr (Option.mem_toList.2 he)

/-- The names that a formed counting loop declares are formed. -/
theorem Stmt.forLoop_names {init : Option ForInit} {t u : Option Expr} {body : Stmt} {s : Span}
    (h : (forLoop init t u body s).Formed) :
    ∀ w ds, init = some (.declare w ds) → FormedNames ds := by
  rintro w ds rfl
  exact h

/-- The text of a statement has as many lines as its shape asks for, at every width and level. -/
theorem Stmt.count_chars {s : Stmt} (hs : s.Forall Formed) (he : s.ForallExpr Expr.Formed)
    (width level : Nat) : (s.chars width level).count '\n' = s.height := by
  induction s using Stmt.induction generalizing level with
  | step s ih =>
  have hin : ∀ c ∈ s.children, ∀ level, (c.chars width level).count '\n' =
      c.height := fun c hc level =>
    ih c hc (hs.inside c hc) (he.inside c hc) level
  have hhere := hs.here
  have hexprs : ∀ e ∈ s.exprs, e.Forall Expr.Formed := he.here
  clear ih hs he
  cases s with
  | function name params body s =>
    have hbraces := count_bracesChars width level (fun c hc => hin c hc (level + 1) : ∀ c ∈ body, _)
    have hname := hhere.1.1.oneLine.count
    have hparams := (oneLine_paramsChars hhere.2).count
    simp [chars_function, List.count_append, height, hbraces, hname, hparams]
  | declare word ds s =>
    simp [chars_declare, List.count_append, height,
      (oneLine_declarationChars word hhere hexprs).count]
  | branch t c a s =>
    have hheader :=
      (oneLine_headerChars (by decide : IsWord "if") (hexprs t List.mem_cons_self)).count
    have hc := hin c List.mem_cons_self
    cases a with
    | none => simp [chars_branch, bodyChars, List.count_append, height, hheader, count_gap, hc]
    | some a =>
      have ha := hin a (by simp [children])
      simp [chars_branchElse, bodyChars, elseChars, List.count_append, height, hheader, count_gap,
        count_gapBehind, count_elseGap, hc, ha]
      omega
  | whileLoop t body s =>
    have hheader :=
      (oneLine_headerChars (by decide : IsWord "while") (hexprs t List.mem_cons_self)).count
    simp [chars_whileLoop, bodyChars, List.count_append, height, hheader, count_gap,
      hin body List.mem_cons_self]
  | forLoop init t u body s =>
    obtain ⟨hinit, ht, hu⟩ := forLoop_clauses hexprs
    simp [chars_forLoop, bodyChars, List.count_append, height, count_gap,
      hin body List.mem_cons_self, (oneLine_initChars (forLoop_names hhere) hinit).count,
      (oneLine_clauseChars ht).count, (oneLine_clauseChars hu).count]
  | ret value s =>
    have hvalue := (oneLine_clauseChars fun e he => hexprs e (Option.mem_toList.2 he)).count
    simp [chars_ret, List.count_append, height, hvalue]
  | block body s =>
    have hbraces := count_bracesChars width level (fun c hc => hin c hc (level + 1) : ∀ c ∈ body, _)
    rw [chars_block, hbraces, height]
  | expr e s =>
    simp [chars_expr, List.count_append, height,
      (Expr.oneLine_chars (hexprs e List.mem_cons_self)).count]
  | breakLoop s => exact (by decide : "break;".toList.count '\n' = 0)
  | continueLoop s => exact (by decide : "continue;".toList.count '\n' = 0)
  | empty s => exact (by decide : ";".toList.count '\n' = 0)

/-! ## The lines of branches -/

mutual

/-- The lines on which the branches stand in the text of a statement that starts on the given
line. -/
def Stmt.linesFrom (line : Nat) : Stmt → List Nat
  | .function _ _ body _ | .block body _ => linesFromAll (line + 1) body
  | .branch _ c none _ => line :: c.linesFrom (line + c.drop)
  | .branch _ c (some a) _ =>
    line :: (c.linesFrom (line + c.drop) ++
      a.linesFrom (line + (c.drop + c.height + c.dropBehind) + a.elseDrop))
  | .whileLoop _ body _ | .forLoop _ _ _ body _ => body.linesFrom (line + body.drop)
  | .declare _ _ _ | .ret _ _ | .expr _ _ | .breakLoop _ | .continueLoop _ | .empty _ => []

/-- The lines on which the branches stand in the texts of statements on lines of their own, from the
given line on. -/
def Stmt.linesFromAll (line : Nat) : List Stmt → List Nat
  | [] => []
  | s :: ss => s.linesFrom line ++ linesFromAll (line + (s.height + 1)) ss

end

/-- The lines on which the branches of a program stand in its canonical text. -/
def Program.canonicalLines (p : Program) : List Nat := Stmt.linesFromAll 0 p.body

/-- Line numbers in ascending order, from `lo` up to and excluding `hi`. -/
def Ascending (lo hi : Nat) (lines : List Nat) : Prop :=
  lines.Pairwise (· < ·) ∧ ∀ l ∈ lines, lo ≤ l ∧ l < hi

namespace Ascending

variable {lo lo' mid hi hi' : Nat} {as bs : List Nat}

/-- Without lines there is nothing to ascend. -/
theorem nil : Ascending lo hi [] := ⟨.nil, fun _ h => absurd h List.not_mem_nil⟩

/-- The bounds may be wider. -/
theorem mono (h : Ascending lo hi as) (hlo : lo' ≤ lo) (hhi : hi ≤ hi') : Ascending lo' hi' as := by
  refine ⟨h.1, fun l hl => ?_⟩
  have := h.2 l hl
  omega

/-- Lines within bounds that follow each other ascend together. -/
theorem append (ha : Ascending lo mid as) (hb : Ascending mid hi bs) (hlo : lo ≤ mid)
    (hhi : mid ≤ hi) : Ascending lo hi (as ++ bs) := by
  refine ⟨List.pairwise_append.2 ⟨ha.1, hb.1, fun a hma b hmb => ?_⟩, fun l hl => ?_⟩
  · have := ha.2 a hma
    have := hb.2 b hmb
    omega
  · rcases List.mem_append.1 hl with h | h
    · have := ha.2 l h
      omega
    · have := hb.2 l h
      omega

/-- A line in front of others ascends with them. -/
theorem cons (ha : Ascending (lo + 1) hi as) (hhi : lo < hi) : Ascending lo hi (lo :: as) := by
  refine ⟨List.pairwise_cons.2 ⟨fun l hl => (ha.2 l hl).1, ha.1⟩, fun l hl => ?_⟩
  rcases List.mem_cons.1 hl with rfl | h
  · omega
  · have := ha.2 l h
    omega

end Ascending

namespace Stmt

/-- A statement drops one line at most. -/
theorem drop_le (s : Stmt) : s.drop ≤ 1 := by
  cases s
  all_goals simp [drop]

/-- What follows drops no less. -/
theorem drop_le_dropBehind (c : Stmt) : c.drop ≤ c.dropBehind := by
  cases c
  all_goals simp [drop, dropBehind, isBlock]

/-- Somewhere between a header and its `else` a line ends. -/
theorem one_le_height_add_dropBehind (c : Stmt) : 1 ≤ c.height + c.dropBehind := by
  cases c
  all_goals simp [dropBehind, isBlock, height]

/-- Behind `else` a statement drops as elsewhere, or stays on the line. -/
theorem elseDrop_cases (a : Stmt) : a.elseDrop = a.drop ∨ a.elseDrop = 0 ∧ a.drop = 1 := by
  cases a
  all_goals simp [elseDrop, isBranch, drop]

/-- The branches of statements on lines of their own stand on ascending lines, if those of each
statement do. -/
theorem ascending_linesFromAll {ss : List Stmt} (h : ∀ s ∈ ss, ∀ line,
      Ascending (line + 1 - s.drop) (line + s.height + s.drop) (s.linesFrom line)) (line : Nat) :
    Ascending line (line + heightAll ss) (linesFromAll line ss) := by
  induction ss generalizing line with
  | nil => exact .nil
  | cons s ss ih =>
    have hs := h s List.mem_cons_self line
    have hss := ih (fun t ht => h t (List.mem_cons_of_mem _ ht)) (line + (s.height + 1))
    have hdrop := s.drop_le
    rw [linesFromAll, heightAll]
    have hfirst : Ascending line (line + (s.height + 1)) (s.linesFrom line) :=
      hs.mono (by omega) (by omega)
    exact hfirst.append (hss.mono (Nat.le_refl _) (by omega)) (by omega) (by omega)

/-- The branches of a statement stand on ascending lines. Those of a block keep away from its first
and its last line. -/
theorem ascending_linesFrom (s : Stmt) (line : Nat) :
    Ascending (line + 1 - s.drop) (line + s.height + s.drop) (s.linesFrom line) := by
  induction s using Stmt.induction generalizing line with
  | step s ih =>
  cases s with
  | function name params body s =>
    have hbody : Ascending (line + 1) (line + 1 + heightAll body) (linesFromAll (line + 1) body) :=
      ascending_linesFromAll ih (line + 1)
    have hheight : (function name params body s).height = heightAll body + 1 := rfl
    exact hbody.mono (Nat.sub_le _ _) (by omega)
  | block body s =>
    have hbody : Ascending (line + 1) (line + 1 + heightAll body) (linesFromAll (line + 1) body) :=
      ascending_linesFromAll ih (line + 1)
    have hheight : (block body s).height = heightAll body + 1 := rfl
    exact hbody.mono (Nat.sub_le _ _) (by omega)
  | branch t c a s =>
    have hc := ih c List.mem_cons_self (line + c.drop)
    have hdrop := c.drop_le
    have hdropSelf : (branch t c a s).drop = 1 := rfl
    rw [hdropSelf, Nat.add_sub_cancel]
    cases a with
    | none =>
      have hheight : (branch t c none s).height = c.drop + c.height := rfl
      exact .cons (hc.mono (by omega) (by omega)) (by omega)
    | some a =>
      have hheight : (branch t c (some a) s).height = c.drop + c.height + c.dropBehind +
          (a.elseDrop + a.height) := rfl
      have ha := ih a (by simp [children]) (line + (c.drop + c.height + c.dropBehind) + a.elseDrop)
      have hbehind := c.drop_le_dropBehind
      have hone := c.one_le_height_add_dropBehind
      have helse := a.elseDrop_cases
      have hdropA := a.drop_le
      -- the branches of the first part end above the line of `else`, which is below the header
      have hfirst : Ascending (line + 1) (line + (c.drop + c.height + c.dropBehind))
          (c.linesFrom (line + c.drop)) :=
        hc.mono (by omega) (by omega)
      exact .cons (hfirst.append (ha.mono (by omega) (by omega)) (by omega) (by omega)) (by omega)
  | whileLoop t body s | forLoop init t u body s =>
    have hbody := ih body List.mem_cons_self (line + body.drop)
    have hdrop := body.drop_le
    refine hbody.mono ?_ ?_
    · change line + 1 - 1 ≤ _
      omega
    · change _ ≤ line + (body.drop + body.height) + 1
      omega
  | _ => exact .nil

/-- Statements have as many lines as branches if each of them has. -/
theorem length_linesFromAll {ss : List Stmt}
    (h : ∀ s ∈ ss, ∀ line, (s.linesFrom line).length = s.branchLines.length) (line : Nat) :
    (linesFromAll line ss).length = (branchLinesAll ss).length := by
  induction ss generalizing line with
  | nil => rfl
  | cons s ss ih =>
    rw [linesFromAll, branchLinesAll, List.length_append, List.length_append,
      h s List.mem_cons_self, ih fun t ht => h t (List.mem_cons_of_mem _ ht)]

/-- There is one line for each branch. -/
theorem length_linesFrom (s : Stmt) (line : Nat) :
    (s.linesFrom line).length = s.branchLines.length := by
  induction s using Stmt.induction generalizing line with
  | step s ih =>
  cases s with
  | function name params body s | block body s => exact length_linesFromAll ih (line + 1)
  | branch t c a s =>
    have hc := ih c List.mem_cons_self
    cases a with
    | none => simp [linesFrom, branchLines, hc]
    | some a => simp [linesFrom, branchLines, hc, ih a (by simp [children])]
  | whileLoop t body s | forLoop init t u body s => exact ih body List.mem_cons_self _
  | _ => rfl

end Stmt

/-- In canonical text every branch has a line of its own. -/
theorem Program.ascending_canonicalLines (p : Program) : p.canonicalLines.Pairwise (· < ·) :=
  (Stmt.ascending_linesFromAll (fun s _ => s.ascending_linesFrom) 0).1

/-- A program has as many canonical lines as branches. -/
theorem Program.length_canonicalLines (p : Program) :
    p.canonicalLines.length = p.branchLines.length :=
  Stmt.length_linesFromAll (fun s _ => s.length_linesFrom) 0

end BranchPaint
