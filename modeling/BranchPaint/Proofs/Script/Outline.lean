import BranchPaint.Proofs.Grammar.Lexeme
import BranchPaint.Proofs.Source.Place
import BranchPaint.Script.Tree

/-!
# Outlines

All that spans are about, as one kind of tree: a node is a span, a mark that says what is to be
found there, and the nodes right inside in the order in which they are written (`Outline`).
Expressions, declared names, statements and programs all have an outline. The name behind a point is
a node of its own here, as it has a span of its own.

An outline is right in a text if each span is that of a piece of the text that fits the mark, and
the nodes right inside a node stand within it, one behind the other (`Outline.Right`). For following
a reader the same is said with places (`Outline.Laid`, `Outline.Run`): such runs can be appended,
and a run of two nodes can be merged into one.
-/

namespace BranchPaint

/-- What is to be found where a node stands. -/
inductive Mark where
  | plain
  /-- This name. -/
  | name (n : String)
  /-- The word `if`, and more. -/
  | branch

/-- The text is what the mark says. -/
def Mark.Fits (text : List Char) : Mark → Prop
  | plain => True
  | name n => text = n.toList
  | branch => ∃ rest, text = "if".toList ++ rest ∧ EndsWord rest

/-- A node: where it stands, what is to be found there, and the nodes right inside. -/
inductive Outline where
  | node (span : Span) (mark : Mark) (inside : List Outline)

/-- Where the node stands. -/
def Outline.span : Outline → Span
  | node span _ _ => span

/-! ## Outlines of trees -/

mutual

/-- The outline of an expression. -/
def Expr.outline : Expr → Outline
  | .ident n s => .node s (.name n) []
  | .bool _ s | .num _ s | .str _ s | .null s => .node s .plain []
  | .list es s | .sequence es s => .node s .plain (outlines es)
  | .member o p _ s => .node s .plain [o.outline, p.outline]
  | .call f args s => .node s .plain (f.outline :: outlines args)
  | .binary _ l r s | .logical _ l r s | .assign _ l r s => .node s .plain [l.outline, r.outline]
  | .unary _ a s | .update _ _ a s => .node s .plain [a.outline]
  | .ternary c t e s => .node s .plain [c.outline, t.outline, e.outline]

/-- The outlines of expressions. -/
def Expr.outlines : List Expr → List Outline
  | [] => []
  | e :: es => e.outline :: outlines es

end

/-- The outline of a declared name. -/
def Declarator.outline (d : Declarator) : Outline :=
  .node d.span .plain (d.init.toList.map Expr.outline)

/-- The outlines in the first clause of a counting loop. -/
def ForInit.outlines : ForInit → List Outline
  | declare _ ds => ds.map Declarator.outline
  | expr e => [e.outline]

mutual

/-- The outline of a statement. -/
def Stmt.outline : Stmt → Outline
  | .function _ _ body s | .block body s => .node s .plain (outlines body)
  | .declare _ ds s => .node s .plain (ds.map Declarator.outline)
  | .branch t c none s => .node s .branch [t.outline, c.outline]
  | .branch t c (some a) s => .node s .branch [t.outline, c.outline, a.outline]
  | .whileLoop t body s => .node s .plain [t.outline, body.outline]
  | .forLoop i t u body s => .node s .plain (i.toList.flatMap ForInit.outlines ++
      t.toList.map Expr.outline ++ u.toList.map Expr.outline ++ [body.outline])
  | .ret v s => .node s .plain (v.toList.map Expr.outline)
  | .expr e s => .node s .plain [e.outline]
  | .breakLoop s | .continueLoop s | .empty s => .node s .plain []

/-- The outlines of statements. -/
def Stmt.outlines : List Stmt → List Outline
  | [] => []
  | s :: ss => s.outline :: outlines ss

end

/-- The outline of a program. -/
def Program.outline (p : Program) : Outline := .node p.span .plain (Stmt.outlines p.body)

/-- Expressions in a row are outlined one by one. -/
theorem Expr.outlines_eq (es : List Expr) : outlines es = es.map outline := by
  induction es with
  | nil => rfl
  | cons e es ih => rw [outlines, ih, List.map_cons]

/-- The outline of a list holds those of its elements. -/
theorem Expr.outline_list (es : List Expr) (s : Span) :
    (Expr.list es s).outline = .node s .plain (es.map outline) :=
  congrArg (Outline.node s .plain) (outlines_eq es)

/-- The outline of a sequence holds those of its parts. -/
theorem Expr.outline_sequence (es : List Expr) (s : Span) :
    (Expr.sequence es s).outline = .node s .plain (es.map outline) :=
  congrArg (Outline.node s .plain) (outlines_eq es)

/-- The outline of a call holds those of what is called and of its arguments. -/
theorem Expr.outline_call (f : Expr) (args : List Expr) (s : Span) :
    (Expr.call f args s).outline = .node s .plain (f.outline :: args.map outline) :=
  congrArg (fun os => Outline.node s .plain (f.outline :: os)) (outlines_eq args)

/-- Statements in a row are outlined one by one. -/
theorem Stmt.outlines_eq (ss : List Stmt) : outlines ss = ss.map outline := by
  induction ss with
  | nil => rfl
  | cons s ss ih => rw [outlines, ih, List.map_cons]

/-- The outline of an expression has its span. -/
theorem Expr.span_outline (e : Expr) : e.outline.span = e.span := by
  cases e
  all_goals rfl

/-! ## Right outlines -/

/-- The span is that of `inner`, which stands in the text behind `before`, in bytes as in lines and
columns. -/
structure Span.Covers (text before inner : String) (span : Span) : Prop where
  split : ∃ after, text = before ++ inner ++ after
  start : span.start = before.utf8ByteSize
  stop : span.stop = (before ++ inner).utf8ByteSize
  startLine : span.startLine = lineFeeds before
  startColumn : span.startColumn = lastColumn before
  stopLine : span.stopLine = lineFeeds (before ++ inner)
  stopColumn : span.stopColumn = lastColumn (before ++ inner)

/-- The mark fits what stands between two places, and a word `if` is not the start of a longer
one. -/
structure Mark.Stands (text : List Char) (i j : Nat) (mark : Mark) : Prop where
  fits : mark.Fits (slice text i j)
  whole : mark = .branch → ∃ rest, text.drop i = "if".toList ++ rest ∧ EndsWord rest

/-- A plain mark asks for nothing. -/
theorem Mark.stands_plain (text : List Char) (i j : Nat) : Mark.plain.Stands text i j :=
  ⟨trivial, nofun⟩

namespace Outline

/-- Every span of the outline is right: it ends in the text and not before it starts, covers a piece
of the text that fits the mark, and holds the spans right inside, which follow one another. -/
inductive Right (text : String) : Outline → Prop
  | node {span : Span} {mark : Mark} {inside : List Outline}
    (bounds : span.start ≤ span.stop ∧ span.stop ≤ text.utf8ByteSize)
    (covers : ∃ before inner, span.Covers text before inner ∧ mark.Fits inner.toList)
    (within : ∀ o ∈ inside, span.start ≤ o.span.start ∧ o.span.stop ≤ span.stop)
    (apart : inside.Pairwise fun o o' => o.span.stop ≤ o'.span.start)
    (each : ∀ o ∈ inside, Right text o) : Right text (node span mark inside)

/-! ## Outlines laid out in a text -/

mutual

/-- The node stands between two places, and what is inside in between. -/
def Laid (text : List Char) : Outline → Nat → Nat → Prop
  | node span mark inside, i, j =>
    i ≤ j ∧ j ≤ text.length ∧ span = stretch text i j ∧ mark.Stands text i j ∧ Run text inside i j

/-- The nodes stand between two places, one behind the other. -/
def Run (text : List Char) : List Outline → Nat → Nat → Prop
  | [], i, j => i ≤ j
  | o :: os, i, j => ∃ k l, i ≤ k ∧ o.Laid text k l ∧ Run text os l j

end

variable {text : List Char} {i j k l : Nat} {o o' : Outline} {os xs ys : List Outline}

/-- An outline is laid from left to right. -/
theorem Laid.le (h : o.Laid text i j) : i ≤ j := by
  cases o
  exact h.1

/-- It is laid within the text. -/
theorem Laid.le_length (h : o.Laid text i j) : j ≤ text.length := by
  cases o
  exact h.2.1

/-- Its span is the stretch on which it is laid. -/
theorem Laid.span_eq (h : o.Laid text i j) : o.span = stretch text i j := by
  cases o
  exact h.2.2.1

namespace Run

/-- A run goes from left to right. -/
theorem le (h : Run text os i j) : i ≤ j := by
  induction os generalizing i with
  | nil => exact h
  | cons o os ih =>
    obtain ⟨k, l, hik, ho, hos⟩ := h
    exact Nat.le_trans hik (Nat.le_trans ho.le (ih hos))

/-- A run may start further left. -/
theorem weaken_left (h : Run text os j k) (hij : i ≤ j) : Run text os i k := by
  cases os with
  | nil => exact Nat.le_trans hij h
  | cons o os =>
    obtain ⟨l, m, hjl, ho, hos⟩ := h
    exact ⟨l, m, Nat.le_trans hij hjl, ho, hos⟩

/-- Two runs can be joined. -/
theorem append (h : Run text xs i j) (h' : Run text ys j k) : Run text (xs ++ ys) i k := by
  induction xs generalizing i with
  | nil => exact h'.weaken_left h
  | cons o xs ih =>
    obtain ⟨l, m, hil, ho, hxs⟩ := h
    exact ⟨l, m, hil, ho, ih hxs⟩

/-- What is inside of a node can stand for the node. -/
theorem unwrap {span : Span} {mark : Mark} (h : Run text (node span mark xs :: os) i j) :
    Run text (xs ++ os) i j := by
  obtain ⟨k, l, hik, ho, hos⟩ := h
  exact (ho.2.2.2.2.weaken_left hik).append hos

/-- Two nodes merged into one. The second gives itself or what is inside of it. -/
theorem merge (h : Run text (o :: o' :: os) i j)
    (hys : ∀ {k l}, o'.Laid text k l → Run text ys k l) :
    Run text (node (o.span.merge o'.span) .plain (o :: ys) :: os) i j := by
  obtain ⟨a, b, hia, ho, c, d, hbc, ho', hos⟩ := h
  refine ⟨a, d, hia, ⟨?_, ho'.le_length, ?_, Mark.stands_plain _ _ _, a, b, Nat.le_refl a, ho,
      (hys ho').weaken_left hbc⟩, hos⟩
  · exact Nat.le_trans ho.le (Nat.le_trans hbc ho'.le)
  · rw [ho.span_eq, ho'.span_eq, merge_stretch ho.le hbc ho'.le]

end Run

/-! ## Laid out outlines are right -/

/-- The stretch between two places covers the text between them. -/
theorem covers_stretch (text : String) (hij : i ≤ j) :
    (stretch text.toList i j).Covers text (String.ofList (text.toList.take i))
      (String.ofList (slice text.toList i j)) := by
  have hstop : String.ofList (text.toList.take i) ++ String.ofList (slice text.toList i j) =
      String.ofList (text.toList.take j) := by
    rw [← String.ofList_append, take_append_slice hij]
  have hi := Position.advance_start (text.toList.take i)
  have hj := Position.advance_start (text.toList.take j)
  refine ⟨⟨String.ofList (text.toList.drop j), ?_⟩, ?_, ?_, ?_, ?_, ?_, ?_⟩
  · rw [hstop, ← String.ofList_append, List.take_append_drop, String.ofList_toList]
  · exact congrArg Position.offset hi
  · exact (congrArg Position.offset hj).trans (by rw [hstop])
  · exact congrArg Position.line hi
  · exact congrArg Position.column hi
  · exact (congrArg Position.line hj).trans (by rw [hstop])
  · exact (congrArg Position.column hj).trans (by rw [hstop])

/-- No place is behind the end of the text. -/
theorem offset_place_le_size (text : String) (i : Nat) :
    (place text.toList i).offset ≤ text.utf8ByteSize := by
  have hall : (place text.toList (i + text.toList.length)).offset = text.utf8ByteSize := by
    rw [place, List.take_of_length_le (Nat.le_add_left _ _), Position.advance_start,
      String.ofList_toList]
  rw [← hall]
  exact offset_place_le (Nat.le_add_right _ _)

mutual

/-- What is laid out in a text is right. -/
theorem Laid.right {text : String} :
    {o : Outline} → {i j : Nat} → o.Laid text.toList i j → o.Right text
  | node span mark inside, i, j, ⟨hij, hj, hspan, hmark, hrun⟩ => by
    subst hspan
    obtain ⟨hwithin, hapart, heach⟩ := hrun.right
    refine .node ⟨offset_place_le hij, offset_place_le_size text j⟩ ⟨_, _, covers_stretch text hij,
      ?_⟩ hwithin hapart heach
    rw [String.toList_ofList]
    exact hmark.fits

/-- The spans in a run stand in order, within its bounds, and are right. -/
theorem Run.right {text : String} : {os : List Outline} → {i j : Nat} → Run text.toList os i j →
    (∀ o ∈ os, (place text.toList i).offset ≤ o.span.start ∧
        o.span.stop ≤ (place text.toList j).offset) ∧
      os.Pairwise (fun o o' => o.span.stop ≤ o'.span.start) ∧ ∀ o ∈ os, o.Right text
  | [], i, j, _ =>
    ⟨fun _ ho => absurd ho List.not_mem_nil, .nil, fun _ ho => absurd ho List.not_mem_nil⟩
  | o :: os, i, j, ⟨k, l, hik, ho, hos⟩ => by
    obtain ⟨hwithin, hapart, heach⟩ := hos.right
    have hstart : o.span.start = (place text.toList k).offset := congrArg Span.start ho.span_eq
    have hstop : o.span.stop = (place text.toList l).offset := congrArg Span.stop ho.span_eq
    refine ⟨List.forall_mem_cons.2 ⟨⟨?_, ?_⟩, fun o' ho' => ⟨?_, (hwithin o' ho').2⟩⟩,
      .cons (fun o' ho' => ?_) hapart, List.forall_mem_cons.2 ⟨ho.right, heach⟩⟩
    · rw [hstart]
      exact offset_place_le hik
    · rw [hstop]
      exact offset_place_le hos.le
    · exact Nat.le_trans (offset_place_le (Nat.le_trans hik ho.le)) (hwithin o' ho').1
    · rw [hstop]
      exact (hwithin o' ho').1

end

end Outline

end BranchPaint
