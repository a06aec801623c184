import BranchPaint.Proofs.Grammar.Extent
import BranchPaint.Proofs.Report.Truth
import BranchPaint.Proofs.Script.Inside
import BranchPaint.Proofs.Text.Lines

/-!
# Classified lines are highlighted

A painting has a paragraph for each line of the source, and those of the classified lines carry a
mark, each in its colour; no other paragraph does (`Style.paint_highlights`).

Line numbers come from the reader, which counts line feeds as it moves over the text; paragraphs
come from the text cut at its line feeds. That both mean the same lines is `exists_line_at_place`.
So a classified line is one of the lines of the source, and the branch that it was classified for is
found there: its word `if` stands at the column where the branch starts
(`Program.exists_if_of_mem_branchLines`).
-/

namespace BranchPaint

/-! ## Branches and where they stand -/

/-- A branch of the program has the given span. -/
def Program.HasBranch (p : Program) (span : Span) : Prop :=
  ∃ s ∈ p.body, ∃ t c a, Stmt.Inside (.branch t c a span) s

/-- The lines of branches in statements are those in each of them. -/
theorem Stmt.mem_branchLinesAll {ss : List Stmt} {line : Nat} :
    line ∈ branchLinesAll ss ↔ ∃ s ∈ ss, line ∈ s.branchLines := by
  induction ss with
  | nil => simp [branchLinesAll]
  | cons s ss ih => simp [branchLinesAll, ih]

/-- On the line of a branch, a branch starts. -/
theorem Stmt.exists_branch_of_mem_branchLines {s : Stmt} {line : Nat} (h : line ∈ s.branchLines) :
    ∃ t c a span, Inside (.branch t c a span) s ∧ span.startLine = line := by
  induction s using Stmt.induction with
  | step s ih =>
  have hinside : ∀ c ∈ s.children, line ∈ c.branchLines →
      ∃ t c a span, Inside (.branch t c a span) s ∧ span.startLine = line := by
    intro c hc hline
    obtain ⟨t, c', a, span, hb, hspan⟩ := ih c hc hline
    exact ⟨t, c', a, span, .child hc hb, hspan⟩
  cases s with
  | function _ _ body _ | block body _ =>
    obtain ⟨c, hc, hline⟩ := mem_branchLinesAll.1 h
    exact hinside c hc hline
  | branch t c a span =>
    rw [branchLines_branch] at h
    rcases List.mem_cons.1 h with rfl | h
    · exact ⟨t, c, a, span, .self, rfl⟩
    · rcases List.mem_append.1 h with h | h
      · exact hinside c (by cases a <;> simp [children]) h
      · cases a with
        | none => cases h
        | some a => exact hinside a (by simp [children]) h
  | whileLoop _ body _ | forLoop _ _ _ body _ => exact hinside body List.mem_cons_self h
  | _ => cases h

variable {text : List Char} {i j : Nat}

/-- Each of the outlines in a run is laid somewhere. -/
theorem Outline.Run.laid_of_mem {os : List Outline} {o : Outline} (h : Run text os i j)
    (ho : o ∈ os) : ∃ k l, o.Laid text k l := by
  induction os generalizing i with
  | nil => cases ho
  | cons o' os ih =>
    obtain ⟨k, l, -, ho', hos⟩ := h
    rcases List.mem_cons.1 ho with rfl | ho
    · exact ⟨k, l, ho'⟩
    · exact ih hos ho

/-- The statements right inside a statement that is laid out are laid out. -/
theorem Stmt.laid_of_mem_children {s c : Stmt} (hc : c ∈ s.children) (h : s.outline.Laid text i j) :
    ∃ k l, c.outline.Laid text k l := by
  cases s with
  | function _ _ body _ | block body _ =>
    refine h.2.2.2.2.laid_of_mem ?_
    rw [outlines_eq]
    exact List.mem_map_of_mem hc
  | branch t c' a span =>
    cases a with
    | none =>
      obtain rfl := List.mem_singleton.1 hc
      exact h.2.2.2.2.laid_of_mem (by simp)
    | some a =>
      refine h.2.2.2.2.laid_of_mem ?_
      simp only [children, Option.toList_some, List.mem_cons, List.not_mem_nil, or_false] at hc
      rcases hc with rfl | rfl
      all_goals simp
  | whileLoop _ body _ | forLoop _ _ _ body _ =>
    obtain rfl := List.mem_singleton.1 hc
    exact h.2.2.2.2.laid_of_mem (by simp)
  | _ => cases hc

/-- A statement inside one that is laid is laid too. -/
theorem Stmt.Inside.laid {b s : Stmt} (hb : Inside b s) (h : s.outline.Laid text i j) :
    ∃ k l, b.outline.Laid text k l := by
  induction hb generalizing i j with
  | self => exact ⟨i, j, h⟩
  | child hc _ ih =>
    obtain ⟨k, l, hlaid⟩ := laid_of_mem_children hc h
    exact ih hlaid

/-- The line of a branch holds the word `if` at the column where the branch starts. -/
theorem Outline.Laid.exists_if {span : Span} {inside : List Outline}
    (h : (node span .branch inside).Laid text i j) :
    ∃ before after, (textLines text)[span.startLine]? = some (before ++ ("if".toList ++ after)) ∧
      before.length = span.startColumn ∧ EndsWord after := by
  obtain ⟨-, -, rfl, hstands, -⟩ := h
  obtain ⟨rest, hrest, hends⟩ := hstands.whole rfl
  obtain ⟨before, after, more, hline, hcolumn, hafter⟩ := exists_line_at_place text i
  obtain ⟨first, others, hfirst⟩ := exists_textLines rest
  have hif : textLines ("if".toList ++ rest) = ("if".toList ++ first) :: others :=
    textLines_cons (by decide) (textLines_cons (by decide) hfirst)
  rw [hrest, hif] at hafter
  obtain ⟨rfl, -⟩ := List.cons.inj hafter
  obtain ⟨tail, rfl⟩ := exists_append_of_textLines hfirst
  exact ⟨before, first, hline, hcolumn, hends.of_append⟩

/-- Each line of a branch has the word `if` where the branch starts. -/
theorem Program.exists_if_of_mem_branchLines {source : String} {p : Program}
    (h : Program.parse source = .ok p) {line : Nat} (hline : line ∈ p.branchLines) :
    ∃ span before after, p.HasBranch span ∧ span.startLine = line ∧
      (textLines source.toList)[line]? = some (before ++ ("if".toList ++ after)) ∧
        before.length = span.startColumn ∧
        EndsWord after := by
  obtain ⟨s, hs, hline⟩ := Stmt.mem_branchLinesAll.1 hline
  obtain ⟨t, c, a, span, hb, rfl⟩ := s.exists_branch_of_mem_branchLines hline
  obtain ⟨u, hu⟩ := Program.parse_eq_ok_iff.1 h
  obtain ⟨-, -, i, j, -, hprogram, -⟩ :=
    Grammar.lays_program _ ⟨0, Cursor.at_ofString source, Nat.le_refl 0⟩ p u hu
  have hbody := hprogram.2.2.2.2
  rw [Stmt.outlines_eq] at hbody
  obtain ⟨k, l, hlaid⟩ := hbody.laid_of_mem (List.mem_map_of_mem hs)
  obtain ⟨k, l, hlaid⟩ := hb.laid hlaid
  have hnode : ∃ inside, (Stmt.branch t c a span).outline = .node span .branch inside := by
    cases a
    all_goals exact ⟨_, rfl⟩
  obtain ⟨inside, hnode⟩ := hnode
  rw [hnode] at hlaid
  obtain ⟨before, after, hfound, hcolumn, hends⟩ := hlaid.exists_if
  exact ⟨span, before, after, ⟨s, hs, t, c, a, hb⟩, rfl, hfound, hcolumn, hends⟩

/-! ## Paragraphs of classified lines -/

/-- A set of lines has as many elements as its list. -/
theorem LineSet.card_lines (s : LineSet) : s.lines.card = s.toList.length :=
  List.toFinset_card_of_nodup (s.ascending.imp Nat.ne_of_lt)

namespace Palette

/-- Paragraphs for the given lines, in order: those of the lines that are taken or not taken carry a
mark, each in its colour, and all other lines stand as they are. A paragraph carries a mark if the
text of its own line stands in one; a text that looks like a mark is not one. -/
structure Highlights (palette : Palette) (c : Classification) (lines : List (List Char))
    (ps : List String) : Prop where
  length : ps.length = lines.length
  taken {i : Nat} {line : List Char} : c.taken.contains i = true → lines[i]? = some line →
    ps[i]? = some (marked palette.takenColor (palette.lineText line))
  notTaken {i : Nat} {line : List Char} : c.notTaken.contains i = true → lines[i]? = some line →
    ps[i]? = some (marked palette.notTakenColor (palette.lineText line))
  plain {i : Nat} {line : List Char} : ¬ c.taken.contains i = true → ¬ c.notTaken.contains i =
    true → lines[i]? = some line → ps[i]? = some ("<p>" ++ palette.lineText line ++ "</p>")
  count : {i : Nat | ∃ line color, lines[i]? = some line ∧ ps[i]? = some
    (marked color (palette.lineText line))}.ncard = c.taken.toList.length + c.notTaken.toList.length

/-- A frame around a text that is also framed otherwise is no longer than the other frame. -/
theorem length_le_of_framed {a color b text c a' c' : String}
    (h : a ++ color ++ b ++ text ++ c = a' ++ text ++ c') :
    a.length + c.length ≤ a'.length + c'.length := by
  have hlength := congrArg String.length h
  simp only [String.length_append] at hlength
  omega

/-- A paragraph is longer with a mark than without. -/
theorem marked_ne_plain (color text : String) :
    marked color text ≠ "<p>" ++ text ++ "</p>" := fun h =>
  absurd (length_le_of_framed h) (by decide)

/-- Each line has its paragraph, marked by the state of the line. -/
theorem getElem?_paragraphs (palette : Palette) {c : Classification} {source : String} {i : Nat}
    {line : List Char} {state : LineState} (hstate : c.lineState i = state)
    (h : (textLines source.toList)[i]? = some line) :
    (palette.paragraphs c source)[i]? = some (palette.paragraph state line) := by
  rw [paragraphs, List.getElem?_mapIdx, h, ← hstate]
  rfl

/-- If no line is classified twice, and all classified lines are lines of the text, then its
paragraphs highlight them. -/
theorem highlights_paragraphs (palette : Palette) {c : Classification} {source : String}
    (hdisjoint : Disjoint c.taken.lines c.notTaken.lines)
    (hlines : ∀ i ∈ c.taken.lines ∪ c.notTaken.lines,
      ∃ line, (textLines source.toList)[i]? = some line) :
    palette.Highlights c (textLines source.toList) (palette.paragraphs c source) := by
  have htaken {i : Nat} {line : List Char} (hi : c.taken.contains i = true)
      (hline : (textLines source.toList)[i]? = some line) : (palette.paragraphs c source)[i]? =
      some (marked palette.takenColor (palette.lineText line)) :=
    palette.getElem?_paragraphs (if_pos hi) hline
  have hnotTaken {i : Nat} {line : List Char} (hi : c.notTaken.contains i = true)
      (hline : (textLines source.toList)[i]? = some line) : (palette.paragraphs c source)[i]? =
      some (marked palette.notTakenColor (palette.lineText line)) := by
    have hnot : ¬ c.taken.contains i = true := fun htaken =>
      Finset.disjoint_left.1 hdisjoint (LineSet.mem_lines.2 htaken) (LineSet.mem_lines.2 hi)
    exact palette.getElem?_paragraphs ((if_neg hnot).trans (if_pos hi)) hline
  have hplain {i : Nat} {line : List Char} (hi : ¬ c.taken.contains i = true)
      (hi' : ¬ c.notTaken.contains i = true) (hline : (textLines source.toList)[i]? = some line) :
      (palette.paragraphs c source)[i]? = some ("<p>" ++ palette.lineText line ++ "</p>") :=
    palette.getElem?_paragraphs ((if_neg hi).trans (if_neg hi')) hline
  refine ⟨List.length_mapIdx, htaken, hnotTaken, hplain, ?_⟩
  have hset : {i : Nat | ∃ line color, (textLines source.toList)[i]? = some line ∧
      (palette.paragraphs c source)[i]? = some (marked color (palette.lineText line))} =
        ↑(c.taken.lines ∪ c.notTaken.lines) := by
    ext i
    constructor
    · rintro ⟨line, color, hline, hmarked⟩
      by_contra hnot
      rw [Finset.mem_coe, Finset.mem_union, LineSet.mem_lines, LineSet.mem_lines, not_or] at hnot
      rw [hplain hnot.1 hnot.2 hline] at hmarked
      exact marked_ne_plain _ _ (Option.some.inj hmarked).symm
    · intro hi
      obtain ⟨line, hline⟩ := hlines i hi
      rcases Finset.mem_union.1 hi with hi | hi
      · exact ⟨line, _, hline, htaken (LineSet.mem_lines.1 hi) hline⟩
      · exact ⟨line, _, hline, hnotTaken (LineSet.mem_lines.1 hi) hline⟩
  rw [hset, Set.ncard_coe_finset, Finset.card_union_of_disjoint hdisjoint, LineSet.card_lines,
    LineSet.card_lines]

end Palette

/-- Every classified line is highlighted, and no other.

Where a text is painted, the fragment is made of paragraphs, one for each of the lines of the text,
which are what stands between its line feeds. As many of them carry a mark as lines are taken or not
taken, the former in the one colour and the latter in the other. And in the text of each marked
line, at the column where some branch of the script starts, stands the word `if`. -/
theorem Style.paint_highlights (style : Style) {source params : String} {painting : Painting}
    (h : style.paint source params = .ok painting) :
    ∃ (p : Program) (lines : List (List Char)) (ps : List String),
      Program.parse source = .ok p ∧
      (['\n'].intercalate lines = source.toList ∧ (∀ line ∈ lines, '\n' ∉ line) ∧
        lines.length = lineFeeds source + 1) ∧
      painting.html = String.join ps ∧ style.palette.Highlights painting.classification lines ps ∧
      ∀ i, painting.classification.taken.contains i = true ∨
        painting.classification.notTaken.contains i = true →
        ∃ span before after, p.HasBranch span ∧ span.startLine = i ∧
          span.startColumn = before.length ∧
          lines[i]? = some (before ++ ("if".toList ++ after)) ∧ EndsWord after := by
  obtain ⟨p, values, hp, -, hclassify, hhtml⟩ := paint_eq_ok h
  have hif : ∀ i ∈ painting.classification.taken.lines ∪ painting.classification.notTaken.lines,
      ∃ span before after,
      p.HasBranch span ∧ span.startLine = i ∧ (textLines source.toList)[i]? =
        some (before ++ ("if".toList ++ after)) ∧
        before.length = span.startColumn ∧ EndsWord after := fun i hi =>
    Program.exists_if_of_mem_branchLines hp ((Program.mem_classify hclassify i).1 hi)
  refine ⟨p, textLines source.toList, style.palette.paragraphs painting.classification source, hp,
    ⟨intercalate_textLines _, fun _ => not_mem_of_mem_textLines, length_textLines _⟩, hhtml, ?_,
    fun i hi => ?_⟩
  · refine style.palette.highlights_paragraphs (Program.disjoint_classify hclassify) fun i hi => ?_
    obtain ⟨-, before, after, -, -, hline, -⟩ := hif i hi
    exact ⟨_, hline⟩
  · rw [← LineSet.mem_lines, ← LineSet.mem_lines, ← Finset.mem_union] at hi
    obtain ⟨span, before, after, hb, hstart, hline, hcolumn, hends⟩ := hif i hi
    exact ⟨span, before, after, hb, hstart, hcolumn.symm, hline, hends⟩

/-- A comment over two lines, characters of more than one byte, a line that ends with two
characters, a blank line, and two branches on one line, of which only the second is taken. -/
theorem Style.paint_highlights_sample :
    ∃ (painting : Painting) (lines : List (List Char)) (ps : List String),
    Style.paint {} "/* \u00e9\n\u20ac */ if ('a') ; // if\r\n\nif ('') ; else if ('b') ;" "" =
      .ok painting ∧
    painting.classification.taken.toList = [1] ∧ painting.classification.notTaken.toList = [3] ∧
    painting.html = String.join ps ∧
      ({} : Palette).Highlights painting.classification lines ps := by
  obtain ⟨painting, hpaint, hcheck⟩ : ∃ painting,
      Style.paint {} "/* \u00e9\n\u20ac */ if ('a') ; // if\r\n\nif ('') ; else if ('b') ;" "" =
        .ok painting ∧
      decide (painting.classification.taken.toList = [1] ∧ painting.classification.notTaken.toList =
        [3]) = true :=
    exists_ok_of_any (by decide +kernel)
  obtain ⟨-, lines, ps, -, -, hhtml, hhighlights, -⟩ := Style.paint_highlights {} hpaint
  obtain ⟨htaken, hnotTaken⟩ := of_decide_eq_true hcheck
  exact ⟨painting, lines, ps, hpaint, htaken, hnotTaken, hhtml, hhighlights⟩

end BranchPaint
