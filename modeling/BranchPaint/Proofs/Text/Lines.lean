import BranchPaint.Markup
import BranchPaint.Proofs.Source.Place

/-!
# Lines of a text

The lines of a text are what stands between its line feeds: put together with line feeds they are
the text again (`intercalate_textLines`), and there is one more of them than line feeds
(`length_textLines`).

Lines are cut from the text, while the line and the column of a place are counted by a reader that
moves over it. Both agree: the line of a place is the line with that number, and as many of its
characters as the column says stand before the place (`exists_line_at_place`).
-/

namespace BranchPaint

/-! ## Cutting a text -/

/-- Cutting at a character is splitting the list there. -/
theorem splitChars_eq_splitOn (sep : Char) (cs : List Char) :
    splitChars sep cs = cs.splitOn sep := by
  induction cs with
  | nil => rfl
  | cons c cs ih =>
    rw [splitChars, List.splitOn_cons_eq_if_modifyHead, ih]
    obtain ⟨piece, pieces, hpieces⟩ := List.exists_cons_of_ne_nil (List.splitOn_ne_nil sep cs)
    rw [hpieces]
    simp only [beq_iff_eq, List.modifyHead_cons]

/-- A line feed at the start ends an empty line. -/
theorem textLines_feed (cs : List Char) : textLines ('\n' :: cs) = [] :: textLines cs := rfl

/-- Any other character at the start belongs to the first line. -/
theorem textLines_cons {c : Char} (hc : c ≠ '\n') {cs first : List Char} {rest : List (List Char)}
    (h : textLines cs = first :: rest) : textLines (c :: cs) = (c :: first) :: rest := by
  unfold textLines at h ⊢
  rw [splitChars, if_neg hc, h]

/-- A text has a first line. -/
theorem exists_textLines (cs : List Char) : ∃ first rest, textLines cs = first :: rest := by
  unfold textLines
  rw [splitChars_eq_splitOn]
  exact List.exists_cons_of_ne_nil (List.splitOn_ne_nil _ cs)

/-- Lines put together are the text again. -/
theorem intercalate_textLines (cs : List Char) : ['\n'].intercalate (textLines cs) = cs := by
  unfold textLines
  rw [splitChars_eq_splitOn]
  exact List.intercalate_splitOn '\n'

/-- A line holds no line feed. -/
theorem not_mem_of_mem_textLines {cs line : List Char} (h : line ∈ textLines cs) : '\n' ∉ line := by
  induction cs generalizing line with
  | nil =>
    obtain rfl := List.mem_singleton.1 h
    exact List.not_mem_nil
  | cons c cs ih =>
    obtain ⟨first, rest, hcs⟩ := exists_textLines cs
    rw [hcs] at ih
    by_cases hc : c = '\n'
    · rw [hc, textLines_feed, hcs] at h
      rcases List.mem_cons.1 h with rfl | h
      · exact List.not_mem_nil
      · exact ih h
    · rw [textLines_cons hc hcs] at h
      rcases List.mem_cons.1 h with rfl | h
      · exact List.not_mem_cons_of_ne_of_not_mem (Ne.symm hc) (ih List.mem_cons_self)
      · exact ih (List.mem_cons_of_mem _ h)

/-- There is one more line than line feeds. -/
theorem length_textLines (cs : List Char) : (textLines cs).length = cs.count '\n' + 1 := by
  induction cs with
  | nil => rfl
  | cons c cs ih =>
    obtain ⟨first, rest, hcs⟩ := exists_textLines cs
    rw [hcs] at ih
    by_cases hc : c = '\n'
    · rw [hc, textLines_feed, hcs, List.length_cons, ih, List.count_cons_self]
    · rw [textLines_cons hc hcs, List.count_cons_of_ne hc]
      exact ih

/-- The first line is the start of the text. -/
theorem exists_append_of_textLines {cs first : List Char} {rest : List (List Char)}
    (h : textLines cs = first :: rest) : ∃ more, cs = first ++ more := by
  rw [← intercalate_textLines cs, h]
  cases rest with
  | nil => exact ⟨[], by simp⟩
  | cons second rest => exact ⟨_, List.intercalate_cons_cons.trans (List.append_assoc _ _ _)⟩

/-! ## Lines and places -/

/-- Behind the characters `as`, a reader stands on the line whose number it counted. What is left of
this line is the first line of the text still to be read. -/
theorem exists_line_behind (as bs : List Char) (p : Position) : ∃ lines before after more,
    textLines (as ++ bs) = lines ++ (before ++ after) :: more ∧ textLines bs = after :: more ∧
      (p.advance as).line = p.line + lines.length ∧
      (p.advance as).column = before.length + if lines = [] then p.column else 0 := by
  induction as generalizing p with
  | nil =>
    obtain ⟨after, more, hbs⟩ := exists_textLines bs
    exact ⟨[], [], after, more, hbs, hbs, rfl, by simp⟩
  | cons c as ih =>
    obtain ⟨lines, before, after, more, htext, hbs, hline, hcolumn⟩ := ih (p.next c)
    rw [Position.advance_cons, hline, hcolumn]
    by_cases hc : c = '\n'
    · subst hc
      refine ⟨[] :: lines, before, after, more, ?_, hbs, ?_, ?_⟩
      · rw [List.cons_append, textLines_feed, htext, List.cons_append]
      · rw [Position.next_lineFeed_line, List.length_cons, Nat.add_assoc, Nat.add_comm 1]
      · simp [Position.next]
    · have hnext : (p.next c).column = p.column + 1 := by rw [Position.next, if_neg hc]
      rw [Position.next_line hc, hnext]
      cases lines with
      | nil =>
        refine ⟨[], c :: before, after, more, textLines_cons hc htext, hbs, rfl, ?_⟩
        rw [if_pos rfl, if_pos rfl, List.length_cons, Nat.add_comm p.column, Nat.add_assoc]
      | cons line lines =>
        exact ⟨(c :: line) :: lines, before, after, more, textLines_cons hc htext,
          hbs, rfl, by simp⟩

/-- A place stands on the line of its number, behind as many characters as its column says. -/
theorem exists_line_at_place (text : List Char) (i : Nat) : ∃ before after more,
    (textLines text)[(place text i).line]? = some (before ++ after) ∧
      before.length = (place text i).column ∧
      textLines (text.drop i) = after :: more := by
  obtain ⟨lines, before, after, more, htext, hrest, hline, hcolumn⟩ :=
    exists_line_behind (text.take i) (text.drop i) .start
  rw [List.take_append_drop] at htext
  refine ⟨before, after, more, ?_, ?_, hrest⟩
  · rw [htext, place, hline]
    simp [Position.start]
  · rw [place, hcolumn]
    simp [Position.start]

end BranchPaint
