import BranchPaint.Proofs.Report.Canonical
import BranchPaint.Proofs.Text.Lines

/-!
# Indentation is only presentation

The texts of a program at two widths differ in the blanks behind line feeds alone
(`Program.text_reindented`). So they have the same lines up to indentation, and their branches stand
on the same lines. Reports made at two widths therefore fail alike or paint alike
(`Style.analyze_any_width`).
-/

namespace BranchPaint

/-! ## Text with other indentation -/

/-- The second text is the first with other numbers of blanks behind some line feeds. -/
inductive Reindented : List Char → List Char → Prop
  | nil : Reindented [] []
  | cons {as bs : List Char} (c : Char) (h : Reindented as bs) : Reindented (c :: as) (c :: bs)
  | indent {as bs : List Char} (m n : Nat) (h : Reindented as bs) :
      Reindented ('\n' :: (List.replicate m ' ' ++ as)) ('\n' :: (List.replicate n ' ' ++ bs))

/-- A line without the blanks in front of it. -/
def unindented (line : List Char) : List Char := line.dropWhile (· = ' ')

/-- Blanks in front of a line do not change its text without indentation. -/
theorem unindented_replicate_append (n : Nat) (line : List Char) :
    unindented (List.replicate n ' ' ++ line) = unindented line := by
  induction n with
  | zero => rfl
  | succ n ih => exact ih

/-- Blanks in front of a text belong to its first line. -/
theorem textLines_replicate_append (n : Nat) {cs first : List Char} {rest : List (List Char)}
    (h : textLines cs = first :: rest) :
    textLines (List.replicate n ' ' ++ cs) = (List.replicate n ' ' ++ first) :: rest := by
  induction n with
  | zero => exact h
  | succ n ih => exact textLines_cons (by decide) ih

namespace Reindented

variable {as bs cs ds : List Char}

/-- Every text is indented like itself. -/
theorem refl (as : List Char) : Reindented as as := by
  induction as with
  | nil => exact .nil
  | cons c as ih => exact .cons c ih

/-- Texts that differ in indentation only can be joined. -/
theorem append (h : Reindented as bs) (h' : Reindented cs ds) :
    Reindented (as ++ cs) (bs ++ ds) := by
  induction h with
  | nil => exact h'
  | cons c h ih => exact .cons c ih
  | indent m n h ih =>
    rw [List.cons_append, List.append_assoc, List.cons_append, List.append_assoc]
    exact .indent m n ih

/-- What stands before stays. -/
theorem append_left (as : List Char) (h : Reindented cs ds) : Reindented (as ++ cs) (as ++ ds) :=
  (refl as).append h

/-- The first lines are the same, and the further ones are up to indentation. -/
theorem lines (h : Reindented as bs) :
    ∃ first rest rest', textLines as = first :: rest ∧ textLines bs = first :: rest' ∧
    rest.map unindented = rest'.map unindented := by
  induction h with
  | nil => exact ⟨[], [], [], rfl, rfl, rfl⟩
  | @cons as bs c h ih =>
    obtain ⟨first, rest, rest', has, hbs, hrest⟩ := ih
    by_cases hc : c = '\n'
    · subst hc
      refine ⟨[], first :: rest, first :: rest', ?_, ?_,
        by rw [List.map_cons, hrest, List.map_cons]⟩
      · rw [textLines_feed, has]
      · rw [textLines_feed, hbs]
    · exact ⟨c :: first, rest, rest', textLines_cons hc has, textLines_cons hc hbs, hrest⟩
  | @indent as bs m n h ih =>
    obtain ⟨first, rest, rest', has, hbs, hrest⟩ := ih
    refine ⟨[], (List.replicate m ' ' ++ first) :: rest, (List.replicate n ' ' ++ first) :: rest',
      ?_, ?_, ?_⟩
    · rw [textLines_feed, textLines_replicate_append m has]
    · rw [textLines_feed, textLines_replicate_append n hbs]
    · rw [List.map_cons, List.map_cons, unindented_replicate_append,
        unindented_replicate_append, hrest]

/-- The lines are the same up to indentation. -/
theorem map_unindented (h : Reindented as bs) :
    (textLines as).map unindented = (textLines bs).map unindented := by
  obtain ⟨first, rest, rest', has, hbs, hrest⟩ := h.lines
  rw [has, hbs, List.map_cons, List.map_cons, hrest]

end Reindented

/-! ## Canonical text at two widths -/

section widths

variable (w w' level : Nat)

/-- A new line at the same level differs in indentation only. -/
theorem newLine_reindented : Reindented (newLine w level) (newLine w' level) := by
  simpa [newLine] using Reindented.indent (w * level) (w' * level) .nil

/-- So does the gap in front of a statement. -/
theorem Stmt.gap_reindented (s : Stmt) : Reindented (s.gap w level) (s.gap w' level) := by
  cases s with
  | empty _ => exact .nil
  | block _ _ => exact .refl _
  | _ => exact newLine_reindented w w' (level + 1)

/-- So does the gap in front of what stands behind `else`. -/
theorem Stmt.elseGap_reindented (a : Stmt) :
    Reindented (a.elseGap w level) (a.elseGap w' level) := by
  unfold elseGap
  split
  · exact .refl _
  · exact a.gap_reindented w w' level

/-- So does the gap behind a statement. -/
theorem Stmt.gapBehind_reindented (c : Stmt) :
    Reindented (c.gapBehind w level) (c.gapBehind w' level) := by
  unfold gapBehind
  split
  · exact .refl _
  · exact newLine_reindented w w' level

variable {w w' level}

/-- Lines differ in indentation only if their statements do. -/
theorem linesChars_reindented {ss : List Stmt}
    (h : ∀ s ∈ ss, Reindented (s.chars w level) (s.chars w' level)) :
    Reindented (linesChars w level ss) (linesChars w' level ss) := by
  induction ss with
  | nil => exact .nil
  | cons s ss ih =>
    rw [linesChars_cons, linesChars_cons]
    exact (newLine_reindented w w' level).append ((h s List.mem_cons_self).append
      (ih fun t ht => h t (List.mem_cons_of_mem _ ht)))

/-- So does what stands in braces. -/
theorem bracesChars_reindented {ss : List Stmt}
    (h : ∀ s ∈ ss, Reindented (s.chars w (level + 1)) (s.chars w' (level + 1))) :
    Reindented (bracesChars w level ss) (bracesChars w' level ss) :=
  .cons _ (((linesChars_reindented h).append (newLine_reindented w w' level)).append (.refl _))

end widths

/-- The texts of a statement at two widths differ in indentation alone. -/
theorem Stmt.chars_reindented (w w' level : Nat) (s : Stmt) :
    Reindented (s.chars w level) (s.chars w' level) := by
  induction s using Stmt.induction generalizing level with
  | step s ih =>
  have hbody {c : Stmt} (hc : c ∈ s.children) : Reindented (c.bodyChars w level)
      (c.bodyChars w' level) :=
    (c.gap_reindented w w' level).append (ih c hc _)
  cases s with
  | function name params body span =>
    rw [chars_function, chars_function]
    have hbraces := bracesChars_reindented fun c (hc : c ∈ body) => ih c hc (level + 1)
    exact .append_left
      _ (.cons _ (.append_left _ (.cons _ (.append_left _ (.cons _ (.cons _ hbraces))))))
  | branch t c a span =>
    have hc := hbody List.mem_cons_self
    cases a with
    | none =>
      rw [chars_branch, chars_branch]
      exact .append_left _ hc
    | some a =>
      rw [chars_branchElse, chars_branchElse]
      have ha : Reindented (a.elseChars w level) (a.elseChars w' level) :=
        (a.elseGap_reindented w w' level).append (ih a (by simp [children]) _)
      exact .append_left
        _ (hc.append ((c.gapBehind_reindented w w' level).append (.append_left _ ha)))
  | whileLoop t body span =>
    rw [chars_whileLoop, chars_whileLoop]
    exact .append_left _ (hbody List.mem_cons_self)
  | forLoop init t u body span =>
    rw [chars_forLoop, chars_forLoop]
    exact .append_left _ (.cons _ (.cons _ (.append_left _ (.cons
        _ (.append_left _ (.cons _ (.append_left _ (.cons _ (hbody List.mem_cons_self)))))))))
  | block body span =>
    rw [chars_block, chars_block]
    exact bracesChars_reindented fun c (hc : c ∈ body) => ih c hc (level + 1)
  | _ => exact .refl _

/-- The texts of a program at two widths differ in indentation alone. -/
theorem Program.text_reindented (w w' : Nat) (p : Program) :
    Reindented (p.text w).toList (p.text w').toList := by
  obtain ⟨ss, span⟩ := p
  cases ss with
  | nil => exact .refl _
  | cons s ss =>
    rw [toList_text, toList_text]
    exact (s.chars_reindented w w' 0).append
      (linesChars_reindented fun t _ => t.chars_reindented w w' 0)

/-! ## Reports at two widths -/

/-- Indentation is only presentation: reports in two styles fail with the same error, or else
classify the same lines alike, and their simplified texts have the same lines up to indentation. -/
theorem Style.analyze_any_width (style style' : Style) (source params : String) :
    (∃ e, style.analyze source params = .error e ∧ style'.analyze source params = .error e) ∨
      ∃ r r', style.analyze source params = .ok r ∧ style'.analyze source params = .ok r' ∧
        r.classification = r'.classification ∧
        (textLines r.simplified.toList).map unindented =
          (textLines r'.simplified.toList).map unindented := by
  cases hsource : Program.parse source with
  | error e =>
    exact .inl ⟨_, style.analyze_of_error params hsource, style'.analyze_of_error params hsource⟩
  | ok p =>
    cases hvalues : readValues params with
    | error e =>
      exact .inl ⟨_, style.analyze_of_refused_values hsource hvalues,
        style'.analyze_of_refused_values hsource hvalues⟩
    | ok values =>
      obtain ⟨q, -, hsame, hlines, hq⟩ := style.analyze_of_parse params hsource
      obtain ⟨q', -, hsame', hlines', hq'⟩ := style'.analyze_of_parse params hsource
      have hclassify : q.classify values = q'.classify values :=
        Program.classify_congr (hsame.trans hsame'.symm) (hlines.trans hlines'.symm) values
      rw [hq, hq', paintProgram_of_values style hvalues, paintProgram_of_values style' hvalues,
        hclassify]
      cases q'.classify values with
      | error e => exact .inl ⟨_, rfl, rfl⟩
      | ok c =>
        exact .inr ⟨_, _, rfl, rfl, rfl,
          (p.inline.text_reindented style.width style'.width).map_unindented⟩

end BranchPaint
