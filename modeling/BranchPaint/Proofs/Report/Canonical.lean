import BranchPaint.Proofs.Branch.Lines
import BranchPaint.Proofs.Inline.Spans
import BranchPaint.Proofs.RoundTrip.Reprint
import BranchPaint.Report

/-!
# Reports go through canonical text

A report paints the text that simplifying wrote, so this text is read once more. That never fails,
whatever the numbers of the source are (`Style.analyze_of_parse`): the only texts that can be
refused are the source and the list of values (`Style.analyze_refuses_input_only`). And since each
branch has a line of its own in canonical text, painting by lines marks every branch and marks none
of them twice (`Program.marks_each_branch_once`). Nothing else of the source than its tree reaches
this text: how the source was laid out is lost before the first branch is looked at
(`Style.analyze_ignores_layout`).
-/

namespace BranchPaint

/-! ## Marks -/

/-- In canonical text every branch has a line of its own, and so nothing is marked twice or lost.
The text of a program that was read, and of that program with its bindings inlined, can be read
again at every width; the lines of the branches ascend; and wherever the branches of what was read
can be decided, no line is marked twice and as many are marked as the program has branches. -/
theorem Program.marks_each_branch_once {source : String} {p : Program}
    (h : Program.parse source = .ok p) (width : Nat) :
    ∀ q ∈ [p, p.inline], ∃ r, Program.parse (q.text width) = .ok r ∧
      r.branchLines.Pairwise (· < ·) ∧
      ∀ values c, r.classify values = .ok c →
        Disjoint c.taken.lines c.notTaken.lines ∧ (c.taken.lines ∪ c.notTaken.lines).card =
          q.branchLines.length := by
  intro q hq
  obtain ⟨hformed, hexprs⟩ := formed_of_parse_inline h q hq
  obtain ⟨r, hparse, -, hlines⟩ := q.parse_text_asRead width hformed hexprs
  have hascending : r.branchLines.Pairwise (· < ·) := by
    rw [hlines]
    exact q.ascending_canonicalLines
  refine ⟨r, hparse, hascending, fun values c hc => ⟨disjoint_classify hc, ?_⟩⟩
  rw [card_classify hc (hascending.imp Nat.ne_of_lt), hlines, q.length_canonicalLines]

/-- Branches in bodies of all kinds, a number that is too large, and a line feed in a string. -/
theorem Program.marks_each_branch_once_nested : ∃ p,
    Program.parse
      ("function f(a) \x7b if (a > 1e999) ; else if (a === '\\n') while (a) if (a) \x7b \x7d " ++
        "else \x7b if (!a) return; \x7d for (;;) if (a) break; \x7d") = .ok p ∧
    p.branchLines.length = 5 ∧
    ∀ q ∈ [p, p.inline], ∃ r, Program.parse (q.text 0) = .ok r ∧ r.branchLines.Pairwise (· < ·) ∧
      ∀ values c, r.classify values = .ok c →
        Disjoint c.taken.lines c.notTaken.lines ∧
        (c.taken.lines ∪ c.notTaken.lines).card = q.branchLines.length := by
  obtain ⟨p, hp, hcount⟩ := Program.exists_parse
    ("function f(a) \x7b if (a > 1e999) ; else if (a === '\\n') while (a) if (a) \x7b \x7d " ++
      "else \x7b if (!a) return; \x7d for (;;) if (a) break; \x7d")
    (fun p => p.branchLines.length = 5) (by decide +kernel)
  exact ⟨p, hp, hcount, Program.marks_each_branch_once hp 0⟩

/-! ## Failures -/

namespace Style

variable (style : Style) (source params : String)

/-- What painting a text does that is read as `q`. -/
def paintProgram (q : Program) (text : String) : Except ReportError Report := do
  let values ← (readValues params).mapError .parse
  let c ← (q.classify values).mapError .evaluation
  pure ⟨text, c, style.palette.html c text⟩

/-- The error is that of a branch of the simplified source: it names the line of the branch, and
says why its test has no value under the given ones. -/
def RaisedByBranch (values : List Expr) (e : EvalError) : Prop :=
  ∃ text q before t a, style.simplify source = .ok text ∧ Program.parse text = .ok q ∧
    before ++ [.branch t e.line a] <+: q.visits ∧ valueAfter values before t = .error e.cause

variable {params} in
/-- Painting with values that can be read classifies with them and marks the lines. -/
theorem paintProgram_of_values {values : List Expr} (h : readValues params = .ok values)
    (q : Program) (text : String) : style.paintProgram params q text = (do
      let c ← (q.classify values).mapError .evaluation
      pure ⟨text, c, style.palette.html c text⟩) := by
  rw [paintProgram, h]
  rfl

variable {source}

/-- A source that cannot be read is refused for that reason. -/
theorem analyze_of_error {e : SyntaxError} (h : Program.parse source = .error e) :
    style.analyze source params = .error (.parse (.malformed e)) := by
  simp only [analyze, simplify, read, h]
  rfl

/-- A source that can be read is simplified to the text of the inlined program. -/
theorem simplify_of_parse {p : Program} (h : Program.parse source = .ok p) :
    style.simplify source = .ok (p.inline.text style.width) := by
  simp only [simplify, read, h]
  rfl

/-- A source that can be read is simplified, and the simplified text can be read, with each branch
on its line. -/
theorem analyze_of_parse {p : Program} (h : Program.parse source = .ok p) :
    ∃ q, Program.parse (p.inline.text style.width) = .ok q ∧ q.eraseSpans = p.inline.asRead ∧
      q.branchLines = p.inline.canonicalLines ∧
      style.analyze source params = style.paintProgram params q (p.inline.text style.width) := by
  obtain ⟨hformed, hexprs⟩ := Program.formed_of_parse_inline h p.inline (by simp)
  obtain ⟨q, hq, hsame, hlines⟩ := p.inline.parse_text_asRead style.width hformed hexprs
  refine ⟨q, hq, hsame, hlines, ?_⟩
  have hread : read (p.inline.text style.width) = .ok q := by
    rw [read, hq]
    rfl
  simp only [analyze, style.simplify_of_parse h, paint, hread, paintProgram, bind, Except.bind]
  cases readValues params with
  | error e => rfl
  | ok values =>
    simp only [Except.mapError]
    cases q.classify values with
    | error e => rfl
    | ok c => rfl

variable {params}

/-- Parameters that cannot be read are refused for that reason, if the source can be. -/
theorem analyze_of_refused_values {p : Program} (h : Program.parse source = .ok p) {e : ReadError}
    (hvalues : readValues params = .error e) : style.analyze source params = .error (.parse e) := by
  obtain ⟨q, -, -, -, hanalyze⟩ := style.analyze_of_parse params h
  rw [hanalyze, paintProgram, hvalues]
  rfl

/-- With a source and values that can be read there is a report, or a branch of the simplified
source raised the error. -/
theorem analyze_of_values {p : Program} (h : Program.parse source = .ok p) {values : List Expr}
    (hvalues : readValues params = .ok values) :
    (∃ report, style.analyze source params = .ok report) ∨
      ∃ e, style.analyze source params = .error (.evaluation e) ∧
        style.RaisedByBranch source values e := by
  obtain ⟨q, hq, -, -, hanalyze⟩ := style.analyze_of_parse params h
  rw [hanalyze, style.paintProgram_of_values hvalues]
  rcases q.classify_cases values with
    ⟨w, hok, -⟩ | ⟨before, t, l, a, cause, w, herror, hbranch, hcause, -⟩
  · rw [hok]
    exact .inl ⟨_, rfl⟩
  · rw [herror]
    exact .inr ⟨⟨l, cause⟩, rfl, _, q, before, t, a, style.simplify_of_parse h, hq, hbranch, hcause⟩

variable (source params)

/-- Reports fail on what was put in, and never on the text that was written in between.

A parse error is reported if and only if the source or the list of values cannot be read, and it is
the source's error if neither can be. In all other cases, whatever the numbers of the source, there
is a report, or a branch of the simplified source raised the error. -/
theorem analyze_refuses_input_only :
    ((∃ e, style.analyze source params = .error (.parse e)) ↔
      (∃ e, Program.parse source = .error e) ∨ ∃ e, readValues params = .error e) ∧
    ((∃ e, Program.parse source = .error e ∧ style.analyze source params =
      .error (.parse (.malformed e))) ∨
      (∃ p e, Program.parse source = .ok p ∧ readValues params = .error e ∧
        style.analyze source params = .error (.parse e)) ∨
      ∃ p values, Program.parse source = .ok p ∧ readValues params = .ok values ∧
        ((∃ report, style.analyze source params = .ok report) ∨
          ∃ e, style.analyze source params = .error (.evaluation e) ∧
            style.RaisedByBranch source values e)) := by
  cases hsource : Program.parse source with
  | error e =>
    have hfails := style.analyze_of_error params hsource
    exact ⟨⟨fun _ => .inl ⟨e, rfl⟩, fun _ => ⟨_, hfails⟩⟩, .inl ⟨e, rfl, hfails⟩⟩
  | ok p =>
    cases hvalues : readValues params with
    | error e =>
      have hfails := style.analyze_of_refused_values hsource hvalues
      exact ⟨⟨fun _ => .inr ⟨e, rfl⟩, fun _ => ⟨_, hfails⟩⟩, .inr (.inl ⟨p, e, rfl, rfl, hfails⟩)⟩
    | ok values =>
      have hgood := style.analyze_of_values hsource hvalues
      refine ⟨⟨?_, ?_⟩, .inr (.inr ⟨p, values, rfl, rfl, hgood⟩)⟩
      · rintro ⟨e, herror⟩
        rcases hgood with ⟨report, hok⟩ | ⟨e', heval, -⟩
        · rw [herror] at hok
          cases hok
        · rw [herror] at heval
          cases heval
      · rintro (⟨e, h⟩ | ⟨e, h⟩)
        all_goals cases h

/-! ## Layout -/

variable {source}

/-- Sources with the same tree up to spans are simplified to the same text, and a report is made
from this text alone. -/
theorem same_report {other : String} {p q : Program} (hp : Program.parse source = .ok p)
    (hq : Program.parse other = .ok q) (h : p.eraseSpans = q.eraseSpans) :
    ∃ text, style.simplify source = .ok text ∧ style.simplify other = .ok text ∧
      ∀ params, style.analyze source params = style.analyze other params := by
  have hinline : p.inline.eraseSpans = q.inline.eraseSpans := by
    rw [← p.inline_eraseSpans, h, q.inline_eraseSpans]
  have htext := style.simplify_of_parse hp
  have htext' := style.simplify_of_parse hq
  rw [← Program.text_congr hinline] at htext'
  refine ⟨_, htext, htext', fun params => ?_⟩
  rw [analyze, analyze, htext, htext']

/-- Layout and comments do not reach a report.

Two sources with the same tree up to spans are simplified to the same text, and have the same report
or the same error under all values. So a source with finite numbers may be replaced by its canonical
text, at any width. -/
theorem analyze_ignores_layout :
    (∀ source other p q, Program.parse source = .ok p → Program.parse other = .ok q →
      p.eraseSpans = q.eraseSpans →
      ∃ text, style.simplify source = .ok text ∧ style.simplify other = .ok text ∧
        ∀ params, style.analyze source params = style.analyze other params) ∧
    ∀ source p, Program.parse source = .ok p → p.ForallExpr Expr.FiniteNumber → ∀ width,
      ∃ text, style.simplify source = .ok text ∧ style.simplify (p.text width) = .ok text ∧
        ∀ params, style.analyze (p.text width) params = style.analyze source params := by
  refine ⟨fun source other p q hp hq h => style.same_report hp hq h,
    fun source p hp hfinite width => ?_⟩
  obtain ⟨hformed, hexprs⟩ := Program.readable_of_parse hp hfinite
  obtain ⟨q, hq, herase, -⟩ := p.parse_text width hformed hexprs
  obtain ⟨text, htext, htext', hreport⟩ := style.same_report hp hq herase.symm
  exact ⟨text, htext, htext', fun params => (hreport params).symm⟩

/-- A branch on one line, and the same with comments, parentheses and blank lines. -/
theorem analyze_ignores_layout_comments : ∃ p q,
    Program.parse "let c = a + 1; if (c > b) f(-(-b));" = .ok p ∧
    Program.parse "// c\nlet c = (a/* first */+1)\r\n\n\tif ((c) > b)\nf(- -b)" = .ok q ∧
    p.eraseSpans = q.eraseSpans ∧ p.ForallExpr Expr.FiniteNumber ∧
    (∀ params, ({} : Style).analyze "let c = a + 1; if (c > b) f(-(-b));" params =
      ({} : Style).analyze "// c\nlet c = (a/* first */+1)\r\n\n\tif ((c) > b)\nf(- -b)" params) ∧
    ∀ params, ({} : Style).analyze (p.text 2) params =
      ({} : Style).analyze "let c = a + 1; if (c > b) f(-(-b));" params := by
  obtain ⟨p, hp, hfinite, htext⟩ := Program.exists_parse
    "let c = a + 1; if (c > b) f(-(-b));"
    (fun p => p.ForallExpr Expr.FiniteNumber ∧
      p.text 4 = "let c = a + 1;\nif (c > b)\n    f(- -b);") (by decide +kernel)
  obtain ⟨q, hq, hfinite', htext'⟩ := Program.exists_parse
    "// c\nlet c = (a/* first */+1)\r\n\n\tif ((c) > b)\nf(- -b)"
    (fun q => q.ForallExpr Expr.FiniteNumber ∧
      q.text 4 = "let c = a + 1;\nif (c > b)\n    f(- -b);") (by decide +kernel)
  have herase := Program.eraseSpans_eq_of_text_eq hp hq hfinite hfinite' (htext.trans htext'.symm)
  obtain ⟨hsame, hcanonical⟩ := ({} : Style).analyze_ignores_layout
  obtain ⟨-, -, -, hreport⟩ := hsame _ _ p q hp hq herase
  obtain ⟨-, -, -, hreport'⟩ := hcanonical _ p hp hfinite 2
  exact ⟨p, q, hp, hq, herase, hfinite, hreport, hreport'⟩

end Style

end BranchPaint
