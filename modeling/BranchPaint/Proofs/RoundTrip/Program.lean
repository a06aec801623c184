import BranchPaint.Proofs.Inline.Readable
import BranchPaint.Proofs.RoundTrip.Statement

/-!
# Programs read back

The canonical text of a program that was read, and that of the program with its bindings inlined,
can be read again, and gives the same tree up to spans, at every width of indentation. Three facts
meet here: what was read is formed (`Program.formed_of_parse`), inlining keeps it so
(`Program.inline_readable`), and the text of a formed program reads back (`Program.parse_text`).

Numbers have to be finite for that: a literal too large for a number is read as infinity, which has
no text of its own. What is needed to read the text at all holds without it
(`Program.formed_of_parse_inline`).
-/

namespace BranchPaint

/-- A program that was read is formed, and so is the program with its bindings inlined. -/
theorem Program.formed_of_parse_inline {source : String} {p : Program}
    (h : Program.parse source = .ok p) :
    ∀ q ∈ [p, p.inline], q.Formed ∧ q.ForallExpr Expr.Formed := by
  obtain ⟨hformed, hexprs⟩ := Program.formed_of_parse h
  exact List.forall_mem_cons.2 ⟨⟨hformed, hexprs⟩,
    List.forall_mem_singleton.2 (Program.inline_formed hformed hexprs)⟩

/-- A program that was read, with finite numbers, is formed and readable. -/
theorem Program.readable_of_parse {source : String} {p : Program} (h : Program.parse source = .ok p)
    (hfinite : p.ForallExpr Expr.FiniteNumber) : p.Formed ∧ p.ForallExpr Expr.Readable := by
  obtain ⟨hformed, hexprs⟩ := Program.formed_of_parse h
  exact ⟨hformed, fun s hs => (hexprs s hs).and (hfinite s hs)⟩

/-- Printing and reading gives the tree back, as it was read and as it is inlined. -/
theorem Program.parse_text_of_parse {source : String} {p : Program}
    (h : Program.parse source = .ok p) (hfinite : p.ForallExpr Expr.FiniteNumber) (width : Nat) :
    ∀ q ∈ [p, p.inline], ∃ r, Program.parse (q.text width) = .ok r ∧
      r.eraseSpans = q.eraseSpans := by
  obtain ⟨hformed, hexprs⟩ := Program.readable_of_parse h hfinite
  obtain ⟨hformed', hexprs'⟩ := Program.inline_readable hformed hexprs
  refine List.forall_mem_cons.2 ⟨?_, List.forall_mem_singleton.2 ?_⟩
  · obtain ⟨r, hr, herase, -⟩ := p.parse_text width hformed hexprs
    exact ⟨r, hr, herase⟩
  · obtain ⟨r, hr, herase, -⟩ := p.inline.parse_text width hformed' hexprs'
    exact ⟨r, hr, herase⟩

/-- Is the program a single function whose parameters and body pass a check? -/
def Program.isFunctionWith (check : List String → List Stmt → Bool) (p : Program) : Bool :=
  match p.body with
  | [.function _ params body _] => check params body
  | _ => false

/-- A program that passes the check is one function, and its parameters and body pass it. -/
theorem Program.exists_of_isFunctionWith {check : List String → List Stmt → Bool} {p : Program}
    (h : p.isFunctionWith check = true) :
    ∃ name params body s s', p = ⟨[.function name params body s], s'⟩ ∧
      check params body = true := by
  obtain ⟨ss, span⟩ := p
  unfold isFunctionWith at h
  split at h
  · rename_i name params body s hbody
    obtain rfl : ss = _ := hbody
    exact ⟨name, params, body, s, span, rfl, h⟩
  · cases h

/-- The text of a program that is read, with finite numbers. -/
theorem Program.parse_text_of_parse_sample : ∃ p, Program.parse
      ("function f(a, b) \x7b let c = [a, -(-b), .5]; if (a) if (b) a += 1; else; " ++
        "return (a, c)[0] ? 'it\\'s' : c[0]; \x7d") = .ok p ∧
    p.ForallExpr Expr.FiniteNumber ∧
    ∀ q ∈ [p, p.inline], ∃ r, Program.parse (q.text 2) = .ok r ∧ r.eraseSpans = q.eraseSpans := by
  obtain ⟨p, hp, hfinite⟩ := Program.exists_parse
    ("function f(a, b) \x7b let c = [a, -(-b), .5]; if (a) if (b) a += 1; else; " ++
      "return (a, c)[0] ? 'it\\'s' : c[0]; \x7d")
    (fun p => p.ForallExpr Expr.FiniteNumber) (by decide +kernel)
  exact ⟨p, hp, hfinite, Program.parse_text_of_parse hp hfinite 2⟩

end BranchPaint
