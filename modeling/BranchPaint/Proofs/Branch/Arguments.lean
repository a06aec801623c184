import BranchPaint.Branch.Arguments
import BranchPaint.Proofs.Grammar.Extent

/-!
# What parameter text says

Parameter values are the parts of the first statement of their text. `readValues_lists` says when
that is all of the text: if nothing but blanks stands behind the first statement. Semicolons are
optional, so a second statement may follow without any mark, and then the values are those in front
of it (`readValues_stops_early`).

A text that is a program and lists no values is refused at the first statement, and for no other
reason (`readValues_eq_notValues_iff`).
-/

namespace BranchPaint

/-! ## Values of a program -/

/-- The values that an expression lists: the parts of a sequence, or the expression itself. -/
def Expr.listed : Expr → List Expr
  | .sequence es _ => es
  | e => [e]

/-- All that the program says is the list of values: it is empty, or it is one statement, the
expression that lists them. -/
def Program.Lists (p : Program) (values : List Expr) : Prop :=
  p.body = [] ∧ values = [] ∨ ∃ e span, p.body = [.expr e span] ∧ values = e.listed

/-- Is the statement an expression? -/
def Stmt.isExpr : Stmt → Bool
  | .expr _ _ => true
  | _ => false

/-- A program without statements gives no values. -/
theorem Program.values_nil {p : Program} (h : p.body = []) : p.values = .ok [] := by
  simp only [values, h]

/-- An expression gives the values that it lists. -/
theorem Program.values_expr {p : Program} {e : Expr} {span : Span} {rest : List Stmt}
    (h : p.body = .expr e span :: rest) : p.values = .ok e.listed := by
  cases e
  all_goals simp only [values, h, Expr.listed]

/-- Anything but an expression is refused. -/
theorem Program.values_other {p : Program} {s : Stmt} {rest : List Stmt} (h : p.body = s :: rest)
    (hs : s.isExpr = false) : p.values = .error (.notValues s.span) := by
  cases s with
  | expr e span => cases hs
  | _ => simp only [values, h]

/-- What can be read gives the values of its program. -/
theorem readValues_of_ok {text : String} {p : Program} (h : Program.parse text = .ok p) :
    readValues text = p.values := by
  unfold readValues
  rw [h]

/-- What cannot be read is malformed. -/
theorem readValues_of_error {text : String} {err : SyntaxError}
    (h : Program.parse text = .error err) : readValues text = .error (.malformed err) := by
  unfold readValues
  rw [h]

/-- A text is refused for listing no values exactly if it is a program whose first statement is not
an expression. The error stands at that statement. -/
theorem readValues_eq_notValues_iff {text : String} {span : Span} :
    readValues text = .error (.notValues span) ↔
    ∃ p s rest, Program.parse text = .ok p ∧ p.body = s :: rest ∧ s.isExpr = false ∧
      s.span = span := by
  constructor
  · intro h
    cases hparse : Program.parse text with
    | error err =>
      rw [readValues_of_error hparse] at h
      cases h
    | ok p =>
      rw [readValues_of_ok hparse] at h
      cases hbody : p.body with
      | nil =>
        rw [Program.values_nil hbody] at h
        cases h
      | cons s rest =>
        cases hs : s.isExpr with
        | false =>
          rw [Program.values_other hbody hs] at h
          cases h
          exact ⟨p, s, rest, rfl, hbody, hs, rfl⟩
        | true =>
          cases s with
          | expr e span' =>
            rw [Program.values_expr hbody] at h
            cases h
          | _ => cases hs
  · rintro ⟨p, s, rest, hparse, hbody, hs, rfl⟩
    rw [readValues_of_ok hparse, Program.values_other hbody hs]

/-! ## Where a statement ends -/

/-- Blanks and nothing else. -/
def AllBlank (cs : List Char) : Prop := (⟨cs, .start⟩ : Cursor).skipBlanks.rest = []

/-- A text is blank if skipping blanks leads to its end. -/
theorem allBlank_iff {s : Cursor} : AllBlank s.rest ↔ s.skipBlanks.rest = [] := by
  unfold AllBlank Cursor.skipBlanks
  rw [rest_skipBlanksFrom .outside s.rest .start s.pos]

namespace Grammar

open Rule Reply

variable {n : Nat} {s : Cursor}

/-- A node that is made of what was read and of its span. -/
theorem gives_span {α : Type} {p : Rule α} {f : α × Span → Rule Stmt}
    (h : ∀ x, ∃ st : Stmt, f x = pure st ∧ st.span = x.2) :
    ((spanned p >>= f) s).Gives fun st t => st.span = .between s.pos t.pos := by
  intro st t hread
  rw [result_bind, result_spanned, Option.bind_map] at hread
  obtain ⟨⟨a, u⟩, -, hu⟩ := Option.bind_eq_some_iff.1 hread
  obtain ⟨st', hf, hspan⟩ := h (a, .between s.pos u.pos)
  simp only [Function.comp_apply, hf, result_pure] at hu
  cases hu
  exact hspan

/-- A statement spans all that was read for it. -/
theorem span_statement (n : Nat) (s : Cursor) :
    (statement n s).Gives fun st t => st.span = .between s.pos t.pos := by
  cases n with
  | zero =>
    simp only [statement]
    exact .fail
  | succ n =>
    rw [statement_succ]
    refine .reporting (.firstOf fun p hp => ?_)
    simp only [List.mem_cons, List.not_mem_nil, or_false] at hp
    rcases hp with rfl | rfl | rfl | rfl | rfl | rfl | rfl | rfl | rfl | rfl | rfl
    any_goals exact .reporting (gives_span fun x => ⟨_, rfl, rfl⟩)
    exact gives_span fun x => ⟨_, rfl, rfl⟩

/-- The statements of a program are read one after the other, from the first token of the text up to
its last blanks. -/
theorem statements_of_program {p : Program} {c : Cursor} (h : (program n s).result = some (p, c)) :
    ∃ u, (many (statement n) n s.skipBlanks).result = some (p.body, u) ∧
      u.skipBlanks.rest = [] := by
  have hgives : (program n s).Gives fun p _ =>
      ∃ u, (many (statement n) n s.skipBlanks).result = some (p.body, u) ∧
          u.skipBlanks.rest = [] := by
    refine .reporting (.bind (.spanned ?_) fun x t hx => .pure (hx : ∃ u,
        (many (statement n) n s.skipBlanks).result = some (x.1, u) ∧ u.skipBlanks.rest = []))
    refine .bind (P := fun _ t => t = s.skipBlanks) (fun _ t ht => by cases ht; rfl) fun _ t ht =>
      ?_
    subst ht
    refine .bind (fun body u hu => hu) fun body u hu => ?_
    refine .bind (P := fun _ t => t = u.skipBlanks) (fun _ t ht => by cases ht; rfl) fun _ t ht =>
      ?_
    subst ht
    refine .bind (P := fun _ _ => u.skipBlanks.rest = []) (.token fun _ t ht => ?_) fun _ t ht =>
      .pure fun _ => ⟨u, hu, ht⟩
    split at ht
    · assumption
    · cases ht
  exact hgives p c h

end Grammar

/-- Where the first statement of a program ends. There is no other exactly if nothing but blanks
stands behind it. -/
theorem Program.first_of_parse {text : String} {p : Program} {st : Stmt} {rest : List Stmt}
    (h : Program.parse text = .ok p) (hbody : p.body = st :: rest) :
    ∃ front behind, text.toList = front ++ behind ∧
      st.span.stop = (String.ofList front).utf8ByteSize ∧
      (rest = [] ↔ AllBlank behind) := by
  obtain ⟨c, hc⟩ := Program.parse_eq_ok_iff.1 h
  obtain ⟨u, hread, hend⟩ := Grammar.statements_of_program hc
  rw [hbody] at hread
  obtain ⟨m, t, -, hfirst, hothers⟩ := Rule.result_many_cons hread
  have hspan := Grammar.span_statement _ _ st t hfirst
  obtain ⟨j, ht, -⟩ := Grammar.lays_statement _ (Rule.Lays.blanks (Rule.Lays.blanks
    ⟨0, Cursor.at_ofString text, Nat.le_refl 0⟩ () _ rfl) () _ rfl) st t hfirst
  refine ⟨text.toList.take j, text.toList.drop j, (List.take_append_drop j _).symm, ?_, ?_⟩
  · rw [hspan]
    change t.pos.offset = _
    rw [ht.pos, place, Position.advance_start]
  · rw [← ht.rest, allBlank_iff]
    constructor
    · rintro rfl
      rwa [← Rule.result_many_nil hothers]
    · intro hblank
      -- a statement reads something, so none is read at the end of the text
      have hnone : (Grammar.statement ((Cursor.ofString text).rest.length + 1)
          t.skipBlanks).result = none := by
        refine Option.eq_none_iff_forall_ne_some.2 fun x hx => ?_
        have hless := (Grammar.agree_statement (Nat.le_refl _) (Nat.le_refl _) t.skipBlanks
          (by rw [hblank]; exact Nat.succ_pos _)).2 x.1 x.2 hx
        rw [hblank] at hless
        exact Nat.not_succ_le_zero _ hless
      rw [Rule.result_many_of_none _ hnone] at hothers
      cases hothers
      rfl

/-! ## Parameter text -/

/-- What is read from parameter text: nothing if it is empty, and the values that its first
statement lists otherwise. These are all that the text says exactly if nothing but blanks stands
behind that statement. -/
theorem readValues_lists {text : String} {values : List Expr} (h : readValues text = .ok values) :
    ∃ p, Program.parse text = .ok p ∧ ((p.body = [] ∧ values = []) ∨
      ∃ e span rest front behind, p.body = .expr e span :: rest ∧ values = e.listed ∧
        text.toList = front ++ behind ∧
        span.stop = (String.ofList front).utf8ByteSize ∧ (p.Lists values ↔ AllBlank behind)) := by
  cases hparse : Program.parse text with
  | error err =>
    rw [readValues_of_error hparse] at h
    cases h
  | ok p =>
    refine ⟨p, rfl, ?_⟩
    rw [readValues_of_ok hparse] at h
    cases hbody : p.body with
    | nil =>
      rw [Program.values_nil hbody] at h
      cases h
      exact .inl ⟨rfl, rfl⟩
    | cons s rest =>
      cases s with
      | expr e span =>
        rw [Program.values_expr hbody] at h
        cases h
        obtain ⟨front, behind, htext, hstop, hrest⟩ := Program.first_of_parse hparse hbody
        refine .inr ⟨e, span, rest, front, behind, rfl, rfl, htext, hstop, ?_⟩
        rw [← hrest]
        unfold Program.Lists
        rw [hbody]
        constructor
        · rintro (⟨hnil, -⟩ | ⟨e', span', hone, -⟩)
          · cases hnil
          · cases hone
            rfl
        · rintro rfl
          exact .inr ⟨e, span, rfl, rfl⟩
      | _ =>
        rw [Program.values_other hbody rfl] at h
        cases h

/-- Two values with a comment behind them. -/
theorem readValues_lists_sample :
    ∃ values, readValues "[a, 'b'], f(1) // two" = .ok values ∧ values.length = 2 ∧
    ∃ p, Program.parse "[a, 'b'], f(1) // two" = .ok p ∧ ((p.body = [] ∧ values = []) ∨
      ∃ e span rest front behind, p.body = .expr e span :: rest ∧ values = e.listed ∧
        "[a, 'b'], f(1) // two".toList = front ++ behind ∧
          span.stop = (String.ofList front).utf8ByteSize ∧
        (p.Lists values ↔ AllBlank behind)) := by
  obtain ⟨values, hvalues, hlength⟩ : ∃ values, readValues "[a, 'b'], f(1) // two" = .ok values ∧
      decide (values.length = 2) = true := exists_ok_of_any (by decide +kernel)
  exact ⟨values, hvalues, of_decide_eq_true hlength, readValues_lists hvalues⟩

/-- Of two statements the second is dropped. -/
theorem readValues_stops_early : ∃ values p, readValues "1 2" = .ok values ∧ values.length = 1 ∧
    Program.parse "1 2" = .ok p ∧ p.body.length = 2 ∧ ¬ p.Lists values := by
  obtain ⟨values, hvalues, hlength⟩ : ∃ values, readValues "1 2" = .ok values ∧
      decide (values.length = 1) = true :=
    exists_ok_of_any (by decide +kernel)
  obtain ⟨p, hp, htwo⟩ := Program.exists_parse "1 2" (fun p => p.body.length = 2)
    (by decide +kernel)
  refine ⟨values, p, hvalues, of_decide_eq_true hlength, hp, htwo, ?_⟩
  rintro (⟨hnil, -⟩ | ⟨e, span, hone, -⟩)
  · rw [hnil] at htwo
    cases htwo
  · rw [hone] at htwo
    cases htwo

end BranchPaint
