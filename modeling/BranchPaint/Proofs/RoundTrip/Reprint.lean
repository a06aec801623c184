import BranchPaint.Proofs.RoundTrip.Program
import BranchPaint.Proofs.Script.Map

/-!
# Canonical text read and written again

Reading canonical text and writing it once more should give the same text. The tree that is read
differs from the one that was written in a single respect: a number that is too large has become the
name `Infinity`. That changes one thing in the text. A number stands in parentheses before a point,
where it would otherwise take the point for its own, and a name does not. So the text comes back
exactly if no number before a point is too large; otherwise these parentheses are lost, and the text
is shorter (`Program.shortened`). The shorter text has no such number any more and stays as it is
(`Program.text_again`).
-/

namespace BranchPaint

/-! ## Texts that lose parentheses -/

/-- The second text is the first if the condition holds, and is shorter otherwise. It starts with
the same character, unless what starts it is a name that was in parentheses. -/
structure Shortened (P : Prop) (t t' : String) : Prop where
  same : P → t' = t
  shorter : ¬ P → t'.length < t.length
  head : t'.toList.head? = t.toList.head? ∨ t.toList.head? = some '(' ∧ t'.toList.head? = some 'I'

namespace Shortened

variable {P Q : Prop} {t t' u u' : String}

/-- What stays is not shortened. -/
theorem of_eq (h : t' = t) (hP : P) :
    Shortened P t t' :=
  ⟨fun _ => h, fun hnot => absurd hP hnot, .inl (by rw [h])⟩

/-- The condition may be put in other words. -/
theorem congr (h : Shortened P t t') (hPQ : P ↔ Q) : Shortened Q t t' := propext hPQ ▸ h

/-- A text stays exactly if the condition holds. -/
theorem eq_iff (h : Shortened P t t') : t' = t ↔ P := by
  refine ⟨fun heq => ?_, h.same⟩
  by_contra hnot
  exact Nat.lt_irrefl _ (heq ▸ h.shorter hnot)

/-- No text gets longer. -/
theorem length_le (h : Shortened P t t') : t'.length ≤ t.length := by
  by_cases hP : P
  · exact Nat.le_of_eq (congrArg String.length (h.same hP))
  · exact Nat.le_of_lt (h.shorter hP)

/-- Texts one after the other are shortened each for itself. -/
theorem append (h : Shortened P t t') (h' : Shortened Q u u') :
    Shortened (P ∧ Q) (t ++ u) (t' ++ u') where
  same := fun ⟨hP, hQ⟩ => by rw [h.same hP, h'.same hQ]
  shorter hnot := by
    rw [String.length_append, String.length_append]
    by_cases hP : P
    · exact Nat.add_lt_add_of_le_of_lt h.length_le (h'.shorter fun hQ => hnot ⟨hP, hQ⟩)
    · exact Nat.add_lt_add_of_lt_of_le (h.shorter hP) h'.length_le
  head := by
    rw [String.toList_append, String.toList_append, List.head?_append, List.head?_append]
    rcases h.head with heq | ⟨hopen, hname⟩
    · rw [heq]
      cases t.toList.head? with
      | none => exact h'.head
      | some c => exact .inl rfl
    · exact .inr ⟨by rw [hopen]; rfl, by rw [hname]; rfl⟩

/-- What follows may stay. -/
theorem append_right (h : Shortened P t t') (u : String) : Shortened P (t ++ u) (t' ++ u) :=
  (h.append (.of_eq rfl trivial)).congr (and_iff_left trivial)

/-- What goes before may stay. -/
theorem append_left (h : Shortened P t t') (u : String) : Shortened P (u ++ t) (u ++ t') :=
  ((of_eq rfl trivial).append h).congr (and_iff_right trivial)

/-- So it is on both sides of an operator. -/
theorem between (h : Shortened P t t') (op : String) (h' : Shortened Q u u') :
    Shortened (P ∧ Q) (t ++ " " ++ op ++ " " ++ u) (t' ++ " " ++ op ++ " " ++ u') :=
  (((h.append_right " ").append_right op).append_right " ").append h'

/-- So it is in parentheses. -/
theorem parens (h : Shortened P t t') (wanted : Bool) :
    Shortened P (BranchPaint.parens wanted t) (BranchPaint.parens wanted t') := by
  cases wanted with
  | false => exact h
  | true => exact (h.append_left "(").append_right ")"

/-- The blank behind a sign is there for both texts or for none. -/
theorem gap (h : Shortened P t t') (op : UnaryOp) : op.gap t' = op.gap t := by
  rcases h.head with heq | ⟨hopen, hname⟩
  · unfold UnaryOp.gap
    rw [heq]
  · unfold UnaryOp.gap
    rw [hopen, hname]
    cases op
    all_goals rfl

/-- So it is in a list with something between its texts. -/
theorem intercalate {α : Type} {P : α → Prop} {text text' : α → String} (sep : String) {xs : List α}
    (h : ∀ x ∈ xs, Shortened (P x) (text x) (text' x)) :
    Shortened (∀ x ∈ xs, P x) (sep.intercalate (xs.map text)) (sep.intercalate (xs.map text')) := by
  induction xs with
  | nil => exact of_eq rfl fun x hx => absurd hx List.not_mem_nil
  | cons x xs ih =>
    obtain ⟨hx, hxs⟩ := List.forall_mem_cons.1 h
    cases xs with
    | nil => exact hx.congr (by simp)
    | cons y ys =>
      simp only [List.map_cons, String.intercalate_cons_cons] at ih ⊢
      exact ((hx.append_right sep).append (ih hxs)).congr List.forall_mem_cons.symm

end Shortened

/-! ## Statements

The text of a statement is made of the texts of its expressions, so it is shortened where one of
those is. -/

section statements

variable {f : Expr → Expr} {P : Expr → Prop}

/-- An operand is shortened as it is without parentheses. -/
theorem Expr.shortened_at {P : Prop} {e : Expr} (hp : (f e).precedence = e.precedence)
    (h : Shortened P e.text (f e).text) (k : Nat) : Shortened P (e.textAt k) ((f e).textAt k) := by
  rw [textAt, textAt, hp]
  exact h.parens _

variable (hp : ∀ e, (f e).precedence = e.precedence)
include hp

/-- A declarator is shortened where its value is. -/
theorem Declarator.shortened {d : Declarator}
    (h : ∀ e ∈ d.exprs, Shortened (P e) e.text (f e).text) :
    Shortened (∀ e ∈ d.exprs, P e) d.text (d.mapExprs f).text := by
  obtain ⟨name, _ | e, span⟩ := d
  · exact .of_eq rfl fun e he => absurd he List.not_mem_nil
  · have he := Expr.shortened_at (hp e) (h e List.mem_cons_self) Precedence.assignment
    exact (he.append_left (name ++ " = ")).congr List.forall_mem_singleton.symm

/-- A declaration is shortened where its declarators are. -/
theorem shortened_declaration (word : DeclareWord) {ds : List Declarator}
    (h : ∀ e ∈ ds.flatMap Declarator.exprs, Shortened (P e) e.text (f e).text) :
    Shortened (∀ e ∈ ds.flatMap Declarator.exprs, P e) (declarationText word ds)
      (declarationText word (ds.map (Declarator.mapExprs f))) := by
  have hds := Shortened.intercalate ", " fun d hd =>
    Declarator.shortened hp fun e he => h e (List.mem_flatMap.2 ⟨d, hd, he⟩)
  rw [declarationText, declarationText, List.map_map]
  exact (hds.append_left (word.text ++ " ")).congr List.forall_mem_flatMap.symm

/-- The start of a counting loop is shortened where its expressions are. -/
theorem ForInit.shortened {i : ForInit} (h : ∀ e ∈ i.exprs, Shortened (P e) e.text (f e).text) :
    Shortened (∀ e ∈ i.exprs, P e) i.text (i.mapExprs f).text := by
  cases i with
  | declare word ds => exact shortened_declaration hp word h
  | expr e => exact (h e List.mem_cons_self).congr List.forall_mem_singleton.symm

/-- The same if there need be no start. -/
theorem shortened_init {o : Option ForInit}
    (h : ∀ e ∈ o.toList.flatMap ForInit.exprs, Shortened (P e) e.text (f e).text) :
    Shortened (∀ e ∈ o.toList.flatMap ForInit.exprs, P e) ((o.map ForInit.text).getD "")
      (((o.map (ForInit.mapExprs f)).map ForInit.text).getD "") := by
  cases o with
  | none => exact .of_eq rfl fun e he => absurd he List.not_mem_nil
  | some i => exact (ForInit.shortened hp (i := i) (by simpa using h)).congr (by simp)

omit hp

/-- The same for the other clauses. -/
theorem shortened_clause {o : Option Expr} (h : ∀ e ∈ o.toList, Shortened (P e) e.text (f e).text) :
    Shortened (∀ e ∈ o.toList, P e) (clauseText o) (clauseText (o.map f)) := by
  cases o with
  | none => exact .of_eq rfl fun e he => absurd he List.not_mem_nil
  | some e => exact ((h e List.mem_cons_self).append_left " ").congr List.forall_mem_singleton.symm

namespace Stmt

/-- Two statements are written alike behind a header. -/
structure SamePlace (s s' : Stmt) : Prop where
  isBlock : s'.isBlock = s.isBlock
  isBranch : s'.isBranch = s.isBranch
  bodyLevel (level : Nat) : s'.bodyLevel level = s.bodyLevel level
  placed (width level : Nat) (text : String) :
    s'.placed width level text = s.placed width level text

/-- Mapping expressions does not change where a statement is placed. -/
theorem samePlace_mapExprs (f : Expr → Expr) (s : Stmt) : s.SamePlace (s.mapExprs f) := by
  cases s with
  | branch t c a span =>
    cases a
    all_goals exact ⟨rfl, rfl, fun _ => rfl, fun _ _ _ => rfl⟩
  | _ => exact ⟨rfl, rfl, fun _ => rfl, fun _ _ _ => rfl⟩

variable {width : Nat}

/-- A statement is shortened in its place as it is by itself. -/
theorem shortened_placed {P : Prop} {s : Stmt}
    (h : ∀ level, Shortened P (s.text width level) ((s.mapExprs f).text width level))
    (level : Nat) :
    Shortened P (s.placed width level (s.text width (s.bodyLevel level)))
      ((s.mapExprs f).placed width level
        ((s.mapExprs f).text width ((s.mapExprs f).bodyLevel level))) := by
  rw [(s.samePlace_mapExprs f).placed, (s.samePlace_mapExprs f).bodyLevel]
  cases s with
  | empty span => exact h level
  | block body span => exact (h level).append_left " "
  | _ => exact (h (level + 1)).append_left _

/-- Lines are shortened where their statements are. -/
theorem shortened_lines {P : Stmt → Prop} {level : Nat} {ss : List Stmt}
    (h : ∀ s ∈ ss, Shortened (P s) (s.text width level) ((s.mapExprs f).text width level)) :
    Shortened (∀ s ∈ ss, P s) (linesText width level ss)
      (linesText width level (mapExprsAll f ss)) := by
  induction ss with
  | nil => exact .of_eq rfl fun s hs => absurd hs List.not_mem_nil
  | cons s ss ih =>
    obtain ⟨hs, hss⟩ := List.forall_mem_cons.1 h
    exact ((hs.append_left ("\n" ++ indentation width level)).append (ih hss)).congr
      List.forall_mem_cons.symm

include hp in
/-- If the texts of all expressions come back shortened, so does the text of the statement. -/
theorem shortened {s : Stmt}
    (h : s.Forall fun s => ∀ e ∈ s.exprs, Shortened (P e) e.text (f e).text) (level : Nat) :
    Shortened (s.Forall fun s => ∀ e ∈ s.exprs, P e) (s.text width level)
      ((s.mapExprs f).text width level) := by
  induction s using Stmt.induction generalizing level with
  | step s ih =>
  have hin := fun c hc => ih c hc (h.inside c hc)
  have hexprs := h.here
  clear ih h
  refine Shortened.congr ?_ forall_iff.symm
  cases s with
  | function name params body span =>
    have hbody := shortened_lines fun c (hc : c ∈ body) => hin c hc (level + 1)
    exact (((hbody.append_left _).append_right "\n").append_right _).append_right "\x7d" |>.congr
      (and_iff_right fun e he => absurd he List.not_mem_nil).symm
  | declare word ds span =>
    exact ((shortened_declaration hp word hexprs).append_right ";").congr
      (and_iff_left fun c hc => absurd hc List.not_mem_nil).symm
  | branch t c a span =>
    have ht := ((hexprs t List.mem_cons_self).append_left "if (").append_right ")"
    have hc := shortened_placed (hin c List.mem_cons_self) level
    cases a with
    | none => exact (ht.append hc).congr (by simp [exprs, children])
    | some a =>
      have hmem : a ∈ (branch t c (some a) span).children := by simp [children]
      have ha : Shortened (a.Forall fun s => ∀ e ∈ s.exprs, P e) (if a.isBranch then " " ++
          a.text width level else a.placed width level (a.text width (a.bodyLevel level)))
          (if (a.mapExprs f).isBranch then " " ++ (a.mapExprs f).text width level
            else (a.mapExprs f).placed width level
                ((a.mapExprs f).text width ((a.mapExprs f).bodyLevel level))) := by
        rw [(a.samePlace_mapExprs f).isBranch]
        split
        · exact (hin a hmem level).append_left " "
        · exact shortened_placed (hin a hmem) level
      have htext := text_branchElse width level .nowhere (f t) (c.mapExprs f) (a.mapExprs f)
      rw [mapExprs, htext, text_branchElse, (c.samePlace_mapExprs f).isBlock]
      exact ((((ht.append hc).append_right _).append_right "else").append ha).congr
        (by simp [exprs, children, and_assoc])
  | whileLoop t body span =>
    have ht := ((hexprs t List.mem_cons_self).append_left "while (").append_right ")"
    exact (ht.append (shortened_placed (hin body List.mem_cons_self) level)).congr
      (by simp [exprs, children])
  | forLoop i t u body span =>
    have hi := shortened_init hp fun e he =>
      hexprs e (List.mem_append_left _ (List.mem_append_left _ he))
    have ht := shortened_clause fun e he =>
      hexprs e (List.mem_append_left _ (List.mem_append_right _ he))
    have hu := shortened_clause fun e he => hexprs e (List.mem_append_right _ he)
    have hbody := shortened_placed (hin body List.mem_cons_self) level
    have hheader := (((hi.append_left "for (").append_right ";").append ht).append_right ";"
    exact (((hheader.append hu).append_right ")").append hbody).congr
      (by simp only [exprs, children, List.forall_mem_append, List.forall_mem_singleton])
  | ret v span =>
    exact (((shortened_clause hexprs).append_left "return").append_right ";").congr
      (and_iff_left fun c hc => absurd hc List.not_mem_nil).symm
  | block body span =>
    have hbody := shortened_lines fun c (hc : c ∈ body) => hin c hc (level + 1)
    exact (((hbody.append_left "\x7b").append_right "\n").append_right _).append_right "\x7d"
      |>.congr (and_iff_right fun e he => absurd he List.not_mem_nil).symm
  | expr e span =>
    exact ((hexprs e List.mem_cons_self).append_right ";").congr (by simp [exprs, children])
  | breakLoop span | continueLoop span | empty span =>
    exact .of_eq rfl ⟨fun e he => absurd he List.not_mem_nil,
      fun c hc => absurd hc List.not_mem_nil⟩

end Stmt

include hp in
/-- A program is shortened where its expressions are. -/
theorem Program.shortened_mapExprs {p : Program}
    (h : ∀ s ∈ p.body, s.Forall fun s => ∀ e ∈ s.exprs, Shortened (P e) e.text (f e).text)
    (width : Nat) :
    Shortened (∀ s ∈ p.body, s.Forall fun s => ∀ e ∈ s.exprs, P e) (p.text width)
      ((p.mapExprs f).text width) := by
  rw [text, text, mapExprs, List.map_map]
  exact .intercalate "\n" fun s hs => Stmt.shortened hp (h s hs) 0

end statements

/-! ## Where a program stands does not change its text -/

namespace Program

/-- The text of a program does not depend on spans. -/
theorem text_eraseSpans (width : Nat) (p : Program) : p.eraseSpans.text width = p.text width := by
  rw [eraseSpans_eq]
  refine (shortened_mapExprs Expr.precedence_eraseSpans (P := fun _ => True) (fun s _ => ?_)
    width).same fun s _ => ?_
  · exact .of_all (fun _ e _ => .of_eq e.text_eraseSpans trivial) s
  · exact .of_all (fun _ _ _ => trivial) s

/-- Programs that differ in their spans alone have the same text. -/
theorem text_congr {p q : Program} (h : p.eraseSpans = q.eraseSpans) (width : Nat) :
    p.text width = q.text width := by
  rw [← p.text_eraseSpans, h, q.text_eraseSpans]

end Program

/-! ## Expressions as they are read -/

/-- The number before the point of a member. -/
def Expr.numberBeforePoint : Expr → Option Float
  | .member (.num v _) _ false _ => some v
  | _ => none

/-- A number before a point is finite. -/
def Expr.FiniteBeforePoint (e : Expr) : Prop := ∀ v ∈ e.numberBeforePoint, v.isFinite

instance : DecidablePred Expr.FiniteBeforePoint := fun e =>
  inferInstanceAs (Decidable (∀ v ∈ e.numberBeforePoint, v.isFinite = true))

namespace Expr

/-- Where no number stands before a point, none is too large. -/
theorem finiteBeforePoint_of_none {e : Expr} (h : e.numberBeforePoint = none) :
    e.FiniteBeforePoint := by
  intro v hv
  rw [h] at hv
  cases hv

/-- Reading again keeps how tightly an expression binds. -/
theorem precedence_asRead (e : Expr) : e.asRead.precedence = e.precedence := by
  cases e with
  | num v s =>
    unfold asRead
    split
    all_goals rfl
  | member o p computed s =>
    cases computed
    all_goals rfl
  | update op before a s =>
    cases before
    all_goals rfl
  | _ => rfl

variable {P : Prop} {e : Expr}

/-- Items are shortened each for itself. -/
theorem shortened_items {P : Expr → Prop} {es : List Expr}
    (h : ∀ e ∈ es, Shortened (P e) e.text e.asRead.text) :
    Shortened (∀ e ∈ es, P e) (", ".intercalate (itemTexts es))
      (", ".intercalate (itemTexts (asReadAll es))) := by
  rw [itemTexts_eq, itemTexts_eq, asReadAll_eq, List.map_map]
  exact .intercalate ", " fun e he => shortened_at (precedence_asRead _) (h e he) _

/-- An object that is no number keeps its parentheses. -/
theorem needsParensAsObject_asRead {o : Expr} (h : ∀ v s, o ≠ .num v s) (computed : Bool) :
    o.asRead.needsParensAsObject computed = o.needsParensAsObject computed := by
  cases o with
  | num v s => exact absurd rfl (h v s)
  | member o p computed s =>
    cases computed
    all_goals rfl
  | update op before a s =>
    cases before
    all_goals rfl
  | _ => rfl

/-- The object of a member. Only a number changes how it stands before a point. -/
theorem shortened_object {o : Expr} (hf : o.Formed) (h : Shortened P o.text o.asRead.text)
    (p : Expr) (computed : Bool) (s : Span) :
    Shortened ((member o p computed s).FiniteBeforePoint ∧ P)
      (BranchPaint.parens (o.needsParensAsObject computed) o.text)
      (BranchPaint.parens (o.asRead.needsParensAsObject computed) o.asRead.text) := by
  by_cases hnum : ∃ v vs, o = .num v vs
  · obtain ⟨v, vs, rfl⟩ := hnum
    cases computed with
    | true =>
      have hparens : (num v vs).asRead.needsParensAsObject true = false := by
        unfold asRead
        split
        all_goals rfl
      rw [hparens]
      exact h.congr (and_iff_right (finiteBeforePoint_of_none rfl)).symm
    | false =>
      by_cases hfinite : v.isFinite
      · rw [show (num v vs).asRead = num v .nowhere from if_pos hfinite] at h ⊢
        exact (h.parens true).congr (and_iff_right fun u hu => Option.some.inj hu ▸ hfinite).symm
      · rw [show (num v vs).asRead = .name "Infinity" from if_neg hfinite, show (num v vs).text =
          "Infinity" from numberText_of_isUnsigned hf (by simpa using hfinite)]
        have hlost : Shortened False (BranchPaint.parens true "Infinity") "Infinity" :=
          ⟨False.elim, fun _ => by decide, .inr (by decide)⟩
        exact hlost.congr ⟨False.elim, fun hP => hfinite (hP.1 v rfl)⟩
  · have hne : ∀ v s, o ≠ .num v s := fun v s heq => hnum ⟨v, s, heq⟩
    have hpoint : (member o p computed s).numberBeforePoint = none := by
      unfold numberBeforePoint
      split
      · rename_i heq
        cases heq
        exact absurd rfl (hne _ _)
      · rfl
    rw [needsParensAsObject_asRead hne]
    exact (h.parens _).congr (and_iff_right (finiteBeforePoint_of_none hpoint)).symm

/-- The text of an expression that was written and read: the same, unless a number before a point is
too large. -/
theorem shortened {e : Expr} (hf : e.Forall Formed) :
    Shortened (e.Forall FiniteBeforePoint) e.text e.asRead.text := by
  induction e using Expr.induction with
  | step e ih =>
  have hin : ∀ c ∈ e.children, Shortened (c.Forall FiniteBeforePoint) c.text c.asRead.text :=
    fun c hc => ih c hc (hf.inside c hc)
  have hhere := hf.here
  have hinf := hf.inside
  clear ih hf
  refine Shortened.congr ?_ forall_iff.symm
  cases e with
  | bool v s | str v s | null s | ident n s =>
    exact .of_eq rfl ⟨finiteBeforePoint_of_none rfl, fun c hc => absurd hc List.not_mem_nil⟩
  | num v s =>
    refine .of_eq ?_ ⟨finiteBeforePoint_of_none rfl, fun c hc => absurd hc List.not_mem_nil⟩
    unfold asRead
    split
    · rfl
    · rename_i hlarge
      exact (numberText_of_isUnsigned hhere (by simpa using hlarge)).symm
  | list es s =>
    exact (((shortened_items hin).append_left "[").append_right "]").congr
      (and_iff_right (finiteBeforePoint_of_none rfl)).symm
  | sequence es s =>
    exact (shortened_items hin).congr (and_iff_right (finiteBeforePoint_of_none rfl)).symm
  | member o p computed s =>
    have hmem : o ∈ (member o p computed s).children := by cases computed <;> simp [children]
    have ho := shortened_object (hinf o hmem).here (hin o hmem) p computed s
    cases computed with
    | true =>
      have hp := hin p (by simp [children])
      exact (((ho.append_right "[").append hp).append_right "]").congr
        (by simp [children, and_assoc])
    | false =>
      have hp : parens (p.eraseSpans.precedence < Precedence.primary) p.eraseSpans.text =
          parens (p.precedence < Precedence.primary) p.text := by
        rw [precedence_eraseSpans, text_eraseSpans]
      have htext : (member o p false s).asRead.text =
          parens (o.asRead.needsParensAsObject false) o.asRead.text ++ "." ++
          parens (p.eraseSpans.precedence < Precedence.primary) p.eraseSpans.text := rfl
      rw [htext, hp]
      exact ((ho.append_right ".").append_right _).congr (by simp [children])
  | call f args s =>
    obtain ⟨hf, hargs⟩ := List.forall_mem_cons.1 hin
    have hf := shortened_at (precedence_asRead f) hf Precedence.call
    exact (((hf.append_right "(").append (shortened_items hargs)).append_right ")").congr
      (by simp [children, FiniteBeforePoint, numberBeforePoint])
  | binary op l r s =>
    have hl := shortened_at (precedence_asRead _) (hin l List.mem_cons_self) op.precedence
    have hr := shortened_at (precedence_asRead _) (hin r (by simp [children])) (op.precedence + 1)
    exact (hl.between op.text hr).congr (by simp [children, FiniteBeforePoint, numberBeforePoint])
  | logical op l r s =>
    have hl := shortened_at (precedence_asRead _) (hin l List.mem_cons_self) op.precedence
    have hr := shortened_at (precedence_asRead _) (hin r (by simp [children])) (op.precedence + 1)
    exact (hl.between op.text hr).congr (by simp [children, FiniteBeforePoint, numberBeforePoint])
  | unary op a s =>
    have ha := shortened_at (precedence_asRead _) (hin a List.mem_cons_self) Precedence.unary
    have htext : (unary op a s).asRead.text =
        op.text ++ op.gap (a.asRead.textAt Precedence.unary) ++ a.asRead.textAt Precedence.unary :=
      rfl
    rw [htext, ha.gap]
    exact (ha.append_left _).congr (by simp [children, FiniteBeforePoint, numberBeforePoint])
  | update op before a s =>
    have ha (k : Nat) := shortened_at (precedence_asRead _) (hin a List.mem_cons_self) k
    cases before with
    | true =>
      exact ((ha Precedence.unary).append_left op.text).congr
        (by simp [children, FiniteBeforePoint, numberBeforePoint])
    | false =>
      exact ((ha Precedence.call).append_right op.text).congr
        (by simp [children, FiniteBeforePoint, numberBeforePoint])
  | assign op t v s =>
    have ht := shortened_at (precedence_asRead _) (hin t List.mem_cons_self) Precedence.call
    have hv := shortened_at (precedence_asRead _) (hin v (by simp [children])) Precedence.assignment
    exact (ht.between op.text hv).congr (by simp [children, FiniteBeforePoint, numberBeforePoint])
  | ternary c t e s =>
    have hc := shortened_at (precedence_asRead _) (hin c List.mem_cons_self) Precedence.logicalOr
    have ht := shortened_at (precedence_asRead _) (hin t (by simp [children])) Precedence.assignment
    have he := shortened_at (precedence_asRead _) (hin e (by simp [children])) Precedence.assignment
    exact ((((hc.append_right " ? ").append ht).append_right " : ").append he).congr
      (by simp [children, FiniteBeforePoint, numberBeforePoint, and_assoc])

end Expr

/-! ## Programs -/

namespace Program

/-- The text of a program that was written and read: the same, unless a number before a point is too
large. -/
theorem shortened {p : Program} (hf : p.ForallExpr Expr.Formed) (width : Nat) :
    Shortened (p.ForallExpr Expr.FiniteBeforePoint) (p.text width) (p.asRead.text width) := by
  rw [asRead_eq]
  exact shortened_mapExprs Expr.precedence_asRead
    (fun s hs => (hf s hs).imp fun _ h e he => Expr.shortened (h e he)) width

/-- Programs with the same text are the same up to spans, if they were read and their numbers are
finite. -/
theorem eraseSpans_eq_of_text_eq {source other : String} {p q : Program} (hp : parse source = .ok p)
    (hq : parse other = .ok q) (hfinite : p.ForallExpr Expr.FiniteNumber)
    (hfinite' : q.ForallExpr Expr.FiniteNumber) {width : Nat} (h : p.text width = q.text width) :
    p.eraseSpans = q.eraseSpans := by
  obtain ⟨hformed, hexprs⟩ := readable_of_parse hp hfinite
  obtain ⟨hformed', hexprs'⟩ := readable_of_parse hq hfinite'
  obtain ⟨r, hr, herase, -⟩ := p.parse_text width hformed hexprs
  obtain ⟨r', hr', herase', -⟩ := q.parse_text width hformed' hexprs'
  obtain rfl : r = r' := Except.ok.inj (hr.symm.trans (h ▸ hr'))
  exact herase.symm.trans herase'

/-- Canonical text can be read. It is written again as it stands exactly if no number before a point
is too large, and what is written then is written as it stands from there on. -/
theorem text_again {source : String} {p : Program} (h : parse source = .ok p) (width : Nat) :
    ∃ q, parse (p.text width) = .ok q ∧
      (q.text width = p.text width ↔ p.ForallExpr Expr.FiniteBeforePoint) ∧
      ∃ r, parse (q.text width) = .ok r ∧ r.text width = q.text width := by
  obtain ⟨hp, hformed⟩ := formed_of_parse h
  obtain ⟨q, hq, hread, -⟩ := parse_text_asRead width p hp hformed
  have hagain : q.text width = p.asRead.text width := by rw [← hread, text_eraseSpans]
  obtain ⟨hq', hqformed⟩ := formed_of_parse hq
  obtain ⟨r, hr, hread', -⟩ := parse_text_asRead width q hq' hqformed
  rw [asRead_of_finite (finite_of_eraseSpans_eq_asRead hread)] at hread'
  refine ⟨q, hq, ?_, r, hr, text_congr hread' width⟩
  rw [hagain]
  exact (shortened hformed width).eq_iff

/-- Numbers that are too large stand in many places here, but not before a point. -/
theorem text_again_sample :
    ∃ p, parse "f(1e999, [-1e999][1e999], .5.x, (1e999)[0].y) ? 1e999 : 1.x;" = .ok p ∧
    p.ForallExpr Expr.FiniteBeforePoint ∧ ∃ q, parse (p.text 4) = .ok q ∧
      (q.text 4 = p.text 4 ↔ p.ForallExpr Expr.FiniteBeforePoint) ∧ ∃ r, parse (q.text 4) = .ok r ∧
        r.text 4 = q.text 4 := by
  obtain ⟨p, hp, hfinite⟩ :=
    exists_parse "f(1e999, [-1e999][1e999], .5.x, (1e999)[0].y) ? 1e999 : 1.x;"
      (fun p => p.ForallExpr Expr.FiniteBeforePoint) (by decide +kernel)
  exact ⟨p, hp, hfinite, text_again hp 4⟩

/-- The text of a number that is too large loses its parentheses before a point. -/
theorem text_loses_parens : ∃ p q, parse "1e999.x" = .ok p ∧ p.text 4 = "(Infinity).x;" ∧
    parse (p.text 4) = .ok q ∧ q.text 4 = "Infinity.x;" := by
  obtain ⟨p, hp, htext⟩ := exists_parse "1e999.x" (fun p => p.text 4 = "(Infinity).x;")
    (by decide +kernel)
  obtain ⟨q, hq, htext'⟩ := exists_parse "(Infinity).x;" (fun q => q.text 4 = "Infinity.x;")
    (by decide +kernel)
  exact ⟨p, q, hp, htext, htext ▸ hq, htext'⟩

end Program

end BranchPaint
