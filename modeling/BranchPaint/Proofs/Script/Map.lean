import BranchPaint.Proofs.Script.Tree

/-!
# Statements with other expressions

A statement that stands nowhere and holds other expressions, each in the place of the one it was
made of (`Stmt.mapExprs`). The statement up to spans is of this kind (`Stmt.eraseSpans_eq`), and so
is the statement that its text stands for (`Stmt.asRead_eq`). What holds of such statements in
general holds of both.
-/

namespace BranchPaint

/-! ## The map -/

/-- The same name with its first value mapped, standing nowhere. -/
def Declarator.mapExprs (f : Expr → Expr) (d : Declarator) : Declarator :=
  ⟨d.name, d.init.map f, .nowhere⟩

/-- The same clause with its expressions mapped, standing nowhere. -/
def ForInit.mapExprs (f : Expr → Expr) : ForInit → ForInit
  | declare word ds => declare word (ds.map (Declarator.mapExprs f))
  | expr e => expr (f e)

mutual

/-- The same statement with its expressions mapped, standing nowhere. -/
def Stmt.mapExprs (f : Expr → Expr) : Stmt → Stmt
  | .function n ps body _ => .function n ps (mapExprsAll f body) .nowhere
  | .declare w ds _ => .declare w (ds.map (Declarator.mapExprs f)) .nowhere
  | .branch t c none _ => .branch (f t) (c.mapExprs f) none .nowhere
  | .branch t c (some a) _ => .branch (f t) (c.mapExprs f) (some (a.mapExprs f)) .nowhere
  | .whileLoop t b _ => .whileLoop (f t) (b.mapExprs f) .nowhere
  | .forLoop i t u b _ => .forLoop (i.map (ForInit.mapExprs f)) (t.map f) (u.map f)
    (b.mapExprs f) .nowhere
  | .ret v _ => .ret (v.map f) .nowhere
  | .block body _ => .block (mapExprsAll f body) .nowhere
  | .expr e _ => .expr (f e) .nowhere
  | .breakLoop _ => .breakLoop .nowhere
  | .continueLoop _ => .continueLoop .nowhere
  | .empty _ => .empty .nowhere

/-- The same statements with their expressions mapped, standing nowhere. -/
def Stmt.mapExprsAll (f : Expr → Expr) : List Stmt → List Stmt
  | [] => []
  | s :: ss => s.mapExprs f :: mapExprsAll f ss

end

/-- The same program with its expressions mapped, standing nowhere. -/
def Program.mapExprs (f : Expr → Expr) (p : Program) : Program :=
  ⟨p.body.map (Stmt.mapExprs f), .nowhere⟩

variable (f : Expr → Expr)

/-- Statements in a row are mapped one by one. -/
theorem Stmt.mapExprsAll_eq (ss : List Stmt) : mapExprsAll f ss = ss.map (mapExprs f) := by
  induction ss with
  | nil => rfl
  | cons s ss ih => rw [mapExprsAll, ih, List.map_cons]

/-! ## Trees up to spans -/

/-- Erasing the spans at the start of a counting loop maps its expressions. -/
theorem ForInit.eraseSpans_eq (i : ForInit) : i.eraseSpans = i.mapExprs Expr.eraseSpans := by
  cases i
  all_goals rfl

mutual

/-- Erasing the spans of a statement maps its expressions. -/
theorem Stmt.eraseSpans_eq : (s : Stmt) → s.eraseSpans = s.mapExprs Expr.eraseSpans
  | .function _ _ body _ | .block body _ => by
    rw [eraseSpans, mapExprs, eraseSpansAll_eq_mapExprsAll body]
  | .branch t c none _ => by rw [eraseSpans, mapExprs, eraseSpans_eq c]
  | .branch t c (some a) _ => by rw [eraseSpans, mapExprs, eraseSpans_eq c, eraseSpans_eq a]
  | .whileLoop t body _ => by rw [eraseSpans, mapExprs, eraseSpans_eq body]
  | .forLoop i t u body _ => by
    rw [eraseSpans, mapExprs, eraseSpans_eq body, funext ForInit.eraseSpans_eq]
  | .declare _ _ _ | .ret _ _ | .expr _ _ | .breakLoop _ | .continueLoop _ | .empty _ => rfl

/-- The same for statements in a row. -/
theorem Stmt.eraseSpansAll_eq_mapExprsAll :
    (ss : List Stmt) → eraseSpansAll ss = mapExprsAll Expr.eraseSpans ss
  | [] => rfl
  | s :: ss => by rw [eraseSpansAll, mapExprsAll, eraseSpans_eq s, eraseSpansAll_eq_mapExprsAll ss]

end

/-- Erasing the spans of a program maps its expressions. -/
theorem Program.eraseSpans_eq (p : Program) : p.eraseSpans = p.mapExprs Expr.eraseSpans := by
  rw [eraseSpans, mapExprs, Stmt.eraseSpansAll_eq_mapExprsAll, Stmt.mapExprsAll_eq]

/-! ## What stands inside -/

/-- The expressions of a mapped declarator are mapped. -/
theorem Declarator.exprs_mapExprs (d : Declarator) : (d.mapExprs f).exprs = d.exprs.map f := by
  obtain ⟨name, _ | e, span⟩ := d
  all_goals rfl

/-- So are those at the start of a counting loop. -/
theorem ForInit.exprs_mapExprs (i : ForInit) : (i.mapExprs f).exprs = i.exprs.map f := by
  cases i with
  | declare word ds =>
    simp [mapExprs, exprs, List.map_flatMap, List.flatMap_map, Declarator.exprs_mapExprs]
  | expr e => rfl

section congr

variable {f g : Expr → Expr}

/-- Functions that agree on an optional expression map it alike. -/
theorem Expr.map_congr_toList {o : Option Expr} (h : ∀ e ∈ o.toList, f e = g e) :
    o.map f = o.map g :=
  Option.map_congr fun e he => h e (Option.mem_toList.2 he)

/-- Functions that agree on the expressions of declarators map these alike. -/
theorem Declarator.map_mapExprs_congr {ds : List Declarator}
    (h : ∀ e ∈ ds.flatMap Declarator.exprs, f e = g e) :
    ds.map (mapExprs f) = ds.map (mapExprs g) := by
  refine List.map_congr_left fun d hd => ?_
  rw [mapExprs, mapExprs, Expr.map_congr_toList fun e he => h e (List.mem_flatMap.2 ⟨d, hd, he⟩)]

/-- So they do at the start of a counting loop. -/
theorem ForInit.map_mapExprs_congr {o : Option ForInit}
    (h : ∀ e ∈ o.toList.flatMap ForInit.exprs, f e = g e) :
    o.map (mapExprs f) = o.map (mapExprs g) := by
  rcases o with _ | ⟨w, ds⟩ | e
  · rfl
  · have hds : ∀ e ∈ ds.flatMap Declarator.exprs, f e = g e := by simpa [exprs] using h
    simp [mapExprs, Declarator.map_mapExprs_congr hds]
  · simp [mapExprs, h e (by simp [exprs])]

end congr

namespace Stmt

/-- The expressions of a mapped statement are mapped. -/
theorem exprs_mapExprs (s : Stmt) : (s.mapExprs f).exprs = s.exprs.map f := by
  cases s with
  | declare word ds span =>
    simp [mapExprs, exprs, List.map_flatMap, List.flatMap_map, Declarator.exprs_mapExprs]
  | branch t c a span =>
    cases a
    all_goals rfl
  | forLoop i t u body span =>
    cases i
    all_goals
      cases t
      all_goals
        cases u
        all_goals simp [mapExprs, exprs, ForInit.exprs_mapExprs]
  | ret v span =>
    cases v
    all_goals rfl
  | _ => rfl

/-- The statements inside a mapped statement are mapped. -/
theorem children_mapExprs (s : Stmt) : (s.mapExprs f).children = s.children.map (mapExprs f) := by
  cases s with
  | branch t c a span =>
    cases a
    all_goals rfl
  | _ => simp [mapExprs, children, mapExprsAll_eq]

variable {f} {P : Expr → Prop}

/-- A condition holds of all mapped expressions if the mapped condition holds of all expressions. -/
theorem forall_mapExprs {s : Stmt} :
    (s.mapExprs f).Forall (fun s => ∀ e ∈ s.exprs, P e) ↔
      s.Forall (fun s => ∀ e ∈ s.exprs, P (f e)) := by
  induction s using Stmt.induction with
  | step s ih =>
  constructor
  · intro h
    have hhere := h.here
    have hin := h.inside
    rw [exprs_mapExprs, List.forall_mem_map] at hhere
    rw [children_mapExprs, List.forall_mem_map] at hin
    exact .node hhere fun c hc => (ih c hc).1 (hin c hc)
  · intro h
    refine .node ?_ ?_
    · rw [exprs_mapExprs, List.forall_mem_map]
      exact h.here
    · rw [children_mapExprs, List.forall_mem_map]
      exact fun c hc => (ih c hc).2 (h.inside c hc)

/-- Maps that agree on the expressions of a statement give the same statement. -/
theorem mapExprs_congr {g : Expr → Expr} {s : Stmt}
    (h : s.Forall fun s => ∀ e ∈ s.exprs, f e = g e) : s.mapExprs f = s.mapExprs g := by
  induction s using Stmt.induction with
  | step s ih =>
  have hin : ∀ c ∈ s.children, c.mapExprs f = c.mapExprs g := fun c hc => ih c hc (h.inside c hc)
  have hexprs := h.here
  clear ih h
  cases s with
  | declare w ds span => simp [mapExprs, Declarator.map_mapExprs_congr hexprs]
  | branch t c a span =>
    cases a
    all_goals simp_all [mapExprs, exprs, children]
  | forLoop i t u b span =>
    simp only [exprs, List.forall_mem_append] at hexprs
    obtain ⟨⟨hi, ht⟩, hu⟩ := hexprs
    simp only [mapExprs, ForInit.map_mapExprs_congr hi, Expr.map_congr_toList ht,
      Expr.map_congr_toList hu, hin b List.mem_cons_self]
  | ret v span => simp only [mapExprs, Expr.map_congr_toList hexprs]
  | _ => simp_all [mapExprs, mapExprsAll_eq, exprs, children]

/-- What holds of all statements holds throughout each. -/
theorem Forall.of_all {P : Stmt → Prop} (h : ∀ s, P s) (s : Stmt) : s.Forall P := by
  induction s using Stmt.induction with
  | step s ih => exact .node (h s) ih

end Stmt

end BranchPaint
