import BranchPaint.Proofs.Inline.Simulation
import BranchPaint.Proofs.RoundTrip.Program
import BranchPaint.Proofs.Store.Statement

/-!
# Inlining keeps the meaning of functions without loops

In a function without loops whose expressions store nothing (`Stmt.LoopFree`), inlining leaves no
declaration and no assignment behind, and the function still ends in the same way for all values of
its parameters, with the same results of all tests on the way (`Stmt.exec_inline`). The scope
follows the store along the statements that are run, by the same invariant as within expressions
(`Scope.Tracks`).

Behind a branch the scope is what it was in front of it. So a side of a branch that stores must not
be left to what follows: it ends with `return` (`Stmt.Returning`).
-/

namespace BranchPaint

/-! ## Functions without loops -/

/-- What a statement that is an expression computes: the right side if it assigns to a name, else
all of it. -/
def Expr.rightSide : Expr → Expr
  | .assign _ (.ident _ _) v _ => v
  | e => e

/-- An assignment that stands alone in a function without loops stores to a name. -/
theorem Expr.exists_ident_of_rightSide {op : AssignOp} {t v : Expr} {s : Span}
    (h : (assign op t v s).rightSide.Forall Pure) : ∃ n ns, t = .ident n ns ∧ v.Forall Pure := by
  cases t with
  | ident n ns => exact ⟨n, ns, rfl, h⟩
  | _ => exact h.here.elim

namespace Stmt

/-- Is the statement a declaration or an assignment? -/
def isStore : Stmt → Bool
  | .declare _ _ _ | .expr (.assign _ _ _ _) _ => true
  | _ => false

mutual

/-- Does the statement end with `return`? -/
def endsWithReturn : Stmt → Bool
  | .ret _ _ => true
  | .block body _ => lastReturns body
  | _ => false

/-- Does the last of the statements end with `return`? -/
def lastReturns : List Stmt → Bool
  | [] => false
  | [s] => s.endsWithReturn
  | _ :: s :: ss => lastReturns (s :: ss)

end

/-- If there is a declaration or an assignment in it, at any depth, the statement ends with
`return`. -/
def Returning (s : Stmt) : Prop := s.Forall (fun s => s.isStore = false) ∨ s.endsWithReturn = true

instance : DecidablePred Returning := fun s =>
  inferInstanceAs (Decidable (s.Forall (fun s => s.isStore = false) ∨ s.endsWithReturn = true))

/-- What holds at each statement of a function without loops: it declares, assigns to a name,
branches, returns or computes, with expressions that store nothing, and each side of a branch
returns if it stores. An `else if` goes by its own sides. -/
def LoopFree : Stmt → Prop
  | .declare _ ds _ => ∀ e ∈ ds.flatMap Declarator.exprs, e.Forall Expr.Pure
  | .expr e _ => e.rightSide.Forall Expr.Pure
  | .branch t c a _ => t.Forall Expr.Pure ∧ c.Returning ∧ ∀ b ∈ a, b.isBranch = true ∨ b.Returning
  | .ret v _ => ∀ e ∈ v, e.Forall Expr.Pure
  | .block _ _ | .empty _ => True
  | .function _ _ _ _ | .whileLoop _ _ _ | .forLoop _ _ _ _ _ | .breakLoop _
  | .continueLoop _ => False

instance : DecidablePred LoopFree := fun s =>
  match s with
  | .declare _ ds _ =>
    inferInstanceAs (Decidable (∀ e ∈ ds.flatMap Declarator.exprs, e.Forall Expr.Pure))
  | .expr e _ => inferInstanceAs (Decidable (e.rightSide.Forall Expr.Pure))
  | .branch t c a _ =>
    inferInstanceAs
      (Decidable (t.Forall Expr.Pure ∧ c.Returning ∧ ∀ b ∈ a, b.isBranch = true ∨ b.Returning))
  | .ret v _ => inferInstanceAs (Decidable (∀ e ∈ v, e.Forall Expr.Pure))
  | .block _ _ | .empty _ => inferInstanceAs (Decidable True)
  | .function _ _ _ _ | .whileLoop _ _ _ | .forLoop _ _ _ _ _ | .breakLoop _ | .continueLoop _ =>
    inferInstanceAs (Decidable False)

end Stmt

/-! ## Pure expressions -/

namespace Expr

/-- Inlining keeps expressions pure. -/
theorem inlinable_pure : Inlinable Pure where
  same h he := by
    cases h with
    | call => exact he
    | assign => exact he
    | _ => trivial
  binary _ _ _ _ := trivial
  undefined := trivial

/-- A pure expression may be inlined in any order. -/
theorem inOrder_of_pure {e : Expr} (h : e.Forall Pure) : e.Forall InOrder := by
  induction h with
  | @node e here inside ih =>
    refine .node ?_ ih
    have hnone : ∀ c ∈ e.children, c.assigned = [] := fun c hc => assigned_of_pure (inside c hc)
    cases e with
    | member o p computed s =>
      cases computed with
      | false => trivial
      | true =>
        have ho := hnone o (by simp [children])
        have hp := hnone p (by simp [children])
        constructor
        · rw [ho]
          exact fun n hn => absurd hn List.not_mem_nil
        · rw [hp]
          exact fun n hn => absurd hn List.not_mem_nil
    | logical op l r s => exact hnone r (by simp [children])
    | ternary c t e s => exact ⟨hnone t (by simp [children]), hnone e (by simp [children])⟩
    | assign op t v s => exact here.elim
    | _ => trivial

/-- A plain expression is formed. -/
theorem formed_of_plain {e : Expr} (h : e.Forall Plain) : e.Forall Formed := h.imp fun _ h => h.1.1

/-- A pure expression leaves the store as it is. -/
theorem store_of_pure {e : Expr} (he : e.Forall Formed) (hp : e.Forall Pure) {σ τ : Store}
    {v : Value} (h : e.run σ = .ok (v, τ)) : τ = σ :=
  ((run_eq_ok_iff he (assigned_of_pure hp)).1 h).2

end Expr

/-! ## What falls through a branch stores nothing -/

namespace Stmt

variable {rounds : Nat}

mutual

/-- A statement that ends with `return` does not let what follows run. -/
theorem returned_of_endsWithReturn :
    (s : Stmt) → s.endsWithReturn = true → {σ : Store} → {out : RunResult} →
    s.exec rounds σ = some out → out.flow ≠ .next
  | .ret none _, hs, σ, out, h => by
    cases h
    exact fun hflow => (by cases hflow)
  | .ret (some e) _, hs, σ, out, h => by
    obtain ⟨v, τ, -, rfl⟩ := exec_ret.1 h
    exact fun hflow => (by cases hflow)
  | .block body _, hs, σ, out, h => returned_of_lastReturns body hs h
  | .function _ _ _ _, hs, σ, out, h | .declare _ _ _, hs, σ, out, h
  | .branch _ _ _ _, hs, σ, out, h
  | .whileLoop _ _ _, hs, σ, out, h | .forLoop _ _ _ _ _, hs, σ, out, h | .expr _ _, hs, σ, out, h
  | .breakLoop _, hs, σ, out, h | .continueLoop _, hs, σ, out, h
  | .empty _, hs, σ, out, h => by cases hs

/-- Nor do statements of which the last ends so. -/
theorem returned_of_lastReturns :
    (ss : List Stmt) → lastReturns ss = true → {σ : Store} → {out : RunResult} →
    execAll rounds ss σ = some out → out.flow ≠ .next
  | [], hs, σ, out, h => by cases hs
  | [s], hs, σ, out, h => by
    obtain ⟨o, ho, ⟨hnext, -⟩ | ⟨v, -, rfl⟩⟩ := execAll_cons.1 h
    · exact absurd hnext (returned_of_endsWithReturn s hs ho)
    · exact fun hflow => (by cases hflow)
  | s :: s' :: ss, hs, σ, out, h => by
    obtain ⟨o, -, ⟨-, o', ho', rfl⟩ | ⟨v, -, rfl⟩⟩ := execAll_cons.1 h
    · have hlast := returned_of_lastReturns (s' :: ss) hs ho'
      exact hlast
    · exact fun hflow => (by cases hflow)

end

mutual

/-- Without declarations and assignments the store stays. -/
theorem store_of_storeless :
    (s : Stmt) → s.Forall LoopFree → s.ForallExpr Expr.Plain →
      s.Forall (fun s => s.isStore = false) →
    {σ : Store} → {out : RunResult} → s.exec rounds σ = some out → out.store = σ
  | .declare _ _ _, hf, he, hs, σ, out, h => by cases hs.here
  | .expr e s, hf, he, hs, σ, out, h => by
    obtain ⟨v, τ, hrun, rfl⟩ := exec_expr.1 h
    have hpure : e.Forall Expr.Pure := by
      cases e with
      | assign op t v as => cases hs.here
      | _ => exact hf.here
    exact Expr.store_of_pure (Expr.formed_of_plain (he.here e List.mem_cons_self)) hpure hrun
  | .branch t c a s, hf, he, hs, σ, out, h => by
    obtain ⟨v, τ, ht, hside⟩ := exec_branch.1 h
    obtain rfl :=
      Expr.store_of_pure (Expr.formed_of_plain (he.here t List.mem_cons_self)) hf.here.1 ht
    have hc : c ∈ (branch t c a s).children := List.mem_cons_self
    split at hside
    · obtain ⟨o, ho, rfl⟩ := hside
      have hstore := store_of_storeless c (hf.inside c hc) (he.inside c hc) (hs.inside c hc) ho
      exact hstore
    · obtain ⟨o, ho, rfl⟩ := hside
      cases a with
      | none =>
        cases ho
        rfl
      | some a =>
        have ha : a ∈ (branch t c (some a) s).children := by simp [children]
        have hstore := store_of_storeless a (hf.inside a ha) (he.inside a ha) (hs.inside a ha) ho
        exact hstore
  | .ret none s, hf, he, hs, σ, out, h => by
    cases h
    rfl
  | .ret (some e) s, hf, he, hs, σ, out, h => by
    obtain ⟨v, τ, hrun, rfl⟩ := exec_ret.1 h
    exact Expr.store_of_pure (Expr.formed_of_plain (he.here e List.mem_cons_self))
      (hf.here e rfl) hrun
  | .block body s, hf, he, hs, σ, out, h =>
    storeAll_of_storeless body hf.inside he.inside hs.inside h
  | .empty s, hf, he, hs, σ, out, h => by
    cases h
    rfl
  | .function _ _ _ _, hf, he, hs, σ, out, h | .whileLoop _ _ _, hf, he, hs, σ, out, h
  | .forLoop _ _ _ _ _, hf, he, hs, σ, out, h | .breakLoop _, hf, he, hs, σ, out, h
  | .continueLoop _, hf, he, hs, σ, out, h => hf.here.elim

/-- The same for statements in a row. -/
theorem storeAll_of_storeless :
    (ss : List Stmt) → (∀ s ∈ ss, s.Forall LoopFree) → (∀ s ∈ ss, s.ForallExpr Expr.Plain) →
    (∀ s ∈ ss, s.Forall (fun s => s.isStore = false)) → {σ : Store} → {out : RunResult} →
      execAll rounds ss σ = some out →
    out.store = σ
  | [], hf, he, hs, σ, out, h => by
    cases h
    rfl
  | s :: ss, hf, he, hs, σ, out, h => by
    obtain ⟨hf, hfs⟩ := List.forall_mem_cons.1 hf
    obtain ⟨he, hes⟩ := List.forall_mem_cons.1 he
    obtain ⟨hs, hss⟩ := List.forall_mem_cons.1 hs
    obtain ⟨o, ho, ⟨-, o', ho', rfl⟩ | ⟨v, -, rfl⟩⟩ := execAll_cons.1 h
    · have hrest := storeAll_of_storeless ss hfs hes hss ho'
      exact hrest.trans (store_of_storeless s hf he hs ho)
    · have hstore := store_of_storeless s hf he hs ho
      exact hstore

end

/-- A side of a branch that is run to its end has stored nothing. -/
theorem store_of_next {s : Stmt} (hf : s.Forall LoopFree) (he : s.ForallExpr Expr.Plain)
    (hs : s.isBranch = true ∨ s.Returning) {σ : Store} {out : RunResult}
    (h : s.exec rounds σ = some out) (hnext : out.flow = .next) : out.store = σ := by
  induction s using Stmt.induction generalizing σ out with
  | step s ih =>
  rcases hs with hbranch | hstoreless | hreturn
  · cases s with
    | branch t c a span =>
      obtain ⟨v, τ, ht, hside⟩ := exec_branch.1 h
      obtain rfl :=
        Expr.store_of_pure (Expr.formed_of_plain (he.here t List.mem_cons_self)) hf.here.1 ht
      have hc : c ∈ (branch t c a span).children := List.mem_cons_self
      split at hside
      · obtain ⟨o, ho, rfl⟩ := hside
        have hstore := ih c hc (hf.inside c hc) (he.inside c hc) (.inr hf.here.2.1) ho hnext
        exact hstore
      · obtain ⟨o, ho, rfl⟩ := hside
        cases a with
        | none =>
          cases ho
          rfl
        | some a =>
          have ha : a ∈ (branch t c (some a) span).children := by simp [children]
          have hstore := ih a ha (hf.inside a ha) (he.inside a ha) (hf.here.2.2 a rfl) ho hnext
          exact hstore
    | _ => cases hbranch
  · exact store_of_storeless s hf he hstoreless h
  · exact absurd hnext (returned_of_endsWithReturn s hreturn h)

/-! ## Inlining keeps the branches -/

mutual

/-- Inlining keeps every branch, in its place. -/
theorem branchLines_inline (test : LoopTest) :
    (s : Stmt) → (scope : Scope) → (s.inline test scope).1.branchLines = s.branchLines
  | .function _ _ body _, scope => branchLinesAll_inline .none body _
  | .block body _, scope => branchLinesAll_inline test body scope
  | .branch t c none s, scope => congrArg (s.startLine :: ·) (branchLines_inline test c _)
  | .branch t c (some a) s, scope => by
    simp only [inline, branchLines, branchLines_inline test c, branchLines_inline test a]
  | .whileLoop t body s, scope => branchLines_inline _ body _
  | .expr e s, scope => by
    cases e with
    | assign op t v as =>
      rw [inline_assign]
      cases (Expr.inlineAssignment test op t v as scope).1
      all_goals rfl
    | _ => rfl
  | .ret v s, scope => by
    cases v
    all_goals rfl
  | .declare _ _ _, scope | .forLoop _ _ _ _ _, scope | .breakLoop _, scope | .continueLoop _, scope
  | .empty _, scope => rfl

/-- The same for statements in a row. -/
theorem branchLinesAll_inline (test : LoopTest) : (ss : List Stmt) → (scope : Scope) →
    branchLinesAll (inlineAll test ss scope).1 = branchLinesAll ss
  | [], scope => rfl
  | s :: ss, scope => by
    have hs := branchLines_inline test s scope
    have hss := branchLinesAll_inline test ss (s.inline test scope).2
    simp only [inlineAll, branchLinesAll]
    split
    · rename_i hempty
      cases hresult : (s.inline test scope).1 with
      | empty span =>
        rw [hresult] at hs
        rw [← hs, hss]
        rfl
      | _ => rw [hresult] at hempty; cases hempty
    · rw [branchLinesAll, hs, hss]

end

/-- Inlining keeps the number of branches. -/
theorem branchCount_inline (test : LoopTest) (s : Stmt) (scope : Scope) :
    (s.inline test scope).1.branchCount = s.branchCount :=
  congrArg List.length (branchLines_inline test s scope)

/-- The same for statements in a row. -/
theorem branchCountAll_inline (test : LoopTest) (ss : List Stmt) (scope : Scope) :
    branchCountAll (inlineAll test ss scope).1 = branchCountAll ss :=
  congrArg List.length (branchLinesAll_inline test ss scope)

/-- The same for what stands behind `else`. -/
theorem branchCountElse_inline (test : LoopTest) (a : Option Stmt) (scope : Scope) :
    branchCountElse (a.map fun a => (a.inline test scope).1) = branchCountElse a := by
  cases a with
  | none => rfl
  | some a => exact branchCount_inline test a scope

/-- The empty statement does nothing. -/
theorem of_isEmpty {s : Stmt} (hs : s.isEmpty = true) {σ τ : Store} {flow : Flow}
    {tests : List (List Bool)} (h : s.exec rounds σ = some ⟨flow, τ, tests⟩) :
    flow = .next ∧ tests = [] := by
  cases s with
  | empty span =>
    cases h
    exact ⟨rfl, rfl⟩
  | _ => cases hs

end Stmt

/-! ## The scope follows the store -/

/-- Names are bound to pure expressions as they are read. -/
structure Scope.Ready (scope : Scope) : Prop where
  plain : scope.Plain
  pure : scope.Forall Expr.Pure

/-- Binding a name to a plain and pure expression keeps a scope ready. -/
theorem Scope.Ready.bind {scope : Scope} (hs : scope.Ready) {n : String} (hn : IsIdentifier n)
    {e : Expr} (he : e.Forall Expr.Plain) (hp : e.Forall Expr.Pure) : (scope.bind n e).Ready :=
  ⟨⟨hs.plain.named.bind hn e, hs.plain.exprs.bind n he⟩, hs.pure.bind n hp⟩

namespace Expr

/-- A pure expression: the store and the scope stay, and the inlined one has its value over the
values at the start. -/
theorem run_inline_of_pure {e : Expr} (he : e.Forall Plain) (hp : e.Forall Pure) {scope : Scope}
    (hs : scope.Ready) {ρ σ τ : Store} (ht : scope.Tracks ρ σ) {v : Value}
    (h : e.run σ = .ok (v, τ)) :
    τ = σ ∧ (e.inline .none scope).2 = scope ∧ (e.inline .none scope).1.run ρ = .ok (v, ρ) := by
  obtain ⟨hvalue, -, -⟩ := inline_follows e he (inOrder_of_pure hp) hs.plain ht h
  obtain ⟨he', -⟩ := inline_plain .none he hs.plain
  obtain ⟨hp', -⟩ := e.inline_forall inlinable_pure .none scope hp hs.pure
  refine ⟨store_of_pure (formed_of_plain he) hp h,
    inline_scope_of_assigned (assigned_of_pure hp) .none scope, ?_⟩
  exact (run_eq_ok_iff (formed_of_plain he') (assigned_of_pure hp')).2 ⟨hvalue, rfl⟩

end Expr

/-- Over the values at the start the scope behind declared names tells what the store holds. -/
theorem Scope.declareAll_tracks {ρ : Store} (hundef : ρ "undefined" = .ok .undefined)
    {ds : List Declarator} (hnames : ∀ d ∈ ds, IsIdentifier d.name)
    (he : ∀ e ∈ ds.flatMap Declarator.exprs, e.Forall Expr.Plain)
    (hp : ∀ e ∈ ds.flatMap Declarator.exprs, e.Forall Expr.Pure) {scope : Scope} (hs : scope.Ready)
    {σ τ : Store} (ht : scope.Tracks ρ σ) (h : σ.declareAll ds = .ok τ) :
    (scope.declareAll .none ds).Ready ∧ (scope.declareAll .none ds).Tracks ρ τ := by
  induction ds generalizing scope σ with
  | nil =>
    cases h
    exact ⟨hs, ht⟩
  | cons d ds ih =>
    obtain ⟨hname, hnames'⟩ := List.forall_mem_cons.1 hnames
    have he' : ∀ e ∈ ds.flatMap Declarator.exprs, e.Forall Expr.Plain :=
      fun e hmem => he e (by simp [hmem])
    have hp' : ∀ e ∈ ds.flatMap Declarator.exprs, e.Forall Expr.Pure :=
      fun e hmem => hp e (by simp [hmem])
    obtain ⟨name, _ | e, span⟩ := d
    · have hready : (scope.bind name (.name "undefined")).Ready :=
        hs.bind hname (.leaf ⟨⟨isIdentifier_undefined, trivial⟩, trivial⟩ rfl) (.leaf trivial rfl)
      have hvalue : (Expr.name "undefined").evalWith ρ = .ok .undefined := hundef
      exact ih hnames' he' hp' hready (ht.bind hvalue name) h
    · obtain ⟨⟨v, σ₁⟩, hrun, h⟩ := bind_eq_ok.1 h
      have hein := he e (by simp [Declarator.exprs])
      have hpin := hp e (by simp [Declarator.exprs])
      obtain ⟨hvalue, htracks, -⟩ :=
        Expr.inline_follows e hein (Expr.inOrder_of_pure hpin) hs.plain ht hrun
      obtain ⟨he₁, hs₁⟩ := Expr.inline_plain .none hein hs.plain
      obtain ⟨hp₁, hpure₁⟩ := e.inline_forall Expr.inlinable_pure .none scope hpin hs.pure
      have hready : (e.inline .none scope).2.Ready := ⟨hs₁, hpure₁⟩
      exact ih hnames' he' hp' (hready.bind hname he₁ hp₁) (htracks.bind hvalue name) h

namespace Stmt

/-- Outside of loops an assignment that stands alone leaves nothing but a binding. -/
theorem inline_absorbed (op : AssignOp) (n : String) (ns as s : Span) (v : Expr) (scope : Scope) :
    (Stmt.expr (.assign op (.ident n ns) v as) s).inline .none scope =
      (.empty s, (v.inline .none scope).2.bind n
        ((v.inline .none scope).2.stored n op (v.inline .none scope).1 as)) :=
  inline_assign_name .none op n ns as s v scope

/-- The binding tells what the assignment stores. -/
theorem inline_store {op : AssignOp} {n : String} {ns as s : Span} {v : Expr}
    (he : (Expr.assign op (.ident n ns) v as).Forall Expr.Plain) (hp : v.Forall Expr.Pure)
    {scope : Scope} (hs : scope.Ready) {ρ σ τ : Store} (ht : scope.Tracks ρ σ) {w : Value}
    (h : (Expr.assign op (.ident n ns) v as).run σ = .ok (w, τ)) :
    ((Stmt.expr (.assign op (.ident n ns) v as) s).inline .none scope).2.Ready ∧
      ((Stmt.expr (.assign op (.ident n ns) v as) s).inline .none scope).2.Tracks ρ τ := by
  have horder : (Expr.assign op (.ident n ns) v as).Forall Expr.InOrder := by
    refine .node ?_ (List.forall_mem_cons.2 ⟨.leaf trivial rfl,
        List.forall_mem_singleton.2 (Expr.inOrder_of_pure hp)⟩)
    cases op with
    | assign => trivial
    | compound b =>
      intro m _
      rw [Expr.assigned_of_pure hp]
      exact List.not_mem_nil
  obtain ⟨-, htracks, -⟩ := Expr.inline_follows _ he horder hs.plain ht h
  obtain ⟨-, hplain⟩ := Expr.inline_plain .none he hs.plain
  obtain ⟨hvalue, hpure⟩ := v.inline_forall Expr.inlinable_pure .none scope hp hs.pure
  simp only [Expr.inline, Scope.store_eq] at htracks hplain
  rw [inline_absorbed]
  exact ⟨⟨hplain, hpure.bind n (hpure.stored Expr.inlinable_pure hvalue trivial)⟩, htracks⟩

/-- The inlined statements end in the same way over the values at the start, with the same results
of tests, and if what follows runs next, then the scope tells what the store holds. -/
structure EndsAlike (ρ : Store) (exec : Store → Option RunResult) (scope : Scope)
    (out : RunResult) : Prop where
  exec : exec ρ = some ⟨out.flow, ρ, out.tests⟩
  behind : out.flow = .next → scope.Ready ∧ scope.Tracks ρ out.store

mutual

/-- Inlining follows the run of a function without loops. -/
theorem inline_follows {rounds : Nat} {ρ : Store} (hundef : ρ "undefined" = .ok .undefined) :
    (s : Stmt) → s.Forall LoopFree →
    s.Forall Formed → s.ForallExpr Expr.Plain → {scope : Scope} → scope.Ready → {σ : Store} →
      {out : RunResult} →
    scope.Tracks ρ σ → s.exec rounds σ = some out →
    EndsAlike ρ ((s.inline .none scope).1.exec rounds) (s.inline .none scope).2 out
  | .declare word ds s, hl, hf, he, scope, hs, σ, out, ht, h => by
    obtain ⟨τ, hds, rfl⟩ := exec_declare.1 h
    obtain ⟨hready, htracks⟩ := Scope.declareAll_tracks hundef hf.here.2 he.here hl.here hs ht hds
    exact ⟨rfl, fun _ => ⟨hready, htracks⟩⟩
  | .expr e s, hl, hf, he, scope, hs, σ, out, ht, h => by
    obtain ⟨v, τ, hrun, rfl⟩ := exec_expr.1 h
    have hplain := he.here e List.mem_cons_self
    have hpure (hp : e.Forall Expr.Pure) :
        EndsAlike ρ ((Stmt.expr (e.inline .none scope).1 s).exec rounds) (e.inline .none scope).2
          ⟨.next, τ, []⟩ := by
      obtain ⟨rfl, hscope, hvalue⟩ := Expr.run_inline_of_pure hplain hp hs ht hrun
      rw [hscope]
      exact ⟨exec_expr.2 ⟨v, ρ, hvalue, rfl⟩, fun _ => ⟨hs, ht⟩⟩
    cases e with
    | assign op t v as =>
      obtain ⟨n, ns, rfl, hp⟩ := Expr.exists_ident_of_rightSide hl.here
      refine ⟨?_, fun _ => inline_store hplain hp hs ht hrun⟩
      rw [inline_absorbed]
      rfl
    | _ => exact hpure hl.here
  | .branch t c a s, hl, hf, he, scope, hs, σ, out, ht, h => by
    have hnext : out.flow = .next → out.store = σ := store_of_next hl he (.inl rfl) h
    obtain ⟨v, τ, hrun, hside⟩ := exec_branch.1 h
    obtain ⟨rfl, hscope, hvalue⟩ :=
      Expr.run_inline_of_pure (he.here t List.mem_cons_self) hl.here.1 hs ht hrun
    have hinline : (branch t c a s).inline .none scope =
        (.branch (t.inline .none scope).1 (c.inline .none scope).1
          (a.map fun a => (a.inline .none scope).1) s, scope) := by
      cases a
      all_goals simp only [inline, hscope, Option.map_none, Option.map_some]
    rw [hinline]
    refine ⟨exec_branch.2 ⟨v, ρ, hvalue, ?_⟩, fun hflow => ⟨hs, (hnext hflow).symm ▸ ht⟩⟩
    have hc : c ∈ (branch t c a s).children := List.mem_cons_self
    split at hside
    · rename_i htrue
      obtain ⟨o, ho, rfl⟩ := hside
      obtain ⟨hexec, -⟩ := inline_follows hundef c (hl.inside c hc) (hf.inside c hc)
        (he.inside c hc) hs ht ho
      rw [if_pos htrue]
      refine ⟨_, hexec, ?_⟩
      rw [branchCountElse_inline]
    · rename_i hfalse
      obtain ⟨o, ho, rfl⟩ := hside
      rw [if_neg hfalse, branchCount_inline]
      cases a with
      | none =>
        cases ho
        exact ⟨_, rfl, rfl⟩
      | some a =>
        have ha : a ∈ (branch t c (some a) s).children := by simp [children]
        obtain ⟨hexec, -⟩ := inline_follows hundef a (hl.inside a ha) (hf.inside a ha)
          (he.inside a ha) hs ht ho
        exact ⟨_, hexec, rfl⟩
  | .ret none s, hl, hf, he, scope, hs, σ, out, ht, h => by
    cases h
    exact ⟨rfl, fun hflow => (by cases hflow)⟩
  | .ret (some e) s, hl, hf, he, scope, hs, σ, out, ht, h => by
    obtain ⟨v, τ, hrun, rfl⟩ := exec_ret.1 h
    obtain ⟨rfl, hscope, hvalue⟩ :=
      Expr.run_inline_of_pure (he.here e List.mem_cons_self) (hl.here e rfl) hs ht hrun
    simp only [inline, hscope]
    exact ⟨exec_ret.2 ⟨v, ρ, hvalue, rfl⟩, fun hflow => (by cases hflow)⟩
  | .block body s, hl, hf, he, scope, hs, σ, out, ht, h =>
    inlineAll_follows hundef body hl.inside hf.inside he.inside hs ht h
  | .empty s, hl, hf, he, scope, hs, σ, out, ht, h => by
    cases h
    exact ⟨rfl, fun _ => ⟨hs, ht⟩⟩
  | .function _ _ _ _, hl, hf, he, scope, hs, σ, out, ht, h
  | .whileLoop _ _ _, hl, hf, he, scope, hs, σ, out, ht, h
  | .forLoop _ _ _ _ _, hl, hf, he, scope, hs, σ, out, ht, h
  | .breakLoop _, hl, hf, he, scope, hs, σ, out, ht, h
  | .continueLoop _, hl, hf, he, scope, hs, σ, out, ht, h => hl.here.elim

/-- The same for statements in a row. -/
theorem inlineAll_follows {rounds : Nat} {ρ : Store} (hundef : ρ "undefined" = .ok .undefined) :
    (ss : List Stmt) →
    (∀ s ∈ ss, s.Forall LoopFree) → (∀ s ∈ ss, s.Forall Formed) →
      (∀ s ∈ ss, s.ForallExpr Expr.Plain) → {scope : Scope} →
    scope.Ready → {σ : Store} → {out : RunResult} → scope.Tracks ρ σ →
      execAll rounds ss σ = some out →
    EndsAlike ρ (execAll rounds (inlineAll .none ss scope).1) (inlineAll .none ss scope).2 out
  | [], hl, hf, he, scope, hs, σ, out, ht, h => by
    cases h
    exact ⟨rfl, fun _ => ⟨hs, ht⟩⟩
  | s :: ss, hl, hf, he, scope, hs, σ, out, ht, h => by
    obtain ⟨hl, hls⟩ := List.forall_mem_cons.1 hl
    obtain ⟨hf, hfs⟩ := List.forall_mem_cons.1 hf
    obtain ⟨he, hes⟩ := List.forall_mem_cons.1 he
    obtain ⟨o, ho, hrest⟩ := execAll_cons.1 h
    obtain ⟨hexec, hbehind⟩ := inline_follows hundef s hl hf he hs ht ho
    simp only [inlineAll]
    rcases hrest with ⟨hnext, o', ho', rfl⟩ | ⟨v, hreturn, rfl⟩
    · obtain ⟨hready, htracks⟩ := hbehind hnext
      obtain ⟨hexec', hbehind'⟩ := inlineAll_follows hundef ss hls hfs hes hready htracks ho'
      refine ⟨?_, hbehind'⟩
      split
      · -- an empty statement is left out, and it has no branches
        rename_i hempty
        obtain ⟨-, htests⟩ := of_isEmpty hempty hexec
        rw [htests]
        exact hexec'
      · exact execAll_cons.2 ⟨_, hexec, .inl ⟨hnext, _, hexec', rfl⟩⟩
    · refine ⟨?_, fun hflow => (by cases hflow)⟩
      split
      · rename_i hempty
        obtain ⟨hnext, -⟩ := of_isEmpty hempty hexec
        rw [hreturn] at hnext
        cases hnext
      · refine execAll_cons.2 ⟨_, hexec, .inr ⟨v, hreturn, ?_⟩⟩
        rw [branchCountAll_inline]

end

/-! ## Nothing is left to store -/

/-- What holds at each statement that is left: it branches, returns or computes, with pure
expressions. -/
def Storeless : Stmt → Prop
  | .branch t _ _ _ => t.Forall Expr.Pure
  | .expr e _ => e.Forall Expr.Pure
  | .ret v _ => ∀ e ∈ v, e.Forall Expr.Pure
  | .block _ _ | .empty _ => True
  | .function _ _ _ _ | .declare _ _ _ | .whileLoop _ _ _ | .forLoop _ _ _ _ _ | .breakLoop _
  | .continueLoop _ => False

mutual

/-- Inlining a function without loops leaves neither declarations nor assignments. -/
theorem inline_storeless :
    (s : Stmt) → s.Forall LoopFree → {scope : Scope} → scope.Forall Expr.Pure →
    (s.inline .none scope).1.Forall Storeless ∧ (s.inline .none scope).2.Forall Expr.Pure
  | .declare _ ds s, hl, scope, hs =>
    ⟨.leaf trivial rfl, hs.declareAll Expr.inlinable_pure .none hl.here⟩
  | .expr e s, hl, scope, hs => by
    have hpure (hp : e.Forall Expr.Pure) : (Stmt.expr (e.inline .none scope).1 s).Forall Storeless ∧
        (e.inline .none scope).2.Forall Expr.Pure := by
      obtain ⟨he, hs⟩ := e.inline_forall Expr.inlinable_pure .none scope hp hs
      exact ⟨.leaf he rfl, hs⟩
    cases e with
    | assign op t v as =>
      obtain ⟨n, ns, rfl, hp⟩ := Expr.exists_ident_of_rightSide hl.here
      obtain ⟨hv, hs⟩ := v.inline_forall Expr.inlinable_pure .none scope hp hs
      rw [inline_absorbed]
      exact ⟨.leaf trivial rfl, hs.bind n (hs.stored Expr.inlinable_pure hv trivial)⟩
    | _ => exact hpure hl.here
  | .branch t c a s, hl, scope, hs => by
    obtain ⟨ht, hs⟩ := t.inline_forall Expr.inlinable_pure .none scope hl.here.1 hs
    obtain ⟨hc, -⟩ := inline_storeless c (hl.inside c List.mem_cons_self) hs
    cases a with
    | none => exact ⟨.node ht (List.forall_mem_singleton.2 hc), hs⟩
    | some a =>
      obtain ⟨ha, -⟩ := inline_storeless a (hl.inside a (by simp [children])) hs
      exact ⟨.node ht (List.forall_mem_cons.2 ⟨hc, List.forall_mem_singleton.2 ha⟩), hs⟩
  | .ret none s, hl, scope, hs => ⟨.leaf (fun e he => (by cases he)) rfl, hs⟩
  | .ret (some e) s, hl, scope, hs => by
    obtain ⟨he, hs⟩ := e.inline_forall Expr.inlinable_pure .none scope (hl.here e rfl) hs
    exact ⟨.leaf (fun f hf => (by cases hf; exact he)) rfl, hs⟩
  | .block body s, hl, scope, hs => by
    obtain ⟨hbody, hs⟩ := inlineAll_storeless body hl.inside hs
    exact ⟨.node trivial hbody, hs⟩
  | .empty s, hl, scope, hs => ⟨.leaf trivial rfl, hs⟩
  | .function _ _ _ _, hl, scope, hs | .whileLoop _ _ _, hl, scope, hs
  | .forLoop _ _ _ _ _, hl, scope, hs
  | .breakLoop _, hl, scope, hs | .continueLoop _, hl, scope, hs => hl.here.elim

/-- The same for statements in a row. -/
theorem inlineAll_storeless :
    (ss : List Stmt) → (∀ s ∈ ss, s.Forall LoopFree) → {scope : Scope} → scope.Forall Expr.Pure →
    (∀ s ∈ (inlineAll .none ss scope).1, s.Forall Storeless) ∧
      (inlineAll .none ss scope).2.Forall Expr.Pure
  | [], hl, scope, hs => ⟨fun s h => absurd h List.not_mem_nil, hs⟩
  | s :: ss, hl, scope, hs => by
    obtain ⟨hl, hls⟩ := List.forall_mem_cons.1 hl
    obtain ⟨h, hs⟩ := inline_storeless s hl hs
    obtain ⟨hss, hs⟩ := inlineAll_storeless ss hls hs
    refine ⟨?_, hs⟩
    simp only [inlineAll]
    split
    · exact hss
    · exact List.forall_mem_cons.2 ⟨h, hss⟩

end

end Stmt

/-! ## Functions -/

/-- The store in which a function starts: its parameters have the values given, all other names
their own. -/
def Store.entry (params : List String) (args : String → Value) : Store :=
  fun n => if n ∈ params then .ok (args n) else builtinName n

/-- A parameter stands for itself, and other names for what they stood for. -/
theorem Scope.lookup?_bindOpaque (scope : Scope) (names : List String) (n : String) :
    (scope.bindOpaque names).lookup? n = if n ∈ names then some (.name n) else scope.lookup? n := by
  induction names generalizing scope with
  | nil => rfl
  | cons m names ih =>
    have hbind := ih (scope.bind m (.name m))
    unfold bindOpaque at hbind ⊢
    rw [List.foldl_cons, hbind]
    by_cases hnames : n ∈ names
    · simp [hnames]
    · by_cases hnm : n = m
      · simp [hnm]
      · simp [hnames, hnm, lookup?_bind_of_ne]

/-- At the start the parameters stand for themselves. -/
theorem Scope.tracks_entry (params : List String) (args : String → Value) :
    (Scope.empty.bindOpaque params).Tracks (Store.entry params args) (Store.entry params args) where
  bound {n e} h := by
    rw [lookup?_bindOpaque] at h
    split at h
    · rename_i hn
      cases h
      exact ⟨args n, if_pos hn, if_pos hn⟩
    · cases h
  free _ := rfl

/-- The scope in which a function starts is ready. -/
theorem Scope.ready_bindOpaque {params : List String} (h : ∀ p ∈ params, IsIdentifier p) :
    (Scope.empty.bindOpaque params).Ready := by
  have hnamed : Scope.empty.Named := fun _ hx => absurd hx List.not_mem_nil
  exact ⟨⟨hnamed.bindOpaque h, Forall.empty.bindOpaque fun p hp => ⟨⟨h p hp, trivial⟩, trivial⟩⟩,
    Forall.empty.bindOpaque fun _ _ => trivial⟩

/-- The body of a function that stands alone, inlined. -/
theorem Program.inline_function (name : String) (params : List String) (body : List Stmt)
    (s s' : Span) :
    (⟨[.function name params body s], s'⟩ : Program).inline =
      ⟨[.function name params (Stmt.inlineAll .none body (Scope.empty.bindOpaque params)).1 s],
        s'⟩ := rfl

/-- Inlining follows the body of a function without loops, for all values of its parameters. -/
theorem Stmt.execAll_inline {params : List String} {body : List Stmt}
    (hparams : ∀ p ∈ params, IsIdentifier p) (hundef : "undefined" ∉ params)
    (hl : ∀ s ∈ body, s.Forall LoopFree) (hf : ∀ s ∈ body, s.Forall Formed)
    (he : ∀ s ∈ body, s.ForallExpr Expr.Plain) {args : String → Value} {rounds : Nat}
    {out : RunResult} (h : execAll rounds body (Store.entry params args) = some out) :
    execAll rounds (inlineAll .none body (Scope.empty.bindOpaque params)).1
      (Store.entry params args) =
      some ⟨out.flow, Store.entry params args, out.tests⟩ := by
  have hvalue : Store.entry params args "undefined" = .ok .undefined := if_neg hundef
  exact (inlineAll_follows hvalue body hl hf he (Scope.ready_bindOpaque hparams)
    (Scope.tracks_entry params args) h).exec

/-- Inlining keeps the meaning of functions without loops: for all values of the parameters, if the
body runs to an end, then the inlined body, which neither declares nor assigns, ends in the same
way. -/
theorem Program.inline_function_meaning {name : String} {params : List String} {body : List Stmt}
    {s s' : Span} (hf : (⟨[.function name params body s], s'⟩ : Program).Formed)
    (he : (⟨[.function name params body s], s'⟩ : Program).ForallExpr Expr.Plain)
    (hundef : "undefined" ∉ params) (hl : ∀ s ∈ body, s.Forall Stmt.LoopFree) :
    ∃ body', (⟨[.function name params body s], s'⟩ : Program).inline =
      ⟨[.function name params body' s], s'⟩ ∧
      (∀ s ∈ body', s.Forall Stmt.Storeless) ∧
      ∀ (args : String → Value) (rounds : Nat) (out : RunResult),
        Stmt.execAll rounds body (Store.entry params args) = some out →
        ∃ out', Stmt.execAll rounds body' (Store.entry params args) = some out' ∧
          out'.flow = out.flow := by
  have hfunction := List.forall_mem_singleton.1 hf
  have hexprs := List.forall_mem_singleton.1 he
  refine ⟨_, Program.inline_function name params body s s', ?_, fun args rounds out h => ?_⟩
  · exact (Stmt.inlineAll_storeless body hl (Scope.Forall.empty.bindOpaque fun _ _ => trivial)).1
  · exact ⟨_, Stmt.execAll_inline hfunction.here.2 hundef hl hfunction.inside hexprs.inside h, rfl⟩

/-- A program that was read, with finite numbers and short lists, has plain expressions. -/
theorem Program.plain_of_parse {source : String} {p : Program} (h : Program.parse source = .ok p)
    (hfinite : p.ForallExpr Expr.FiniteNumber) (hshort : p.ForallExpr Expr.ShortList) :
    p.Formed ∧ p.ForallExpr Expr.Plain := by
  obtain ⟨hformed, hreadable⟩ := Program.readable_of_parse h hfinite
  exact ⟨hformed, fun s hs => (hreadable s hs).and (hshort s hs)⟩

/-- A function that declares, assigns in a branch that returns, and picks an element, started with
texts. -/
theorem Program.inline_function_meaning_sample : ∃ name params body s s',
    Program.parse
      ("function f(x, y) \x7b let a = [x, y + x]; x += a[1]; " ++
        "if (a[0] === y) \x7b y = x; return y; \x7d else if (x) \x7b \x7d return [x, a]; \x7d") =
      .ok ⟨[.function name params body s], s'⟩ ∧
    ∃ body', (⟨[.function name params body s], s'⟩ : Program).inline =
      ⟨[.function name params body' s], s'⟩ ∧
      (∀ s ∈ body', s.Forall Stmt.Storeless) ∧
      ∃ out out', Stmt.execAll 0 body (Store.entry params .str) = some out ∧
        Stmt.execAll 0 body' (Store.entry params .str) = some out' ∧ out'.flow = out.flow := by
  obtain ⟨p, hp, hfinite, hshort, hcheck⟩ := Program.exists_parse
    ("function f(x, y) \x7b let a = [x, y + x]; x += a[1]; " ++
      "if (a[0] === y) \x7b y = x; return y; \x7d else if (x) \x7b \x7d return [x, a]; \x7d")
    (fun p => p.ForallExpr Expr.FiniteNumber ∧ p.ForallExpr Expr.ShortList ∧
      p.isFunctionWith (fun params body =>
      decide ("undefined" ∉ params ∧ ∀ s ∈ body, s.Forall Stmt.LoopFree) &&
        (Stmt.execAll 0 body (Store.entry params .str)).isSome) = true) (by decide +kernel)
  obtain ⟨name, params, body, s, s', rfl, hcheck⟩ := Program.exists_of_isFunctionWith hcheck
  obtain ⟨hcheck, hrun⟩ := Bool.and_eq_true_iff.1 hcheck
  obtain ⟨hundef, hl⟩ := of_decide_eq_true hcheck
  obtain ⟨out, hrun⟩ := Option.isSome_iff_exists.1 hrun
  obtain ⟨hf, he⟩ := Program.plain_of_parse hp hfinite hshort
  obtain ⟨body', hinline, hstoreless, hmeaning⟩ := Program.inline_function_meaning hf he hundef hl
  obtain ⟨out', hrun', hflow⟩ := hmeaning .str 0 out hrun
  exact ⟨name, params, body, s, s', hp, body', hinline, hstoreless, out, out', hrun, hrun', hflow⟩

end BranchPaint
