import BranchPaint.Proofs.Inline.Ledger
import BranchPaint.Proofs.Inline.LoopTest
import BranchPaint.Proofs.Inline.Stores

/-!
# Inlining and loops

In the body of a loop a store to a name that the test mentions is kept, and the name is bound as
well. What follows in the body then sees the change twice if it reads the name and the bound
expression is out of date: once by the store, once by the binding (`Program.inline_reads_twice`).

Inlining does keep the meaning of loops whose stores are all kept, if no expression reads a name
that is bound to something out of date (`Stmt.readsClear`). The statements are followed along a
ledger that tells what is up to date. Behind a branch or a loop all is out of date that reads what
may have been stored there, and so it is from the start in the body of a loop, since it may be run
again. With a ledger that fits the scope and the store, the inlined statements run as those that
were written, for every number of rounds (`Stmt.runsAlike_of_readsClear`,
`Program.inline_function_loops`).
-/

namespace BranchPaint

namespace Stmt

/-! ## What may be read -/

mutual

/-- The ledger behind a statement. What a branch or a loop binds is not seen behind it, but what it
stores is. -/
def leaves : Stmt → Ledger → Ledger
  | .expr (.assign op (.ident n _) v _) _, l => l.store op n v
  | .block body _, l => leavesAll body l
  | .branch t c a s, l => l.forget (Stmt.branch t c a s).assigned
  | .whileLoop t body s, l => l.forget (Stmt.whileLoop t body s).assigned
  | _, l => l

/-- The ledger behind statements in a row. -/
def leavesAll : List Stmt → Ledger → Ledger
  | [], l => l
  | s :: ss, l => leavesAll ss (s.leaves l)

end

mutual

/-- Is every assignment to a name that the test of the loop mentions, and does no expression read a
name that is out of date? `watched` are the names that the test of the loop around the statement
mentions. A test reads no name that was stored to, so it watches what it mentions. -/
def readsClear (watched : List String) : Stmt → Ledger → Bool
  | .expr (.assign _ (.ident n _) v _) _, l => decide (n ∈ watched) && decide (v.Clear l)
  | .expr e _, l | .ret (some e) _, l => decide (e.Clear l)
  | .whileLoop t body _, l =>
    decide (t.Clear l.close) && body.readsClear t.mentions (l.forget (t.assigned ++ body.assigned))
  | .branch t c none _, l => decide (t.Clear l) && c.readsClear watched l
  | .branch t c (some a) _, l =>
    decide (t.Clear l) && (c.readsClear watched l && a.readsClear watched l)
  | .block body _, l => readsClearAll watched body l
  | .ret none _, _ | .empty _, _ => true
  | .function _ _ _ _, _ | .declare _ _ _, _ | .forLoop _ _ _ _ _, _ | .breakLoop _, _
  | .continueLoop _, _ => false

/-- The same for statements in a row. -/
def readsClearAll (watched : List String) : List Stmt → Ledger → Bool
  | [], _ => true
  | s :: ss, l => s.readsClear watched l && readsClearAll watched ss (s.leaves l)

end

/-! ## Loops, round by round -/

/-- What the test and each round keep is kept by the loop. -/
theorem loop_keeps {t : Expr} {body : Store → Option RunResult} {I : Store → Prop}
    (htest : ∀ {σ τ v}, I σ → t.run σ = .ok (v, τ) → I τ)
    (hbody : ∀ {σ out}, I σ → body σ = some out → I out.store) {rounds : Nat} {σ : Store}
    {tests : List (List Bool)} {out : RunResult} (hσ : I σ)
    (h : loop t body rounds σ tests = some out) : I out.store := by
  induction rounds generalizing σ tests with
  | zero =>
    simp only [loop, Option.bind_eq_bind, Option.bind_eq_some_iff, toOption_eq_some, Prod.exists]
      at h
    obtain ⟨v, τ, hrun, h⟩ := h
    split at h
    · cases h
    · cases h
      exact htest hσ hrun
  | succ rounds ih =>
    simp only [loop, Option.bind_eq_bind, Option.bind_eq_some_iff, toOption_eq_some, Prod.exists]
      at h
    obtain ⟨v, τ, hrun, h⟩ := h
    have hτ := htest hσ hrun
    split at h
    · obtain ⟨o, ho, h⟩ := Option.bind_eq_some_iff.1 h
      have hnext := hbody hτ ho
      split at h
      · exact ih hnext h
      · cases h
        exact hnext
    · cases h
      exact hτ

/-- A loop runs in the same way if its test is the same up to spans and each round runs in the same
way from the stores that the loop comes by. -/
theorem loop_congr {t t' : Expr} (ht : t.eraseSpans = t'.eraseSpans)
    {body body' : Store → Option RunResult} {I : Store → Prop}
    (htest : ∀ {σ τ v}, I σ → t'.run σ = .ok (v, τ) → I τ)
    (hbody : ∀ {σ out}, I σ → body' σ = some out → I out.store)
    (hsame : ∀ {σ}, I σ → body σ = body' σ) (rounds : Nat) {σ : Store} (hσ : I σ)
    (tests : List (List Bool)) : loop t body rounds σ tests = loop t' body' rounds σ tests := by
  rw [← loop_eraseSpans t, ht, loop_eraseSpans]
  induction rounds generalizing σ tests with
  | zero => rfl
  | succ rounds ih =>
    simp only [loop]
    cases hrun : t'.run σ with
    | error c => rfl
    | ok result =>
      obtain ⟨v, τ⟩ := result
      have hτ := htest hσ hrun
      simp only [Except.toOption, Option.bind_eq_bind, Option.bind_some, hsame hτ]
      split
      · cases hround : body' τ with
        | none => rfl
        | some out =>
          simp only [Option.bind_some]
          split
          · exact ih (hbody hτ hround) _
          · rfl
      · rfl

/-! ## What a run may change -/

mutual

/-- A run changes names only that are assigned. -/
theorem evolves_of_readsClear {rounds : Nat} : (s : Stmt) → s.ForallExpr Expr.Formed →
    {watched : List String} → {l : Ledger} → s.readsClear watched l = true → {σ : Store} →
    {out : RunResult} → s.exec rounds σ = some out → σ.Evolves s.assigned out.store
  | .expr e s, he, watched, l, h, σ, out, hexec => by
    have hformed : e.Forall Expr.Formed := he.here e (List.mem_singleton_self e)
    obtain ⟨w, τ, hrun, rfl⟩ := exec_expr.1 hexec
    cases e with
    | assign op t v as =>
      cases t with
      | ident n ns =>
        simp only [readsClear, Bool.and_eq_true, decide_eq_true_iff] at h
        obtain ⟨x, τ', hv, -, rfl⟩ := Expr.run_assign.1 hrun
        obtain rfl := Expr.store_of_pure (hformed.inside v (by simp [Expr.children])) h.2.1 hv
        exact (Store.Evolves.set τ' n w).mono (by simp [assigned])
      | _ => exact (of_decide_eq_true h).1.here.elim
    | _ =>
      obtain rfl := Expr.store_of_pure hformed (of_decide_eq_true h).1 hrun
      exact .refl _ _
  | .ret none s, he, watched, l, h, σ, out, hexec => by
    cases hexec
    exact .refl _ _
  | .empty s, he, watched, l, h, σ, out, hexec => by
    cases hexec
    exact .refl _ _
  | .ret (some e) s, he, watched, l, h, σ, out, hexec => by
    obtain ⟨v, τ, hrun, rfl⟩ := exec_ret.1 hexec
    obtain rfl := Expr.store_of_pure (he.here e (List.mem_singleton_self e))
      (of_decide_eq_true h).1 hrun
    exact .refl _ _
  | .whileLoop t body s, he, watched, l, h, σ, out, hexec => by
    simp only [readsClear, Bool.and_eq_true, decide_eq_true_iff] at h
    have hformed : t.Forall Expr.Formed := he.here t (List.mem_singleton_self t)
    refine loop_keeps (fun hτ hrun => ?_) (fun {τ out} hτ hround => ?_) (.refl _ σ) hexec
    · rw [Expr.store_of_pure hformed h.1.1 hrun]
      exact hτ
    · have hbody :=
        evolves_of_readsClear body (he.inside body (List.mem_singleton_self body)) h.2 hround
      exact (hτ.trans hbody).mono (by simp [assigned])
  | .branch t c none s, he, watched, l, h, σ, out, hexec => by
    simp only [readsClear, Bool.and_eq_true, decide_eq_true_iff] at h
    obtain ⟨v, τ, hrun, hside⟩ := exec_branch.1 hexec
    obtain rfl := Expr.store_of_pure (he.here t (List.mem_singleton_self t)) h.1.1 hrun
    split at hside
    · obtain ⟨o, ho, rfl⟩ := hside
      have hc := evolves_of_readsClear c (he.inside c List.mem_cons_self) h.2 ho
      exact hc.mono (by simp [assigned])
    · obtain ⟨o, ho, rfl⟩ := hside
      cases ho
      exact .refl _ _
  | .branch t c (some a) s, he, watched, l, h, σ, out, hexec => by
    simp only [readsClear, Bool.and_eq_true, decide_eq_true_iff] at h
    obtain ⟨v, τ, hrun, hside⟩ := exec_branch.1 hexec
    obtain rfl := Expr.store_of_pure (he.here t (List.mem_singleton_self t)) h.1.1 hrun
    split at hside
    · obtain ⟨o, ho, rfl⟩ := hside
      have hc := evolves_of_readsClear c (he.inside c List.mem_cons_self) h.2.1 ho
      exact hc.mono fun n hn => by simp [assigned, hn]
    · obtain ⟨o, ho, rfl⟩ := hside
      have ha := evolves_of_readsClear a (he.inside a (by simp [children])) h.2.2 ho
      exact ha.mono fun n hn => by simp [assigned, hn]
  | .block body s, he, watched, l, h, σ, out, hexec =>
    evolvesAll_of_readsClear body he.inside h hexec
  | .function _ _ _ _, he, watched, l, h, σ, out, hexec
  | .declare _ _ _, he, watched, l, h, σ, out, hexec
  | .forLoop _ _ _ _ _, he, watched, l, h, σ, out, hexec
  | .breakLoop _, he, watched, l, h, σ, out, hexec
  | .continueLoop _, he, watched, l, h, σ, out, hexec => by cases h

/-- A run of statements changes names only that are assigned in one of them. -/
theorem evolvesAll_of_readsClear {rounds : Nat} : (ss : List Stmt) →
    (∀ s ∈ ss, s.ForallExpr Expr.Formed) → {watched : List String} → {l : Ledger} →
    readsClearAll watched ss l = true → {σ : Store} → {out : RunResult} →
    execAll rounds ss σ = some out → σ.Evolves (assignedAll ss) out.store
  | [], he, watched, l, h, σ, out, hexec => by
    cases hexec
    exact .refl _ _
  | s :: ss, he, watched, l, h, σ, out, hexec => by
    obtain ⟨he, hes⟩ := List.forall_mem_cons.1 he
    simp only [readsClearAll, Bool.and_eq_true] at h
    obtain ⟨o, ho, ⟨-, o', ho', rfl⟩ | ⟨v, -, rfl⟩⟩ := execAll_cons.1 hexec
    · have hfirst := evolves_of_readsClear s he h.1 ho
      have hrest := evolvesAll_of_readsClear ss hes h.2 ho'
      exact hfirst.trans hrest
    · exact (evolves_of_readsClear s he h.1 ho).mono fun n hn => by simp [assignedAll, hn]

end

/-! ## Inlined statements run alike -/

/-- An empty statement can be left out of a row. -/
theorem execAll_of_isEmpty {s : Stmt} (h : s.isEmpty = true) (ss : List Stmt) (rounds : Nat)
    (σ : Store) : execAll rounds (s :: ss) σ = execAll rounds ss σ := by
  cases s with
  | empty span =>
    simp only [execAll, exec, Option.bind_eq_bind, Option.bind_some, List.nil_append]
    cases execAll rounds ss σ with
    | none => rfl
    | some out => rfl
  | _ => cases h

/-- Statements in a row run alike if the first runs alike and the others do behind it. -/
theorem execAll_congr {s s' : Stmt} {ss ss' : List Stmt} {rounds : Nat} {σ : Store}
    (hs : s'.exec rounds σ = s.exec rounds σ)
    (hss : ∀ out, s.exec rounds σ = some out → out.flow = .next →
      execAll rounds ss' out.store = execAll rounds ss out.store)
    (hcount : branchCountAll ss' = branchCountAll ss) :
    execAll rounds (s' :: ss') σ = execAll rounds (s :: ss) σ := by
  simp only [execAll, hs, hcount]
  cases hexec : s.exec rounds σ with
  | none => rfl
  | some out =>
    simp only [Option.bind_eq_bind, Option.bind_some]
    split
    · rename_i hflow
      rw [hss out hexec hflow]
    · rfl

/-- If all stores are kept and nothing out of date is read, the inlined statement runs as the
statement does, and the ledger behind it fits the scope and, if what follows is run, the store. -/
structure RunsAlike (l : Ledger) (test : LoopTest) (s : Stmt) (scope : Scope) : Prop where
  exec {rounds : Nat} {σ : Store} : scope.Current l σ →
    (s.inline test scope).1.exec rounds σ = s.exec rounds σ
  seen : (s.inline test scope).2.Seen (s.leaves l)
  current {rounds : Nat} {σ : Store} {out : RunResult} : scope.Current l σ →
    s.exec rounds σ = some out → out.flow = .next →
    (s.inline test scope).2.Current (s.leaves l) out.store

/-- An assignment to a name that the test watches runs alike. -/
theorem runsAlike_assign {test : LoopTest} {l : Ledger} {op : AssignOp} {n : String}
    {ns as s : Span} {v : Expr} (hn : IsIdentifier n) (hkept : test.observes n = true)
    (hf : v.Forall Expr.Formed) (h : v.Clear l) {scope : Scope} (hseen : scope.Seen l) :
    RunsAlike l test (.expr (.assign op (.ident n ns) v as) s) scope := by
  have hinline : (Stmt.expr (.assign op (.ident n ns) v as) s).inline test scope =
      (.expr (.assign op (.ident n ns) (v.inline test scope).1 as) s,
        scope.bind n (scope.stored n op (v.inline test scope).1 as)) := by
    simp only [Stmt.inline_assign_name, hkept, if_true, Expr.inline_scope_of_pure h.1]
  refine ⟨fun {rounds σ} hcurrent => ?_, ?_, fun {rounds σ out} hcurrent hexec _ => ?_⟩
  · have hrun := h.run_inline hf hseen hcurrent test
    rw [hinline]
    cases op with
    | assign => simp only [Stmt.exec, Expr.run, hrun]
    | compound b => simp only [Stmt.exec, Expr.run, hrun]
  · rw [hinline]
    exact hseen.store hn hf h op test as
  · obtain ⟨w, τ, hrun, rfl⟩ := exec_expr.1 hexec
    obtain ⟨x, τ', hv, hw, rfl⟩ := Expr.run_assign.1 hrun
    obtain ⟨hx, rfl⟩ := (Expr.run_eq_ok_iff hf (Expr.assigned_of_pure h.1)).1 hv
    rw [hinline]
    exact hcurrent.store hseen hn hf h hx hw test as

/-- A branch runs alike if its test does and its sides do. -/
theorem runsAlike_branch {test : LoopTest} {l : Ledger} {t : Expr} {c : Stmt} {a : Option Stmt}
    {s : Span} (hf : t.Forall Expr.Formed) (h : t.Clear l) {scope : Scope} (hseen : scope.Seen l)
    (hc : RunsAlike l test c scope) (ha : ∀ b ∈ a, RunsAlike l test b scope)
    (hevolves : ∀ {rounds : Nat} {σ : Store} {out : RunResult},
      (branch t c a s).exec rounds σ = some out →
      σ.Evolves (branch t c a s).assigned out.store) :
    RunsAlike l test (.branch t c a s) scope := by
  have hinline : (branch t c a s).inline test scope = (.branch (t.inline test scope).1
      (c.inline test scope).1 (a.map fun a => (a.inline test scope).1) s, scope) := by
    cases a
    all_goals simp only [inline, Expr.inline_scope_of_pure h.1, Option.map_none, Option.map_some]
  refine ⟨fun {rounds σ} hcurrent => ?_, ?_, fun hcurrent hexec _ => ?_⟩
  · have helse : execElse rounds (a.map fun a => (a.inline test scope).1) σ =
        execElse rounds a σ := by
      cases a with
      | none => rfl
      | some a => exact (ha a rfl).exec hcurrent
    rw [hinline]
    simp only [exec, h.run_inline hf hseen hcurrent, branchCount_inline, branchCountElse_inline]
    cases hrun : t.run σ with
    | error cause => rfl
    | ok result =>
      obtain ⟨v, τ⟩ := result
      obtain rfl := Expr.store_of_pure hf h.1 hrun
      simp only [Except.toOption, Option.bind_eq_bind, Option.bind_some, hc.exec hcurrent, helse]
  · rw [hinline]
    exact hseen.forget _
  · rw [hinline]
    exact hcurrent.evolve hseen (hevolves hexec)

mutual

/-- Inlining keeps what a statement does, if all its stores are kept and it reads nothing out of
date. -/
theorem runsAlike_of_readsClear {test : LoopTest} {watched : List String}
    (htest : ∀ n ∈ watched, test.observes n = true) : (s : Stmt) → s.ForallExpr Expr.Formed →
    {l : Ledger} → s.readsClear watched l = true → {scope : Scope} → scope.Seen l →
    RunsAlike l test s scope
  | .expr e s, he, l, h, scope, hs => by
    have hformed : e.Forall Expr.Formed := he.here e (List.mem_singleton_self e)
    cases e with
    | assign op t v as =>
      cases t with
      | ident n ns =>
        simp only [readsClear, Bool.and_eq_true, decide_eq_true_iff] at h
        have hv : v ∈ (Expr.assign op (.ident n ns) v as).children := by simp [Expr.children]
        have ht : Expr.ident n ns ∈ (Expr.assign op (.ident n ns) v as).children :=
          List.mem_cons_self
        exact runsAlike_assign (hformed.inside _ ht).here (htest n h.1) (hformed.inside v hv) h.2 hs
      | _ => exact (of_decide_eq_true h).1.here.elim
    | _ =>
      have hclear := of_decide_eq_true h
      refine ⟨fun hcurrent => ?_, ?_, fun hcurrent hexec _ => ?_⟩
      · simp only [Stmt.inline, exec, hclear.run_inline hformed hs hcurrent]
      · simp only [Stmt.inline, Expr.inline_scope_of_pure hclear.1]
        exact hs
      · obtain ⟨w, τ, hrun, rfl⟩ := exec_expr.1 hexec
        obtain rfl := Expr.store_of_pure hformed hclear.1 hrun
        simp only [Stmt.inline, Expr.inline_scope_of_pure hclear.1]
        exact hcurrent
  | .ret none s, he, l, h, scope, hs =>
    ⟨fun _ => rfl, hs, fun _ hexec hflow => by cases hexec; cases hflow⟩
  | .empty s, he, l, h, scope, hs =>
    ⟨fun _ => rfl, hs, fun hcurrent hexec _ => by cases hexec; exact hcurrent⟩
  | .ret (some e) s, he, l, h, scope, hs => by
    have hclear := of_decide_eq_true h
    have hformed : e.Forall Expr.Formed := he.here e (List.mem_singleton_self e)
    refine ⟨fun hcurrent => ?_, ?_, fun hcurrent hexec hflow => ?_⟩
    · simp only [Stmt.inline, exec, hclear.run_inline hformed hs hcurrent]
    · simp only [Stmt.inline, Expr.inline_scope_of_pure hclear.1]
      exact hs
    · obtain ⟨w, τ, -, rfl⟩ := exec_ret.1 hexec
      cases hflow
  | .whileLoop t body s, he, l, h, scope, hs => by
    have hclears := h
    simp only [readsClear, Bool.and_eq_true, decide_eq_true_iff] at h
    have hformed : t.Forall Expr.Formed := he.here t (List.mem_singleton_self t)
    have hbodyFormed := he.inside body (List.mem_singleton_self body)
    have hsame := h.1.inline_of_close hs hformed (.ofExpr t)
    -- the inlined test watches what the test watches, since it has the same text
    have hwatch : ∀ n ∈ t.mentions,
        (LoopTest.ofExpr (t.inline (.ofExpr t) scope).1).observes n = true := fun n hn => by
      have htext : (t.inline (.ofExpr t) scope).1.text = t.text := by
        rw [← Expr.text_eraseSpans, hsame, Expr.text_eraseSpans]
      have hofExpr : LoopTest.ofExpr (t.inline (.ofExpr t) scope).1 = LoopTest.ofExpr t := by
        rw [LoopTest.ofExpr, htext, LoopTest.ofExpr]
      rw [hofExpr]
      exact LoopTest.observes_of_mem_mentions hformed hn
    have hbody := runsAlike_of_readsClear hwatch body hbodyFormed h.2 (hs.forget _)
    refine ⟨fun {rounds σ} hcurrent => ?_, hs.forget _, fun hcurrent hexec _ => ?_⟩
    · simp only [Stmt.inline, exec, branchCount_inline, Expr.inline_scope_of_pure h.1.1]
      -- round by round the store differs in assigned names only from that in front of the loop
      refine loop_congr (I := σ.Evolves (t.assigned ++ body.assigned)) hsame (fun hτ hrun => ?_)
        (fun hτ hround => ?_) (fun hτ => hbody.exec (hcurrent.evolve hs hτ)) rounds (.refl _ σ) _
      · rw [Expr.store_of_pure hformed h.1.1 hrun]
        exact hτ
      · have hround := evolves_of_readsClear body hbodyFormed h.2 hround
        exact (hτ.trans hround).mono (by simp)
    · exact hcurrent.evolve hs (evolves_of_readsClear _ he hclears hexec)
  | .branch t c none s, he, l, h, scope, hs => by
    have hclears := h
    simp only [readsClear, Bool.and_eq_true, decide_eq_true_iff] at h
    have hc := runsAlike_of_readsClear htest c (he.inside c List.mem_cons_self) h.2 hs
    exact runsAlike_branch (he.here t (List.mem_singleton_self t)) h.1 hs hc
      (fun a ha => by cases ha) (evolves_of_readsClear _ he hclears)
  | .branch t c (some a) s, he, l, h, scope, hs => by
    have hclears := h
    simp only [readsClear, Bool.and_eq_true, decide_eq_true_iff] at h
    have hc := runsAlike_of_readsClear htest c (he.inside c List.mem_cons_self) h.2.1 hs
    have ha := runsAlike_of_readsClear htest a (he.inside a (by simp [children])) h.2.2 hs
    exact runsAlike_branch (he.here t (List.mem_singleton_self t)) h.1 hs hc
      (fun b hb => by cases hb; exact ha) (evolves_of_readsClear _ he hclears)
  | .block body s, he, l, h, scope, hs => by
    obtain ⟨hexec, hseen, hcurrent⟩ := runsAlikeAll_of_readsClear htest body he.inside h hs
    exact ⟨hexec, hseen, hcurrent⟩
  | .function _ _ _ _, he, l, h, scope, hs | .declare _ _ _, he, l, h, scope, hs
  | .forLoop _ _ _ _ _, he, l, h, scope, hs | .breakLoop _, he, l, h, scope, hs
  | .continueLoop _, he, l, h, scope, hs => by cases h

/-- The same for statements in a row. -/
theorem runsAlikeAll_of_readsClear {test : LoopTest} {watched : List String}
    (htest : ∀ n ∈ watched, test.observes n = true) : (ss : List Stmt) →
    (∀ s ∈ ss, s.ForallExpr Expr.Formed) → {l : Ledger} → readsClearAll watched ss l = true →
    {scope : Scope} → scope.Seen l →
    (∀ {rounds σ}, scope.Current l σ →
      execAll rounds (inlineAll test ss scope).1 σ = execAll rounds ss σ) ∧
    (inlineAll test ss scope).2.Seen (leavesAll ss l) ∧
    ∀ {rounds σ out}, scope.Current l σ → execAll rounds ss σ = some out → out.flow = .next →
      (inlineAll test ss scope).2.Current (leavesAll ss l) out.store
  | [], he, l, h, scope, hs =>
    ⟨fun _ => rfl, hs, fun hcurrent hexec _ => by cases hexec; exact hcurrent⟩
  | s :: ss, he, l, h, scope, hs => by
    obtain ⟨he, hes⟩ := List.forall_mem_cons.1 he
    simp only [readsClearAll, Bool.and_eq_true] at h
    obtain ⟨hexec, hseen, hcurrent⟩ := runsAlike_of_readsClear htest s he h.1 hs
    obtain ⟨hexecs, hseens, hcurrents⟩ := runsAlikeAll_of_readsClear htest ss hes h.2 hseen
    refine ⟨fun {rounds σ} hσ => ?_, ?_, fun hσ hrun hflow => ?_⟩
    · have hcongr := execAll_congr (@hexec rounds σ hσ)
        (fun out hout hnext => hexecs (hcurrent hσ hout hnext)) (branchCountAll_inline test ss _)
      simp only [inlineAll]
      split
      · rename_i hempty
        rw [← hcongr, execAll_of_isEmpty hempty]
      · exact hcongr
    · simpa only [inlineAll, leavesAll] using hseens
    · obtain ⟨o, ho, ⟨hnext, o', ho', rfl⟩ | ⟨v, -, rfl⟩⟩ := execAll_cons.1 hrun
      · have hbehind := hcurrents (hcurrent hσ ho hnext) ho' hflow
        simpa only [inlineAll, leavesAll] using hbehind
      · cases hflow

end

end Stmt

/-! ## Functions -/

/-- The ledger in front of all stores. -/
def Ledger.empty : Ledger := ⟨[]⟩

/-- At the start of a function the parameters stand for themselves. -/
theorem Scope.seen_bindOpaque {params : List String} (h : ∀ p ∈ params, IsIdentifier p) :
    (Scope.empty.bindOpaque params).Seen .empty := by
  have hitself {n : String} {e : Expr}
      (hlookup : (Scope.empty.bindOpaque params).lookup? n = some e) : e = .name n := by
    rw [lookup?_bindOpaque] at hlookup
    split at hlookup
    · cases hlookup
      rfl
    · cases hlookup
  have hready := Scope.ready_bindOpaque h
  refine ⟨hready.plain.named, fun _ => hitself, fun hsources hlookup => ?_, fun hsources _ => ?_⟩
  · cases hsources
    refine ⟨hready.plain.exprs.lookup? hlookup, hready.pure.lookup? hlookup, fun m hm => ?_⟩
    rwa [hitself hlookup] at hm
  · cases hsources
    exact List.mem_singleton_self _

/-- At the start of a function the parameters have their values. -/
theorem Scope.current_bindOpaque (params : List String) (args : String → Value) :
    (Scope.empty.bindOpaque params).Current .empty (Store.entry params args) where
  valued hlookup := by
    obtain ⟨v, -, hv⟩ := (Scope.tracks_entry params args).bound hlookup
    exact ⟨v, hv⟩
  evalWith_eq _ hlookup := by
    obtain ⟨v, he, hv⟩ := (Scope.tracks_entry params args).bound hlookup
    exact he.trans hv.symm

/-- Inlining keeps the meaning of a function with loops whose stores are all kept and that reads no
name that is bound to something out of date: from all values of its parameters, for every bound on
the rounds, the inlined body runs as the body does. -/
theorem Program.inline_function_loops {name : String} {params : List String} {body : List Stmt}
    {s s' : Span} (hf : (⟨[.function name params body s], s'⟩ : Program).Formed)
    (he : (⟨[.function name params body s], s'⟩ : Program).ForallExpr Expr.Formed)
    (hclear : Stmt.readsClearAll [] body .empty = true) :
    ∃ body', (⟨[.function name params body s], s'⟩ : Program).inline =
        ⟨[.function name params body' s], s'⟩ ∧
      ∀ (args : String → Value) (rounds : Nat),
        Stmt.execAll rounds body' (Store.entry params args) =
          Stmt.execAll rounds body (Store.entry params args) := by
  have hparams := (List.forall_mem_singleton.1 hf).here.2
  have hexprs := List.forall_mem_singleton.1 he
  have htest : ∀ n ∈ ([] : List String), LoopTest.none.observes n = true :=
    fun _ hn => absurd hn List.not_mem_nil
  obtain ⟨hexec, -, -⟩ := Stmt.runsAlikeAll_of_readsClear htest body hexprs.inside hclear
    (Scope.seen_bindOpaque hparams)
  exact ⟨_, Program.inline_function name params body s s',
    fun args rounds => hexec (Scope.current_bindOpaque params args)⟩

/-- A loop that stores to all names of its test and reads `a` behind its store, while `c` has the
value that was stored with it; it goes round twice. -/
theorem Program.inline_function_loops_sample : ∃ name params body s s',
    Program.parse ("function f(a, b, c) \x7b while (a + b + c !== 'xxxxxx') " ++
        "\x7b a = c + 'x'; b = a; c = c + 'x'; \x7d return [a, b, c]; \x7d") =
      .ok ⟨[.function name params body s], s'⟩ ∧
    ∃ body', (⟨[.function name params body s], s'⟩ : Program).inline =
        ⟨[.function name params body' s], s'⟩ ∧
      ∃ out, Stmt.execAll 2 body (Store.entry params fun _ => .str "") = some out ∧
        Stmt.execAll 2 body' (Store.entry params fun _ => .str "") = some out := by
  obtain ⟨p, hp, hcheck⟩ :=
    Program.exists_parse ("function f(a, b, c) \x7b while (a + b + c !== 'xxxxxx') " ++
        "\x7b a = c + 'x'; b = a; c = c + 'x'; \x7d return [a, b, c]; \x7d")
      (fun p => p.isFunctionWith (fun params body => Stmt.readsClearAll [] body .empty &&
        (Stmt.execAll 2 body (Store.entry params fun _ => .str "")).isSome) = true)
      (by decide +kernel)
  obtain ⟨name, params, body, s, s', rfl, hcheck⟩ := Program.exists_of_isFunctionWith hcheck
  obtain ⟨hclear, hrun⟩ := Bool.and_eq_true_iff.1 hcheck
  obtain ⟨out, hrun⟩ := Option.isSome_iff_exists.1 hrun
  obtain ⟨hf, he⟩ := Program.formed_of_parse hp
  obtain ⟨body', hinline, hmeaning⟩ := Program.inline_function_loops hf he hclear
  exact ⟨name, params, body, s, s', hp, body', hinline, out, hrun, (hmeaning _ 2).trans hrun⟩

/-- The text `while (a === b) { a = a + 'x'; b = a + 'y'; } return b;` in a function of `a` and `b`,
started with empty texts: the function returns `xy`, and the inlined one `xxy`, since it adds `'x'`
to `a` once more where `a` is read behind its store. -/
theorem Program.inline_reads_twice :
    let a : Expr := .ident "a" .nowhere
    let b : Expr := .ident "b" .nowhere
    let store (t v : Expr) : Stmt := .expr (.assign .assign t v .nowhere) .nowhere
    let sum (t : Expr) (v : String) : Expr := .binary .add t (.str v .nowhere) .nowhere
    let body : List Stmt :=
      [.whileLoop (.binary .strictEq a b .nowhere)
        (.block [store a (sum a "x"), store b (sum a "y")] .nowhere) .nowhere,
        .ret (some b) .nowhere]
    let ρ := Store.entry ["a", "b"] fun _ => .str ""
    ∃ body', (⟨[.function "f" ["a", "b"] body .nowhere], .nowhere⟩ : Program).inline =
        ⟨[.function "f" ["a", "b"] body' .nowhere], .nowhere⟩ ∧
      (Stmt.execAll 1 body ρ).map RunResult.flow = some (.returned (.str "xy")) ∧
      (Stmt.execAll 1 body' ρ).map RunResult.flow = some (.returned (.str "xxy")) :=
  ⟨_, rfl, rfl, rfl⟩

end BranchPaint
