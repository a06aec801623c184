import BranchPaint.Proofs.Script.Names
import BranchPaint.Value.Evaluate
import Mathlib

/-!
# Running expressions over a store

The meaning of an expression whose assignments take effect: operands run from left to right, an
assignment to a name changes the store that later operands see, a compound one reads its target
before its right side, and of `&&`, `||` and `? :` only the operand that is selected runs. Values
are computed with the evaluator's own operators. Calls, steps by one and stores into members are
refused, as evaluation refuses them.

A run changes only what is assigned (`Expr.run_frame`) and reads only what is mentioned
(`Expr.run_agree`), so operands that do not meddle with each other may be run in either order
(`Expr.run_swap`). Without assignments running is evaluation (`Expr.run_of_assigned`).
-/

namespace BranchPaint

/-- What names stand for. -/
abbrev Store := String → Except EvalCause Value

/-- The store in which a name has a new value, and all else is as before. -/
def Store.set (σ : Store) (name : String) (v : Value) : Store :=
  fun n => if n = name then .ok v else σ n

/-- A name has the value that was stored to it. -/
@[simp] theorem Store.set_self (σ : Store) (name : String) (v : Value) :
    σ.set name v name = .ok v := if_pos rfl

/-- Other names keep theirs. -/
theorem Store.set_of_ne (σ : Store) {name n : String} (h : n ≠ name) (v : Value) :
    σ.set name v n = σ n := if_neg h

/-- The second store agrees with the first on some names. -/
def Store.Agree (names : String → Prop) (σ τ : Store) : Prop := ∀ n, names n → τ n = σ n

/-- One computation after the other succeeds if both do. -/
theorem bind_eq_ok {ε α β : Type} {x : Except ε α} {f : α → Except ε β} {b : β} :
    x >>= f = .ok b ↔ ∃ a, x = .ok a ∧ f a = .ok b := by
  cases x with
  | error e => exact ⟨fun h => (by cases h), fun ⟨a, h, _⟩ => (by cases h)⟩
  | ok a => exact ⟨fun h => ⟨a, rfl, h⟩, fun ⟨a', h, hf⟩ => (by cases h; exact hf)⟩

namespace Expr

mutual

/-- The value of an expression, and the store that it leaves. -/
def run : Expr → Store → Except EvalCause (Value × Store)
  | .bool v _, σ => .ok (.bool v, σ)
  | .num v _, σ => .ok (.num v, σ)
  | .str v _, σ => .ok (.str v, σ)
  | .null _, σ => .ok (.null, σ)
  | .list es _, σ => do
    let (vs, σ) ← runAll es σ
    pure (.list vs, σ)
  | .ident n _, σ => do
    let v ← σ n
    pure (v, σ)
  | .member o (.ident p _) false _, σ => do
    let (object, σ) ← o.run σ
    let v ← memberOf object (.str p)
    pure (v, σ)
  | .member _ _ false _, _ => .error (.noMember "" "")
  | .member o p true _, σ => do
    let (object, σ) ← o.run σ
    let (key, σ) ← p.run σ
    let v ← memberOf object key
    pure (v, σ)
  | .binary op l r _, σ => do
    let (a, σ) ← l.run σ
    let (b, σ) ← r.run σ
    pure (Value.binary op a b, σ)
  | .logical .and l r _, σ => do
    let (a, σ) ← l.run σ
    if a.truthy then r.run σ else pure (a, σ)
  | .logical .or l r _, σ => do
    let (a, σ) ← l.run σ
    if a.truthy then pure (a, σ) else r.run σ
  | .unary .typeOf (.ident n _) _, σ =>
    match σ n with
    | .ok v => .ok (.str v.typeName, σ)
    | .error _ => .ok (.str "undefined", σ)
  | .unary op a _, σ => do
    let (v, σ) ← a.run σ
    pure (Value.unary op v, σ)
  | .ternary c t e _, σ => do
    let (v, σ) ← c.run σ
    if v.truthy then t.run σ else e.run σ
  | .sequence es _, σ => do
    let (vs, σ) ← runAll es σ
    pure (vs.getLast?.getD .undefined, σ)
  | .assign .assign (.ident n _) v _, σ => do
    let (x, σ) ← v.run σ
    pure (x, σ.set n x)
  | .assign (.compound op) (.ident n _) v _, σ => do
    let old ← σ n
    let (x, σ) ← v.run σ
    pure (Value.binary op old x, σ.set n (Value.binary op old x))
  | .assign _ _ _ _, _ => .error (.unsupported .assignment)
  | .call _ _ _, _ => .error (.unsupported .call)
  | .update _ _ _ _, _ => .error (.unsupported .update)

/-- The values of expressions, each run in the store that the one before leaves. -/
def runAll : List Expr → Store → Except EvalCause (List Value × Store)
  | [], σ => .ok ([], σ)
  | e :: es, σ => do
    let (v, σ) ← e.run σ
    let (vs, σ) ← runAll es σ
    pure (v :: vs, σ)

end

attribute [local simp] run runAll

/-! ## What a run is made of -/

section Inversion

variable {σ σ' : Store} {v : Value} {vs : List Value} {s : Span}

/-- A name runs to its value. -/
theorem run_ident {n : String} : (ident n s).run σ = .ok (v, σ') ↔ σ n = .ok v ∧ σ' = σ := by
  simp only [run, bind_eq_ok]
  constructor
  · rintro ⟨a, h, ha⟩
    cases ha
    exact ⟨h, rfl⟩
  · rintro ⟨h, rfl⟩
    exact ⟨v, h, rfl⟩

/-- A list runs to the list of the values of its elements. -/
theorem run_list {es : List Expr} :
    (list es s).run σ = .ok (v, σ') ↔ ∃ vs, runAll es σ = .ok (vs, σ') ∧ v = .list vs := by
  simp only [run, bind_eq_ok]
  constructor
  · rintro ⟨⟨vs, τ⟩, h, heq⟩
    cases heq
    exact ⟨vs, h, rfl⟩
  · rintro ⟨vs, h, rfl⟩
    exact ⟨(vs, σ'), h, rfl⟩

/-- A sequence runs to the value of its last part. -/
theorem run_sequence {es : List Expr} :
    (sequence es s).run σ = .ok (v, σ') ↔ ∃ vs, runAll es σ = .ok (vs, σ') ∧
      v = vs.getLast?.getD .undefined := by
  simp only [run, bind_eq_ok]
  constructor
  · rintro ⟨⟨vs, τ⟩, h, heq⟩
    cases heq
    exact ⟨vs, h, rfl⟩
  · rintro ⟨vs, h, rfl⟩
    exact ⟨(vs, σ'), h, rfl⟩

/-- The name behind a point is the key itself. -/
theorem run_dotted {o p : Expr} :
    (member o p false s).run σ = .ok (v, σ') ↔
      ∃ name ps a, p = .ident name ps ∧ o.run σ = .ok (a, σ') ∧ memberOf a (.str name) = .ok v := by
  cases p with
  | ident name ps =>
    simp only [run, bind_eq_ok]
    constructor
    · rintro ⟨⟨a, τ⟩, h, w, hw, heq⟩
      cases heq
      exact ⟨name, ps, a, rfl, h, hw⟩
    · rintro ⟨name, ps, a, heq, h, hv⟩
      cases heq
      exact ⟨(a, σ'), h, v, hv, rfl⟩
  | _ => exact ⟨fun h => (by cases h), fun ⟨_, _, _, h, _⟩ => (by cases h)⟩

/-- An indexed member runs its object, and then its index. -/
theorem run_computed {o p : Expr} :
    (member o p true s).run σ = .ok (v, σ') ↔
      ∃ a τ k, o.run σ = .ok (a, τ) ∧ p.run τ = .ok (k, σ') ∧ memberOf a k = .ok v := by
  simp only [run, bind_eq_ok]
  constructor
  · rintro ⟨⟨a, τ⟩, ho, ⟨k, τ'⟩, hp, w, hw, heq⟩
    cases heq
    exact ⟨a, τ, k, ho, hp, hw⟩
  · rintro ⟨a, τ, k, ho, hp, hv⟩
    exact ⟨(a, τ), ho, (k, σ'), hp, v, hv, rfl⟩

/-- An operator runs its left side, and then its right side. -/
theorem run_binary {op : BinaryOp} {l r : Expr} :
    (binary op l r s).run σ = .ok (v, σ') ↔
      ∃ a τ b, l.run σ = .ok (a, τ) ∧ r.run τ = .ok (b, σ') ∧ v = Value.binary op a b := by
  simp only [run, bind_eq_ok]
  constructor
  · rintro ⟨⟨a, τ⟩, hl, ⟨b, τ'⟩, hr, heq⟩
    cases heq
    exact ⟨a, τ, b, hl, hr, rfl⟩
  · rintro ⟨a, τ, b, hl, hr, rfl⟩
    exact ⟨(a, τ), hl, (b, σ'), hr, rfl⟩

/-- Does the value of the left operand select the right one? -/
def selectsRight (op : LogicalOp) (v : Value) : Bool :=
  match op with
  | .and => v.truthy
  | .or => !v.truthy

/-- A logical operator runs its right side only if the left side selects it. -/
theorem run_logical {op : LogicalOp} {l r : Expr} :
    (logical op l r s).run σ = .ok (v, σ') ↔
      ∃ a τ, l.run σ = .ok (a, τ) ∧ if selectsRight op a then r.run τ = .ok (v, σ')
        else v = a ∧ σ' = τ := by
  have hrun : (logical op l r s).run σ = (do
      let (a, σ) ← l.run σ
      if selectsRight op a then r.run σ else pure (a, σ)) := by
    cases op with
    | and => rfl
    | or =>
      simp only [run, selectsRight, Bool.not_eq_true']
      congr 1
      funext ⟨a, τ⟩
      cases a.truthy
      all_goals rfl
  simp only [hrun, bind_eq_ok]
  constructor
  · rintro ⟨⟨a, τ⟩, hl, heq⟩
    refine ⟨a, τ, hl, ?_⟩
    by_cases hright : selectsRight op a
    · simpa only [if_pos hright] using heq
    · simp only [if_neg hright] at heq ⊢
      cases heq
      exact ⟨rfl, rfl⟩
  · rintro ⟨a, τ, hl, h⟩
    refine ⟨(a, τ), hl, ?_⟩
    by_cases hright : selectsRight op a
    · simpa only [if_pos hright] using h
    · simp only [if_neg hright] at h ⊢
      obtain ⟨rfl, rfl⟩ := h
      rfl

/-- A condition runs the choice that it selects. -/
theorem run_ternary {c t e : Expr} :
    (ternary c t e s).run σ = .ok (v, σ') ↔
      ∃ a τ, c.run σ = .ok (a, τ) ∧ (if a.truthy then t else e).run τ = .ok (v, σ') := by
  simp only [run, bind_eq_ok]
  constructor
  · rintro ⟨⟨a, τ⟩, hc, h⟩
    refine ⟨a, τ, hc, ?_⟩
    rw [apply_ite (fun x : Expr => x.run τ)]
    exact h
  · rintro ⟨a, τ, hc, h⟩
    rw [apply_ite (fun x : Expr => x.run τ)] at h
    exact ⟨(a, τ), hc, h⟩

/-- Does the operator ask for the type of a bare name? -/
def asksTypeOfName : UnaryOp → Expr → Bool
  | .typeOf, .ident _ _ => true
  | _, _ => false

/-- Only `typeof` in front of a name asks for the type of a name. -/
theorem exists_ident_of_asksTypeOfName {op : UnaryOp} {a : Expr} (h : asksTypeOfName op a) :
    op = .typeOf ∧ ∃ n ns, a = .ident n ns := by
  unfold asksTypeOfName at h
  split at h
  · exact ⟨rfl, _, _, rfl⟩
  · cases h

/-- Whether it does does not depend on where it stands. -/
theorem asksTypeOfName_eraseSpans (op : UnaryOp) (a : Expr) :
    asksTypeOfName op a.eraseSpans = asksTypeOfName op a := by
  cases op
  case typeOf =>
    cases a
    all_goals rfl
  all_goals rfl

/-- Any other operator runs its operand. -/
theorem run_unary_of_not {op : UnaryOp} {a : Expr} (h : ¬ asksTypeOfName op a) (σ : Store) :
    (unary op a s).run σ = (do
      let (v, σ) ← a.run σ
      pure (Value.unary op v, σ)) := by
  cases op
  case typeOf =>
    cases a
    case ident n ns => exact absurd rfl h
    all_goals rfl
  all_goals rfl

/-- Any other operator evaluates its operand. -/
theorem evalWith_unary_of_not {op : UnaryOp} {a : Expr} (h : ¬ asksTypeOfName op a)
    (names : String → Except EvalCause Value) : (unary op a s).evalWith names = (do
      let v ← a.evalWith names
      pure (Value.unary op v)) := by
  cases op
  case typeOf =>
    cases a
    case ident n ns => exact absurd rfl h
    all_goals rfl
  all_goals rfl

/-- A unary operator runs its operand, except that the type of a bare name without value is
known. -/
theorem run_unary {op : UnaryOp} {a : Expr} :
    (unary op a s).run σ = .ok (v, σ') ↔
      (∃ x, a.run σ = .ok (x, σ') ∧ v = Value.unary op x) ∨
      ∃ n ns c, op = .typeOf ∧ a = .ident n ns ∧ σ n = .error c ∧
        v = .str "undefined" ∧ σ' = σ := by
  by_cases hasks : asksTypeOfName op a
  · obtain ⟨rfl, n, ns, rfl⟩ := exists_ident_of_asksTypeOfName hasks
    simp only [run]
    cases hn : σ n with
    | ok x =>
      constructor
      · intro h
        cases h
        exact .inl ⟨x, rfl, rfl⟩
      · rintro (⟨y, hy, rfl⟩ | ⟨m, ms, c, -, hm, hc, -⟩)
        · cases hy
          rfl
        · cases hm
          rw [hn] at hc
          cases hc
    | error c =>
      constructor
      · intro h
        cases h
        exact .inr ⟨n, ns, c, trivial, rfl, hn, rfl, rfl⟩
      · rintro (⟨y, hy, rfl⟩ | ⟨m, ms, c, -, hm, hc, rfl, rfl⟩)
        · cases hy
        · rfl
  · simp only [run_unary_of_not hasks, bind_eq_ok]
    constructor
    · rintro ⟨⟨x, τ⟩, ha, heq⟩
      cases heq
      exact .inl ⟨x, ha, rfl⟩
    · rintro (⟨x, ha, rfl⟩ | ⟨n, ns, c, rfl, rfl, -⟩)
      · exact ⟨(x, σ'), ha, rfl⟩
      · exact absurd rfl hasks

/-- The value that an assignment stores to a name, given that of its right side; the old value
matters to a compound one. -/
def combine (op : AssignOp) (old : Except EvalCause Value) (x : Value) : Except EvalCause Value :=
  match op with
  | .assign => .ok x
  | .compound b => old.map (Value.binary b · x)

/-- An assignment stores the combined value behind its right side. -/
theorem run_assign {op : AssignOp} {n : String} {ns : Span} {e : Expr} :
    (assign op (.ident n ns) e s).run σ = .ok (v, σ') ↔
      ∃ x τ, e.run σ = .ok (x, τ) ∧ combine op (σ n) x = .ok v ∧ σ' = τ.set n v := by
  cases op with
  | assign =>
    simp only [run, bind_eq_ok]
    constructor
    · rintro ⟨⟨x, τ⟩, he, heq⟩
      cases heq
      exact ⟨x, τ, he, rfl, rfl⟩
    · rintro ⟨x, τ, he, hx, rfl⟩
      cases hx
      exact ⟨(v, τ), he, rfl⟩
  | compound b =>
    simp only [run, bind_eq_ok]
    constructor
    · rintro ⟨old, hold, ⟨x, τ⟩, he, heq⟩
      cases heq
      exact ⟨x, τ, he, by rw [hold]; rfl, rfl⟩
    · rintro ⟨x, τ, he, hx, rfl⟩
      cases hold : σ n with
      | error c =>
        rw [hold] at hx
        cases hx
      | ok old =>
        rw [hold] at hx
        cases hx
        exact ⟨old, rfl, (x, τ), he, rfl⟩

/-- Only stores to names run. -/
theorem exists_ident_of_run_assign {op : AssignOp} {t e : Expr}
    (h : (assign op t e s).run σ = .ok (v, σ')) : ∃ n ns, t = .ident n ns := by
  cases t with
  | ident n ns => exact ⟨n, ns, rfl⟩
  | _ =>
    cases op
    all_goals cases h

/-- Expressions in a row run one after the other. -/
theorem runAll_cons {e : Expr} {es : List Expr} :
    runAll (e :: es) σ = .ok (vs, σ') ↔
      ∃ v τ ws, e.run σ = .ok (v, τ) ∧ runAll es τ = .ok (ws, σ') ∧ vs = v :: ws := by
  simp only [runAll, bind_eq_ok]
  constructor
  · rintro ⟨⟨v, τ⟩, he, ⟨ws, τ'⟩, hes, heq⟩
    cases heq
    exact ⟨v, τ, ws, he, hes, rfl⟩
  · rintro ⟨v, τ, ws, he, hes, rfl⟩
    exact ⟨(v, τ), he, (ws, σ'), hes, rfl⟩

end Inversion

/-! ## What a run changes and what it reads -/

mutual

/-- A run leaves all names alone that are not assigned. -/
theorem run_frame :
    (e : Expr) → {σ σ' : Store} → {v : Value} → e.run σ = .ok (v, σ') → {n : String} →
      n ∉ e.assigned →
    σ' n = σ n
  | .bool _ _, σ, σ', v, h, n, hn | .num _ _, σ, σ', v, h, n, hn | .str _ _, σ, σ', v, h, n, hn
  | .null _, σ, σ', v, h, n, hn => by
    cases h
    rfl
  | .ident m s, σ, σ', v, h, n, hn => by
    obtain ⟨-, rfl⟩ := run_ident.1 h
    rfl
  | .list es s, σ, σ', v, h, n, hn => by
    obtain ⟨vs, hes, -⟩ := run_list.1 h
    exact runAll_frame es hes fun e he hmem => hn (mem_assigned_of_child (e := .list es s) he hmem)
  | .sequence es s, σ, σ', v, h, n, hn => by
    obtain ⟨vs, hes, -⟩ := run_sequence.1 h
    exact runAll_frame es hes fun e he hmem =>
      hn (mem_assigned_of_child (e := .sequence es s) he hmem)
  | .member o p false s, σ, σ', v, h, n, hn => by
    obtain ⟨name, ps, a, -, ho, -⟩ := run_dotted.1 h
    exact run_frame o ho hn
  | .member o p true s, σ, σ', v, h, n, hn => by
    obtain ⟨a, τ, k, ho, hp, -⟩ := run_computed.1 h
    simp only [assigned_computed, List.mem_append, not_or] at hn
    rw [run_frame p hp hn.2, run_frame o ho hn.1]
  | .binary op l r s, σ, σ', v, h, n, hn => by
    obtain ⟨a, τ, b, hl, hr, -⟩ := run_binary.1 h
    simp only [assigned_binary, List.mem_append, not_or] at hn
    rw [run_frame r hr hn.2, run_frame l hl hn.1]
  | .logical op l r s, σ, σ', v, h, n, hn => by
    obtain ⟨a, τ, hl, hr⟩ := run_logical.1 h
    simp only [assigned_logical, List.mem_append, not_or] at hn
    rw [← run_frame l hl hn.1]
    split at hr
    · exact run_frame r hr hn.2
    · rw [hr.2]
  | .unary op a s, σ, σ', v, h, n, hn => by
    rcases run_unary.1 h with ⟨x, ha, -⟩ | ⟨m, ms, c, -, -, -, -, rfl⟩
    · exact run_frame a ha hn
    · rfl
  | .ternary c t e s, σ, σ', v, h, n, hn => by
    obtain ⟨a, τ, hc, h⟩ := run_ternary.1 h
    simp only [assigned_ternary, List.mem_append, not_or] at hn
    rw [← run_frame c hc hn.1]
    split at h
    · exact run_frame t h hn.2.1
    · exact run_frame e h hn.2.2
  | .assign op t e s, σ, σ', v, h, n, hn => by
    obtain ⟨m, ms, rfl⟩ := exists_ident_of_run_assign h
    obtain ⟨x, τ, he, -, rfl⟩ := run_assign.1 h
    simp only [assigned_assign, List.mem_cons, not_or] at hn
    rw [Store.set_of_ne _ hn.1, run_frame e he hn.2]
  | .call _ _ _, σ, σ', v, h, n, hn | .update _ _ _ _, σ, σ', v, h, n, hn => by cases h

/-- The same for expressions in a row. -/
theorem runAll_frame :
    (es : List Expr) → {σ σ' : Store} → {vs : List Value} → runAll es σ = .ok (vs, σ') →
    {n : String} → (∀ e ∈ es, n ∉ e.assigned) → σ' n = σ n
  | [], σ, σ', vs, h, n, hn => by
    cases h
    rfl
  | e :: es, σ, σ', vs, h, n, hn => by
    obtain ⟨v, τ, ws, he, hes, -⟩ := runAll_cons.1 h
    obtain ⟨hne, hnes⟩ := List.forall_mem_cons.1 hn
    rw [runAll_frame es hes hnes, run_frame e he hne]

end

mutual

/-- A run reads only what is mentioned: from a store that agrees there, the same is computed and
stored. -/
theorem run_agree {S : String → Prop} :
    (e : Expr) → (∀ n ∈ e.mentions, S n) → {σ σ' τ : Store} → {v : Value} →
    e.run σ = .ok (v, σ') → σ.Agree S τ → ∃ τ', e.run τ = .ok (v, τ') ∧ σ'.Agree S τ'
  | .bool _ _, hS, σ, σ', τ, v, h, hagree | .num _ _, hS, σ, σ', τ, v, h, hagree
  | .str _ _, hS, σ, σ', τ, v, h, hagree | .null _, hS, σ, σ', τ, v, h, hagree => by
    cases h
    exact ⟨τ, rfl, hagree⟩
  | .ident m s, hS, σ, σ', τ, v, h, hagree => by
    obtain ⟨hm, rfl⟩ := run_ident.1 h
    refine ⟨τ, run_ident.2 ⟨?_, rfl⟩, hagree⟩
    rw [hagree m (hS m (List.mem_singleton_self m)), hm]
  | .list es s, hS, σ, σ', τ, v, h, hagree => by
    obtain ⟨vs, hes, rfl⟩ := run_list.1 h
    obtain ⟨τ', hes, hagree⟩ :=
      runAll_agree es (fun e he => forall_mentions_of_child hS he) hes hagree
    exact ⟨τ', run_list.2 ⟨vs, hes, rfl⟩, hagree⟩
  | .sequence es s, hS, σ, σ', τ, v, h, hagree => by
    obtain ⟨vs, hes, rfl⟩ := run_sequence.1 h
    obtain ⟨τ', hes, hagree⟩ :=
      runAll_agree es (fun e he => forall_mentions_of_child hS he) hes hagree
    exact ⟨τ', run_sequence.2 ⟨vs, hes, rfl⟩, hagree⟩
  | .member o p false s, hS, σ, σ', τ, v, h, hagree => by
    obtain ⟨name, ps, a, rfl, ho, hv⟩ := run_dotted.1 h
    obtain ⟨τ', ho, hagree⟩ := run_agree o hS ho hagree
    exact ⟨τ', run_dotted.2 ⟨name, ps, a, rfl, ho, hv⟩, hagree⟩
  | .member o p true s, hS, σ, σ', τ, v, h, hagree => by
    obtain ⟨a, σ₁, k, ho, hp, hv⟩ := run_computed.1 h
    obtain ⟨τ₁, ho, hagree⟩ :=
      run_agree o (forall_mentions_of_child hS (by simp [children])) ho hagree
    obtain ⟨τ', hp, hagree⟩ :=
      run_agree p (forall_mentions_of_child hS (by simp [children])) hp hagree
    exact ⟨τ', run_computed.2 ⟨a, τ₁, k, ho, hp, hv⟩, hagree⟩
  | .binary op l r s, hS, σ, σ', τ, v, h, hagree => by
    obtain ⟨a, σ₁, b, hl, hr, rfl⟩ := run_binary.1 h
    obtain ⟨τ₁, hl, hagree⟩ :=
      run_agree l (forall_mentions_of_child hS (by simp [children])) hl hagree
    obtain ⟨τ', hr, hagree⟩ :=
      run_agree r (forall_mentions_of_child hS (by simp [children])) hr hagree
    exact ⟨τ', run_binary.2 ⟨a, τ₁, b, hl, hr, rfl⟩, hagree⟩
  | .logical op l r s, hS, σ, σ', τ, v, h, hagree => by
    obtain ⟨a, σ₁, hl, hr⟩ := run_logical.1 h
    obtain ⟨τ₁, hl', hagree⟩ :=
      run_agree l (forall_mentions_of_child hS (by simp [children])) hl hagree
    split at hr
    · rename_i hright
      obtain ⟨τ', hr, hagree⟩ :=
        run_agree r (forall_mentions_of_child hS (by simp [children])) hr hagree
      exact ⟨τ', run_logical.2 ⟨a, τ₁, hl', by rw [if_pos hright]; exact hr⟩, hagree⟩
    · rename_i hright
      obtain ⟨rfl, rfl⟩ := hr
      exact ⟨τ₁, run_logical.2 ⟨v, τ₁, hl', by rw [if_neg hright]; exact ⟨rfl, rfl⟩⟩, hagree⟩
  | .unary op a s, hS, σ, σ', τ, v, h, hagree => by
    rcases run_unary.1 h with ⟨x, ha, rfl⟩ | ⟨m, ms, c, hop, rfl, hm, hv, rfl⟩
    · obtain ⟨τ', ha, hagree⟩ := run_agree a hS ha hagree
      exact ⟨τ', run_unary.2 (.inl ⟨x, ha, rfl⟩), hagree⟩
    · refine ⟨τ, run_unary.2 (.inr ⟨m, ms, c, hop, rfl, ?_, hv, rfl⟩), hagree⟩
      rw [hagree m (hS m (List.mem_singleton_self m)), hm]
  | .ternary c t e s, hS, σ, σ', τ, v, h, hagree => by
    obtain ⟨a, σ₁, hc, h⟩ := run_ternary.1 h
    obtain ⟨τ₁, hc, hagree⟩ :=
      run_agree c (forall_mentions_of_child hS (by simp [children])) hc hagree
    split at h
    · rename_i htrue
      obtain ⟨τ', h, hagree⟩ :=
        run_agree t (forall_mentions_of_child hS (by simp [children])) h hagree
      exact ⟨τ', run_ternary.2 ⟨a, τ₁, hc, by rw [if_pos htrue]; exact h⟩, hagree⟩
    · rename_i hfalse
      obtain ⟨τ', h, hagree⟩ :=
        run_agree e (forall_mentions_of_child hS (by simp [children])) h hagree
      exact ⟨τ', run_ternary.2 ⟨a, τ₁, hc, by rw [if_neg hfalse]; exact h⟩, hagree⟩
  | .assign op t e s, hS, σ, σ', τ, v, h, hagree => by
    obtain ⟨m, ms, rfl⟩ := exists_ident_of_run_assign h
    obtain ⟨x, σ₁, he, hx, rfl⟩ := run_assign.1 h
    have hm : S m := hS m
      (mem_mentions_of_child (c := .ident m ms) List.mem_cons_self (List.mem_singleton_self m))
    obtain ⟨τ₁, he, hagree₁⟩ :=
      run_agree e (forall_mentions_of_child hS (by simp [children])) he hagree
    refine ⟨τ₁.set m v, run_assign.2 ⟨x, τ₁, he, by rw [hagree m hm]; exact hx, rfl⟩,
      fun n hn => ?_⟩
    by_cases hnm : n = m
    · rw [hnm, Store.set_self, Store.set_self]
    · rw [Store.set_of_ne _ hnm, Store.set_of_ne _ hnm, hagree₁ n hn]
  | .call _ _ _, hS, σ, σ', τ, v, h, hagree | .update _ _ _ _, hS, σ, σ', τ, v, h, hagree => by
    cases h

/-- The same for expressions in a row. -/
theorem runAll_agree {S : String → Prop} :
    (es : List Expr) → (∀ e ∈ es, ∀ n ∈ e.mentions, S n) → {σ σ' τ : Store} →
    {vs : List Value} → runAll es σ = .ok (vs, σ') → σ.Agree S τ →
      ∃ τ', runAll es τ = .ok (vs, τ') ∧ σ'.Agree S τ'
  | [], hS, σ, σ', τ, vs, h, hagree => by
    cases h
    exact ⟨τ, rfl, hagree⟩
  | e :: es, hS, σ, σ', τ, vs, h, hagree => by
    obtain ⟨v, σ₁, ws, he, hes, rfl⟩ := runAll_cons.1 h
    obtain ⟨hSe, hSes⟩ := List.forall_mem_cons.1 hS
    obtain ⟨τ₁, he, hagree⟩ := run_agree e hSe he hagree
    obtain ⟨τ', hes, hagree⟩ := runAll_agree es hSes hes hagree
    exact ⟨τ', runAll_cons.2 ⟨v, τ₁, ws, he, hes, rfl⟩, hagree⟩

end

/-- Neither expression stores to what the other mentions. -/
def Independent (a b : Expr) : Prop :=
  (∀ n ∈ a.assigned, n ∉ b.mentions) ∧ ∀ n ∈ b.assigned, n ∉ a.mentions

instance (a b : Expr) : Decidable (a.Independent b) :=
  inferInstanceAs
    (Decidable ((∀ n ∈ a.assigned, n ∉ b.mentions) ∧ ∀ n ∈ b.assigned, n ∉ a.mentions))

/-- Independent expressions may be run in either order. -/
theorem run_swap {a b : Expr} (hind : a.Independent b) {σ τ σ' : Store} {x y : Value}
    (ha : a.run σ = .ok (x, τ)) (hb : b.run τ = .ok (y, σ')) :
    ∃ τ', b.run σ = .ok (y, τ') ∧ a.run τ' = .ok (x, σ') := by
  obtain ⟨hab, hba⟩ := hind
  have hτ : ∀ n ∈ b.mentions, τ n = σ n := fun n hn => run_frame a ha fun hmem => hab n hmem hn
  obtain ⟨τ', hb', hagreeb⟩ := run_agree (S := (· ∈ b.mentions)) b (fun _ hn => hn) hb fun n hn =>
    (hτ n hn).symm
  have hτ' : ∀ n ∈ a.mentions, τ' n = σ n := fun n hn => run_frame b hb' fun hmem => hba n hmem hn
  obtain ⟨σ'', ha', hagreea⟩ := run_agree (S := (· ∈ a.mentions)) a (fun _ hn => hn) ha hτ'
  suffices hsame : σ'' = σ' from ⟨τ', hb', hsame ▸ ha'⟩
  funext n
  by_cases hna : n ∈ a.assigned
  · have hmem := mem_mentions_of_mem_assigned hna
    rw [hagreea n hmem, run_frame b hb fun hnb => hba n hnb hmem]
  · rw [run_frame a ha' hna]
    by_cases hnb : n ∈ b.assigned
    · exact hagreeb n (mem_mentions_of_mem_assigned hnb)
    · rw [run_frame b hb' hnb, run_frame b hb hnb, run_frame a ha hna]

/-! ## Running and evaluation -/

/-- An indexed member is looked up by the value of its index. -/
theorem evalWith_computed (names : String → Except EvalCause Value) (o p : Expr) (s : Span) :
    (member o p true s).evalWith names = (do
      let object ← o.evalWith names
      let key ← p.evalWith names
      memberOf object key) := by
  cases p
  all_goals rfl

/-- An operator whose operand has a value has the value of that. -/
theorem evalWith_unary {names : String → Except EvalCause Value} {a : Expr} {x : Value}
    (h : a.evalWith names = .ok x) (op : UnaryOp) (s : Span) :
    (unary op a s).evalWith names = .ok (Value.unary op x) := by
  by_cases hasks : asksTypeOfName op a
  · obtain ⟨rfl, n, ns, rfl⟩ := exists_ident_of_asksTypeOfName hasks
    have hn : names n = .ok x := h
    simp only [evalWith, hn]
    rfl
  · rw [evalWith_unary_of_not hasks, h]
    rfl

/-- A logical operator has the value of the side that is selected. -/
theorem evalWith_logical {names : String → Except EvalCause Value} {op : LogicalOp}
    {l r : Expr} {a v : Value} (hl : l.evalWith names = .ok a)
    (hr : if selectsRight op a then r.evalWith names = .ok v else v = a) (s : Span) :
    (logical op l r s).evalWith names = .ok v := by
  cases op with
  | and =>
    simp only [evalWith, hl]
    by_cases htrue : a.truthy
    · rw [selectsRight, if_pos htrue] at hr
      exact (if_pos htrue).trans hr
    · rw [selectsRight, if_neg htrue] at hr
      rw [hr]
      exact if_neg htrue
  | or =>
    simp only [evalWith, hl]
    by_cases htrue : a.truthy
    · rw [selectsRight, if_neg (by simp [htrue])] at hr
      rw [hr]
      exact if_pos htrue
    · rw [selectsRight, if_pos (by simp [htrue])] at hr
      exact (if_neg htrue).trans hr

mutual

/-- Without assignments running is evaluation, and the store stays. -/
theorem run_of_assigned : (e : Expr) → e.Forall Formed → e.assigned = [] → (σ : Store) →
    e.run σ = (·, σ) <$> e.evalWith σ
  | .bool _ _, hf, he, σ | .num _ _, hf, he, σ | .str _ _, hf, he, σ | .null _, hf, he, σ
  | .call _ _ _, hf, he, σ
  | .update _ _ _ _, hf, he, σ => rfl
  | .ident n s, hf, he, σ => by
    simp [run, evalWith]
  | .list es s, hf, he, σ => by
    simp [run, evalWith, runAll_of_assigned es hf.inside (fun _ => assigned_eq_nil_of_child he) σ]
  | .sequence es s, hf, he, σ => by
    simp [run, evalWith, runAll_of_assigned es hf.inside (fun _ => assigned_eq_nil_of_child he) σ]
  | .member o p false s, hf, he, σ => by
    obtain ⟨name, ps, rfl, -⟩ := hf.here rfl
    simp [run, evalWith, run_of_assigned o (hf.inside o (by simp [children])) he σ]
  | .member o p true s, hf, he, σ => by
    have ho := run_of_assigned o (hf.inside o (by simp [children]))
      (assigned_eq_nil_of_child he (by simp [children]))
    have hp := run_of_assigned p (hf.inside p (by simp [children]))
      (assigned_eq_nil_of_child he (by simp [children]))
    simp [run, evalWith_computed, ho, hp]
  | .binary op l r s, hf, he, σ => by
    have hl := run_of_assigned l (hf.inside l (by simp [children]))
      (assigned_eq_nil_of_child he (by simp [children]))
    have hr := run_of_assigned r (hf.inside r (by simp [children]))
      (assigned_eq_nil_of_child he (by simp [children]))
    simp [run, evalWith, hl, hr]
  | .logical op l r s, hf, he, σ => by
    have hl := run_of_assigned l (hf.inside l (by simp [children]))
      (assigned_eq_nil_of_child he (by simp [children]))
    have hr := run_of_assigned r (hf.inside r (by simp [children]))
      (assigned_eq_nil_of_child he (by simp [children]))
    cases op with
    | and => simp [run, evalWith, hl, hr, apply_ite]
    | or => simp [run, evalWith, hl, hr, apply_ite]
  | .unary op a s, hf, he, σ => by
    have ha := run_of_assigned a (hf.inside a (by simp [children])) he
    by_cases hasks : asksTypeOfName op a
    · obtain ⟨rfl, n, ns, rfl⟩ := exists_ident_of_asksTypeOfName hasks
      simp only [run, evalWith]
      cases σ n
      all_goals rfl
    · simp [run_unary_of_not hasks, evalWith_unary_of_not hasks, ha]
  | .ternary c t e s, hf, he, σ => by
    have hc := run_of_assigned c (hf.inside c (by simp [children]))
      (assigned_eq_nil_of_child he (by simp [children]))
    have ht := run_of_assigned t (hf.inside t (by simp [children]))
      (assigned_eq_nil_of_child he (by simp [children]))
    have he := run_of_assigned e (hf.inside e (by simp [children]))
      (assigned_eq_nil_of_child he (by simp [children]))
    simp [run, evalWith, hc, ht, he, apply_ite]
  | .assign op t e s, hf, he, σ => by
    cases t
    case ident n ns => cases he
    all_goals
      cases op
      all_goals rfl

/-- The same for expressions in a row. -/
theorem runAll_of_assigned :
    (es : List Expr) → (∀ e ∈ es, e.Forall Formed) → (∀ e ∈ es, e.assigned = []) → (σ : Store) →
    runAll es σ = (·, σ) <$> evalAllWith σ es
  | [], hf, he, σ => rfl
  | e :: es, hf, he, σ => by
    obtain ⟨hf, hfs⟩ := List.forall_mem_cons.1 hf
    obtain ⟨he, hes⟩ := List.forall_mem_cons.1 he
    simp [runAll, evalAllWith, run_of_assigned e hf he, runAll_of_assigned es hfs hes]

end

/-- So a run without assignments succeeds exactly with the value of the expression. -/
theorem run_eq_ok_iff {e : Expr} (hf : e.Forall Formed) (he : e.assigned = [])
    {σ σ' : Store} {v : Value} : e.run σ = .ok (v, σ') ↔ e.evalWith σ = .ok v ∧ σ' = σ := by
  rw [run_of_assigned e hf he σ]
  cases e.evalWith σ with
  | error c => exact ⟨fun h => (by cases h), fun h => (by cases h.1)⟩
  | ok w =>
    constructor
    · intro h
      cases h
      exact ⟨rfl, rfl⟩
    · rintro ⟨h, rfl⟩
      cases h
      rfl

mutual

/-- Where an expression stands does not matter. -/
theorem run_eraseSpans : (e : Expr) → (σ : Store) → e.eraseSpans.run σ = e.run σ
  | .bool _ _, σ | .num _ _, σ | .str _ _, σ | .null _, σ | .call _ _ _, σ | .update _ _ _ _, σ
  | .ident _ _, σ => rfl
  | .list es s, σ => by simp only [eraseSpans, run, runAll_eraseSpans es σ]
  | .sequence es s, σ => by simp only [eraseSpans, run, runAll_eraseSpans es σ]
  | .member o p false s, σ => by
    cases p
    case ident n ns => simp only [eraseSpans, run, run_eraseSpans o σ]
    all_goals rfl
  | .member o p true s, σ => by simp only [eraseSpans, run, run_eraseSpans o, run_eraseSpans p]
  | .binary op l r s, σ => by simp only [eraseSpans, run, run_eraseSpans l, run_eraseSpans r]
  | .logical op l r s, σ => by
    cases op
    all_goals simp only [eraseSpans, run, run_eraseSpans l, run_eraseSpans r]
  | .unary op a s, σ => by
    have ha := run_eraseSpans a
    by_cases hasks : asksTypeOfName op a
    · obtain ⟨rfl, n, ns, rfl⟩ := exists_ident_of_asksTypeOfName hasks
      rfl
    · have hasks' : ¬ asksTypeOfName op a.eraseSpans := by
        rw [asksTypeOfName_eraseSpans]
        exact hasks
      simp only [eraseSpans, run_unary_of_not hasks, run_unary_of_not hasks', ha]
  | .ternary c t e s, σ => by
    simp only [eraseSpans, run, run_eraseSpans c, run_eraseSpans t, run_eraseSpans e]
  | .assign op t e s, σ => by
    cases t
    case ident n ns =>
      cases op
      all_goals simp only [eraseSpans, run, run_eraseSpans e]
    all_goals
      cases op
      all_goals rfl

/-- The same for expressions in a row. -/
theorem runAll_eraseSpans :
    (es : List Expr) → (σ : Store) → runAll (eraseSpansAll es) σ = runAll es σ
  | [], σ => rfl
  | e :: es, σ => by simp only [eraseSpansAll, runAll, run_eraseSpans e, runAll_eraseSpans es]

end

end Expr

end BranchPaint
