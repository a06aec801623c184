import BranchPaint.Proofs.Inline.Element
import BranchPaint.Proofs.Inline.Readable
import BranchPaint.Proofs.Store.Expression

/-!
# Inlining follows the run of an expression

An expression with assignments runs over a store (`Expr.run`); inlining turns the assignments into
bindings. Both fit together as long as the scope tells what the store holds, over the values `ρ`
that names had at the start (`Scope.Tracks`). This is the invariant that inlining keeps along a run
(`Expr.evalWith_inline_of_run`): a node follows its run if its operands do, each in the scope behind
the one before (`Expr.Follows`).

It asks for operands that can be inlined in the order in which inlining comes upon them
(`Expr.InOrder`). Inlining does the index of a member before the object and the right side of a
compound assignment before its target, and it does operands that are not selected too; where one of
them stores to what the other reads, the inlined expression has another value
(`Expr.inline_index_before_object`).
-/

namespace BranchPaint

/-! ## What inlining binds -/

/-- The second scope has further bindings, of some names only, in front of those of the first. -/
def Scope.Extends (names : String → Prop) (scope scope' : Scope) : Prop :=
  ∃ added, scope'.entries = added ++ scope.entries ∧ ∀ x ∈ added, names x.1

namespace Scope.Extends

variable {names : String → Prop} {scope scope₁ scope₂ : Scope}

/-- A scope extends itself. -/
theorem refl (scope : Scope) : scope.Extends names scope :=
  ⟨[], rfl, fun _ h => absurd h List.not_mem_nil⟩

/-- Extensions can be joined. -/
theorem trans (h₁ : scope.Extends names scope₁) (h₂ : scope₁.Extends names scope₂) :
    scope.Extends names scope₂ := by
  obtain ⟨added₁, heq₁, hnames₁⟩ := h₁
  obtain ⟨added₂, heq₂, hnames₂⟩ := h₂
  refine ⟨added₂ ++ added₁, ?_, fun x hx => ?_⟩
  · rw [heq₂, heq₁, List.append_assoc]
  · rcases List.mem_append.1 hx with hx | hx
    · exact hnames₂ x hx
    · exact hnames₁ x hx

/-- Binding an allowed name extends the scope. -/
theorem bind {n : String} (hn : names n) (e : Expr) : scope.Extends names (scope.bind n e) :=
  ⟨[(n, e)], rfl, List.forall_mem_singleton.2 hn⟩

/-- A scope that binds no further names is the same. -/
theorem eq_of_false (h : scope.Extends (fun _ => False) scope₁) : scope₁ = scope := by
  obtain ⟨added, heq, hnames⟩ := h
  obtain rfl : added = [] := List.eq_nil_iff_forall_not_mem.2 hnames
  obtain ⟨es⟩ := scope₁
  exact congrArg Scope.mk heq

/-- Binding identifiers only keeps all bound names identifiers. -/
theorem named (h : scope.Extends IsIdentifier scope₁) (hscope : scope.Named) : scope₁.Named := by
  obtain ⟨added, heq, hnames⟩ := h
  intro x hx
  rw [heq] at hx
  rcases List.mem_append.1 hx with hx | hx
  · exact hnames x hx
  · exact hscope x hx

/-- What is bound stays bound. -/
theorem isBound (h : scope.Extends names scope₁) {n : String} (hn : scope.isBound n) :
    scope₁.isBound n := by
  obtain ⟨added, heq, -⟩ := h
  unfold Scope.isBound Scope.lookup? at *
  rw [heq, List.lookup_append]
  cases List.lookup n added with
  | none => exact hn
  | some e => rfl

end Scope.Extends

namespace Expr

/-- What holds of all stored names holds of those that an operand stores to. -/
theorem forall_assigned_of_child {S : String → Prop} {e c : Expr} (h : ∀ n ∈ e.assigned, S n)
    (hc : c ∈ e.children) : ∀ n ∈ c.assigned, S n :=
  fun n hn => h n (mem_assigned_of_child hc hn)

mutual

/-- Inlining binds only names that are assigned. -/
theorem inline_extends {S : String → Prop} (test : LoopTest) :
    (e : Expr) → (∀ n ∈ e.assigned, S n) → (scope : Scope) →
    scope.Extends S (e.inline test scope).2
  | .bool _ _, hS, scope | .num _ _, hS, scope | .str _ _, hS, scope | .null _, hS, scope
  | .ident _ _, hS, scope
  | .update _ _ _ _, hS, scope => .refl scope
  | .list es s, hS, scope =>
    inlineAll_extends test es (fun _ he => forall_assigned_of_child hS he) scope
  | .sequence es s, hS, scope =>
    inlineAll_extends test es (fun _ he => forall_assigned_of_child hS he) scope
  | .member o p false s, hS, scope => inline_extends test o hS scope
  | .member o p true s, hS, scope => by
    have hp := inline_extends test p (forall_assigned_of_child hS (by simp [children])) scope
    simp only [inline]
    split
    · exact hp
    · exact hp.trans (inline_extends test o (forall_assigned_of_child hS (by simp [children])) _)
  | .binary op l r s, hS, scope =>
    (inline_extends test l (forall_assigned_of_child hS (by simp [children])) scope).trans
      (inline_extends test r (forall_assigned_of_child hS (by simp [children])) _)
  | .logical op l r s, hS, scope =>
    (inline_extends test l (forall_assigned_of_child hS (by simp [children])) scope).trans
      (inline_extends test r (forall_assigned_of_child hS (by simp [children])) _)
  | .unary op a s, hS, scope => inline_extends test a hS scope
  | .call f args s, hS, scope =>
    (inline_extends test f (forall_assigned_of_child hS (by simp [children])) scope).trans
      (inlineAll_extends test args
      (fun _ he => forall_assigned_of_child hS (by simp [children, he])) _)
  | .ternary c t e s, hS, scope =>
    (inline_extends test c (forall_assigned_of_child hS (by simp [children])) scope).trans
      ((inline_extends test t (forall_assigned_of_child hS (by simp [children])) _).trans
        (inline_extends test e (forall_assigned_of_child hS (by simp [children])) _))
  | .assign op t v s, hS, scope => by
    have hv := inline_extends test v (forall_assigned_of_child hS (by simp [children])) scope
    cases t with
    | ident n ns =>
      simp only [inline, Scope.store_eq]
      exact hv.trans (.bind (hS n List.mem_cons_self) _)
    | member o p computed ms =>
      have htarget := forall_assigned_of_child hS (c := .member o p computed ms) List.mem_cons_self
      cases computed with
      | false => exact hv
      | true =>
        exact hv.trans
          (inline_extends test p (forall_assigned_of_child htarget (by simp [children])) _)
    | _ => exact hv

/-- The same for expressions in a row. -/
theorem inlineAll_extends {S : String → Prop} (test : LoopTest) :
    (es : List Expr) → (∀ e ∈ es, ∀ n ∈ e.assigned, S n) →
    (scope : Scope) → scope.Extends S (inlineAll test es scope).2
  | [], hS, scope => .refl scope
  | e :: es, hS, scope => by
    obtain ⟨he, hes⟩ := List.forall_mem_cons.1 hS
    exact (inline_extends test e he scope).trans (inlineAll_extends test es hes _)

end

/-- Without assignments the scope stays. -/
theorem inline_scope_of_assigned {e : Expr} (he : e.assigned = []) (test : LoopTest)
    (scope : Scope) : (e.inline test scope).2 = scope :=
  (inline_extends test e (fun n hn => by rw [he] at hn; cases hn) scope).eq_of_false

end Expr

/-! ## Scopes that tell what a store holds -/

/-- Over the values `ρ` that names had at the start, the scope tells what the store holds: a bound
name has the value of its expression, and a name that is not bound still has the value it had. -/
structure Scope.Tracks (scope : Scope) (ρ σ : Store) : Prop where
  bound {n : String} {e : Expr} : scope.lookup? n = some e → ∃ v, e.evalWith ρ = .ok v ∧ σ n = .ok v
  free {n : String} : scope.lookup? n = none → σ n = ρ n

namespace Scope.Tracks

variable {scope : Scope} {ρ σ : Store} {n : String} {v : Value}

/-- Binding a name and storing its value belong together. -/
theorem bind (h : scope.Tracks ρ σ) {e : Expr} (he : e.evalWith ρ = .ok v) (n : String) :
    (scope.bind n e).Tracks ρ (σ.set n v) where
  bound {m f} hm := by
    by_cases hmn : m = n
    · subst hmn
      rw [lookup?_bind_self] at hm
      cases hm
      exact ⟨v, he, Store.set_self σ m v⟩
    · rw [lookup?_bind_of_ne _ _ hmn] at hm
      rw [Store.set_of_ne _ hmn]
      exact h.bound hm
  free {m} hm := by
    by_cases hmn : m = n
    · subst hmn
      rw [lookup?_bind_self] at hm
      cases hm
    · rw [lookup?_bind_of_ne _ _ hmn] at hm
      rw [Store.set_of_ne _ hmn]
      exact h.free hm

/-- What a name is replaced by has the value that the store holds. -/
theorem evalWith_getD (h : scope.Tracks ρ σ) (hn : σ n = .ok v) (s : Span) :
    ((scope.lookup? n).getD (.ident n s)).evalWith ρ = .ok v := by
  cases hlookup : scope.lookup? n with
  | none =>
    rw [h.free hlookup] at hn
    exact hn
  | some e =>
    obtain ⟨w, he, hw⟩ := h.bound hlookup
    rw [hw] at hn
    cases hn
    exact he

/-- What an assignment binds has the value that it stores. -/
theorem evalWith_stored {op : AssignOp} {e : Expr} {x : Value} (h : scope.Tracks ρ σ)
    (he : e.evalWith ρ = .ok x) (hv : Expr.combine op (σ n) x = .ok v) (s : Span) :
    (scope.stored n op e s).evalWith ρ = .ok v := by
  cases op with
  | assign =>
    cases hv
    exact he
  | compound b =>
    cases hn : σ n with
    | error c =>
      rw [hn] at hv
      cases hv
    | ok old =>
      rw [hn] at hv
      cases hv
      simp only [Scope.stored, Expr.name, Expr.evalWith, h.evalWith_getD hn, he]
      rfl

/-- A name without value is not bound. -/
theorem lookup?_of_error (h : scope.Tracks ρ σ) {c : EvalCause} (hn : σ n = .error c) :
    scope.lookup? n = none := by
  cases hlookup : scope.lookup? n with
  | none => rfl
  | some e =>
    obtain ⟨w, -, hw⟩ := h.bound hlookup
    rw [hw] at hn
    cases hn

end Scope.Tracks

/-- The store that a scope tells of, over given values of names. -/
def Scope.contents (scope : Scope) (ρ : Store) : Store := fun n =>
  match scope.lookup? n with
  | some e => e.evalWith ρ
  | none => ρ n

/-- A scope tells of the store that it is made to tell of. -/
theorem Scope.tracks_contents {scope : Scope} {ρ : Store}
    (h : ∀ x ∈ scope.entries, ∃ v, x.2.evalWith ρ = .ok v) : scope.Tracks ρ (scope.contents ρ) where
  bound {n e} hn := by
    obtain ⟨v, hv⟩ := h (n, e) (mem_entries_of_lookup? hn)
    refine ⟨v, hv, ?_⟩
    unfold contents
    rw [hn]
    exact hv
  free {n} hn := by
    unfold contents
    rw [hn]

/-! ## Expressions that can be inlined in order -/

namespace Expr

/-- A list is short enough that every index into it is a number of its own. -/
def ShortList : Expr → Prop
  | .list es _ => es.length < 2 ^ 53
  | _ => True

instance : DecidablePred ShortList := fun e =>
  match e with
  | .list es _ => inferInstanceAs (Decidable (es.length < 2 ^ 53))
  | .bool _ _ | .num _ _ | .str _ _ | .null _ | .ident _ _ | .member _ _ _ _ | .call _ _ _
  | .binary _ _ _ _
  | .logical _ _ _ _ | .unary _ _ _ | .update _ _ _ _ | .assign _ _ _ _ | .ternary _ _ _ _
  | .sequence _ _ =>
    inferInstanceAs (Decidable True)

/-- As it is read, with finite numbers and short lists. -/
def Plain (e : Expr) : Prop := e.Readable ∧ e.ShortList

/-- Inlining keeps lists short. -/
theorem inlinable_shortList : Inlinable ShortList where
  same h he := by
    cases h with
    | @list es fs s s' h =>
      have hlt : es.length < 2 ^ 53 := he
      exact show fs.length < 2 ^ 53 from h ▸ hlt
    | _ => trivial
  binary _ _ _ _ := trivial
  undefined := trivial

/-- Inlining keeps expressions plain. -/
theorem inlinable_plain : Inlinable Plain := inlinable_readable.and inlinable_shortList

/-- The operands may be inlined in the order in which inlining comes upon them: no operand that is
inlined early stores to what another reads, and none that may be left out stores at all. -/
def InOrder : Expr → Prop
  | .member o p true _ => o.Independent p
  | .logical _ _ r _ => r.assigned = []
  | .ternary _ t e _ => t.assigned = [] ∧ e.assigned = []
  | .assign (.compound _) t v _ => ∀ n ∈ t.mentions, n ∉ v.assigned
  | _ => True

instance : DecidablePred InOrder := fun e =>
  match e with
  | .member o p true _ => inferInstanceAs (Decidable (o.Independent p))
  | .logical _ _ r _ => inferInstanceAs (Decidable (r.assigned = []))
  | .ternary _ t e _ => inferInstanceAs (Decidable (t.assigned = [] ∧ e.assigned = []))
  | .assign (.compound _) t v _ => inferInstanceAs (Decidable (∀ n ∈ t.mentions, n ∉ v.assigned))
  | .member _ _ false _ | .assign .assign _ _ _ | .bool _ _ | .num _ _ | .str _ _ | .null _
  | .list _ _ | .ident _ _
  | .call _ _ _ | .binary _ _ _ _ | .unary _ _ _ | .update _ _ _ _ | .sequence _ _ =>
    inferInstanceAs (Decidable True)

end Expr

/-- Names are bound to expressions as they are read. -/
structure Scope.Plain (scope : Scope) : Prop where
  named : scope.Named
  exprs : scope.Forall Expr.Plain

namespace Expr

/-- Names that are stored to are identifiers. -/
theorem isIdentifier_of_assigned {e : Expr} (he : e.Forall Formed) {n : String}
    (hn : n ∈ e.assigned) : IsIdentifier n := by
  induction he with
  | @node e here inside ih =>
    rcases assigned_cases hn with ⟨op, ns, v, s, rfl⟩ | ⟨c, hc, hmem⟩
    · exact (inside (.ident n ns) List.mem_cons_self).here
    · exact ih c hc hmem

/-- Inlining keeps an expression plain, and the scope too. -/
theorem inline_plain (test : LoopTest) {e : Expr} (he : e.Forall Plain) {scope : Scope}
    (hs : scope.Plain) : (e.inline test scope).1.Forall Plain ∧ (e.inline test scope).2.Plain := by
  obtain ⟨he', hs'⟩ := e.inline_forall inlinable_plain test scope he hs.exprs
  have hidents : ∀ n ∈ e.assigned, IsIdentifier n :=
    fun n hn => isIdentifier_of_assigned (he.imp fun _ h => h.1.1) hn
  exact ⟨he', (inline_extends test e hidents scope).named hs.named, hs'⟩

/-! ## The simulation -/

/-- Each element of a list has its value in the list of values. -/
theorem evalAllWith_getElem? {names : String → Except EvalCause Value} {es : List Expr}
    {vs : List Value} (h : evalAllWith names es = .ok vs) {i : Nat} {e : Expr}
    (hi : es[i]? = some e) : ∃ w, vs[i]? = some w ∧ e.evalWith names = .ok w := by
  induction es generalizing vs i with
  | nil => cases hi
  | cons f es ih =>
    simp only [evalAllWith, bind_eq_ok] at h
    obtain ⟨v, hv, ws, hws, heq⟩ := h
    cases heq
    cases i with
    | zero =>
      cases hi
      exact ⟨v, rfl, hv⟩
    | succ i => exact ih hws hi

/-- A number picks the element at its index. -/
theorem memberOf_of_index {names : String → Except EvalCause Value} {es : List Expr}
    {vs : List Value} (h : evalAllWith names es = .ok vs) {x : Float} {i : Nat}
    (hx : (Value.num x).index? = some i) {e : Expr} (hi : es[i]? = some e) :
    memberOf (.list vs) (.num x) = e.evalWith names := by
  obtain ⟨w, hget, hw⟩ := evalAllWith_getElem? h hi
  simp [memberOf, Value.member?, Value.listMember, hx, hget, hw]

/-- A bound list has elements with values, and the store holds a list of these. -/
theorem evalAllWith_of_tracks {scope : Scope} {ρ σ : Store} (ht : scope.Tracks ρ σ) {n : String}
    {es : List Expr} {s : Span} (hlookup : scope.lookup? n = some (.list es s)) :
    ∃ vs, evalAllWith ρ es = .ok vs ∧ σ n = .ok (.list vs) := by
  obtain ⟨v, hv, hn⟩ := ht.bound hlookup
  simp only [evalWith, bind_eq_ok] at hv
  obtain ⟨vs, hvs, heq⟩ := hv
  cases heq
  exact ⟨vs, hvs, hn⟩

/-- An element that is picked has a value. -/
theorem exists_evalWith_of_element {scope : Scope} {ρ σ : Store} (ht : scope.Tracks ρ σ)
    {name index : String} {e : Expr} (helement : scope.element? name index = some e) :
    ∃ v, e.evalWith ρ = .ok v := by
  obtain ⟨es, s, i, hlookup, -, hi⟩ := Scope.element?_eq_some helement
  obtain ⟨vs, hvs, -⟩ := evalAllWith_of_tracks ht hlookup
  obtain ⟨v, -, hv⟩ := evalAllWith_getElem? hvs hi
  exact ⟨v, hv⟩

/-- An element that inlining picks by the text of an index is what the value of the index picks. -/
theorem memberOf_of_element {scope : Scope} (hs : scope.Plain) {ρ σ : Store} (ht : scope.Tracks ρ σ)
    {o p e : Expr} (ho : o.Readable) (hp : p.Forall Formed)
    (helement : scope.element? o.text p.text = some e) :
    ∃ n s a x, o = .ident n s ∧ σ n = .ok a ∧ (∀ names, p.evalWith names = .ok (.num x)) ∧
      memberOf a (.num x) = e.evalWith ρ := by
  obtain ⟨n, s, es, s', i, rfl, hlookup, hi, hindex⟩ := Scope.element?_inv hs.named ho helement
  obtain ⟨vs, hvs, hn⟩ := evalAllWith_of_tracks ht hlookup
  have hshort : es.length < 2 ^ 53 := (hs.exprs.lookup? hlookup).here.2
  obtain ⟨hlt, -⟩ := List.getElem?_eq_some_iff.1 hi
  obtain ⟨x, hx, hnum⟩ := evalWith_of_index hp hindex (hlt.trans hshort)
  exact ⟨n, s, .list vs, x, rfl, hn, hnum, memberOf_of_index hvs hx hi⟩

/-- An element that inlining picks from a bound list has the value that the member has. -/
theorem evalWith_element {scope : Scope} (hs : scope.Plain) {ρ σ σ' : Store}
    (ht : scope.Tracks ρ σ) {o p e : Expr} (ho : o.Readable) (hp : p.Forall Plain) {a k v : Value}
    (hrun : o.run σ = .ok (a, σ')) (hkey : p.evalWith ρ = .ok k) (hv : memberOf a k = .ok v)
    (helement : scope.element? o.text p.text = some e) :
    e.evalWith ρ = .ok v ∧ σ' = σ ∧ o.assigned = [] := by
  obtain ⟨n, s, b, x, rfl, hn, hnum, hmember⟩ :=
    memberOf_of_element hs ht ho (hp.imp fun _ h => h.1.1) helement
  obtain ⟨ha, rfl⟩ := run_ident.1 hrun
  obtain rfl : b = a := Except.ok.inj (hn.symm.trans ha)
  obtain rfl : Value.num x = k := Except.ok.inj ((hnum ρ).symm.trans hkey)
  exact ⟨hmember.symm.trans hv, rfl, rfl⟩

/-- The inlined expression has the value of the run, and the scope behind it tells what the store
holds then. -/
structure Follows (ρ : Store) (e : Expr) (scope : Scope) (v : Value) (σ : Store) : Prop where
  value : (e.inline .none scope).1.evalWith ρ = .ok v
  tracks : (e.inline .none scope).2.Tracks ρ σ
  bound : ∀ n ∈ e.assigned, (e.inline .none scope).2.isBound n

/-- Inlining unbinds no name. -/
theorem isBound_inline {scope : Scope} {n : String} (h : scope.isBound n)
    (test : LoopTest) (e : Expr) : (e.inline test scope).2.isBound n :=
  (inline_extends (S := fun _ => True) test e (fun _ _ => trivial) scope).isBound h

/-- Nor does binding another. -/
theorem isBound_bind {scope : Scope} {n : String} (h : scope.isBound n) (m : String) (e : Expr) :
    (scope.bind m e).isBound n := by
  have hext : scope.Extends (fun _ => True) (scope.bind m e) := .bind trivial e
  exact hext.isBound h

namespace Follows

variable {ρ σ τ : Store} {scope : Scope} {a b k v : Value} {o p l r c t e : Expr}

/-- An element that is picked from a bound list stands for the member. -/
theorem picked (hp : Follows ρ p scope k σ)
    (helement : (p.inline .none scope).2.element? o.text (p.inline .none scope).1.text = some e)
    (he : e.evalWith ρ = .ok v) (hnone : o.assigned = []) (s : Span) :
    Follows ρ (.member o p true s) scope v σ := by
  have hinline : (Expr.member o p true s).inline .none scope = (e, (p.inline .none scope).2) := by
    simp only [inline, helement]
  refine ⟨by rw [hinline]; exact he, by rw [hinline]; exact hp.tracks, fun n hn => ?_⟩
  rw [assigned_computed, hnone, List.nil_append] at hn
  rw [hinline]
  exact hp.bound n hn

/-- Else the object is inlined behind the index. -/
theorem computed (hp : Follows ρ p scope k τ) (ho : Follows ρ o (p.inline .none scope).2 a σ)
    (helement : (p.inline .none scope).2.element? o.text (p.inline .none scope).1.text = none)
    (hv : memberOf a k = .ok v) (s : Span) : Follows ρ (.member o p true s) scope v σ := by
  have hinline : (Expr.member o p true s).inline .none scope =
      (.member (o.inline .none (p.inline .none scope).2).1 (p.inline .none scope).1 true s,
        (o.inline .none (p.inline .none scope).2).2) := by
    simp only [inline, helement]
  refine ⟨?_, by rw [hinline]; exact ho.tracks, fun n hn => ?_⟩
  · rw [hinline, evalWith_computed, ho.value, hp.value]
    exact hv
  · rw [assigned_computed] at hn
    rw [hinline]
    rcases List.mem_append.1 hn with hn | hn
    · exact ho.bound n hn
    · exact isBound_inline (hp.bound n hn) .none o

/-- The sides of an operator follow one after the other. -/
theorem binary (hl : Follows ρ l scope a τ) (hr : Follows ρ r (l.inline .none scope).2 b σ)
    (op : BinaryOp) (s : Span) : Follows ρ (.binary op l r s) scope (Value.binary op a b) σ := by
  refine ⟨?_, hr.tracks, fun n hn => ?_⟩
  · simp only [inline, evalWith, hl.value, hr.value]
    rfl
  · rw [assigned_binary] at hn
    rcases List.mem_append.1 hn with hn | hn
    · exact isBound_inline (hl.bound n hn) .none r
    · exact hr.bound n hn

/-- The right operand is inlined even if it does not run, which does no harm where it stores
nothing. -/
theorem logical {op : LogicalOp} (hl : Follows ρ l scope a τ) (hnone : r.assigned = [])
    (hr : if selectsRight op a then Follows ρ r (l.inline .none scope).2 v σ else v = a ∧ σ = τ)
    (s : Span) : Follows ρ (.logical op l r s) scope v σ := by
  have hstays := inline_scope_of_assigned hnone .none (l.inline .none scope).2
  have hbound : ∀ n ∈ (Expr.logical op l r s).assigned,
      ((Expr.logical op l r s).inline .none scope).2.isBound n := by
    intro n hn
    rw [assigned_logical, hnone, List.append_nil] at hn
    exact isBound_inline (hl.bound n hn) .none r
  split at hr
  · rename_i hright
    exact ⟨evalWith_logical hl.value (by rw [if_pos hright]; exact hr.value) s, hr.tracks, hbound⟩
  · rename_i hleft
    obtain ⟨rfl, rfl⟩ := hr
    refine ⟨evalWith_logical hl.value (by rw [if_neg hleft]) s, ?_, hbound⟩
    simp only [inline, hstays]
    exact hl.tracks

/-- Both arms are inlined behind the test, and neither stores. -/
theorem ternary (hc : Follows ρ c scope a τ) (ht : t.assigned = []) (he : e.assigned = [])
    (h : Follows ρ (if a.truthy then t else e) (c.inline .none scope).2 v σ) (s : Span) :
    Follows ρ (.ternary c t e s) scope v σ := by
  have hstayst := inline_scope_of_assigned ht .none (c.inline .none scope).2
  have hstayse := inline_scope_of_assigned he .none (c.inline .none scope).2
  have hscope : ((Expr.ternary c t e s).inline .none scope).2 = (c.inline .none scope).2 := by
    simp only [inline, hstayst, hstayse]
  refine ⟨?_, ?_, fun n hn => ?_⟩
  · simp only [inline, evalWith, hc.value, hstayst]
    by_cases htrue : a.truthy
    · rw [if_pos htrue] at h
      exact (if_pos htrue).trans h.value
    · rw [if_neg htrue] at h
      exact (if_neg htrue).trans h.value
  · rw [hscope]
    have htracks := h.tracks
    split at htracks
    · rwa [hstayst] at htracks
    · rwa [hstayse] at htracks
  · rw [assigned_ternary, ht, he, List.append_nil, List.append_nil] at hn
    rw [hscope]
    exact hc.bound n hn

/-- The name is bound to an expression with the value that is stored. -/
theorem assign {op : AssignOp} {n : String} (he : Follows ρ e scope a τ)
    (hv : combine op (τ n) a = .ok v) (ns s : Span) :
    Follows ρ (.assign op (.ident n ns) e s) scope v (τ.set n v) := by
  have hstored := he.tracks.evalWith_stored he.value hv s
  have hinline : (Expr.assign op (.ident n ns) e s).inline .none scope =
      ((e.inline .none scope).2.stored n op (e.inline .none scope).1 s,
        (e.inline .none scope).2.bind n
          ((e.inline .none scope).2.stored n op (e.inline .none scope).1 s)) := by
    simp only [inline, Scope.store_eq]
    rfl
  refine ⟨by rw [hinline]; exact hstored, by rw [hinline]; exact he.tracks.bind hstored n,
    fun m hm => ?_⟩
  rw [hinline]
  rcases List.mem_cons.1 hm with rfl | hm
  · simp [Scope.isBound]
  · exact isBound_bind (he.bound m hm) n _

end Follows

mutual

/-- Inlining follows the run. -/
theorem inline_follows {ρ : Store} :
    (e : Expr) → e.Forall Plain → e.Forall InOrder → {scope : Scope} → scope.Plain →
    {σ σ' : Store} → {v : Value} → scope.Tracks ρ σ → e.run σ = .ok (v, σ') → Follows ρ e scope v σ'
  | .bool _ _, he, ho, scope, hs, σ, σ', v, ht, h | .num _ _, he, ho, scope, hs, σ, σ', v, ht, h
  | .str _ _, he, ho, scope, hs, σ, σ', v, ht, h | .null _, he, ho, scope, hs, σ, σ', v, ht, h => by
    cases h
    exact ⟨rfl, ht, fun n hn => (by cases hn)⟩
  | .ident n s, he, ho, scope, hs, σ, σ', v, ht, h => by
    obtain ⟨hn, rfl⟩ := run_ident.1 h
    exact ⟨ht.evalWith_getD hn s, ht, fun n hn => (by cases hn)⟩
  | .list es s, he, ho, scope, hs, σ, σ', v, ht, h => by
    obtain ⟨vs, hes, rfl⟩ := run_list.1 h
    obtain ⟨hvalues, htracks, hbound⟩ := inlineAll_follows es he.inside ho.inside hs ht hes
    refine ⟨?_, htracks, fun n hn => ?_⟩
    · simp only [inline, evalWith, hvalues]
      rfl
    · rw [assigned_list, List.mem_flatMap] at hn
      obtain ⟨e, hmem, hn⟩ := hn
      exact hbound e hmem n hn
  | .sequence es s, he, ho, scope, hs, σ, σ', v, ht, h => by
    obtain ⟨vs, hes, rfl⟩ := run_sequence.1 h
    obtain ⟨hvalues, htracks, hbound⟩ := inlineAll_follows es he.inside ho.inside hs ht hes
    refine ⟨?_, htracks, fun n hn => ?_⟩
    · simp only [inline, evalWith, hvalues]
      rfl
    · rw [assigned_sequence, List.mem_flatMap] at hn
      obtain ⟨e, hmem, hn⟩ := hn
      exact hbound e hmem n hn
  | .member o p false s, he, ho, scope, hs, σ, σ', v, ht, h => by
    obtain ⟨name, ps, a, rfl, hobject, hv⟩ := run_dotted.1 h
    have hin := List.mem_cons_self (a := o) (l := [])
    obtain ⟨hvalue, htracks, hbound⟩ :=
      inline_follows o (he.inside o hin) (ho.inside o hin) hs ht hobject
    refine ⟨?_, htracks, hbound⟩
    simp only [inline, evalWith, hvalue]
    exact hv
  | .member o p true s, he, ho, scope, hs, σ, σ', v, ht, h => by
    obtain ⟨a, τ, k, hobject, hkey, hv⟩ := run_computed.1 h
    -- inlining does the index first; the operands are independent, so running may do the same
    obtain ⟨τ', hkey, hobject⟩ := run_swap ho.here hobject hkey
    have hino : o ∈ (member o p true s).children := by simp [children]
    have hinp : p ∈ (member o p true s).children := by simp [children]
    have hindex := inline_follows p (he.inside p hinp) (ho.inside p hinp) hs ht hkey
    obtain ⟨hp', hs'⟩ := inline_plain .none (he.inside p hinp) hs
    cases helement : (p.inline .none scope).2.element? o.text (p.inline .none scope).1.text with
    | some e =>
      obtain ⟨heval, rfl, hnone⟩ :=
        evalWith_element hs' hindex.tracks (he.inside o hino).here.1 hp' hobject hindex.value
          hv helement
      exact hindex.picked helement heval hnone s
    | none =>
      exact hindex.computed
        (inline_follows o (he.inside o hino) (ho.inside o hino) hs' hindex.tracks hobject)
        helement hv s
  | .binary op l r s, he, ho, scope, hs, σ, σ', v, ht, h => by
    obtain ⟨a, τ, b, hl, hr, rfl⟩ := run_binary.1 h
    have hinl : l ∈ (binary op l r s).children := by simp [children]
    have hinr : r ∈ (binary op l r s).children := by simp [children]
    have hleft := inline_follows l (he.inside l hinl) (ho.inside l hinl) hs ht hl
    obtain ⟨-, hs'⟩ := inline_plain .none (he.inside l hinl) hs
    exact hleft.binary (inline_follows r (he.inside r hinr) (ho.inside r hinr) hs' hleft.tracks hr)
      op s
  | .logical op l r s, he, ho, scope, hs, σ, σ', v, ht, h => by
    obtain ⟨a, τ, hl, hr⟩ := run_logical.1 h
    have hinl : l ∈ (logical op l r s).children := by simp [children]
    have hinr : r ∈ (logical op l r s).children := by simp [children]
    have hleft := inline_follows l (he.inside l hinl) (ho.inside l hinl) hs ht hl
    obtain ⟨-, hs'⟩ := inline_plain .none (he.inside l hinl) hs
    refine hleft.logical ho.here ?_ s
    split at hr
    · rename_i hselects
      rw [if_pos hselects]
      exact inline_follows r (he.inside r hinr) (ho.inside r hinr) hs' hleft.tracks hr
    · rename_i hselects
      rw [if_neg hselects]
      exact hr
  | .unary op a s, he, ho, scope, hs, σ, σ', v, ht, h => by
    rcases run_unary.1 h with ⟨x, ha, rfl⟩ | ⟨n, ns, c, rfl, rfl, hn, rfl, rfl⟩
    · have hin := List.mem_cons_self (a := a) (l := [])
      obtain ⟨hvalue, htracks, hbound⟩ :=
        inline_follows a (he.inside a hin) (ho.inside a hin) hs ht ha
      exact ⟨evalWith_unary hvalue op s, htracks, hbound⟩
    · refine ⟨?_, ht, fun n hn => (by cases hn)⟩
      have hfree := ht.lookup?_of_error hn
      rw [ht.free hfree] at hn
      simp only [inline, hfree, Option.getD_none, evalWith, hn]
  | .ternary c t e s, he, ho, scope, hs, σ, σ', v, ht, h => by
    obtain ⟨a, τ, hc, h⟩ := run_ternary.1 h
    have hinc : c ∈ (ternary c t e s).children := by simp [children]
    have hint : t ∈ (ternary c t e s).children := by simp [children]
    have hine : e ∈ (ternary c t e s).children := by simp [children]
    obtain ⟨hnonet, hnonee⟩ : t.assigned = [] ∧ e.assigned = [] := ho.here
    have htest := inline_follows c (he.inside c hinc) (ho.inside c hinc) hs ht hc
    obtain ⟨-, hs'⟩ := inline_plain .none (he.inside c hinc) hs
    refine htest.ternary hnonet hnonee ?_ s
    split at h
    · rename_i htrue
      rw [if_pos htrue]
      exact inline_follows t (he.inside t hint) (ho.inside t hint) hs' htest.tracks h
    · rename_i hfalse
      rw [if_neg hfalse]
      exact inline_follows e (he.inside e hine) (ho.inside e hine) hs' htest.tracks h
  | .assign op t e s, he, ho, scope, hs, σ, σ', v, ht, h => by
    obtain ⟨n, ns, rfl⟩ := exists_ident_of_run_assign h
    obtain ⟨x, τ, hrun, hx, rfl⟩ := run_assign.1 h
    have hin : e ∈ (assign op (.ident n ns) e s).children := by simp [children]
    have hvalue := inline_follows e (he.inside e hin) (ho.inside e hin) hs ht hrun
    refine hvalue.assign ?_ ns s
    cases op with
    | assign => exact hx
    | compound b =>
      -- the target is read behind the right side, which does not store to it
      rw [run_frame e hrun (ho.here n (List.mem_singleton_self n))]
      exact hx
  | .call _ _ _, he, ho, scope, hs, σ, σ', v, ht, h
  | .update _ _ _ _, he, ho, scope, hs, σ, σ', v, ht, h => by cases h

/-- The same for expressions in a row. -/
theorem inlineAll_follows {ρ : Store} :
    (es : List Expr) → (∀ e ∈ es, e.Forall Plain) → (∀ e ∈ es, e.Forall InOrder) →
    {scope : Scope} → scope.Plain → {σ σ' : Store} → {vs : List Value} → scope.Tracks ρ σ →
      runAll es σ = .ok (vs, σ') →
    evalAllWith ρ (inlineAll .none es scope).1 = .ok vs ∧ (inlineAll .none es scope).2.Tracks ρ σ' ∧
      ∀ e ∈ es, ∀ n ∈ e.assigned, (inlineAll .none es scope).2.isBound n
  | [], he, ho, scope, hs, σ, σ', vs, ht, h => by
    cases h
    exact ⟨rfl, ht, fun e he => absurd he List.not_mem_nil⟩
  | e :: es, he, ho, scope, hs, σ, σ', vs, ht, h => by
    obtain ⟨v, τ, ws, hrun, hruns, rfl⟩ := runAll_cons.1 h
    obtain ⟨he, hes⟩ := List.forall_mem_cons.1 he
    obtain ⟨ho, hos⟩ := List.forall_mem_cons.1 ho
    obtain ⟨hvalue, htracks, hbound⟩ := inline_follows e he ho hs ht hrun
    obtain ⟨-, hs'⟩ := inline_plain .none he hs
    obtain ⟨hvalues, htracks', hbound'⟩ := inlineAll_follows es hes hos hs' htracks hruns
    refine ⟨?_, htracks', List.forall_mem_cons.2 ⟨fun n hn => ?_, hbound'⟩⟩
    · simp only [inlineAll, evalAllWith, hvalue, hvalues]
      rfl
    · exact (inlineAll_extends (S := fun _ => True) .none es (fun _ _ _ _ => trivial) _).isBound
        (hbound n hn)

end

/-- Outside of loops, the inlined expression has the value that the run has, and every assigned name
is bound to an expression whose value is what the store holds in the end. -/
theorem evalWith_inline_of_run {e : Expr} (he : e.Forall Plain) (ho : e.Forall InOrder)
    {scope : Scope} (hs : scope.Plain) {ρ : Store}
    (hvalues : ∀ x ∈ scope.entries, ∃ v, x.2.evalWith ρ = .ok v) {v : Value} {σ : Store}
    (hrun : e.run (scope.contents ρ) = .ok (v, σ)) :
    (e.inline .none scope).1.evalWith ρ = .ok v ∧
      ∀ n ∈ e.assigned, ∃ f, (e.inline .none scope).2.lookup? n = some f ∧ f.evalWith ρ = σ n := by
  obtain ⟨hvalue, htracks, hbound⟩ := inline_follows e he ho hs (Scope.tracks_contents hvalues) hrun
  refine ⟨hvalue, fun n hn => ?_⟩
  obtain ⟨f, hf⟩ := Option.isSome_iff_exists.1 (hbound n hn)
  obtain ⟨w, hw, hσ⟩ := htracks.bound hf
  exact ⟨f, hf, hw.trans hσ.symm⟩

/-- The text `z += (x = y + 'b')` where `y` is bound to `'a' + w`. -/
theorem evalWith_inline_of_run_nested :
    let e : Expr :=
      .assign (.compound .add) (.ident "z" .nowhere) (.assign .assign (.ident "x" .nowhere)
          (.binary .add (.ident "y" .nowhere) (.str "b" .nowhere) .nowhere) .nowhere) .nowhere
    let scope : Scope := ⟨[("y", .binary .add (.str "a" .nowhere) (.ident "w" .nowhere) .nowhere)]⟩
    let ρ : Store := fun n => .ok (.str n)
    (e.inline .none scope).1.evalWith ρ = .ok (.str "zawb") ∧
      ∀ n ∈ ["z", "x"], ∃ f, (e.inline .none scope).2.lookup? n = some f ∧
        f.evalWith ρ = .ok (.str (if n = "z" then "zawb" else "awb")) := by
  intro e scope ρ
  have hident (n : String) (hn : IsIdentifier n) : (ident n .nowhere).Forall Plain :=
    .leaf ⟨⟨hn, trivial⟩, trivial⟩ rfl
  have hstr (v : String) : (str v .nowhere).Forall Plain := .leaf ⟨⟨trivial, trivial⟩, trivial⟩ rfl
  have hsum : (binary .add (ident "y" .nowhere) (str "b" .nowhere) .nowhere).Forall Plain :=
    .node ⟨⟨trivial, trivial⟩, trivial⟩
      (List.forall_mem_cons.2 ⟨hident "y" (by decide), List.forall_mem_singleton.2 (hstr "b")⟩)
  have hinner : (assign .assign (ident "x" .nowhere) _ .nowhere).Forall Plain :=
    .node ⟨⟨show AssignOp.Formed .assign by decide, trivial⟩, trivial⟩
      (List.forall_mem_cons.2 ⟨hident "x" (by decide), List.forall_mem_singleton.2 hsum⟩)
  have he : e.Forall Plain :=
    .node ⟨⟨show AssignOp.Formed (.compound .add) by decide, trivial⟩, trivial⟩
      (List.forall_mem_cons.2 ⟨hident "z" (by decide), List.forall_mem_singleton.2 hinner⟩)
  have ho : e.Forall InOrder := by decide
  have hs : scope.Plain := by
    refine ⟨List.forall_mem_singleton.2 (by decide),
      List.forall_mem_singleton.2 (.node ⟨⟨trivial, trivial⟩, trivial⟩ ?_)⟩
    exact List.forall_mem_cons.2 ⟨hstr "a", List.forall_mem_singleton.2 (hident "w" (by decide))⟩
  have hvalues : ∀ x ∈ scope.entries, ∃ v, x.2.evalWith ρ = .ok v :=
    List.forall_mem_singleton.2 ⟨_, rfl⟩
  have hrun : e.run (scope.contents ρ) =
      .ok (.str "zawb", ((scope.contents ρ).set "x" (.str "awb")).set "z" (.str "zawb")) := rfl
  obtain ⟨hvalue, hbound⟩ := evalWith_inline_of_run he ho hs hvalues hrun
  refine ⟨hvalue, fun n hn => ?_⟩
  obtain ⟨f, hf, hfn⟩ := hbound n hn
  refine ⟨f, hf, hfn.trans ?_⟩
  rcases List.mem_cons.1 hn with rfl | hn
  · rfl
  · obtain rfl := List.mem_singleton.1 hn
    rfl

/-- The text `a[(a = ['c'], '0')]` where `a` is bound to `['b']`: the run reads the object before
the index stores to it, inlining reads it behind. -/
theorem inline_index_before_object :
    let e : Expr := .member (.ident "a" .nowhere)
      (.sequence
        [.assign .assign (.ident "a" .nowhere) (.list [.str "c" .nowhere] .nowhere) .nowhere,
          .str "0" .nowhere] .nowhere) true .nowhere
    let scope : Scope := ⟨[("a", .list [.str "b" .nowhere] .nowhere)]⟩
    (∃ σ, e.run (scope.contents builtinName) = .ok (.str "b", σ)) ∧
      (e.inline .none scope).1.evalWith builtinName = .ok (.str "c") :=
  ⟨⟨_, rfl⟩, rfl⟩

end Expr

end BranchPaint
