import BranchPaint.Proofs.Inline.Simulation

/-!
# Inlining a value and looking it up

A name can be replaced by what it is bound to, or looked up when the expression is evaluated. For an
expression that assigns to no name both come to the same value, or fail for the same reason
(`Expr.eval_inline`), as long as every bound expression has a value of its own.

Two places need more than the values of the parts. Inlining picks an element of a bound list by the
text of the index, and evaluation by its value: a text that is an index belongs to an expression
with that value, in whatever way it came about (`Expr.index?_of_evalWith`,
`Expr.evalWith_of_index_inline`). And the type of a bare name is known even if the name has no
value, so inlining may put no bare name without value in place of something else
(`Expr.inline_cases`).
-/

namespace BranchPaint

/-- Every bound expression has a value with nothing bound. -/
def Scope.Valued (scope : Scope) : Prop :=
  ∀ x ∈ scope.entries, ∃ v, x.2.evalWith builtinName = .ok v

/-- Then the scope tells the values of names, over those that names have with nothing bound. -/
theorem Scope.Valued.tracks {scope : Scope} (h : scope.Valued) :
    scope.Tracks builtinName scope.value :=
  tracks_contents h

/-- Names are bound to expressions that have a value with nothing bound, and to no list that is too
long. -/
structure Scope.Closed (scope : Scope) : Prop where
  named : scope.Named
  valued : scope.Valued
  short : ∀ x ∈ scope.entries, x.2.ShortList

namespace Expr

/-! ## Indices by text and by value -/

/-- A name with a value of its own is no index. -/
theorem not_index_of_builtinName {n : String} {v : Value} (h : builtinName n = .ok v) :
    indexOfText? n = none := by
  unfold builtinName at h
  split at h
  · rename_i hn
    rw [hn]
    decide
  · split at h
    · rename_i hn
      rw [hn]
      decide
    · split at h
      · rename_i hn
        rw [hn]
        decide
      · cases h

/-- The value of an expression whose text is an index is that index. -/
theorem index?_of_evalWith {e : Expr} {i : Nat} (h : indexOfText? e.text = some i) (hi : i < 2 ^ 53)
    {v : Value} (hv : e.evalWith builtinName = .ok v) :
    ∃ x, v = .num x ∧ (Value.num x).index? = some i := by
  induction e using Expr.induction generalizing v with
  | step e ih =>
    rcases index_cases h with ⟨x, s, rfl, hx⟩ | ⟨n, s, rfl⟩ | ⟨a, s, rfl, ha⟩ | ⟨a, s, rfl, ha⟩
    · cases hv
      exact ⟨x, rfl, Value.index?_of_numberText hx hi⟩
    · have hnone : indexOfText? (ident n s).text = none := not_index_of_builtinName hv
      rw [hnone] at h
      cases h
    · simp only [evalWith, bind_eq_ok] at hv
      obtain ⟨w, hw, heq⟩ := hv
      obtain ⟨x, rfl, hx⟩ := ih a List.mem_cons_self (indexOfText?_of_digits ha) hw
      cases heq
      exact ⟨x, rfl, hx⟩
    · simp only [evalWith, evalAllWith, bind_eq_ok] at hv
      obtain ⟨vs, ⟨w, hw, ws, hnil, hcons⟩, heq⟩ := hv
      cases hnil
      cases hcons
      cases heq
      exact ih a List.mem_cons_self ha hw

/-! ## What inlining puts in place of an expression -/

variable {scope : Scope}

/-- Inlining leaves the node as it is, or puts something in its place that has a value. -/
theorem inline_cases {ρ σ : Store} (ht : scope.Tracks ρ σ) {e : Expr} (hassign : e.assigned = []) :
    (∃ v, (e.inline .none scope).1.evalWith ρ = .ok v) ∨ (e.inline .none scope).1 = e ∨
      SameNode e (e.inline .none scope).1 := by
  cases e with
  | ident n s =>
    cases hlookup : scope.lookup? n with
    | none => exact .inr (.inl (by simp [inline, hlookup]))
    | some f =>
      obtain ⟨v, hv, -⟩ := ht.bound hlookup
      exact .inl ⟨v, by simpa [inline, hlookup] using hv⟩
  | member o p computed s =>
    cases computed with
    | false => exact .inr (.inr .dotted)
    | true =>
      have hp : p.assigned = [] := assigned_eq_nil_of_child hassign (by simp [children])
      have hscope := inline_scope_of_assigned hp .none scope
      cases helement : scope.element? o.text (p.inline .none scope).1.text with
      | none => exact .inr (.inr (by simpa [inline, hscope, helement] using .computed))
      | some f =>
        obtain ⟨v, hv⟩ := exists_evalWith_of_element ht helement
        exact .inl ⟨v, by simpa [inline, hscope, helement] using hv⟩
  | assign op t v s =>
    cases t with
    | ident n ns => simp at hassign
    | member o p computed ms =>
      cases computed
      all_goals exact .inr (.inr .assign)
    | _ => exact .inr (.inr .assign)
  | bool | num | str | null | update => exact .inr (.inl rfl)
  | list es s => exact .inr (.inr (.list (length_inlineAll .none es scope)))
  | sequence es s => exact .inr (.inr (.sequence (length_inlineAll .none es scope)))
  | call => exact .inr (.inr .call)
  | binary => exact .inr (.inr .binary)
  | logical => exact .inr (.inr .logical)
  | unary => exact .inr (.inr .unary)
  | ternary => exact .inr (.inr .ternary)

/-- What inlining makes into the text of an index has a value. -/
theorem evalWith_of_index_inline {ρ σ : Store} (ht : scope.Tracks ρ σ) {e : Expr}
    (he : e.Forall Formed) (hassign : e.assigned = []) {i : Nat}
    (h : indexOfText? (e.inline .none scope).1.text = some i) :
    ∃ v, (e.inline .none scope).1.evalWith ρ = .ok v := by
  induction e using Expr.induction with
  | step e ih =>
    by_cases hplus : ∃ a s, e = .unary .plus a s
    · obtain ⟨a, s, rfl⟩ := hplus
      have ha : indexOfDigits? (a.inline .none scope).1.text.toList = some i := by
        rcases index_cases h with
          ⟨x, s', heq, -⟩ | ⟨n, s', heq⟩ | ⟨b, s', heq, hb⟩ | ⟨b, s', heq, -⟩
        · cases heq
        · cases heq
        · cases heq
          exact hb
        · cases heq
      have hin : a ∈ (unary .plus a s).children := List.mem_cons_self
      obtain ⟨v, hv⟩ := ih a hin (he.inside a hin) (assigned_eq_nil_of_child hassign hin)
        (indexOfText?_of_digits ha)
      exact ⟨_, evalWith_unary hv .plus s⟩
    · rcases inline_cases ht hassign with hvalue | hsame | hsame
      · exact hvalue
      · rw [hsame] at h ⊢
        obtain ⟨x, s, -, rfl | ⟨s', rfl⟩⟩ := eq_num_of_index he h
        · exact ⟨_, rfl⟩
        · exact ⟨_, rfl⟩
      · -- the node cannot have changed into one of those that an index needs
        exfalso
        generalize (e.inline .none scope).1 = f at h hsame
        rcases index_cases h with ⟨x, s, rfl, -⟩ | ⟨n, s, rfl⟩ | ⟨a, s, rfl, -⟩ | ⟨a, s, rfl, -⟩
        · cases hsame
        · cases hsame
          rw [show (ident n s).text = n from rfl, not_index_of_isIdentifier he.here] at h
          cases h
        · cases hsame
          exact hplus ⟨_, _, rfl⟩
        · cases hsame with
          | sequence hlength =>
            have htwo : 2 ≤ _ := he.here
            rw [← hlength] at htwo
            exact Nat.not_succ_le_self 1 htwo

/-! ## Evaluation after inlining -/

/-- The value of a unary operator is that of the operand, if the operands are both bare names or
both not, or have a value. -/
theorem evalWith_unary_congr {names names' : String → Except EvalCause Value} {op : UnaryOp}
    {a a' : Expr} {s s' : Span} (h : a.evalWith names = a'.evalWith names')
    (hasks : (∃ v, a.evalWith names = .ok v) ∨ asksTypeOfName op a = asksTypeOfName op a') :
    (unary op a s).evalWith names = (unary op a' s').evalWith names' := by
  rcases hasks with ⟨v, hv⟩ | hasks
  · rw [evalWith_unary hv, evalWith_unary (h ▸ hv)]
  · by_cases hname : asksTypeOfName op a
    · have hname' : asksTypeOfName op a' := by rwa [← hasks]
      obtain ⟨rfl, n, ns, rfl⟩ := exists_ident_of_asksTypeOfName hname
      obtain ⟨-, n', ns', rfl⟩ := exists_ident_of_asksTypeOfName hname'
      have hvalue : names n = names' n' := h
      simp only [evalWith, hvalue]
    · have hname' : ¬ asksTypeOfName op a' := by rwa [← hasks]
      rw [evalWith_unary_of_not hname, evalWith_unary_of_not hname', h]

/-- Nodes of the same kind both ask for the type of a name, or both do not. -/
theorem asksTypeOfName_sameNode {a a' : Expr} (h : SameNode a a') (op : UnaryOp) :
    asksTypeOfName op a = asksTypeOfName op a' := by
  cases op
  case typeOf =>
    cases h
    all_goals rfl
  all_goals rfl

/-- An element that inlining picks from a bound list has the value of the member: the text of the
index, by which it was picked, decides what the value of the index is. -/
theorem evalWith_picked (hs : scope.Closed) {o p f : Expr} (ho : o.Readable)
    (hp : p.Forall Formed) (hassign : p.assigned = [])
    (hkey : (p.inline .none scope).1.evalWith builtinName = p.evalWith scope.value)
    (helement : scope.element? o.text (p.inline .none scope).1.text = some f) (s : Span) :
    f.evalWith builtinName = (member o p true s).evalWith scope.value := by
  obtain ⟨n, ns, es, s', i, rfl, hlookup, hi, hindex⟩ := Scope.element?_inv hs.named ho helement
  obtain ⟨vs, hvs, hlist⟩ := evalAllWith_of_tracks hs.valued.tracks hlookup
  obtain ⟨k, hk⟩ := evalWith_of_index_inline hs.valued.tracks hp hassign hindex
  obtain ⟨hlt, -⟩ := List.getElem?_eq_some_iff.1 hi
  have hshort : es.length < 2 ^ 53 := hs.short _ (Scope.mem_entries_of_lookup? hlookup)
  obtain ⟨x, rfl, hx⟩ := index?_of_evalWith hindex (hlt.trans hshort) hk
  have hobject : (ident n ns).evalWith scope.value = .ok (.list vs) := hlist
  rw [evalWith_computed, hobject, ← hkey, hk]
  exact (memberOf_of_index hvs hx hi).symm

/-- Expressions in a row have the values that they had, if each has. -/
theorem evalAllWith_inlineAll {ρ σ : Store} {es : List Expr} (hassign : ∀ e ∈ es, e.assigned = [])
    (h : ∀ e ∈ es, (e.inline .none scope).1.evalWith ρ = e.evalWith σ) :
    evalAllWith ρ (inlineAll .none es scope).1 = evalAllWith σ es := by
  induction es with
  | nil => rfl
  | cons e es ih =>
    obtain ⟨hassign, hassigns⟩ := List.forall_mem_cons.1 hassign
    obtain ⟨h, hs⟩ := List.forall_mem_cons.1 h
    simp only [inlineAll, evalAllWith, inline_scope_of_assigned hassign, h, ih hassigns hs]

/-- Inlining and looking names up come to the same value, or fail for the same reason, if the scope
tells what the store holds and elements are picked as they should be. -/
theorem evalWith_inline_of_tracks {ρ σ : Store} (ht : scope.Tracks ρ σ) {P : Expr → Prop}
    (hP : ∀ e, P e → e.Formed)
    (hpick : ∀ {o p f : Expr} (s : Span), P o → p.Forall P → p.assigned = [] →
      (p.inline .none scope).1.evalWith ρ = p.evalWith σ →
      scope.element? o.text (p.inline .none scope).1.text = some f →
      f.evalWith ρ = (member o p true s).evalWith σ)
    {e : Expr} (he : e.Forall P) (hassign : e.assigned = []) :
    (e.inline .none scope).1.evalWith ρ = e.evalWith σ := by
  induction e using Expr.induction with
  | step e ih =>
  have hassigns : ∀ c ∈ e.children, c.assigned = [] := fun c hc =>
    assigned_eq_nil_of_child hassign hc
  have hin : ∀ c ∈ e.children, (c.inline .none scope).1.evalWith ρ = c.evalWith σ := fun c hc =>
    ih c hc (he.inside c hc) (hassigns c hc)
  have hscope : ∀ c ∈ e.children, (c.inline .none scope).2 = scope := fun c hc =>
    inline_scope_of_assigned (hassigns c hc) .none scope
  cases e with
  | bool | num | str | null | call | update => rfl
  | ident n s =>
    cases hlookup : scope.lookup? n with
    | none => simpa [inline, hlookup, evalWith] using (ht.free hlookup).symm
    | some f =>
      obtain ⟨v, hv, hn⟩ := ht.bound hlookup
      simpa [inline, hlookup, evalWith, hn] using hv
  | list es s | sequence es s =>
    have hes : evalAllWith ρ (inlineAll .none es scope).1 = evalAllWith σ es :=
      evalAllWith_inlineAll hassigns hin
    simp only [inline, evalWith, hes]
  | member o p computed s =>
    have ho := hin o (by cases computed <;> simp [children])
    cases computed with
    | false =>
      obtain ⟨n, ns, rfl, -⟩ := hP _ he.here rfl
      simp only [inline, evalWith, ho]
    | true =>
      have hinp : p ∈ (member o p true s).children := by simp [children]
      have hp := hin p hinp
      cases helement : scope.element? o.text (p.inline .none scope).1.text with
      | none => simp only [inline, hscope p hinp, helement, evalWith_computed, ho, hp]
      | some f =>
        have hpicked : ((member o p true s).inline .none scope).1 = f := by
          simp only [inline, hscope p hinp, helement]
        rw [hpicked]
        exact hpick s (he.inside o (by simp [children])).here (he.inside p hinp) (hassigns p hinp)
          hp helement
  | binary op l r s =>
    simp only [children, List.forall_mem_cons] at hin hscope
    simp only [inline, evalWith, hscope, hin]
  | logical op l r s =>
    simp only [children, List.forall_mem_cons] at hin hscope
    cases op
    all_goals simp only [inline, evalWith, hscope, hin]
  | unary op a s =>
    have hasks : (∃ v, (a.inline .none scope).1.evalWith ρ = .ok v) ∨
        asksTypeOfName op (a.inline .none scope).1 = asksTypeOfName op a := by
      rcases inline_cases ht (hassigns a List.mem_cons_self) with hvalue | hsame | hsame
      · exact .inl hvalue
      · exact .inr (congrArg _ hsame)
      · exact .inr (asksTypeOfName_sameNode hsame op).symm
    exact evalWith_unary_congr (hin a List.mem_cons_self) hasks
  | ternary c t e s =>
    simp only [children, List.forall_mem_cons] at hin hscope
    simp only [inline, evalWith, hscope, hin]
  | assign op t v s =>
    cases t with
    | ident n ns => simp at hassign
    | member o p computed ms =>
      cases computed
      all_goals rfl
    | _ => rfl

/-- Replacing every bound name by its expression and evaluating with nothing bound gives the value
that looking the names up gives, or the same reason why there is none. -/
theorem eval_inline {e : Expr} (he : e.Forall Readable) (hassign : e.assigned = [])
    (hnamed : scope.Named) (hvalues : ∀ x ∈ scope.entries, ∃ v, x.2.eval .empty = .ok v)
    (hshort : ∀ x ∈ scope.entries, x.2.ShortList) :
    (e.inline .none scope).1.eval .empty = e.eval scope :=
  evalWith_inline_of_tracks (Scope.Valued.tracks hvalues) (fun _ h => h.1)
    (fun s ho hp hassign hkey helement => evalWith_picked ⟨hnamed, hvalues, hshort⟩ ho
      (hp.imp fun _ h => h.1) hassign hkey helement s) he hassign

/-- The text `typeof u + xs[+i]` where `xs` is bound to `['a', 'b']` and `i` to `1`: the element is
picked by the text `+1`. -/
theorem eval_inline_element :
    let e : Expr := .binary .add (.unary .typeOf (.ident "u" .nowhere) .nowhere)
      (.member (.ident "xs" .nowhere) (.unary .plus (.ident "i" .nowhere) .nowhere) true .nowhere)
      .nowhere
    let scope : Scope :=
      ⟨[("xs", .list [.str "a" .nowhere, .str "b" .nowhere] .nowhere), ("i", .num 1 .nowhere)]⟩
    (e.inline .none scope).1.eval .empty = e.eval scope ∧
        e.eval scope = .ok (.str "undefinedb") := by
  intro e scope
  have hident (n : String) (hn : IsIdentifier n) : (ident n .nowhere).Forall Readable :=
    .leaf ⟨hn, trivial⟩ rfl
  have htype : (unary .typeOf (ident "u" .nowhere) .nowhere).Forall Readable :=
    .node ⟨trivial, trivial⟩ (List.forall_mem_singleton.2 (hident "u" (by decide)))
  have hindex : (unary .plus (ident "i" .nowhere) .nowhere).Forall Readable :=
    .node ⟨trivial, trivial⟩ (List.forall_mem_singleton.2 (hident "i" (by decide)))
  have hmember :
      (member (ident "xs" .nowhere) (unary .plus (ident "i" .nowhere) .nowhere) true
        .nowhere).Forall Readable :=
    .node ⟨nofun, trivial⟩
      (List.forall_mem_cons.2 ⟨hident "xs" (by decide), List.forall_mem_singleton.2 hindex⟩)
  have he : e.Forall Readable :=
    .node ⟨trivial, trivial⟩ (List.forall_mem_cons.2 ⟨htype, List.forall_mem_singleton.2 hmember⟩)
  have hnamed : scope.Named :=
    List.forall_mem_cons.2 ⟨by decide, List.forall_mem_singleton.2 (by decide)⟩
  have hvalues : ∀ x ∈ scope.entries, ∃ v, x.2.eval .empty = .ok v :=
    List.forall_mem_cons.2 ⟨⟨_, rfl⟩, List.forall_mem_singleton.2 ⟨_, rfl⟩⟩
  have hshort : ∀ x ∈ scope.entries, x.2.ShortList := by decide
  refine ⟨eval_inline he (by decide) hnamed hvalues hshort, ?_⟩
  have hone : (Value.num 1).index? = some 1 := by decide +kernel
  have hlist : evalAllWith builtinName [.str "a" .nowhere, .str "b" .nowhere] =
      .ok [.str "a", .str "b"] := rfl
  have hname : (unary .typeOf (ident "u" .nowhere) .nowhere).evalWith scope.value =
      .ok (.str "undefined") := rfl
  have hobject : (ident "xs" .nowhere).evalWith scope.value = .ok (.list [.str "a", .str "b"]) :=
    rfl
  have hkey : (unary .plus (ident "i" .nowhere) .nowhere).evalWith scope.value = .ok (.num 1) := rfl
  have hpick : memberOf (.list [.str "a", .str "b"]) (.num 1) = .ok (.str "b") :=
    memberOf_of_index hlist hone rfl
  rw [eval, evalWith, evalWith_computed, hname, hobject, hkey]
  simp only [bind, Except.bind, hpick]
  rfl

end Expr

end BranchPaint
