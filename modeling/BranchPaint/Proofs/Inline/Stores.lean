import BranchPaint.Proofs.Inline.Function
import BranchPaint.Proofs.Inline.LoopTest

/-!
# Stores that a loop watches

A store to a name that the test of the loop mentions stays where it is. It is lost all the same if
it stands inside something that is bound: the declaration or the assignment goes, and the store with
it, or comes up again wherever the bound name is read (`Stmt.inline_loses_store`).

Where no watched store stands in a first value or on the right side of an assignment
(`Expr.StoresApart`, `Stmt.StoresApart`), nothing that is bound ever contains one
(`Scope.StoresNone`). Then the watched stores of a loop's body are the same before and after
inlining, in the same order (`Stmt.assigned_inline`), so none is lost and none comes up twice
(`Stmt.count_assigned_inline`).
-/

namespace BranchPaint

/-! ## Stores and texts -/

namespace Expr

/-- Parentheses add characters only. -/
theorem subset_parens (wanted : Bool) (t : String) : t.toList ⊆ (parens wanted t).toList := by
  cases wanted with
  | false => exact List.Subset.refl _
  | true =>
    intro c hc
    simp [parens, hc]

/-- The text of items contains that of each item. -/
theorem text_subset_items {es : List Expr} {e : Expr} (h : e ∈ es) :
    e.text.toList ⊆ (", ".intercalate (itemTexts es)).toList := by
  obtain ⟨first, rest, rfl⟩ : ∃ first rest, es = first :: rest :=
    List.exists_cons_of_ne_nil (List.ne_nil_of_mem h)
  rw [show (", ".intercalate (itemTexts (first :: rest))).toList = Grammar.itemsChars (first ::
      rest) from rfl, Grammar.itemsChars_cons]
  intro c hc
  have hat : c ∈ e.charsAt 1 := subset_parens _ _ hc
  rcases List.mem_cons.1 h with rfl | hmem
  · exact List.mem_append_left _ hat
  · exact List.mem_append_right
      _ (List.mem_flatMap.2 ⟨e, hmem, List.mem_cons_of_mem _ (List.mem_cons_of_mem _ hat)⟩)

/-- The text of an expression contains that of every expression right inside it. -/
theorem text_child_subset {e c : Expr} (h : c ∈ e.children) : c.text.toList ⊆ e.text.toList := by
  intro ch hch
  have hparens (wanted : Bool) : ch ∈ (parens wanted c.text).toList := subset_parens wanted _ hch
  cases e with
  | list es s =>
    have hitems := text_subset_items (show c ∈ es from h) hch
    simp only [text, String.toList_append, List.mem_append]
    exact .inl (.inr hitems)
  | sequence es s => exact text_subset_items (show c ∈ es from h) hch
  | call f args s =>
    simp only [text, String.toList_append, List.mem_append]
    rcases List.mem_cons.1 h with rfl | hmem
    · exact .inl (.inl (.inl (hparens _)))
    · exact .inl (.inr (text_subset_items hmem hch))
  | member o p computed s =>
    cases computed with
    | true =>
      simp only [text, if_true, String.toList_append, List.mem_append]
      rcases List.mem_cons.1 h with rfl | hmem
      · exact .inl (.inl (.inl (hparens _)))
      · rw [← List.mem_singleton.1 hmem]
        exact .inl (.inr hch)
    | false =>
      obtain rfl : c = o := List.mem_singleton.1 h
      simp only [text, Bool.false_eq_true, if_false, String.toList_append, List.mem_append]
      exact .inl (.inl (hparens _))
  | binary op l r s | logical op l r s | assign op l r s =>
    simp only [text, String.toList_append, List.mem_append]
    rcases List.mem_cons.1 h with rfl | hmem
    · exact .inl (.inl (.inl (.inl (hparens _))))
    · rw [← List.mem_singleton.1 hmem]
      exact .inr (hparens _)
  | unary op a s =>
    obtain rfl : c = a := List.mem_singleton.1 h
    simp only [text, String.toList_append, List.mem_append]
    exact .inr (hparens _)
  | update op before a s =>
    obtain rfl : c = a := List.mem_singleton.1 h
    cases before with
    | true =>
      simp only [text, if_true, String.toList_append, List.mem_append]
      exact .inr (hparens _)
    | false =>
      simp only [text, Bool.false_eq_true, if_false, String.toList_append, List.mem_append]
      exact .inl (hparens _)
  | ternary d t e s =>
    simp only [children, List.mem_cons, List.not_mem_nil, or_false] at h
    simp only [text, String.toList_append, List.mem_append]
    rcases h with rfl | rfl | rfl
    · exact .inl (.inl (.inl (.inl (hparens _))))
    · exact .inl (.inl (.inr (hparens _)))
    · exact .inr (hparens _)
  | _ => cases h

/-- The text of an expression with a store in it contains a blank. -/
theorem blank_mem_text_of_assigned {e : Expr} {n : String} (h : n ∈ e.assigned) :
    ' ' ∈ e.text.toList := by
  induction e using Expr.induction with
  | step e ih =>
  rcases assigned_cases h with ⟨op, ns, v, s, rfl⟩ | ⟨c, hc, hmem⟩
  · simp [text]
  · exact text_child_subset hc (ih c hc hmem)

/-- An expression without a blank in its text stores nothing. -/
theorem assigned_eq_nil_of_text {e : Expr} (h : ' ' ∉ e.text.toList) : e.assigned = [] :=
  List.eq_nil_iff_forall_not_mem.2 fun _ hn => h (blank_mem_text_of_assigned hn)

end Expr

/-- An identifier has no blank. -/
theorem blank_not_mem_identifier {n : String} (h : IsIdentifier n) : ' ' ∉ n.toList := by
  obtain ⟨⟨c, cs, htext, hc, hcs⟩, -⟩ := h
  rw [htext]
  intro hmem
  rcases List.mem_cons.1 hmem with rfl | hmem
  · exact absurd hc (by decide)
  · exact absurd (hcs _ hmem) (by decide)

/-! ## Watched stores in expressions -/

/-- The stores in an expression to names that are watched, in order. -/
def Expr.storesTo (watched : String → Bool) (e : Expr) : List String := e.assigned.filter watched

/-- Nothing that is bound stores to a watched name. -/
structure Scope.StoresNone (watched : String → Bool) (scope : Scope) : Prop where
  named : scope.Named
  none : ∀ x ∈ scope.entries, x.2.storesTo watched = []

namespace Scope.StoresNone

variable {watched : String → Bool} {scope : Scope}

/-- What a name is bound to stores to no watched name. -/
theorem lookup? (h : scope.StoresNone watched) {n : String} {e : Expr}
    (hlookup : scope.lookup? n = some e) : e.storesTo watched = [] :=
  h.none _ (mem_entries_of_lookup? hlookup)

/-- Nor does what a name is replaced by. -/
theorem getD (h : scope.StoresNone watched) (n : String) (s : Span) :
    ((scope.lookup? n).getD (.ident n s)).storesTo watched = [] := by
  cases hlookup : scope.lookup? n with
  | none => rfl
  | some e => exact h.lookup? hlookup

/-- Binding what stores to no watched name keeps the scope so. -/
theorem bind (h : scope.StoresNone watched) {n : String} (hn : IsIdentifier n) {e : Expr}
    (he : e.storesTo watched = []) : (scope.bind n e).StoresNone watched :=
  ⟨h.named.bind hn e, List.forall_mem_cons.2 ⟨he, h.none⟩⟩

/-- What an assignment binds stores to no watched name if its right side does not. -/
theorem stored (h : scope.StoresNone watched) (op : AssignOp) (n : String) (span : Span) {v : Expr}
    (hv : v.storesTo watched = []) : (scope.stored n op v span).storesTo watched = [] := by
  cases op with
  | assign => exact hv
  | compound b =>
    have hold := h.getD n .nowhere
    unfold Expr.storesTo at hold hv ⊢
    rw [Scope.stored, Expr.assigned_binary, List.filter_append, hv, List.append_nil]
    exact hold

/-- Neither an element that is picked nor the member in its place stores to a watched name. -/
theorem element? (h : scope.StoresNone watched) {o p e : Expr}
    (helement : scope.element? o.text p.text = some e) :
    e.storesTo watched = [] ∧ o.assigned = [] ∧ p.assigned = [] := by
  obtain ⟨es, s, i, hlookup, hindex, hi⟩ := element?_eq_some helement
  refine ⟨List.filter_eq_nil_iff.2 fun n hn => ?_, ?_, ?_⟩
  · have hes : n ∈ (Expr.list es s).assigned :=
      Expr.mem_assigned_of_child (List.mem_of_getElem? hi) hn
    exact List.filter_eq_nil_iff.1 (h.lookup? hlookup) n hes
  · exact Expr.assigned_eq_nil_of_text
      (blank_not_mem_identifier (h.named _ (mem_entries_of_lookup? hlookup)))
  · exact Expr.assigned_eq_nil_of_text (Expr.not_mem_of_index hindex (by decide) (by decide))

end Scope.StoresNone

namespace Expr

/-- The value that an assignment to a name binds. -/
def boundValue : Expr → Option Expr
  | .assign _ (.ident _ _) v _ => some v
  | _ => none

/-- No watched store stands on the right side of an assignment to a name. -/
def StoresApart (watched : String → Bool) (e : Expr) : Prop :=
  ∀ v ∈ e.boundValue, v.storesTo watched = []

instance (watched : String → Bool) : DecidablePred (StoresApart watched) := fun e =>
  inferInstanceAs (Decidable (∀ v ∈ e.boundValue, v.storesTo watched = []))

/-- Inlining keeps the watched stores of an expression, in order, and binds none. -/
structure KeepsStores (watched : String → Bool) (test : LoopTest) (e : Expr) (scope : Scope) :
    Prop where
  same : (e.inline test scope).1.storesTo watched = e.storesTo watched
  behind : (e.inline test scope).2.StoresNone watched

/-- What is kept in watched names: each store of the expression to one of them. -/
def Keeps (watched : String → Bool) (test : LoopTest) (e : Expr) : Prop :=
  ∀ n ∈ e.assigned, watched n = true → test.observes n = true

/-- What is kept in an expression is kept in its operands. -/
theorem Keeps.child {watched : String → Bool} {test : LoopTest} {e c : Expr}
    (h : e.Keeps watched test) (hc : c ∈ e.children) : c.Keeps watched test :=
  fun n hn => h n (mem_assigned_of_child hc hn)

mutual

/-- Inlining keeps the watched stores of an expression, in order. -/
theorem keepsStores {watched : String → Bool} {test : LoopTest} :
    (e : Expr) → e.Forall Formed → e.Forall (StoresApart watched) →
    e.Keeps watched test → {scope : Scope} → scope.StoresNone watched →
      KeepsStores watched test e scope
  | .bool _ _, hf, ha, hk, scope, hs | .num _ _, hf, ha, hk, scope, hs
  | .str _ _, hf, ha, hk, scope, hs
  | .null _, hf, ha, hk, scope, hs | .update _ _ _ _, hf, ha, hk, scope, hs => ⟨rfl, hs⟩
  | .ident n s, hf, ha, hk, scope, hs => ⟨hs.getD n s, hs⟩
  | .list es s, hf, ha, hk, scope, hs => by
    obtain ⟨hsame, hs⟩ := keepsStoresAll es hf.inside ha.inside (fun e he => hk.child he) hs
    refine ⟨?_, hs⟩
    simp only [storesTo, inline, assigned_list, List.filter_flatMap]
    exact hsame
  | .sequence es s, hf, ha, hk, scope, hs => by
    obtain ⟨hsame, hs⟩ := keepsStoresAll es hf.inside ha.inside (fun e he => hk.child he) hs
    refine ⟨?_, hs⟩
    simp only [storesTo, inline, assigned_sequence, List.filter_flatMap]
    exact hsame
  | .member o p false s, hf, ha, hk, scope, hs => by
    have ho : o ∈ (member o p false s).children := List.mem_singleton_self o
    obtain ⟨hsame, hs⟩ := keepsStores o (hf.inside o ho) (ha.inside o ho) (hk.child ho) hs
    exact ⟨hsame, hs⟩
  | .member o p true s, hf, ha, hk, scope, hs => by
    have ho : o ∈ (member o p true s).children := List.mem_cons_self
    have hp : p ∈ (member o p true s).children := by simp [children]
    obtain ⟨hsame, hs⟩ := keepsStores p (hf.inside p hp) (ha.inside p hp) (hk.child hp) hs
    cases helement : (p.inline test scope).2.element? o.text (p.inline test scope).1.text with
    | some e =>
      obtain ⟨he, hassigned, hassigned'⟩ := hs.element? helement
      simp only [storesTo, hassigned', List.filter_nil] at hsame
      refine ⟨?_, by simpa only [inline, helement] using hs⟩
      simp only [inline, helement, he]
      simp only [storesTo, assigned_computed, List.filter_append, hassigned, ← hsame,
        List.filter_nil, List.append_nil]
    | none =>
      obtain ⟨hsameo, hs⟩ := keepsStores o (hf.inside o ho) (ha.inside o ho) (hk.child ho) hs
      refine ⟨?_, by simpa only [inline, helement] using hs⟩
      simp only [storesTo, inline, helement, assigned_computed, List.filter_append]
        at hsame hsameo ⊢
      rw [hsame, hsameo]
  | .binary op l r s, hf, ha, hk, scope, hs => by
    have hl : l ∈ (binary op l r s).children := List.mem_cons_self
    have hr : r ∈ (binary op l r s).children := by simp [children]
    obtain ⟨hsame, hs⟩ := keepsStores l (hf.inside l hl) (ha.inside l hl) (hk.child hl) hs
    obtain ⟨hsame', hs⟩ := keepsStores r (hf.inside r hr) (ha.inside r hr) (hk.child hr) hs
    refine ⟨?_, hs⟩
    simp only [storesTo, inline, assigned_binary, List.filter_append] at hsame hsame' ⊢
    rw [hsame, hsame']
  | .logical op l r s, hf, ha, hk, scope, hs => by
    have hl : l ∈ (logical op l r s).children := List.mem_cons_self
    have hr : r ∈ (logical op l r s).children := by simp [children]
    obtain ⟨hsame, hs⟩ := keepsStores l (hf.inside l hl) (ha.inside l hl) (hk.child hl) hs
    obtain ⟨hsame', hs⟩ := keepsStores r (hf.inside r hr) (ha.inside r hr) (hk.child hr) hs
    refine ⟨?_, hs⟩
    simp only [storesTo, inline, assigned_logical, List.filter_append] at hsame hsame' ⊢
    rw [hsame, hsame']
  | .unary op a s, hf, ha, hk, scope, hs => by
    have hin : a ∈ (unary op a s).children := List.mem_singleton_self a
    obtain ⟨hsame, hs⟩ := keepsStores a (hf.inside a hin) (ha.inside a hin) (hk.child hin) hs
    exact ⟨hsame, hs⟩
  | .call f args s, hf, ha, hk, scope, hs => by
    have hin : f ∈ (call f args s).children := List.mem_cons_self
    have hargs {e : Expr} (he : e ∈ args) : e ∈ (call f args s).children :=
      List.mem_cons_of_mem f he
    obtain ⟨hsame, hs⟩ := keepsStores f (hf.inside f hin) (ha.inside f hin) (hk.child hin) hs
    obtain ⟨hsame', hs⟩ := keepsStoresAll args (fun e he => hf.inside e (hargs he))
      (fun e he => ha.inside e (hargs he)) (fun e he => hk.child (hargs he)) hs
    refine ⟨?_, hs⟩
    simp only [storesTo, inline, assigned_call, List.filter_append, List.filter_flatMap]
    exact congrArg₂ (· ++ ·) hsame hsame'
  | .ternary c t e s, hf, ha, hk, scope, hs => by
    have hc : c ∈ (ternary c t e s).children := List.mem_cons_self
    have ht : t ∈ (ternary c t e s).children := by simp [children]
    have he : e ∈ (ternary c t e s).children := by simp [children]
    obtain ⟨hsame, hs⟩ := keepsStores c (hf.inside c hc) (ha.inside c hc) (hk.child hc) hs
    obtain ⟨hsame', hs⟩ := keepsStores t (hf.inside t ht) (ha.inside t ht) (hk.child ht) hs
    obtain ⟨hsame'', hs⟩ := keepsStores e (hf.inside e he) (ha.inside e he) (hk.child he) hs
    refine ⟨?_, hs⟩
    simp only [storesTo, inline, assigned_ternary, List.filter_append] at hsame hsame' hsame'' ⊢
    rw [hsame, hsame', hsame'']
  | .assign op t v s, hf, ha, hk, scope, hs => by
    have hv : v ∈ (assign op t v s).children := by simp [children]
    have hin : t ∈ (assign op t v s).children := List.mem_cons_self
    obtain ⟨hsame, hs⟩ := keepsStores v (hf.inside v hv) (ha.inside v hv) (hk.child hv) hs
    cases t with
    | ident n ns =>
      have hnone : v.storesTo watched = [] := ha.here v rfl
      have hvalue : (v.inline test scope).1.storesTo watched = [] := hsame.trans hnone
      have hstored := hs.stored op n s hvalue
      refine ⟨?_, ?_⟩
      · simp only [inline, Scope.store_eq]
        split
        · simp only [storesTo, Assignment.expr, assigned_assign] at hsame ⊢
          rw [List.filter_cons, List.filter_cons, hsame]
        · rename_i hkept
          -- a store that goes is not watched
          have hn : watched n = false := by
            by_contra hn
            exact hkept (hk n List.mem_cons_self (Bool.eq_true_of_not_eq_false hn))
          simp only [storesTo, Assignment.expr, assigned_assign, List.filter_cons, hn] at hnone ⊢
          exact hstored.trans hnone.symm
      · simp only [inline, Scope.store_eq]
        exact hs.bind (hf.inside _ hin).here hstored
    | member o p computed ms =>
      cases computed with
      | false =>
        refine ⟨?_, hs⟩
        simp only [storesTo, inline, assigned_store, ownStore, List.filter_append] at hsame ⊢
        rw [hsame]
      | true =>
        have hp : p ∈ (member o p true ms).children := by simp [children]
        obtain ⟨hsame', hs⟩ := keepsStores p ((hf.inside _ hin).inside p hp)
          ((ha.inside _ hin).inside p hp) ((hk.child hin).child hp) hs
        refine ⟨?_, hs⟩
        simp only [storesTo, inline, assigned_store, ownStore, assigned_computed,
          List.filter_append] at hsame hsame' ⊢
        rw [hsame, hsame']
    | _ =>
      refine ⟨?_, hs⟩
      simp only [storesTo, inline, assigned_store, ownStore, List.filter_append] at hsame ⊢
      rw [hsame]

/-- The same for expressions in a row. -/
theorem keepsStoresAll {watched : String → Bool} {test : LoopTest} :
    (es : List Expr) → (∀ e ∈ es, e.Forall Formed) →
    (∀ e ∈ es, e.Forall (StoresApart watched)) → (∀ e ∈ es, e.Keeps watched test) →
      {scope : Scope} →
    scope.StoresNone watched → (inlineAll test es scope).1.flatMap (storesTo watched) =
      es.flatMap (storesTo watched) ∧
      (inlineAll test es scope).2.StoresNone watched
  | [], hf, ha, hk, scope, hs => ⟨rfl, hs⟩
  | e :: es, hf, ha, hk, scope, hs => by
    obtain ⟨hf, hfs⟩ := List.forall_mem_cons.1 hf
    obtain ⟨ha, has⟩ := List.forall_mem_cons.1 ha
    obtain ⟨hk, hks⟩ := List.forall_mem_cons.1 hk
    obtain ⟨hsame, hs⟩ := keepsStores e hf ha hk hs
    obtain ⟨hsame', hs⟩ := keepsStoresAll es hfs has hks hs
    refine ⟨?_, hs⟩
    simp only [inlineAll, List.flatMap_cons, hsame, hsame']

end

end Expr

/-! ## Watched stores in the body of a loop -/

mutual

/-- The names that the assignments in a statement store to, at any depth. -/
def Stmt.assigned : Stmt → List String
  | .function _ _ body _ | .block body _ => assignedAll body
  | .declare _ ds _ => (ds.flatMap Declarator.exprs).flatMap Expr.assigned
  | .branch t c none _ => t.assigned ++ c.assigned
  | .branch t c (some a) _ => t.assigned ++ (c.assigned ++ a.assigned)
  | .whileLoop t body _ => t.assigned ++ body.assigned
  | .forLoop i t u body s =>
    (Stmt.forLoop i t u body s).exprs.flatMap Expr.assigned ++ body.assigned
  | .ret v _ => v.toList.flatMap Expr.assigned
  | .expr e _ => e.assigned
  | .breakLoop _ | .continueLoop _ | .empty _ => []

/-- The names that the assignments in statements store to. -/
def Stmt.assignedAll : List Stmt → List String
  | [] => []
  | s :: ss => s.assigned ++ assignedAll ss

end

/-- What holds at each statement in the body of a loop without inner loops and functions whose first
values hold no watched store. -/
def Stmt.StoresApart (watched : String → Bool) : Stmt → Prop
  | .declare _ ds _ => ∀ e ∈ ds.flatMap Declarator.exprs, e.storesTo watched = []
  | .whileLoop _ _ _ | .forLoop _ _ _ _ _ | .function _ _ _ _ => False
  | .branch _ _ _ _ | .ret _ _ | .block _ _ | .expr _ _ | .breakLoop _ | .continueLoop _
  | .empty _ => True

instance (watched : String → Bool) : DecidablePred (Stmt.StoresApart watched) := fun s =>
  match s with
  | .declare _ ds _ =>
    inferInstanceAs (Decidable (∀ e ∈ ds.flatMap Declarator.exprs, e.storesTo watched = []))
  | .whileLoop _ _ _ | .forLoop _ _ _ _ _ | .function _ _ _ _ => inferInstanceAs (Decidable False)
  | .branch _ _ _ _ | .ret _ _ | .block _ _ | .expr _ _ | .breakLoop _
  | .continueLoop _ | .empty _ =>
    inferInstanceAs (Decidable True)

/-- Declared names are bound to nothing that stores to a watched name. -/
theorem Scope.StoresNone.declareAll {watched : String → Bool} {test : LoopTest}
    (htest : ∀ n, watched n = true → test.observes n = true) {ds : List Declarator}
    (hnames : ∀ d ∈ ds, IsIdentifier d.name)
    (hf : ∀ e ∈ ds.flatMap Declarator.exprs, e.Forall Expr.Formed)
    (ha : ∀ e ∈ ds.flatMap Declarator.exprs, e.Forall (Expr.StoresApart watched))
    (hnone : ∀ e ∈ ds.flatMap Declarator.exprs, e.storesTo watched = []) {scope : Scope}
    (hs : scope.StoresNone watched) : (scope.declareAll test ds).StoresNone watched := by
  induction ds generalizing scope with
  | nil => exact hs
  | cons d ds ih =>
    obtain ⟨hname, hlater⟩ := List.forall_mem_cons.1 hnames
    have hmore {P : Expr → Prop} (h : ∀ e ∈ (d :: ds).flatMap Declarator.exprs, P e) :
        ∀ e ∈ ds.flatMap Declarator.exprs, P e :=
      fun e he => h e (by simp [he])
    obtain ⟨name, _ | e, span⟩ := d
    · exact ih hlater (hmore hf) (hmore ha) (hmore hnone) (hs.bind hname rfl)
    · have he : e ∈ (⟨name, some e, span⟩ :: ds : List Declarator).flatMap Declarator.exprs := by
        simp [Declarator.exprs]
      obtain ⟨hsame, hs⟩ := e.keepsStores (hf e he) (ha e he) (fun n _ hn => htest n hn) hs
      exact ih hlater (hmore hf) (hmore ha) (hmore hnone) (hs.bind hname (hsame.trans (hnone e he)))

/-- What an absorbed assignment leaves is bound, so it stores to no watched name. -/
theorem storesTo_of_absorbed {watched : String → Bool} {test : LoopTest}
    {op : AssignOp} {t v f : Expr} {s : Span} {scope : Scope}
    (h : (Expr.inlineAssignment test op t v s scope).1 = .absorbed f)
    (hs : (Expr.inlineAssignment test op t v s scope).2.StoresNone watched) :
    f.storesTo watched = [] := by
  cases t with
  | ident n ns =>
    simp only [Expr.inlineAssignment, Scope.store_eq] at h hs
    split at h
    · cases h
    · cases h
      exact hs.lookup? (Scope.lookup?_bind_self _ n _)
  | _ => cases h

namespace Stmt

/-- The empty statement stores nothing. -/
theorem assigned_of_isEmpty {s : Stmt} (h : s.isEmpty = true) : s.assigned = [] := by
  cases s with
  | empty span => rfl
  | _ => cases h

mutual

/-- Inlining keeps the watched stores of a statement, in order, and binds none. -/
theorem assigned_inline {watched : String → Bool} {test : LoopTest}
    (htest : ∀ n, watched n = true → test.observes n = true) :
    (s : Stmt) → s.Forall Formed → s.ForallExpr Expr.Formed → s.Forall (StoresApart watched) →
    s.ForallExpr (Expr.StoresApart watched) → {scope : Scope} → scope.StoresNone watched →
    (s.inline test scope).1.assigned.filter watched = s.assigned.filter watched ∧
      (s.inline test scope).2.StoresNone watched
  | .declare word ds s, hf, he, ha, hd, scope, hs => by
    refine ⟨?_, hs.declareAll htest hf.here.2 he.here hd.here ha.here⟩
    have hnone : (ds.flatMap Declarator.exprs).flatMap (Expr.storesTo watched) = [] :=
      List.flatMap_eq_nil_iff.2 ha.here
    simp only [Stmt.inline, assigned, List.filter_flatMap]
    exact hnone.symm
  | .expr e s, hf, he, ha, hd, scope, hs => by
    have hin : e ∈ (Stmt.expr e s).exprs := List.mem_singleton_self e
    obtain ⟨hsame, hs⟩ :=
      e.keepsStores (he.here e hin) (hd.here e hin) (fun n _ hn => htest n hn) hs
    cases e with
    | assign op t v as =>
      rw [← Expr.inlineAssignment_expr] at hsame hs
      rw [inline_assign]
      refine ⟨?_, hs⟩
      cases hresult : (Expr.inlineAssignment test op t v as scope).1 with
      | kept f =>
        rw [hresult] at hsame
        exact hsame
      | absorbed f =>
        rw [hresult] at hsame
        exact (storesTo_of_absorbed hresult hs).symm.trans hsame
    | _ => exact ⟨hsame, hs⟩
  | .ret none s, hf, he, ha, hd, scope, hs => ⟨rfl, hs⟩
  | .ret (some e) s, hf, he, ha, hd, scope, hs => by
    have hin : e ∈ (Stmt.ret (some e) s).exprs := List.mem_singleton_self e
    obtain ⟨hsame, hs⟩ :=
      e.keepsStores (he.here e hin) (hd.here e hin) (fun n _ hn => htest n hn) hs
    refine ⟨?_, hs⟩
    simp only [Stmt.inline, assigned, Option.toList, List.flatMap_cons, List.flatMap_nil,
      List.append_nil]
    exact hsame
  | .branch t c none s, hf, he, ha, hd, scope, hs => by
    have hin : t ∈ (Stmt.branch t c none s).exprs := List.mem_singleton_self t
    have hc : c ∈ (Stmt.branch t c none s).children := List.mem_cons_self
    obtain ⟨hsame, hs⟩ :=
      t.keepsStores (he.here t hin) (hd.here t hin) (fun n _ hn => htest n hn) hs
    obtain ⟨hsamec, -⟩ := assigned_inline htest c (hf.inside c hc) (he.inside c hc) (ha.inside c hc)
      (hd.inside c hc) hs
    refine ⟨?_, hs⟩
    simp only [Stmt.inline, assigned, List.filter_append]
    exact congrArg₂ (· ++ ·) hsame hsamec
  | .branch t c (some a) s, hf, he, ha, hd, scope, hs => by
    have hin : t ∈ (Stmt.branch t c (some a) s).exprs := List.mem_singleton_self t
    have hc : c ∈ (Stmt.branch t c (some a) s).children := List.mem_cons_self
    have hina : a ∈ (Stmt.branch t c (some a) s).children := by simp [children]
    obtain ⟨hsame, hs⟩ :=
      t.keepsStores (he.here t hin) (hd.here t hin) (fun n _ hn => htest n hn) hs
    obtain ⟨hsamec, -⟩ := assigned_inline htest c (hf.inside c hc) (he.inside c hc) (ha.inside c hc)
      (hd.inside c hc) hs
    obtain ⟨hsamea, -⟩ := assigned_inline htest a (hf.inside a hina) (he.inside a hina)
      (ha.inside a hina) (hd.inside a hina) hs
    refine ⟨?_, hs⟩
    simp only [Stmt.inline, assigned, List.filter_append]
    exact congrArg₂ (· ++ ·) hsame (congrArg₂ (· ++ ·) hsamec hsamea)
  | .block body s, hf, he, ha, hd, scope, hs =>
    assignedAll_inline htest body hf.inside he.inside ha.inside hd.inside hs
  | .breakLoop s, hf, he, ha, hd, scope, hs | .continueLoop s, hf, he, ha, hd, scope, hs
  | .empty s, hf, he, ha, hd, scope, hs => ⟨rfl, hs⟩
  | .whileLoop _ _ _, hf, he, ha, hd, scope, hs | .forLoop _ _ _ _ _, hf, he, ha, hd, scope, hs
  | .function _ _ _ _, hf, he, ha, hd, scope, hs => ha.here.elim

/-- The same for statements in a row. -/
theorem assignedAll_inline {watched : String → Bool} {test : LoopTest}
    (htest : ∀ n, watched n = true → test.observes n = true) :
    (ss : List Stmt) → (∀ s ∈ ss, s.Forall Formed) → (∀ s ∈ ss, s.ForallExpr Expr.Formed) →
    (∀ s ∈ ss, s.Forall (StoresApart watched)) →
      (∀ s ∈ ss, s.ForallExpr (Expr.StoresApart watched)) → {scope : Scope} →
    scope.StoresNone watched → (assignedAll (inlineAll test ss scope).1).filter watched =
      (assignedAll ss).filter watched ∧
      (inlineAll test ss scope).2.StoresNone watched
  | [], hf, he, ha, hd, scope, hs => ⟨rfl, hs⟩
  | s :: ss, hf, he, ha, hd, scope, hs => by
    obtain ⟨hf, hfs⟩ := List.forall_mem_cons.1 hf
    obtain ⟨he, hes⟩ := List.forall_mem_cons.1 he
    obtain ⟨ha, has⟩ := List.forall_mem_cons.1 ha
    obtain ⟨hd, hds⟩ := List.forall_mem_cons.1 hd
    obtain ⟨hsame, hs⟩ := assigned_inline htest s hf he ha hd hs
    obtain ⟨hsames, hs⟩ := assignedAll_inline htest ss hfs hes has hds hs
    refine ⟨?_, hs⟩
    simp only [inlineAll, assignedAll, List.filter_append, ← hsame, ← hsames]
    split
    · rename_i hempty
      rw [assigned_of_isEmpty hempty]
      rfl
    · rw [assignedAll, List.filter_append]

end

end Stmt

/-- Is the program a single loop whose test and body pass a check? -/
def Program.isLoopWith (check : Expr → Stmt → Bool) (p : Program) : Bool :=
  match p.body with
  | [.whileLoop t body _] => check t body
  | _ => false

/-- A program that passes the check is one loop, and its test and body pass it. -/
theorem Program.exists_of_isLoopWith {check : Expr → Stmt → Bool} {p : Program}
    (h : p.isLoopWith check = true) :
    ∃ t body s s', p = ⟨[.whileLoop t body s], s'⟩ ∧ check t body = true := by
  obtain ⟨ss, span⟩ := p
  unfold isLoopWith at h
  split at h
  · rename_i t body s hbody
    obtain rfl : ss = _ := hbody
    exact ⟨t, body, s, span, rfl, h⟩
  · cases h

namespace Stmt

/-- Watched stores of a loop are neither lost nor doubled: for each name that the inlined test
watches, the inlined body stores to it in as many places as the body. No watched store may stand
inside something that is bound, be it in front of the loop. -/
theorem count_assigned_inline {t : Expr} {body : Stmt} {s : Span} {scope : Scope}
    (hf : (whileLoop t body s).Forall Formed) (he : (whileLoop t body s).ForallExpr Expr.Formed)
    (ha : body.Forall (StoresApart (LoopTest.ofExpr (t.inline (.ofExpr t) scope).1).observes))
    (hd : (whileLoop t body s).ForallExpr
      (Expr.StoresApart (LoopTest.ofExpr (t.inline (.ofExpr t) scope).1).observes))
    (hs : scope.StoresNone (LoopTest.ofExpr (t.inline (.ofExpr t) scope).1).observes)
    (test : LoopTest) :
    ∃ t' body', ((whileLoop t body s).inline test scope).1 = whileLoop t' body' s ∧
      ∀ n, (LoopTest.ofExpr t').observes n = true →
        body'.assigned.count n = body.assigned.count n := by
  have hin : t ∈ (whileLoop t body s).exprs := List.mem_singleton_self t
  have hbody : body ∈ (whileLoop t body s).children := List.mem_singleton_self body
  -- the test itself watches every name that it stores to
  have hkeeps : t.Keeps (LoopTest.ofExpr (t.inline (.ofExpr t) scope).1).observes
      (.ofExpr t) := fun n hn _ =>
    LoopTest.observes_of_mem_mentions (he.here t hin) (Expr.mem_mentions_of_mem_assigned hn)
  have hinside := (t.keepsStores (he.here t hin) (hd.here t hin) hkeeps hs).behind
  obtain ⟨hsame, -⟩ := assigned_inline (fun _ hn => hn) body (hf.inside body hbody)
    (he.inside body hbody) ha (hd.inside body hbody) hinside
  refine ⟨_, _, rfl, fun n hn => ?_⟩
  rw [← List.count_filter hn, hsame, List.count_filter hn]

/-- A loop that stores to both names of its test, in a statement of its own and in an argument,
where `k` is bound. -/
theorem count_assigned_inline_argument :
    ∃ t body s s', Program.parse "while (i < n) \x7b i = i + k; g(n = k); \x7d" =
      .ok ⟨[whileLoop t body s], s'⟩ ∧
    ∃ t' body', ((whileLoop t body s).inline .none ⟨[("k", .str "x" .nowhere)]⟩).1 =
      whileLoop t' body' s ∧
      ∀ n, (LoopTest.ofExpr t').observes n = true →
        body'.assigned.count n = body.assigned.count n := by
  let scope : Scope := ⟨[("k", .str "x" .nowhere)]⟩
  let watched (t : Expr) : String → Bool :=
    (LoopTest.ofExpr (t.inline (.ofExpr t) scope).1).observes
  obtain ⟨p, hp, hcheck⟩ := Program.exists_parse "while (i < n) \x7b i = i + k; g(n = k); \x7d"
    (fun p => p.isLoopWith (fun t body => decide (body.Forall (StoresApart (watched t)) ∧
      body.ForallExpr (Expr.StoresApart (watched t)) ∧
      t.Forall (Expr.StoresApart (watched t)))) = true) (by decide +kernel)
  obtain ⟨t, body, s, s', rfl, hcheck⟩ := Program.exists_of_isLoopWith hcheck
  obtain ⟨ha, hd, ht⟩ := of_decide_eq_true hcheck
  obtain ⟨hf, he⟩ := Program.formed_of_parse hp
  have hs : scope.StoresNone (watched t) :=
    ⟨List.forall_mem_singleton.2 (by decide), List.forall_mem_singleton.2 rfl⟩
  exact ⟨t, body, s, s', hp,
    count_assigned_inline (List.forall_mem_singleton.1 hf) (List.forall_mem_singleton.1 he) ha
      (.node (List.forall_mem_singleton.2 ht) (List.forall_mem_singleton.2 hd)) hs .none⟩

/-- The text `while (i < n) { let t = i = i + 'x'; }`: the loop watches `i`, and the only store to
it goes with the declaration. -/
theorem inline_loses_store :
    let i : Expr := .ident "i" .nowhere
    let sum : Expr := .binary .add i (.str "x" .nowhere) .nowhere
    let body : Stmt := .block
      [.declare .letWord [⟨"t", some (.assign .assign i sum .nowhere), .nowhere⟩] .nowhere] .nowhere
    ∃ t' body',
      ((whileLoop (.binary .lt i (.ident "n" .nowhere) .nowhere) body .nowhere).inline .none
        .empty).1 = whileLoop t' body' .nowhere ∧
      (LoopTest.ofExpr t').observes "i" = true ∧
      body.assigned.count "i" = 1 ∧ body'.assigned.count "i" = 0 :=
  ⟨_, _, rfl, by decide +kernel, by decide +kernel, by decide +kernel⟩

end Stmt

end BranchPaint
