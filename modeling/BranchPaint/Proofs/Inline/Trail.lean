import BranchPaint.Proofs.Inline.Isolation

/-!
# The steps of inlining

Inlining looks names up in a scope and binds names there. A trail is the list of these steps on the
way to one place of a program (`Program.Reaches`), and the scope at that place is found by playing
the bindings back (`Scope.after`). Branches, rounds of loops and bodies of functions work on copies
of the scope, so there are as many trails as there are ends of them (`Stmt.trails`). The scope that
inlining leaves is always the one that its steps play back to (`Scope.Traced.eq_after`).

The trails say where the names come from that are read in bound expressions: each was read on the
way, at a time when it was not bound or bound to itself, or put down for a missing value (`Drawn`).
That is what one step keeps (`Scope.Draws.stored`, `Scope.Draws.bind`), what inlining an expression
keeps (`Expr.inline_draws`), and hence what holds on all trails through a program
(`Program.Reaches.traced`).
-/

namespace BranchPaint

/-! ## Names that are read -/

namespace Expr

mutual

/-- The names that are read in an expression: those that stand in it, but for operands of steps by
one and targets of stores, of which only an index is read. -/
def reads : Expr → List String
  | .ident n _ => [n]
  | .assign _ (.member _ p true _) v _ => p.reads ++ v.reads
  | .assign _ _ v _ => v.reads
  | .member o _ false _ => o.reads
  | .member o p true _ => o.reads ++ p.reads
  | .binary _ l r _ | .logical _ l r _ => l.reads ++ r.reads
  | .unary _ a _ => a.reads
  | .list es _ | .sequence es _ => readsAll es
  | .call f args _ => f.reads ++ readsAll args
  | .ternary c t e _ => c.reads ++ (t.reads ++ e.reads)
  | .update _ _ _ _ | .bool _ _ | .num _ _ | .str _ _ | .null _ => []

/-- The names that are read in expressions. -/
def readsAll : List Expr → List String
  | [] => []
  | e :: es => e.reads ++ readsAll es

end

/-- Expressions in a row read what each of them reads, in order. -/
theorem readsAll_eq (es : List Expr) : readsAll es = es.flatMap reads := by
  induction es with
  | nil => rfl
  | cons e es ih => rw [readsAll, ih, List.flatMap_cons]

/-- The expression is this name. -/
def IsName (n : String) (e : Expr) : Prop := ∃ s, e = .ident n s

instance (n : String) : DecidablePred (IsName n) := fun e =>
  match e with
  | .ident m s => decidable_of_iff (m = n) ⟨fun h => h ▸ ⟨s, rfl⟩, fun ⟨_, h⟩ => by cases h; rfl⟩
  | .bool _ _ | .num _ _ | .str _ _ | .null _ | .list _ _ | .member _ _ _ _ | .call _ _ _
  | .binary _ _ _ _ | .logical _ _ _ _
  | .unary _ _ _ | .update _ _ _ _ | .assign _ _ _ _ | .ternary _ _ _ _
  | .sequence _ _ => isFalse nofun

/-- A name is that name. -/
theorem isName_name (n : String) : (name n).IsName n := ⟨.nowhere, rfl⟩

end Expr

/-- The name is not bound, or bound to itself. -/
def Scope.Stands (scope : Scope) (n : String) : Prop := ∀ e, scope.lookup? n = some e → e.IsName n

/-! ## Trails -/

/-- What inlining does with the scope. -/
inductive Scope.Step where
  /-- The name is looked up. -/
  | read (name : String)
  /-- The name `undefined` is put down for a value that is missing. -/
  | undefined
  /-- The name is bound. -/
  | bind (name : String) (e : Expr)

/-- The scope behind the steps. -/
def Scope.after (scope : Scope) : List Scope.Step → Scope
  | [] => scope
  | .bind n e :: t => (scope.bind n e).after t
  | .read _ :: t | .undefined :: t => scope.after t

/-- A compound assignment looks its name up. -/
def AssignOp.steps (n : String) : AssignOp → List Scope.Step
  | .assign => []
  | .compound _ => [.read n]

mutual

/-- The steps of inlining an expression. -/
def Expr.steps (test : LoopTest) : Expr → Scope → List Scope.Step
  | .ident n _, _ => [.read n]
  | .member o _ false _, scope => o.steps test scope
  | .member o p true _, scope =>
    p.steps test scope ++
      if ((p.inline test scope).2.element? o.text (p.inline test scope).1.text).isSome then []
      else o.steps test (p.inline test scope).2
  | .binary _ l r _, scope | .logical _ l r _, scope =>
    l.steps test scope ++ r.steps test (l.inline test scope).2
  | .unary _ a _, scope => a.steps test scope
  | .list es _, scope | .sequence es _, scope => stepsAll test es scope
  | .call f args _, scope => f.steps test scope ++ stepsAll test args (f.inline test scope).2
  | .ternary c t e _, scope =>
    c.steps test scope ++ (t.steps test (c.inline test scope).2 ++
      e.steps test (t.inline test (c.inline test scope).2).2)
  | .assign op (.ident n _) v s, scope =>
    v.steps test scope ++
      (op.steps n ++ [.bind n ((v.inline test scope).2.stored n op (v.inline test scope).1 s)])
  | .assign _ (.member _ p true _) v _, scope =>
    v.steps test scope ++ p.steps test (v.inline test scope).2
  | .assign _ _ v _, scope => v.steps test scope
  | .update _ _ _ _, _ | .bool _ _, _ | .num _ _, _ | .str _ _, _ | .null _, _ => []

/-- The steps of inlining expressions one after the other. -/
def Expr.stepsAll (test : LoopTest) : List Expr → Scope → List Scope.Step
  | [], _ => []
  | e :: es, scope => e.steps test scope ++ stepsAll test es (e.inline test scope).2

end

/-- The steps of declaring names. -/
def Declarator.steps (test : LoopTest) : List Declarator → Scope → List Scope.Step
  | [], _ => []
  | ⟨n, some e, _⟩ :: ds, scope =>
    e.steps test scope ++ .bind n (e.inline test scope).1 ::
      Declarator.steps test ds ((e.inline test scope).2.bind n (e.inline test scope).1)
  | ⟨n, none, _⟩ :: ds, scope =>
    .undefined :: .bind n (.name "undefined") :: Declarator.steps test ds
      (scope.bind n (.name "undefined"))

namespace Stmt

mutual

/-- The steps of inlining a statement that concern the scope around it. -/
def steps (test : LoopTest) : Stmt → Scope → List Scope.Step
  | .declare _ ds _, scope => Declarator.steps test ds scope
  | .expr e _, scope | .ret (some e) _, scope => e.steps test scope
  | .branch t _ _ _, scope => t.steps test scope
  | .block body _, scope => stepsAll test body scope
  | .function _ _ _ _, _ | .whileLoop _ _ _, _ | .forLoop _ _ _ _ _, _ | .ret none _, _
  | .breakLoop _, _ | .continueLoop _, _
  | .empty _, _ => []

/-- The steps of inlining statements that concern the scope around them. -/
def stepsAll (test : LoopTest) : List Stmt → Scope → List Scope.Step
  | [], _ => []
  | s :: ss, scope => s.steps test scope ++ stepsAll test ss (s.inline test scope).2

end

mutual

/-- The trails that go into a statement, each to the end of one of the lists, branches or bodies in
it. -/
def trails (test : LoopTest) : Stmt → Scope → List (List Scope.Step)
  | .function _ ps body _, scope =>
    (trailsAll .none body (scope.bindOpaque ps)).map (ps.map (fun n => .bind n (.name n)) ++ ·)
  | .whileLoop t body _, scope =>
    (body.trails (.ofExpr (t.inline (.ofExpr t) scope).1) (t.inline (.ofExpr t) scope).2).map
      (t.steps (.ofExpr t) scope ++ ·)
  | .branch t c none _, scope =>
    (c.trails test (t.inline test scope).2).map (t.steps test scope ++ ·)
  | .branch t c (some a) _, scope =>
    (c.trails test (t.inline test scope).2 ++ a.trails test (t.inline test scope).2).map
      (t.steps test scope ++ ·)
  | .block body _, scope => trailsAll test body scope
  | s, scope => [s.steps test scope]

/-- The trails that go into statements, and the one that goes to their end. -/
def trailsAll (test : LoopTest) : List Stmt → Scope → List (List Scope.Step)
  | [], _ => [[]]
  | s :: ss, scope => s.trails test scope ++ (trailsAll test ss (s.inline test scope).2).map
    (s.steps test scope ++ ·)

end

end Stmt

/-- While the program is inlined, a scope is built by these steps. -/
def Program.Reaches (p : Program) (t : List Scope.Step) : Prop :=
  ∃ trail ∈ Stmt.trailsAll .none p.body .empty, t <+: trail

/-! ## Playing back -/

namespace Scope

variable {n k : String} {v : Expr}

/-- Steps are taken one after the other. -/
theorem after_append (scope : Scope) (t u : List Scope.Step) :
    scope.after (t ++ u) = (scope.after t).after u := by
  induction t generalizing scope with
  | nil => rfl
  | cons x t ih =>
    cases x
    all_goals exact ih _

/-- What is bound was bound on the way, or before. -/
theorem lookup?_after {scope : Scope} {t : List Scope.Step}
    (h : (scope.after t).lookup? k = some v) :
    scope.lookup? k = some v ∨ ∃ before since, t = before ++ .bind k v :: since := by
  induction t generalizing scope with
  | nil => exact .inl h
  | cons x t ih =>
    have hstep : ∀ {scope' : Scope}, scope'.lookup? k = some v ∨
        (∃ before since, t = before ++ .bind k v :: since) →
        scope'.lookup? k = some v ∨ ∃ before since, x :: t = before ++ .bind k v :: since :=
      Or.imp_right fun ⟨before, since, ht⟩ => ⟨x :: before, since, congrArg (x :: ·) ht⟩
    cases x with
    | read m | undefined => exact hstep (ih h)
    | bind m e =>
      rcases hstep (ih h) with hbound | hlater
      · by_cases hk : k = m
        · subst hk
          rw [lookup?_bind_self] at hbound
          cases hbound
          exact .inr ⟨[], t, rfl⟩
        · rw [lookup?_bind_of_ne _ _ hk] at hbound
          exact .inl hbound
      · exact .inr hlater

/-- A name that stands for itself does so until it is bound to something else. -/
theorem Stands.after {scope : Scope} (h : scope.Stands n) {t : List Scope.Step}
    (ht : ∀ e, .bind n e ∈ t → e.IsName n) : (scope.after t).Stands n := by
  induction t generalizing scope with
  | nil => exact h
  | cons x t ih =>
    have hrest : ∀ e, .bind n e ∈ t → e.IsName n := fun e he => ht e (List.mem_cons_of_mem _ he)
    cases x with
    | read m | undefined => exact ih h hrest
    | bind m e =>
      refine ih (fun f hf => ?_) hrest
      by_cases hn : n = m
      · subst hn
        rw [lookup?_bind_self] at hf
        cases hf
        exact ht e List.mem_cons_self
      · rw [lookup?_bind_of_ne _ _ hn] at hf
        exact h f hf

end Scope

/-! ## Where names come from -/

/-- On the trail the name was read while it stood for itself, or it was put down for a missing
value. -/
def Drawn (t : List Scope.Step) (n : String) : Prop :=
  (∃ before since, t = before ++ .read n :: since ∧ (Scope.empty.after before).Stands n) ∨
    n = "undefined" ∧ .undefined ∈ t

/-- What was drawn stays drawn. -/
theorem Drawn.append {t : List Scope.Step} {n : String} (h : Drawn t n) (u : List Scope.Step) :
    Drawn (t ++ u) n := by
  rcases h with ⟨before, since, rfl, hstands⟩ | ⟨hn, hmem⟩
  · exact .inl ⟨before, since ++ u, by simp, hstands⟩
  · exact .inr ⟨hn, List.mem_append_left u hmem⟩

/-- Whatever a trail binds is the name itself, or all that is read in it was drawn before. -/
def Sourced (t : List Scope.Step) : Prop :=
  ∀ before k v since, t = before ++ .bind k v :: since → v.IsName k ∨ ∀ n ∈ v.reads, Drawn before n

namespace Sourced

variable {t u : List Scope.Step}

/-- Without steps nothing need be drawn. -/
theorem nil : Sourced [] := fun before _ _ _ h => by cases before <;> cases h

/-- A first part of a trail draws from what was there. -/
theorem of_isPrefix (h : Sourced u) (ht : t <+: u) : Sourced t := by
  obtain ⟨rest, rfl⟩ := ht
  rintro before k v since rfl
  exact h before k v (since ++ rest) (by simp)

/-- One more step keeps the steps sourced. -/
theorem snoc (h : Sourced t) {x : Scope.Step}
    (hx : ∀ k v, x = .bind k v → v.IsName k ∨ ∀ n ∈ v.reads, Drawn t n) : Sourced (t ++ [x]) := by
  intro before k v since hsplit
  rcases since.eq_nil_or_concat with rfl | ⟨since, y, rfl⟩
  · obtain ⟨rfl, hlast⟩ := List.append_inj' hsplit rfl
    exact hx k v (List.singleton_inj.1 hlast)
  · rw [List.concat_eq_append, ← List.cons_append, ← List.append_assoc] at hsplit
    exact h before k v since (List.append_inj' hsplit rfl).1

end Sourced

/-- The scope was built by these steps, which are sourced. -/
structure Scope.Traced (scope : Scope) (t : List Scope.Step) : Prop where
  eq_after : scope = Scope.empty.after t
  sourced : Sourced t

namespace Scope.Traced

variable {scope : Scope} {t : List Scope.Step} {n : String} {e v : Expr}

/-- The empty scope has no steps. -/
theorem empty : Scope.empty.Traced [] := ⟨rfl, .nil⟩

/-- No step more changes nothing. -/
theorem append_nil (h : scope.Traced t) : scope.Traced (t ++ []) := (List.append_nil t).symm ▸ h

/-- Reading a name changes no binding. -/
theorem read (h : scope.Traced t) (n : String) : scope.Traced (t ++ [.read n]) :=
  ⟨by rw [after_append, ← h.eq_after]; rfl, h.sourced.snoc nofun⟩

/-- Nor does a name without value. -/
theorem undefined (h : scope.Traced t) : scope.Traced (t ++ [.undefined]) :=
  ⟨by rw [after_append, ← h.eq_after]; rfl, h.sourced.snoc nofun⟩

/-- A binding that draws from the trail goes on with it. -/
theorem bind (h : scope.Traced t) (hv : v.IsName n ∨ ∀ m ∈ v.reads, Drawn t m) :
    (scope.bind n v).Traced (t ++ [.bind n v]) := by
  refine ⟨by rw [after_append, ← h.eq_after]; rfl, h.sourced.snoc ?_⟩
  rintro k w ⟨⟩
  exact hv

/-- Parameters stand for themselves. -/
theorem bindOpaque (h : scope.Traced t) (names : List String) :
    (scope.bindOpaque names).Traced (t ++ names.map fun n => .bind n (.name n)) := by
  induction names generalizing scope t with
  | nil => exact h.append_nil
  | cons n names ih =>
    have hbound := ih (h.bind (.inl (Expr.isName_name n)))
    rwa [List.append_assoc] at hbound

/-- What a name is bound to is the name, or draws from the trail. -/
theorem lookup? (h : scope.Traced t) (hlookup : scope.lookup? n = some v) :
    v.IsName n ∨ ∀ m ∈ v.reads, Drawn t m := by
  rw [h.eq_after] at hlookup
  rcases lookup?_after hlookup with hempty | ⟨before, since, ht⟩
  · cases hempty
  · refine (h.sourced before n v since ht).imp_right fun hdrawn m hm => ?_
    rw [ht]
    exact (hdrawn m hm).append _

/-- What a look-up puts in the place of a name. -/
theorem getD (h : scope.Traced t) (n : String) (s : Span) :
    ∀ m ∈ ((scope.lookup? n).getD (.ident n s)).reads, Drawn (t ++ [.read n]) m := by
  -- if the name stays, then it stands for itself where it is read
  have hname : scope.Stands n → Drawn (t ++ [.read n]) n :=
    fun hstands => .inl ⟨t, [], rfl, h.eq_after ▸ hstands⟩
  cases hlookup : scope.lookup? n with
  | none => exact List.forall_mem_singleton.2 (hname fun e he => nomatch hlookup.symm.trans he)
  | some v =>
    rcases h.lookup? hlookup with ⟨s', rfl⟩ | hdrawn
    · refine List.forall_mem_singleton.2 (hname fun e he => ?_)
      cases hlookup.symm.trans he
      exact ⟨s', rfl⟩
    · exact fun m hm => (hdrawn m hm).append _

/-- So does an element that is picked. -/
theorem element? {index : String} (h : scope.Traced t)
    (helement : scope.element? n index = some e) : ∀ m ∈ e.reads, Drawn t m := by
  obtain ⟨es, s, i, hlookup, -, hi⟩ := element?_eq_some helement
  intro m hm
  rcases h.lookup? hlookup with ⟨s', hname⟩ | hdrawn
  · cases hname
  · refine hdrawn m ?_
    rw [Expr.reads, Expr.readsAll_eq]
    exact List.mem_flatMap.2 ⟨e, List.mem_of_getElem? hi, hm⟩

end Scope.Traced

/-- The scope was built by these steps, and the names were drawn on the way. -/
structure Scope.Draws (scope : Scope) (t : List Scope.Step) (names : List String) : Prop where
  traced : scope.Traced t
  drawn : ∀ n ∈ names, Drawn t n

namespace Scope.Draws

variable {scope scope' : Scope} {t u w : List Scope.Step} {names names' : List String}

/-- Reading nothing draws nothing. -/
theorem nil (h : scope.Traced t) : scope.Draws (t ++ []) [] :=
  ⟨h.append_nil, fun _ hn => absurd hn List.not_mem_nil⟩

/-- First these steps and names, then those. -/
theorem append (h : scope.Draws (t ++ u) names) (h' : scope'.Draws (t ++ u ++ w) names') :
    scope'.Draws (t ++ (u ++ w)) (names ++ names') := by
  rw [← List.append_assoc]
  exact ⟨h'.traced, List.forall_mem_append.2 ⟨fun n hn => (h.drawn n hn).append w, h'.drawn⟩⟩

/-- Fewer names draw less. -/
theorem subset (h : scope.Draws t names) (hsub : names' ⊆ names) : scope.Draws t names' :=
  ⟨h.traced, fun n hn => h.drawn n (hsub hn)⟩

/-- The value that an assignment stores, where the value on its right side is as given. -/
theorem stored {v : Expr} (h : scope.Draws t v.reads) (n : String) (op : AssignOp) (s : Span) :
    scope.Draws (t ++ op.steps n) (scope.stored n op v s).reads := by
  cases op with
  | assign => exact (List.append_nil t).symm ▸ h
  | compound b =>
    refine ⟨h.traced.read n, List.forall_mem_append.2 ⟨h.traced.getD n .nowhere, fun m hm => ?_⟩⟩
    exact (h.drawn m hm).append _

/-- The scope in which a name is bound to an expression, all that is read in it being drawn. -/
theorem bind {v : Expr} (h : scope.Draws t v.reads) (n : String) :
    (scope.bind n v).Draws (t ++ [.bind n v]) v.reads :=
  ⟨h.traced.bind (.inr h.drawn), fun m hm => (h.drawn m hm).append _⟩

end Scope.Draws

/-! ## Expressions -/

namespace Expr

mutual

/-- Inlining an expression takes these steps, and all that is read in the outcome was drawn on the
way. -/
theorem inline_draws (test : LoopTest) :
    (e : Expr) → {scope : Scope} → {t : List Scope.Step} → scope.Traced t →
    (e.inline test scope).2.Draws (t ++ e.steps test scope) (e.inline test scope).1.reads
  | .ident n s, _, _, h => ⟨h.read n, h.getD n s⟩
  | .member o p false s, _, _, h => inline_draws test o h
  | .member o p true s, _, _, h => by
    have hp := inline_draws test p h
    simp only [inline, steps]
    split
    · rename_i e helement
      rw [helement, Option.isSome_some, if_pos rfl, List.append_nil]
      exact ⟨hp.traced, hp.traced.element? helement⟩
    · rename_i helement
      rw [helement, Option.isSome_none, if_neg (by decide)]
      exact (hp.append (inline_draws test o hp.traced)).subset List.perm_append_comm.subset
  | .binary op l r s, _, _, h | .logical op l r s, _, _, h => by
    have hl := inline_draws test l h
    exact hl.append (inline_draws test r hl.traced)
  | .unary op a s, _, _, h => inline_draws test a h
  | .list es s, _, _, h | .sequence es s, _, _, h => inlineAll_draws test es h
  | .call f args s, _, _, h => by
    have hf := inline_draws test f h
    exact hf.append (inlineAll_draws test args hf.traced)
  | .ternary c a b s, _, _, h => by
    have hc := inline_draws test c h
    have ha := inline_draws test a hc.traced
    exact hc.append (ha.append (inline_draws test b ha.traced))
  | .assign op target v s, _, _, h => by
    have hv := inline_draws test v h
    cases target with
    | ident n ns =>
      have hstored := hv.stored n op s
      have hall := hv.append (hstored.append (hstored.bind n))
      simp only [inline, steps, Scope.store_eq]
      split
      · exact hall.subset (List.subset_append_left _ _)
      · exact hall.subset fun m hm => List.mem_append_right _ (List.mem_append_left _ hm)
    | member o p computed ms =>
      cases computed with
      | false => exact hv
      | true =>
        exact (hv.append (inline_draws test p hv.traced)).subset List.perm_append_comm.subset
    | _ => exact hv
  | .update op b a s, _, _, h | .bool v s, _, _, h | .num v s, _, _, h | .str v s, _, _, h
  | .null s, _, _, h =>
    .nil h

/-- The same for expressions in a row. -/
theorem inlineAll_draws (test : LoopTest) :
    (es : List Expr) → {scope : Scope} → {t : List Scope.Step} → scope.Traced t →
    (inlineAll test es scope).2.Draws (t ++ stepsAll test es scope)
      (readsAll (inlineAll test es scope).1)
  | [], _, _, h => .nil h
  | e :: es, _, _, h => by
    have he := inline_draws test e h
    exact he.append (inlineAll_draws test es he.traced)

end

end Expr

/-! ## Statements -/

/-- Declaring names goes on with the trail. -/
theorem Scope.Traced.declareAll (test : LoopTest) (ds : List Declarator) {scope : Scope}
    {t : List Scope.Step} (h : scope.Traced t) :
    (scope.declareAll test ds).Traced (t ++ Declarator.steps test ds scope) := by
  induction ds generalizing scope t with
  | nil => exact h.append_nil
  | cons d ds ih =>
    obtain ⟨n, _ | e, span⟩ := d
    · have hdrawn : Drawn (t ++ [.undefined]) "undefined" := .inr ⟨rfl, by simp⟩
      have hds := ih (h.undefined.bind (v := .name "undefined") (n :=
          n) (.inr (List.forall_mem_singleton.2 hdrawn)))
      rwa [List.append_assoc, List.append_assoc] at hds
    · have hds := ih ((e.inline_draws test h).bind n).traced
      rwa [List.append_assoc, List.append_assoc] at hds

namespace Stmt

mutual

/-- Inlining a statement takes these steps in the scope around it. -/
theorem inline_traced (test : LoopTest) :
    (s : Stmt) → {scope : Scope} → {t : List Scope.Step} → scope.Traced t →
    (s.inline test scope).2.Traced (t ++ s.steps test scope)
  | .declare _ ds _, _, _, h => h.declareAll test ds
  | .expr e s, _, _, h => by
    rw [scope_inline_expr]
    exact (e.inline_draws test h).traced
  | .branch e _ none _, _, _, h | .branch e _ (some _) _, _, _, h | .ret (some e) _, _, _, h =>
    (e.inline_draws test h).traced
  | .block body _, _, _, h => inlineAll_traced test body h
  | .function _ _ _ _, _, _, h | .whileLoop _ _ _, _, _, h | .forLoop _ _ _ _ _, _, _, h
  | .ret none _, _, _, h
  | .breakLoop _, _, _, h | .continueLoop _, _, _, h | .empty _, _, _, h => h.append_nil

/-- The same for statements in a row. -/
theorem inlineAll_traced (test : LoopTest) :
    (ss : List Stmt) → {scope : Scope} → {t : List Scope.Step} → scope.Traced t →
    (inlineAll test ss scope).2.Traced (t ++ stepsAll test ss scope)
  | [], _, _, h => h.append_nil
  | s :: ss, _, _, h => by
    have hss := inlineAll_traced test ss (inline_traced test s h)
    rwa [List.append_assoc] at hss

end

/-- Trails that go on from a common first part. -/
theorem sourced_map_append {t u : List Scope.Step} {us : List (List Scope.Step)}
    (h : ∀ w ∈ us, Sourced (t ++ u ++ w)) : ∀ w ∈ us.map (u ++ ·), Sourced (t ++ w) := by
  refine List.forall_mem_map.2 fun w hw => ?_
  rw [← List.append_assoc]
  exact h w hw

mutual

/-- All trails into a statement are sourced. -/
theorem trails_sourced (test : LoopTest) :
    (s : Stmt) → {scope : Scope} → {t : List Scope.Step} → scope.Traced t →
    ∀ u ∈ s.trails test scope, Sourced (t ++ u)
  | .function _ ps body _, _, _, h =>
    sourced_map_append (trailsAll_sourced .none body (h.bindOpaque ps))
  | .whileLoop e body _, _, _, h =>
    sourced_map_append (trails_sourced _ body (e.inline_draws (.ofExpr e) h).traced)
  | .branch e c none _, _, _, h =>
    sourced_map_append (trails_sourced test c (e.inline_draws test h).traced)
  | .branch e c (some a) _, _, _, h =>
    have he := (e.inline_draws test h).traced
    sourced_map_append
      (List.forall_mem_append.2 ⟨trails_sourced test c he, trails_sourced test a he⟩)
  | .block body _, _, _, h => trailsAll_sourced test body h
  | .declare w ds s, _, _, h =>
    List.forall_mem_singleton.2 (inline_traced test (.declare w ds s) h).sourced
  | .expr e s, _, _, h => List.forall_mem_singleton.2 (inline_traced test (.expr e s) h).sourced
  | .ret e s, _, _, h => List.forall_mem_singleton.2 (inline_traced test (.ret e s) h).sourced
  | .forLoop _ _ _ _ _, _, _, h | .breakLoop _, _, _, h | .continueLoop _, _, _, h
  | .empty _, _, _, h =>
    List.forall_mem_singleton.2 h.append_nil.sourced

/-- The same for statements in a row. -/
theorem trailsAll_sourced (test : LoopTest) :
    (ss : List Stmt) → {scope : Scope} → {t : List Scope.Step} → scope.Traced t →
    ∀ u ∈ trailsAll test ss scope, Sourced (t ++ u)
  | [], _, _, h => List.forall_mem_singleton.2 h.append_nil.sourced
  | s :: ss, _, _, h => List.forall_mem_append.2 ⟨trails_sourced test s h,
      sourced_map_append (trailsAll_sourced test ss (inline_traced test s h))⟩

end

end Stmt

/-! ## Programs -/

/-- Where a program comes in the course of inlining, the steps on the way are sourced. -/
theorem Program.Reaches.traced {p : Program} {t : List Scope.Step} (h : p.Reaches t) :
    (Scope.empty.after t).Traced t := by
  obtain ⟨trail, htrail, hfront⟩ := h
  exact ⟨rfl, (Stmt.trailsAll_sourced .none p.body .empty trail htrail).of_isPrefix hfront⟩

end BranchPaint
