import BranchPaint.Proofs.Grammar.Formed
import BranchPaint.Proofs.Inline.Trail
import BranchPaint.Proofs.Inline.Unchanged

/-!
# Bound names in bound expressions

A name is replaced by what it is bound to in one step: what is put in its place is not gone through
again. Nothing is missed by that as long as every name that is read in a bound expression is either
not bound or bound to itself, as the parameters of functions are (`Expr.inline_of_stands`).

This is not always so. A name may be bound to something else after it was read (`Rebound`), and then
the expressions that were bound in between still hold the name, as they should: they speak of what
it stood for when it was read. Operands of steps by one and targets of stores are not read at all
and may hold any name, and `undefined` is put down for a missing value without being looked up
(`Program.bound_elsewhere`). In all other cases the name is bound to itself
(`Program.bound_to_itself`).
-/

namespace BranchPaint

/-! ## One look-up is enough -/

namespace Expr

/-- A steady expression reads its own name and what its operands read. -/
theorem reads_of_steady {e : Expr} (h : e.Steady) :
    e.reads = e.ownName ++ e.children.flatMap reads := by
  cases e with
  | assign _ _ _ _ | update _ _ _ _ => exact h.elim
  | member o p computed s =>
    cases computed
    all_goals simp [reads, ownName, children]
  | _ => simp [reads, ownName, children, readsAll_eq]

/-- What is read in a part of a steady expression is read in the expression. -/
theorem reads_subset_of_child {e c : Expr} (h : e.Steady) (hc : c ∈ e.children) :
    c.reads ⊆ e.reads := by
  rw [reads_of_steady h]
  exact fun n hn => List.mem_append_right _ (List.mem_flatMap.2 ⟨c, hc, hn⟩)

end Expr

/-- The object of an index has the text of a bound name only if it is that name. -/
def Scope.PicksByName (scope : Scope) : Expr → Prop
  | .member o _ true _ => scope.isBound o.text = true → o.IsName o.text
  | _ => True

instance (scope : Scope) : DecidablePred scope.PicksByName := fun e =>
  match e with
  | .member o _ true _ =>
    inferInstanceAs (Decidable (scope.isBound o.text = true → o.IsName o.text))
  | .member _ _ false _ | .bool _ _ | .num _ _ | .str _ _ | .null _ | .list _ _ | .ident _ _
  | .call _ _ _ | .binary _ _ _ _
  | .logical _ _ _ _ | .unary _ _ _ | .update _ _ _ _ | .assign _ _ _ _ | .ternary _ _ _ _
  | .sequence _ _ =>
    inferInstanceAs (Decidable True)

/-- A name that stands for itself is bound to no list. -/
theorem Scope.Stands.element?_eq_none {scope : Scope} {n : String} (h : scope.Stands n)
    (index : String) : scope.element? n index = none := by
  refine Scope.element?_eq_none fun es s hlookup => ?_
  obtain ⟨s', hs⟩ := h _ hlookup
  cases hs

namespace Expr

/-- Where every name that is read stands for itself, inlining leaves the expression alone. -/
theorem leavesAlone_of_stands {scope : Scope} {e : Expr} (hsteady : e.Forall Steady)
    (hpicks : e.Forall scope.PicksByName) (hstands : ∀ n ∈ e.reads, scope.Stands n) :
    e.Forall scope.eraseSpans.LeavesAlone := by
  induction hsteady with
  | @node e here inside ih =>
    have hsub {c : Expr} (hc : c ∈ e.children) : ∀ n ∈ c.reads, scope.Stands n :=
      fun n hn => hstands n (reads_subset_of_child here hc hn)
    refine .node ?_ fun c hc => ih c hc (hpicks.inside c hc) (hsub hc)
    cases e with
    | ident n s =>
      intro f hlookup
      rw [Scope.lookup?_eraseSpans] at hlookup
      obtain ⟨g, hg, rfl⟩ := Option.map_eq_some_iff.1 hlookup
      obtain ⟨s', rfl⟩ := hstands n List.mem_cons_self g hg
      rfl
    | member o p computed s =>
      cases computed with
      | false => trivial
      | true =>
        have hobject : scope.Stands o.text := by
          intro f hlookup
          obtain ⟨s', hname⟩ := hpicks.here (by simp [Scope.isBound, hlookup])
          refine hsub List.mem_cons_self o.text ?_ f hlookup
          rw [hname]
          exact List.mem_singleton_self _
        intro index
        rw [Scope.element?_eraseSpans, hobject.element?_eq_none]
        rfl
    | _ => trivial

/-- A steady expression in which all names that are read stand for themselves is not changed by
inlining, up to spans. -/
theorem inline_of_stands {scope : Scope} {e : Expr} (hsteady : e.Forall Steady)
    (hpicks : e.Forall scope.PicksByName) (hstands : ∀ n ∈ e.reads, scope.Stands n)
    (test : LoopTest) : (e.inline test scope).1.eraseSpans = e.eraseSpans := by
  have hsame := congrArg Prod.fst (inline_of_eraseSpans test e scope.eraseSpans_eraseSpans.symm)
  exact hsame.trans (inline_unchanged test e (storedNames_of_steady hsteady)
    (leavesAlone_of_stands hsteady hpicks hstands)).1

end Expr

/-! ## Programs -/

/-- The name was read while it stood for itself; since then `k` was bound to `v`, and the name to
something else. -/
def Rebound (t : List Scope.Step) (k : String) (v : Expr) (n : String) : Prop :=
  ∃ before since e, t = before ++ .read n :: since ∧ (Scope.empty.after before).Stands n ∧
    .bind k v ∈ since ∧ .bind n e ∈ since ∧ ¬ e.IsName n

/-- A name that is only bound to itself is not rebound. -/
theorem not_rebound {t : List Scope.Step} {k n : String} {v : Expr}
    (h : ∀ e, .bind n e ∈ t → e.IsName n) : ¬ Rebound t k v n := by
  rintro ⟨before, since, e, rfl, -, -, hmem, hname⟩
  exact hname (h e (by simp [hmem]))

/-- A name that is read in a bound expression stands for itself, unless it was put down for a
missing value or bound again. -/
theorem Scope.Traced.stands_or {t : List Scope.Step} (h : (Scope.empty.after t).Traced t)
    {k n : String} {v : Expr} (hk : (Scope.empty.after t).lookup? k = some v) (hn : n ∈ v.reads) :
    (Scope.empty.after t).Stands n ∨ n = "undefined" ∧ .undefined ∈ t ∨ Rebound t k v n := by
  obtain hempty | ⟨before, since, ht⟩ := lookup?_after hk
  · cases hempty
  rcases h.sourced before k v since ht with ⟨s, rfl⟩ | hdrawn
  · -- the name is `k`, and bound to itself
    obtain rfl := List.mem_singleton.1 hn
    refine .inl fun e he => ?_
    cases hk.symm.trans he
    exact ⟨s, rfl⟩
  · obtain ⟨first, between, rfl, hstands⟩ | ⟨rfl, hmem⟩ := hdrawn n hn
    · rw [List.append_assoc, List.cons_append] at ht
      by_cases hbinds : ∀ e, .bind n e ∈ between ++ .bind k v :: since → e.IsName n
      · left
        rw [ht, after_append, after]
        exact hstands.after hbinds
      · obtain ⟨e, he⟩ := not_forall.1 hbinds
        obtain ⟨hmem, hname⟩ := Classical.not_imp.1 he
        exact .inr (.inr ⟨first, _, e, ht, hstands, by simp, hmem, hname⟩)
    · exact .inr (.inl ⟨rfl, by simp [ht, hmem]⟩)

namespace Program

/-- In every scope that inlining builds, a name that is read in a bound expression and is bound too
is bound to itself, with two exceptions: `undefined`, if it was put down for a missing value, and a
name that was bound to something else after it was read. Without these, one look-up is enough: a
bound expression without stores and steps by one is not changed by inlining it in the same scope, up
to spans, if an index in it has the text of a bound name for its object only where the object is
that name. -/
theorem bound_to_itself {p : Program} {t : List Scope.Step} (h : p.Reaches t) {k : String}
    {v : Expr} (hk : (Scope.empty.after t).lookup? k = some v) :
    (∀ n ∈ v.reads, (Scope.empty.after t).isBound n = true →
      (∃ s, (Scope.empty.after t).lookup? n = some (.ident n s)) ∨ n = "undefined" ∧
        .undefined ∈ t ∨
        Rebound t k v n) ∧
    (v.Forall Expr.Steady → v.Forall (Scope.empty.after t).PicksByName →
      (∀ n ∈ v.reads, (n = "undefined" → .undefined ∉ t) ∧ ¬ Rebound t k v n) →
      ∀ test, (v.inline test (Scope.empty.after t)).1.eraseSpans = v.eraseSpans) := by
  refine ⟨fun n hn hbound => ?_, fun hsteady hpicks hfresh => ?_⟩
  · refine (h.traced.stands_or hk hn).imp_left fun hstands => ?_
    obtain ⟨e, he⟩ := Option.isSome_iff_exists.1 hbound
    obtain ⟨s, rfl⟩ := hstands e he
    exact ⟨s, he⟩
  · refine Expr.inline_of_stands hsteady hpicks fun n hn => ?_
    obtain ⟨hundefined, hrebound⟩ := hfresh n hn
    rcases h.traced.stands_or hk hn with hstands | ⟨hname, hmem⟩ | hlate
    · exact hstands
    · exact absurd hmem (hundefined hname)
    · exact absurd hlate hrebound

/-- The text `function f(x) { let y = x + w; let z = [y, g(x)]; }`: at its end `z` is bound to `[x +
w, g(x)]`. The parameter is bound to itself and the other names are not bound, so inlining leaves
the list as it is. -/
theorem bound_to_itself_sample :
    let var (n : String) : Expr := .name n
    let sum : Expr := .binary .add (var "x") (var "w") .nowhere
    let pair (e : Expr) : Expr := .list [e, .call (var "g") [var "x"] .nowhere] .nowhere
    let p : Program :=
      ⟨[.function "f" ["x"] [.declare .letWord [⟨"y", some sum, .nowhere⟩] .nowhere,
          .declare .letWord [⟨"z", some (pair (var "y")), .nowhere⟩] .nowhere] .nowhere], .nowhere⟩
    let t : List Scope.Step := [.bind "x" (var "x"), .read "x", .read "w", .bind "y" sum, .read "y",
        .read "g", .read "x", .bind "z" (pair sum)]
    p.Reaches t ∧ (Scope.empty.after t).lookup? "z" = some (pair sum) ∧
        (∃ s, (Scope.empty.after t).lookup? "x" = some (.ident "x" s)) ∧ ∀ test,
        ((pair sum).inline test (Scope.empty.after t)).1.eraseSpans = (pair sum).eraseSpans := by
  intro var sum pair p t
  have hreaches : p.Reaches t := ⟨t, List.mem_cons_of_mem _ List.mem_cons_self, List.prefix_refl t⟩
  have hlookup : (Scope.empty.after t).lookup? "z" = some (pair sum) := rfl
  have hfresh : ∀ n ∈ ["x", "w", "g", "x"], (n = "undefined" → .undefined ∉ t) ∧
      ¬ Rebound t "z" (pair sum) n := by
    refine fun n hn => ⟨fun _ => by simp [t], not_rebound fun e he => ?_⟩
    simp only [t, List.mem_cons, Scope.Step.bind.injEq, reduceCtorEq, List.not_mem_nil, false_or,
      or_false] at he
    rcases he with ⟨rfl, rfl⟩ | ⟨rfl, rfl⟩ | ⟨rfl, rfl⟩
    · exact Expr.isName_name "x"
    · exact absurd hn (by decide)
    · exact absurd hn (by decide)
  obtain ⟨hitself, hagain⟩ := bound_to_itself hreaches hlookup
  refine ⟨hreaches, hlookup, ?_, hagain (by decide) (by decide) hfresh⟩
  rcases hitself "x" List.mem_cons_self rfl with hx | ⟨hx, -⟩ | hx
  · exact hx
  · exact absurd hx (by decide)
  · exact absurd hx (hfresh "x" List.mem_cons_self).2

/-- The text `let undefined = 1; function f(x) { let m = 1, k = m++, y = x, z; x = 2; }`. At its end
`k` is bound to `m++` and `m` to `1`, `y` to `x` and `x` to `2`, `z` to `undefined` and this to
`1`. -/
theorem bound_elsewhere : ∃ p t,
    parse "let undefined = 1; function f(x) \x7b let m = 1, k = m++, y = x, z; x = 2; \x7d" =
      .ok p ∧ p.Reaches t ∧
      ∀ x ∈ [("k", "m"), ("y", "x"), ("z", "undefined")], ∃ v ∈ (Scope.empty.after t).lookup? x.1,
        x.2 ∈ v.mentions ∧
        ∃ e ∈ (Scope.empty.after t).lookup? x.2, ¬ e.IsName x.2 := by
  obtain ⟨p, hp, t, ht, hbound⟩ := exists_parse
    "let undefined = 1; function f(x) \x7b let m = 1, k = m++, y = x, z; x = 2; \x7d"
    (fun p => ∃ t ∈ Stmt.trailsAll .none p.body .empty,
      ∀ x ∈ [("k", "m"), ("y", "x"), ("z", "undefined")],
      ∃ v ∈ (Scope.empty.after t).lookup? x.1, x.2 ∈ v.mentions ∧
        ∃ e ∈ (Scope.empty.after t).lookup? x.2, ¬ e.IsName x.2) (by decide +kernel)
  exact ⟨p, t, hp, ⟨t, ht, List.prefix_refl t⟩, hbound⟩

end Program

end BranchPaint
