import BranchPaint.Proofs.Inline.Node
import BranchPaint.Proofs.Script.Names

/-!
# Expressions that inlining does not change

Inlining changes an expression where it stores to a name (`Expr.storedNames`), where it replaces a
name by something else, and where it picks an element of a list. If it does none of these
(`Scope.LeavesAlone`), then the expression stays as it is, up to spans, and so does the scope
(`Expr.inline_unchanged`).
-/

namespace BranchPaint

mutual

/-- The names that inlining would store to, in the order of the text. It does not go into operands
of steps by one; of a store into a member it goes into the index at most. -/
def Expr.storedNames : Expr → List String
  | .assign _ (.ident n _) v _ => n :: v.storedNames
  | .assign _ (.member _ p true _) v _ => p.storedNames ++ v.storedNames
  | .assign _ _ v _ => v.storedNames
  | .member o _ false _ => o.storedNames
  | .member o p true _ => o.storedNames ++ p.storedNames
  | .binary _ l r _ | .logical _ l r _ => l.storedNames ++ r.storedNames
  | .unary _ a _ => a.storedNames
  | .list es _ | .sequence es _ => storedNamesAll es
  | .call f args _ => f.storedNames ++ storedNamesAll args
  | .ternary c t e _ => c.storedNames ++ (t.storedNames ++ e.storedNames)
  | .update _ _ _ _ | .ident _ _ | .bool _ _ | .num _ _ | .str _ _ | .null _ => []

/-- The names that inlining would store to in expressions, in the order of the text. -/
def Expr.storedNamesAll : List Expr → List String
  | [] => []
  | e :: es => e.storedNames ++ storedNamesAll es

end

/-- Neither is this expression itself a name that stands for something else, nor does an index into
it pick an element. -/
def Scope.LeavesAlone (scope : Scope) : Expr → Prop
  | .ident n _ => ∀ e, scope.lookup? n = some e → e = .name n
  | .member o _ true _ => ∀ index, scope.element? o.text index = none
  | _ => True

namespace Expr

mutual

/-- Inlining does not change an expression that it leaves alone everywhere, up to spans. -/
theorem inline_unchanged (test : LoopTest) {scope : Scope} :
    (e : Expr) → e.storedNames = [] → e.Forall scope.LeavesAlone →
    (e.inline test scope).1.eraseSpans = e.eraseSpans ∧ (e.inline test scope).2 = scope
  | .ident n s, _, ha => by
    refine ⟨?_, rfl⟩
    simp only [inline]
    cases hlookup : scope.lookup? n with
    | none => rfl
    | some e =>
      rw [ha.here e hlookup]
      rfl
  | .member o p false s, h, ha => by
    obtain ⟨ho, hs⟩ := inline_unchanged test o h (ha.inside o List.mem_cons_self)
    exact ⟨by simp only [inline, eraseSpans, ho], hs⟩
  | .member o p true s, h, ha => by
    obtain ⟨ho, hp⟩ := List.append_eq_nil_iff.1 h
    obtain ⟨hao, hap⟩ := List.forall_mem_cons.1 ha.inside
    obtain ⟨ho, hs⟩ := inline_unchanged test o ho hao
    obtain ⟨hp, hsp⟩ := inline_unchanged test p hp (List.forall_mem_singleton.1 hap)
    simp only [inline, hsp]
    rw [ha.here]
    exact ⟨by simp only [eraseSpans, ho, hp], hs⟩
  | .binary op l r s, h, ha | .logical op l r s, h, ha => by
    obtain ⟨hl, hr⟩ := List.append_eq_nil_iff.1 h
    obtain ⟨hal, har⟩ := List.forall_mem_cons.1 ha.inside
    obtain ⟨hl, hsl⟩ := inline_unchanged test l hl hal
    obtain ⟨hr, hsr⟩ := inline_unchanged test r hr (List.forall_mem_singleton.1 har)
    simp only [inline, hsl]
    exact ⟨by simp only [eraseSpans, hl, hr], hsr⟩
  | .unary op a s, h, ha => by
    obtain ⟨harg, hs⟩ := inline_unchanged test a h (ha.inside a List.mem_cons_self)
    exact ⟨by simp only [inline, eraseSpans, harg], hs⟩
  | .list es s, h, ha | .sequence es s, h, ha => by
    obtain ⟨hes, hs⟩ := inlineAll_unchanged test es h ha.inside
    exact ⟨by simp only [inline, eraseSpans, hes], hs⟩
  | .call f args s, h, ha => by
    obtain ⟨hf, hargs⟩ := List.append_eq_nil_iff.1 h
    obtain ⟨haf, haargs⟩ := List.forall_mem_cons.1 ha.inside
    obtain ⟨hf, hsf⟩ := inline_unchanged test f hf haf
    obtain ⟨hargs, hs⟩ := inlineAll_unchanged test args hargs haargs
    simp only [inline, hsf]
    exact ⟨by simp only [eraseSpans, hf, hargs], hs⟩
  | .ternary c t e s, h, ha => by
    obtain ⟨hc, hsides⟩ := List.append_eq_nil_iff.1 h
    obtain ⟨ht, he⟩ := List.append_eq_nil_iff.1 hsides
    obtain ⟨hac, hasides⟩ := List.forall_mem_cons.1 ha.inside
    obtain ⟨hat, hae⟩ := List.forall_mem_cons.1 hasides
    obtain ⟨hc, hsc⟩ := inline_unchanged test c hc hac
    obtain ⟨ht, hst⟩ := inline_unchanged test t ht hat
    obtain ⟨he, hse⟩ := inline_unchanged test e he (List.forall_mem_singleton.1 hae)
    simp only [inline, hsc, hst]
    exact ⟨by simp only [eraseSpans, hc, ht, he], hse⟩
  | .assign op t v s, h, ha => by
    obtain ⟨hat, hav⟩ := List.forall_mem_cons.1 ha.inside
    have hav := List.forall_mem_singleton.1 hav
    cases t with
    | ident n ns => cases h
    | member o p computed ms =>
      cases computed with
      | false =>
        obtain ⟨hv, hs⟩ := inline_unchanged test v h hav
        exact ⟨by simp only [inline, eraseSpans, hv], hs⟩
      | true =>
        obtain ⟨hp, hv⟩ := List.append_eq_nil_iff.1 h
        obtain ⟨hp, hsp⟩ := inline_unchanged test p hp (hat.inside p (by simp [children]))
        obtain ⟨hv, hsv⟩ := inline_unchanged test v hv hav
        simp only [inline, hsv]
        exact ⟨by simp only [eraseSpans, hp, hv], hsp⟩
    | _ =>
      obtain ⟨hv, hs⟩ := inline_unchanged test v h hav
      exact ⟨by simp only [inline, eraseSpans, hv], hs⟩
  | .update _ _ _ _, _, _ | .bool _ _, _, _ | .num _ _, _, _ | .str _ _, _, _
  | .null _, _, _ => ⟨rfl, rfl⟩

/-- The same for expressions in a row. -/
theorem inlineAll_unchanged (test : LoopTest) {scope : Scope} :
    (es : List Expr) → storedNamesAll es = [] →
    (∀ e ∈ es, e.Forall scope.LeavesAlone) →
    eraseSpansAll (inlineAll test es scope).1 = eraseSpansAll es ∧
      (inlineAll test es scope).2 = scope
  | [], _, _ => ⟨rfl, rfl⟩
  | e :: es, h, ha => by
    obtain ⟨he, hes⟩ := List.append_eq_nil_iff.1 h
    obtain ⟨hae, haes⟩ := List.forall_mem_cons.1 ha
    obtain ⟨he, hse⟩ := inline_unchanged test e he hae
    obtain ⟨hes, hs⟩ := inlineAll_unchanged test es hes haes
    simp only [inlineAll, hse]
    exact ⟨by simp only [eraseSpansAll, he, hes], hs⟩

end

/-- The names that expressions in a row store to are those of each, in order. -/
theorem storedNamesAll_eq (es : List Expr) : storedNamesAll es = es.flatMap storedNames := by
  induction es with
  | nil => rfl
  | cons e es ih => rw [storedNamesAll, ih, List.flatMap_cons]

/-- Neither a store nor a step by one. -/
def Steady : Expr → Prop
  | .assign _ _ _ _ | .update _ _ _ _ => False
  | _ => True

instance : DecidablePred Steady := fun e =>
  match e with
  | .assign _ _ _ _ | .update _ _ _ _ => inferInstanceAs (Decidable False)
  | .bool _ _ | .num _ _ | .str _ _ | .null _ | .list _ _ | .ident _ _ | .member _ _ _ _
  | .call _ _ _ | .binary _ _ _ _
  | .logical _ _ _ _ | .unary _ _ _ | .ternary _ _ _ _ | .sequence _ _ =>
    inferInstanceAs (Decidable True)

/-- Nothing is stored in a steady expression. -/
theorem storedNames_of_steady {e : Expr} (h : e.Forall Steady) : e.storedNames = [] := by
  induction h with
  | @node e here inside ih =>
    cases e with
    | update op before a s | assign op t v s => exact here.elim
    | list es s | sequence es s =>
      rw [storedNames, storedNamesAll_eq]
      exact List.flatMap_eq_nil_iff.2 ih
    | call f args s =>
      rw [storedNames, storedNamesAll_eq]
      exact List.append_eq_nil_iff.2 ⟨ih f List.mem_cons_self,
        List.flatMap_eq_nil_iff.2 fun a ha => ih a (List.mem_cons_of_mem f ha)⟩
    | member o p computed s =>
      cases computed
      all_goals simpa [storedNames, children] using ih
    | binary op l r s | logical op l r s | unary op a s | ternary c t e s =>
      simpa [storedNames, children] using ih
    | _ => rfl

/-- Nothing is stored in a pure expression. -/
theorem storedNames_of_pure {e : Expr} (h : e.Forall Pure) : e.storedNames = [] := by
  refine storedNames_of_steady (h.imp fun e hpure => ?_)
  cases e with
  | assign _ _ _ _ | update _ _ _ _ => exact hpure
  | _ => trivial

end Expr

end BranchPaint
