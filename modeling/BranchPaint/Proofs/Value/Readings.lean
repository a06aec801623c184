import BranchPaint.Proofs.Value.Evaluate

/-!
# What an evaluation reads

An evaluation looks up names as it goes: it skips what `&&`, `||` and `? :` leave out, and stops at
the first failure. `Expr.readings` lists the look-ups in order. A name is looked up for its value,
except that `typeof` in front of a bare name looks it up for its type.

A failure that is met on the way is never lost if a value was asked for: where an expression has a
value, all names read for their values have one (`Expr.backed_readings`). Where a type was asked
for, a failure of what the name is bound to is taken for the absence of a binding, and the type is
that of `undefined` (`Expr.eval_typeOf_eq_undefined`). Both together are
`Expr.eval_ok_backs_readings`; `Expr.typeOf_hides_failure` is the smallest case in which a failure
is lost.
-/

namespace BranchPaint

/-- A look-up of a name. -/
inductive Reading where
  /-- For its value. -/
  | value (name : String)
  /-- For the type of its value, by `typeof` in front of the bare name. -/
  | type (name : String)

/-- The name that is looked up. -/
def Reading.name : Reading → String
  | value n | type n => n

namespace Expr

/-- What is read behind an operand, given its value: nothing if it has none. -/
def readingsAfter (operand : Except EvalCause Value) (next : Value → List Reading) : List Reading :=
  match operand with
  | .ok v => next v
  | .error _ => []

mutual

/-- The names that the evaluation of an expression looks up, in order, given what they stand for. -/
def readings (names : String → Except EvalCause Value) : Expr → List Reading
  | .ident n _ => [.value n]
  | .list es _ | .sequence es _ => readingsAll names es
  | .member o (.ident _ _) false _ => o.readings names
  | .member o p _ _ => o.readings names ++ readingsAfter (o.evalWith names) fun _ =>
    p.readings names
  | .binary _ l r _ => l.readings names ++ readingsAfter (l.evalWith names) fun _ =>
    r.readings names
  | .logical .and l r _ =>
    l.readings names ++ readingsAfter (l.evalWith names) fun v => if v.truthy then r.readings names
      else []
  | .logical .or l r _ =>
    l.readings names ++ readingsAfter (l.evalWith names) fun v => if v.truthy then []
      else r.readings names
  | .unary .typeOf (.ident n _) _ => [.type n]
  | .unary _ a _ => a.readings names
  | .ternary c t e _ =>
    c.readings names ++ readingsAfter (c.evalWith names) fun v => if v.truthy then t.readings names
      else e.readings names
  | .bool _ _ | .num _ _ | .str _ _ | .null _ | .call _ _ _ | .update _ _ _ _
  | .assign _ _ _ _ => []

/-- The names that the evaluation of expressions from left to right looks up, in order. -/
def readingsAll (names : String → Except EvalCause Value) : List Expr → List Reading
  | [] => []
  | e :: es => e.readings names ++ readingsAfter (e.evalWith names) fun _ => readingsAll names es

end

variable {names f g : String → Except EvalCause Value}

/-- The key of a member is read behind its object, unless it is a name behind a point. -/
theorem readings_member (o p : Expr) (computed : Bool) (s : Span) :
    (member o p computed s).readings names = o.readings names ++
      readingsAfter (o.evalWith names) fun _ =>
      if (dottedName? computed p).isSome then [] else p.readings names := by
  cases computed with
  | true =>
    cases p
    all_goals rfl
  | false =>
    cases p with
    | ident n ns =>
      have hnone : (readingsAfter (o.evalWith names) fun _ => []) = [] := by
        unfold readingsAfter
        split
        all_goals rfl
      exact ((congrArg _ hnone).trans (List.append_nil _)).symm
    | _ => rfl

/-- An operator reads what its operand reads, unless it asks for the type of a name. -/
theorem readings_unary_of_not {op : UnaryOp} {a : Expr} (h : ¬ asksTypeOfName op a) (s : Span) :
    (unary op a s).readings names = a.readings names := by
  cases op with
  | typeOf =>
    cases a with
    | ident n ns => exact absurd rfl h
    | _ => rfl
  | _ => rfl

/-! ## Values that were asked for are there -/

/-- Every name that is read for its value has one. -/
def Backed (names : String → Except EvalCause Value) (rs : List Reading) : Prop :=
  ∀ n, .value n ∈ rs → ∃ w, names n = .ok w

namespace Backed

/-- Where nothing is read, all of it is backed. -/
theorem nil : Backed names [] := fun _ h => absurd h List.not_mem_nil

/-- What is read in two parts is backed if both parts are. -/
theorem append {rs rs' : List Reading} (h : Backed names rs) (h' : Backed names rs') :
    Backed names (rs ++ rs') := by
  intro n hn
  rcases List.mem_append.1 hn with hn | hn
  · exact h n hn
  · exact h' n hn

/-- What is read behind a value is backed if it is backed for that value. -/
theorem after {x : Except EvalCause Value} {next : Value → List Reading} {v : Value}
    (hx : x = .ok v) (h : Backed names (next v)) : Backed names (readingsAfter x next) := by
  rw [hx]
  exact h

/-- What is read in either case is backed if it is backed in each. -/
theorem ite {c : Prop} [Decidable c] {rs rs' : List Reading} (h : c → Backed names rs)
    (h' : ¬ c → Backed names rs') : Backed names (if c then rs else rs') := by
  split
  · exact h ‹_›
  · exact h' ‹_›

end Backed

mutual

/-- If an expression has a value, then so has every name that was read for its value. -/
theorem backed_readings :
    (e : Expr) → {v : Value} → e.evalWith names = .ok v → Backed names (e.readings names)
  | .bool _ _, _, _ | .num _ _, _, _ | .str _ _, _, _ | .null _, _, _ => .nil
  | .call _ _ _, _, h | .update _ _ _ _, _, h | .assign _ _ _ _, _, h => by cases h
  | .ident n _, v, h => fun m hm => by
    cases List.mem_singleton.1 hm
    exact ⟨v, h⟩
  | .list es _, _, h | .sequence es _, _, h => by
    obtain ⟨vs, hvs, -⟩ := bind_eq_ok.1 h
    exact backedAll_readings es hvs
  | .member o p computed _, _, h => by
    rw [evalWith_member] at h
    obtain ⟨object, ho, h⟩ := bind_eq_ok.1 h
    obtain ⟨key, hkey, -⟩ := bind_eq_ok.1 h
    rw [readings_member]
    refine (backed_readings o ho).append (.after ho ?_)
    unfold keyWith at hkey
    cases hname : dottedName? computed p with
    | some n => exact .nil
    | none =>
      rw [hname] at hkey
      exact backed_readings p hkey
  | .binary _ l r _, _, h => by
    obtain ⟨a, ha, h⟩ := bind_eq_ok.1 h
    obtain ⟨b, hb, -⟩ := bind_eq_ok.1 h
    exact (backed_readings l ha).append (.after ha (backed_readings r hb))
  | .logical .and l r _, _, h => by
    obtain ⟨a, ha, h⟩ := bind_eq_ok.1 h
    refine (backed_readings l ha).append (.after ha (.ite (fun htrue => ?_) fun _ => .nil))
    exact backed_readings r ((if_pos htrue).symm.trans h)
  | .logical .or l r _, _, h => by
    obtain ⟨a, ha, h⟩ := bind_eq_ok.1 h
    refine (backed_readings l ha).append (.after ha (.ite (fun _ => .nil) fun hfalse => ?_))
    exact backed_readings r ((if_neg hfalse).symm.trans h)
  | .unary op a _, _, h => by
    by_cases hasks : asksTypeOfName op a
    · obtain ⟨rfl, n, ns, rfl⟩ := exists_ident_of_asksTypeOfName hasks
      exact fun m hm => nomatch List.mem_singleton.1 hm
    · rw [evalWith_unary_of_not hasks] at h
      obtain ⟨v, hv, -⟩ := bind_eq_ok.1 h
      rw [readings_unary_of_not hasks]
      exact backed_readings a hv
  | .ternary c t e _, _, h => by
    obtain ⟨v, hv, h⟩ := bind_eq_ok.1 h
    refine (backed_readings c hv).append (.after hv (.ite (fun htrue => ?_) fun hfalse => ?_))
    · exact backed_readings t ((if_pos htrue).symm.trans h)
    · exact backed_readings e ((if_neg hfalse).symm.trans h)

/-- The same for expressions in a row. -/
theorem backedAll_readings : (es : List Expr) → {vs : List Value} → evalAllWith names es = .ok vs →
    Backed names (readingsAll names es)
  | [], _, _ => .nil
  | e :: es, _, h => by
    obtain ⟨v, hv, h⟩ := bind_eq_ok.1 h
    obtain ⟨vs, hvs, -⟩ := bind_eq_ok.1 h
    exact (backed_readings e hv).append (.after hv (backedAll_readings es hvs))

end

/-! ## Nothing else is looked at -/

/-- Both tables of names say the same of what was read. -/
def Alike (f g : String → Except EvalCause Value) (rs : List Reading) : Prop :=
  ∀ r ∈ rs, f r.name = g r.name

namespace Alike

variable {rs rs' : List Reading} {α : Type}

/-- Stores that are alike for what is read are alike for its first part. -/
theorem left (h : Alike f g (rs ++ rs')) : Alike f g rs :=
  fun r hr => h r (List.mem_append_left _ hr)

/-- They are alike for its second part too. -/
theorem right (h : Alike f g (rs ++ rs')) : Alike f g rs' :=
  fun r hr => h r (List.mem_append_right _ hr)

/-- What is done behind an operand depends on what is read there. -/
theorem bind {x y : Except EvalCause Value} {next : Value → List Reading}
    {k k' : Value → Except EvalCause α} (h : Alike f g (readingsAfter x next)) (hx : x = y)
    (hk : ∀ v, Alike f g (next v) → k v = k' v) : x >>= k = y >>= k' := by
  subst hx
  cases x with
  | error cause => rfl
  | ok v => exact hk v h

end Alike

mutual

/-- The value of an expression depends on what the names that were read stand for, and on no other
name. -/
theorem evalWith_of_alike : (e : Expr) → Alike f g (e.readings f) → e.evalWith f = e.evalWith g
  | .bool _ _, _ | .num _ _, _ | .str _ _, _ | .null _, _ | .call _ _ _, _ | .update _ _ _ _, _
  | .assign _ _ _ _, _ => rfl
  | .ident n _, h => h _ (List.mem_singleton_self _)
  | .list es _, h | .sequence es _, h => by simp only [evalWith, evalAllWith_of_alike es h]
  | .member o p computed _, h => by
    rw [readings_member] at h
    rw [evalWith_member, evalWith_member]
    refine h.right.bind (evalWith_of_alike o h.left) fun object hp => ?_
    have hkey : keyWith f computed p = keyWith g computed p := by
      unfold keyWith
      cases hname : dottedName? computed p with
      | some n => rfl
      | none =>
        rw [hname] at hp
        exact evalWith_of_alike p hp
    rw [hkey]
  | .binary _ l r _, h => by
    refine Alike.bind h.right (evalWith_of_alike l h.left) fun a hr => ?_
    rw [evalWith_of_alike r hr]
  | .logical .and l r _, h => by
    refine Alike.bind h.right (evalWith_of_alike l h.left) fun a hr => ?_
    split
    · rename_i htrue
      rw [if_pos htrue] at hr
      exact evalWith_of_alike r hr
    · rfl
  | .logical .or l r _, h => by
    refine Alike.bind h.right (evalWith_of_alike l h.left) fun a hr => ?_
    split
    · rfl
    · rename_i hfalse
      rw [if_neg hfalse] at hr
      exact evalWith_of_alike r hr
  | .unary op a _, h => by
    by_cases hasks : asksTypeOfName op a
    · obtain ⟨rfl, n, ns, rfl⟩ := exists_ident_of_asksTypeOfName hasks
      have hn : f n = g n := h _ (List.mem_singleton_self _)
      simp only [evalWith, hn]
    · rw [readings_unary_of_not hasks] at h
      simp only [evalWith_unary_of_not hasks, evalWith_of_alike a h]
  | .ternary c t e _, h => by
    refine Alike.bind h.right (evalWith_of_alike c h.left) fun v hte => ?_
    split
    · rename_i htrue
      rw [if_pos htrue] at hte
      exact evalWith_of_alike t hte
    · rename_i hfalse
      rw [if_neg hfalse] at hte
      exact evalWith_of_alike e hte

/-- The same for expressions in a row. -/
theorem evalAllWith_of_alike :
    (es : List Expr) → Alike f g (readingsAll f es) → evalAllWith f es = evalAllWith g es
  | [], _ => rfl
  | e :: es, h => by
    refine Alike.bind h.right (evalWith_of_alike e h.left) fun v hes => ?_
    rw [evalAllWith_of_alike es hes]

end

end Expr

/-! ## Bound names -/

namespace Scope

/-- What the name is bound to, if anything, has a value. -/
def Backs (scope : Scope) (name : String) : Prop :=
  ∀ b, scope.lookup? name = some b → ∃ w, b.eval .empty = .ok w

variable {scope : Scope} {name : String} {b : Expr}

/-- A bound name has the value of what it is bound to. -/
theorem value_of_lookup? (h : scope.lookup? name = some b) : scope.value name = b.eval .empty := by
  rw [value, h]
  rfl

/-- A name with a value is backed. -/
theorem backs_of_value_eq_ok {w : Value} (h : scope.value name = .ok w) :
    scope.Backs name := fun _ hb =>
  ⟨w, (value_of_lookup? hb).symm.trans h⟩

end Scope

namespace Expr

/-- Only `undefined` has the type with that name. -/
theorem typeName_eq_undefined {v : Value} : v.typeName = "undefined" ↔ v = .undefined := by
  cases v
  all_goals simp [Value.typeName]

/-- The type of a bound name is that of `undefined` if its value is `undefined`, and also if what it
is bound to fails. -/
theorem eval_typeOf_eq_undefined {scope : Scope} {n : String} {b : Expr}
    (h : scope.lookup? n = some b) (s s' : Span) :
    (unary .typeOf (ident n s) s').eval scope = .ok (.str "undefined") ↔
      b.eval .empty = .ok .undefined ∨ ∃ cause, b.eval .empty = .error cause := by
  unfold eval
  rw [evalWith, Scope.value_of_lookup? h]
  unfold eval
  cases b.evalWith Scope.empty.value with
  | error cause => simp
  | ok w => simp [typeName_eq_undefined]

/-- What is known of the names that an evaluation read, if it gave a value.

Whatever is bound to a name that was read for its value has a value itself, so no failure of it is
lost. The same holds of all names that were read if, and only if, it holds of those whose type was
asked for by `typeof`: of a bound name the type is that of `undefined` also if what it is bound to
fails. Nothing but these names was looked at. -/
theorem eval_ok_backs_readings (e : Expr) (scope : Scope) {v : Value} (h : e.eval scope = .ok v) :
    (∀ n, .value n ∈ e.readings scope.value → scope.Backs n) ∧
    ((∀ r ∈ e.readings scope.value, scope.Backs r.name) ↔ ∀ n, .type n ∈ e.readings scope.value →
      scope.Backs n) ∧
    (∀ n b, scope.lookup? n = some b → ∀ s s', (unary .typeOf (ident n s) s').eval scope =
      .ok (.str "undefined") ↔
      b.eval .empty = .ok .undefined ∨ ∃ cause, b.eval .empty = .error cause) ∧
    ∀ names, (∀ r ∈ e.readings scope.value, scope.value r.name = names r.name) →
      e.evalWith names = .ok v := by
  have hvalue : ∀ n, .value n ∈ e.readings scope.value → scope.Backs n := fun n hn => by
    obtain ⟨w, hw⟩ := e.backed_readings h n hn
    exact Scope.backs_of_value_eq_ok hw
  refine ⟨hvalue, ⟨fun hall n hn => hall _ hn, fun htype r hr => ?_⟩, fun n b hb s s' => ?_,
    fun names hnames => ?_⟩
  · cases r with
    | value n => exact hvalue n hr
    | type n => exact htype n hr
  · exact eval_typeOf_eq_undefined hb s s'
  · exact (e.evalWith_of_alike hnames).symm.trans h

/-- The test `typeof x === 'undefined' && z`: a name that fails is asked for its type, then another
one for its value. -/
theorem eval_ok_backs_readings_guard : ∃ (e : Expr) (scope : Scope), e.eval scope = .ok (.str "k") ∧
    .type "x" ∈ e.readings scope.value ∧ .value "z" ∈ e.readings scope.value ∧ scope.Backs "z" := by
  let asks : Expr := binary .strictEq (unary .typeOf (name "x") .nowhere)
    (str "undefined" .nowhere) .nowhere
  let e : Expr := logical .and asks (name "z") .nowhere
  let scope : Scope := (Scope.empty.bind "x" (name "y")).bind "z" (str "k" .nowhere)
  have hz : .value "z" ∈ e.readings scope.value := .tail _ (.head _)
  exact ⟨e, scope, rfl, .head _, hz, (eval_ok_backs_readings e scope rfl).1 "z" hz⟩

/-- With `x` bound to the unbound name `y`, the type of `x` is asked for and found, although what
`x` is bound to has no value. -/
theorem typeOf_hides_failure :
    (unary .typeOf (name "x") .nowhere).eval (Scope.empty.bind "x" (name "y")) =
      .ok (.str "undefined") ∧
    .type "x" ∈ (unary .typeOf (name "x") .nowhere).readings
      (Scope.empty.bind "x" (name "y")).value ∧
    (Scope.empty.bind "x" (name "y")).lookup? "x" = some (name "y") ∧
      (name "y").eval .empty = .error (.unbound "y") :=
  ⟨rfl, .head _, rfl, rfl⟩

end Expr

end BranchPaint
