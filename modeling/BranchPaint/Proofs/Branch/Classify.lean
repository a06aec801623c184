import BranchPaint.Branch.Classify
import BranchPaint.Proofs.Store.Expression
import Mathlib

/-!
# What a classification says

A walk through a program comes upon its parameters and its branches, in an order that the program
alone fixes (`Program.visits`). The parameters seen so far, numbered in this order, and the list of
values tell what names stand for at a branch (`Scope.ofParams`): the `k`-th parameter has the `k`-th
value if there is one, and the last of a name counts.

With this `Program.classify_spec` says what the walk computes without speaking of its state: an
error is that of the first branch whose test has no value, and the two sets of lines are described
by the branches whose tests hold or do not hold and by the chains of `else if` behind those that
hold.
-/

namespace BranchPaint

/-! ## The order of visits -/

/-- What a walk comes upon. -/
inductive Visit where
  | param (name : String)
  /-- A branch, by its test, the line on which it starts, and what stands behind its `else`. -/
  | branch (test : Expr) (line : Nat) (alternate : Option Stmt)

mutual

/-- What a walk through a statement comes upon, in order. -/
def Stmt.visits : Stmt → List Visit
  | .function _ ps body _ => ps.map .param ++ visitsAll body
  | .branch t c none s => .branch t s.startLine none :: c.visits
  | .branch t c (some a) s => .branch t s.startLine (some a) :: (c.visits ++ a.visits)
  | .whileLoop _ body _ | .forLoop _ _ _ body _ => body.visits
  | .block body _ => visitsAll body
  | .declare _ _ _ | .ret _ _ | .expr _ _ | .breakLoop _ | .continueLoop _ | .empty _ => []

/-- What a walk through statements comes upon, in order. -/
def Stmt.visitsAll : List Stmt → List Visit
  | [] => []
  | s :: ss => s.visits ++ visitsAll ss

end

/-- What a walk through a program comes upon, in order. -/
def Program.visits (p : Program) : List Visit := Stmt.visitsAll p.body

/-- The name of a parameter. -/
def Visit.param? : Visit → Option String
  | param name => some name
  | branch _ _ _ => none

/-- The parameters among visits, in order. -/
def paramsOf (vs : List Visit) : List String := vs.filterMap Visit.param?

/-- The parameters among visits are found one after the other. -/
theorem paramsOf_append (vs vs' : List Visit) :
    paramsOf (vs ++ vs') = paramsOf vs ++ paramsOf vs' := List.filterMap_append

/-- Visits of parameters only are these parameters. -/
theorem paramsOf_params (params : List String) : paramsOf (params.map .param) = params := by
  unfold paramsOf
  rw [List.filterMap_map]
  exact List.filterMap_some

/-- Parameters and their values: each has the value of its number, if there is one, and the last of
a name counts. -/
def Scope.ofParams (params : List String) (values : List Expr) : Scope :=
  ⟨(params.zip values).reverse⟩

/-- The first parts of pairs are as many as there are second parts. -/
theorem map_fst_zip_eq_take {α β : Type} (xs : List α) (ys : List β) :
    (xs.zip ys).map Prod.fst = xs.take ys.length := by
  induction xs generalizing ys with
  | nil => simp
  | cons x xs ih =>
    cases ys with
    | nil => rfl
    | cons y ys => exact congrArg (x :: ·) (ih ys)

/-- The names that are bound are those of the parameters for which there are values. -/
theorem Scope.lookup?_ofParams_eq_none {params : List String} {values : List Expr} {name : String} :
    (Scope.ofParams params values).lookup? name = none ↔ name ∉ params.take values.length := by
  unfold lookup? ofParams
  rw [List.lookup_eq_none_iff, ← map_fst_zip_eq_take]
  simp only [List.mem_reverse, bne_iff_ne, List.mem_map, not_exists, not_and]
  exact ⟨fun h x hx heq => h x hx heq.symm, fun h x hx heq => h x hx heq.symm⟩

/-- The value of a test in front of which the given visits lie. -/
def valueAfter (values : List Expr) (before : List Visit) (test : Expr) : Except EvalCause Value :=
  test.eval (Scope.ofParams (paramsOf before) values)

/-! ## A walk goes through the visits -/

/-- One step of a walk. -/
def Walk.step (w : Walk) : Visit → Except EvalError Walk
  | .param name => .ok (w.bindParams [name])
  | .branch t line a => do
    let v ← t.evalAt w.scope line
    pure (w.mark line v.truthy a)

/-- A walk over parameters binds each of them. -/
theorem Walk.foldlM_params (ps : List String) (w : Walk) :
    (ps.map Visit.param).foldlM Walk.step w = .ok (w.bindParams ps) := by
  induction ps generalizing w with
  | nil => rfl
  | cons p ps ih =>
    obtain ⟨values, scope, taken, notTaken⟩ := w
    rw [List.map_cons, List.foldlM_cons]
    cases values
    all_goals exact ih _

mutual

/-- Walking over a statement takes its visits one by one. -/
theorem Stmt.walk_eq : (s : Stmt) → (w : Walk) → s.walk w = s.visits.foldlM Walk.step w
  | .function _ ps body _, w => by
    rw [walk, visits, List.foldlM_append, Walk.foldlM_params]
    exact walkAll_eq body _
  | .branch t c none s, w => by
    simp only [walk, visits, List.foldlM_cons, Walk.step, bind_assoc, pure_bind, walk_eq c]
  | .branch t c (some a) s, w => by
    simp only [walk, visits, List.foldlM_cons, List.foldlM_append, Walk.step, bind_assoc, pure_bind,
      walk_eq c, walk_eq a]
  | .whileLoop _ body _, w | .forLoop _ _ _ body _, w => walk_eq body w
  | .block body _, w => walkAll_eq body w
  | .declare _ _ _, w | .ret _ _, w | .expr _ _, w | .breakLoop _, w | .continueLoop _, w
  | .empty _, w => rfl

/-- The same for statements in a row. -/
theorem Stmt.walkAll_eq :
    (ss : List Stmt) → (w : Walk) → walkAll ss w = (visitsAll ss).foldlM Walk.step w
  | [], w => rfl
  | s :: ss, w => by
    simp only [walkAll, visitsAll, List.foldlM_append, walk_eq s, walkAll_eq ss]

end

/-! ## Lines -/

namespace LineSet

variable (s t : LineSet) (line k : Nat)

/-- The empty set contains no line. -/
@[simp] theorem contains_empty : empty.contains k = false := rfl

/-- Inserting a line adds that line and nothing else. -/
@[simp] theorem contains_insert :
    (s.insert line).contains k = true ↔ k = line ∨ s.contains k = true := by
  simp [contains, insert, mem_insertAscending]

/-- Inserting lines adds these and nothing else. -/
theorem contains_insertAll (lines : List Nat) :
    (s.insertAll lines).contains k = true ↔ k ∈ lines ∨ s.contains k = true := by
  induction lines generalizing s with
  | nil => simp [insertAll]
  | cons n lines ih =>
    have hinsert := ih (s.insert n)
    unfold insertAll at hinsert ⊢
    rw [List.foldl_cons, hinsert, contains_insert, List.mem_cons]
    tauto

/-- A difference contains what the first set does and the second does not. -/
@[simp] theorem contains_diff :
    (s.diff t).contains k = true ↔ s.contains k = true ∧ ¬ t.contains k = true := by
  simp [contains, diff]

end LineSet

/-- A branch in the chain of `else if` that starts with what stands behind an `else`. -/
inductive InChain : Option Stmt → Stmt → Prop
  | first {t : Expr} {c : Stmt} {a : Option Stmt} {s : Span} : InChain (some (.branch t c a s))
      (.branch t c a s)
  | later {t : Expr} {c : Stmt} {a : Option Stmt} {s : Span} {b : Stmt} (h : InChain a b) :
      InChain (some (.branch t c a s)) b

/-- The lines that are ruled out are those of the branches in the chain. -/
theorem mem_ruledOut {a : Option Stmt} {line : Nat} :
    line ∈ ruledOut a ↔ ∃ b, InChain a b ∧ b.span.startLine = line := by
  constructor
  · intro h
    cases a with
    | none => cases h
    | some a =>
      induction a using Stmt.induction with
      | step a ih =>
      cases a with
      | branch t c alt s =>
        have hmem : line = s.startLine ∨ line ∈ ruledOut alt := by
          cases alt with
          | none => exact .inl (List.mem_singleton.1 h)
          | some alt => exact List.mem_cons.1 h
        rcases hmem with rfl | hmem
        · exact ⟨_, .first, rfl⟩
        · cases alt with
          | none => cases hmem
          | some alt =>
            obtain ⟨b, hb, hline⟩ := ih alt (by simp [Stmt.children]) hmem
            exact ⟨b, .later hb, hline⟩
      | _ => cases h
  · rintro ⟨b, hb, rfl⟩
    induction hb with
    | @first t c a s =>
      cases a
      all_goals exact List.mem_cons_self
    | @later t c a s b h ih =>
      cases a with
      | none => cases h
      | some a => exact List.mem_cons_of_mem _ ih

/-! ## The state of a walk behind some visits -/

/-- One more element on the left makes one more pair, if the right side has one left. -/
theorem zip_concat {α β : Type} (xs : List α) (x : α) (ys : List β) :
    (xs ++ [x]).zip ys = xs.zip ys ++ (ys.drop xs.length).head?.toList.map (x, ·) := by
  induction xs generalizing ys with
  | nil =>
    cases ys
    all_goals rfl
  | cons x' xs ih =>
    cases ys with
    | nil => rfl
    | cons y ys => simpa using ih ys

/-- Among the visits is a branch whose test has a value; its line, its alternative and the value
satisfy `Q`. -/
def MeetsBranch (values : List Expr) (done : List Visit) (Q : Nat → Option Stmt → Value → Prop) :
    Prop :=
  ∃ before t l a v, before ++ [.branch t l a] <+: done ∧ valueAfter values before t =
    .ok v ∧ Q l a v

/-- The branch holds and starts on the line. -/
def TakenOn (line : Nat) (l : Nat) (_ : Option Stmt) (v : Value) : Prop :=
  v.truthy = true ∧ l = line

/-- The branch does not hold and starts on the line, or it holds and a branch in the chain behind
its `else` starts there. -/
def RuledOutOn (line : Nat) (l : Nat) (a : Option Stmt) (v : Value) : Prop :=
  (v.truthy = false ∧ l = line) ∨ (v.truthy = true ∧ ∃ b, InChain a b ∧ b.span.startLine = line)

/-- What the state of a walk is behind the given visits. -/
structure Walk.After (values : List Expr) (done : List Visit) (w : Walk) : Prop where
  left : w.values = values.drop (paramsOf done).length
  scope : w.scope = Scope.ofParams (paramsOf done) values
  decided {before : List Visit} {t : Expr} {l : Nat} {a : Option Stmt} :
    before ++ [.branch t l a] <+: done → ∃ v, valueAfter values before t = .ok v
  taken (line : Nat) : w.taken.contains line = true ↔ MeetsBranch values done (TakenOn line)
  notTaken (line : Nat) : w.notTaken.contains line = true ↔
    MeetsBranch values done (RuledOutOn line)

namespace Walk.After

variable {values : List Expr} {done : List Visit} {w : Walk}

/-- A walk starts with all values and no visits. -/
theorem start (values : List Expr) : (Walk.start values).After values [] where
  left := rfl
  scope := rfl
  decided h := by simp at h
  taken line := by simp [Walk.start, MeetsBranch]
  notTaken line := by simp [Walk.start, MeetsBranch]

/-- A branch among the visits and one more is among them, or is the one more. -/
theorem concat_prefix_concat {before : List Visit} {b v : Visit} :
    before ++ [b] <+: done ++ [v] ↔ (before = done ∧ b = v) ∨ before ++ [b] <+: done := by
  rw [List.prefix_concat_iff]
  refine or_congr_left ⟨fun h => ?_, fun ⟨h, hb⟩ => by rw [h, hb]⟩
  obtain ⟨hdone, hv⟩ := List.append_inj' h rfl
  exact ⟨hdone, List.singleton_inj.1 hv⟩

/-- Behind a parameter. -/
theorem param (h : w.After values done) (name : String) :
    (w.bindParams [name]).After values (done ++ [.param name]) := by
  have hparams : paramsOf (done ++ [.param name]) = paramsOf done ++ [name] := by
    simp [paramsOf, Visit.param?]
  have hbranch {before : List Visit} {t : Expr} {l : Nat} {a : Option Stmt} :
      before ++ [.branch t l a] <+: done ++ [.param name] ↔ before ++ [.branch t l a] <+: done := by
    simp [concat_prefix_concat]
  have hscope : Scope.ofParams (paramsOf (done ++ [.param name])) values =
      ⟨(values.drop (paramsOf done).length).head?.toList.map (name, ·) ++ w.scope.entries⟩ := by
    rw [hparams, h.scope]
    unfold Scope.ofParams
    rw [zip_concat]
    cases values.drop (paramsOf done).length
    all_goals simp
  have hleft := h.left
  cases hvalues : values.drop (paramsOf done).length with
  | nil =>
    rw [hvalues] at hscope hleft
    have hsame : w.bindParams [name] = w := by simp [bindParams, hleft]
    rw [hsame]
    refine ⟨?_, hscope.symm, fun hpre => h.decided (hbranch.1 hpre), fun line => ?_, fun line => ?_⟩
    · rw [hleft, hparams, List.length_append, ← List.drop_drop, hvalues, List.drop_nil]
    · simp only [h.taken line, MeetsBranch, hbranch]
    · simp only [h.notTaken line, MeetsBranch, hbranch]
  | cons v vs =>
    rw [hvalues] at hscope hleft
    have hbound : w.bindParams [name] = ⟨vs, w.scope.bind name v, w.taken, w.notTaken⟩ := by
      simp [bindParams, hleft]
    rw [hbound]
    refine ⟨?_, hscope.symm, fun hpre => h.decided (hbranch.1 hpre), fun line => ?_, fun line => ?_⟩
    · rw [hparams, List.length_append, ← List.drop_drop, hvalues]
      rfl
    · simp only [h.taken line, MeetsBranch, hbranch]
    · simp only [h.notTaken line, MeetsBranch, hbranch]

/-- One more visit of a branch is met, or one met before is. -/
theorem meetsBranch_concat {t : Expr} {v : Value} (hv : valueAfter values done t = .ok v) {l : Nat}
    {a : Option Stmt} {Q : Nat → Option Stmt → Value → Prop} :
    MeetsBranch values (done ++ [.branch t l a]) Q ↔ Q l a v ∨ MeetsBranch values done Q := by
  constructor
  · rintro ⟨before, t', l', a', v', hpre, hv', hQ⟩
    rcases concat_prefix_concat.1 hpre with ⟨rfl, hb⟩ | hpre
    · cases hb
      rw [hv] at hv'
      cases hv'
      exact .inl hQ
    · exact .inr ⟨before, t', l', a', v', hpre, hv', hQ⟩
  · rintro (hQ | ⟨before, t', l', a', v', hpre, hv', hQ⟩)
    · exact ⟨done, t, l, a, v, List.prefix_rfl, hv, hQ⟩
    · exact ⟨before, t', l', a', v', concat_prefix_concat.2 (.inr hpre), hv', hQ⟩

/-- Behind a branch whose test has a value. -/
theorem branch (h : w.After values done) {t : Expr} {v : Value}
    (hv : valueAfter values done t = .ok v) (l : Nat) (a : Option Stmt) :
    (w.mark l v.truthy a).After values (done ++ [.branch t l a]) := by
  have hparams : paramsOf (done ++ [.branch t l a]) = paramsOf done := by
    simp [paramsOf, Visit.param?]
  have hkept : (w.mark l v.truthy a).values = w.values ∧ (w.mark l v.truthy a).scope = w.scope := by
    unfold mark
    split
    all_goals exact ⟨rfl, rfl⟩
  refine ⟨?_, ?_, fun {before t' l' a'} hpre => ?_, fun line => ?_, fun line => ?_⟩
  · rw [hkept.1, hparams, h.left]
  · rw [hkept.2, hparams, h.scope]
  · rcases concat_prefix_concat.1 hpre with ⟨rfl, hb⟩ | hpre
    · cases hb
      exact ⟨v, hv⟩
    · exact h.decided hpre
  · rw [meetsBranch_concat hv, ← h.taken line]
    cases htruthy : v.truthy with
    | true => simp [mark, TakenOn, htruthy, @eq_comm Nat line l]
    | false => simp [mark, TakenOn, htruthy]
  · rw [meetsBranch_concat hv, ← h.notTaken line]
    cases htruthy : v.truthy with
    | true => simp [mark, RuledOutOn, htruthy, LineSet.contains_insertAll, mem_ruledOut]
    | false => simp [mark, RuledOutOn, htruthy, @eq_comm Nat line l]

/-- A walk from here on: behind all visits, or stopped at the first branch whose test has no
value. -/
theorem run (h : w.After values done) (rest : List Visit) :
    (∃ w', rest.foldlM Walk.step w = .ok w' ∧ w'.After values (done ++ rest)) ∨
      ∃ before t l a c w', rest.foldlM Walk.step w = .error ⟨l, c⟩ ∧ before ++ [.branch t l a] <+:
        done ++ rest ∧
        valueAfter values before t = .error c ∧ Walk.After values before w' := by
  induction rest generalizing done w with
  | nil => exact .inl ⟨w, rfl, by rwa [List.append_nil]⟩
  | cons v rest ih =>
    rw [List.append_cons, List.foldlM_cons]
    cases v with
    | param name => exact ih (h.param name)
    | branch t l a =>
      have hstep : w.step (.branch t l a) =
          ((valueAfter values done t).mapError fun c => ⟨l, c⟩) >>= fun v =>
          pure (w.mark l v.truthy a) := by
        simp only [step, Expr.evalAt, valueAfter, h.scope]
      cases hvalue : valueAfter values done t with
      | error c =>
        rw [hstep, hvalue]
        exact .inr ⟨done, t, l, a, c, w, rfl, List.prefix_append _ _, hvalue, h⟩
      | ok v =>
        rw [hstep, hvalue]
        exact ih (h.branch hvalue l a)

end Walk.After

/-! ## The classification -/

/-- A classification succeeds behind all visits, or fails at the first branch whose test has no
value. -/
theorem Program.classify_cases (p : Program) (values : List Expr) :
    (∃ w, p.classify values = .ok ⟨w.taken.diff w.notTaken, w.notTaken⟩ ∧
      Walk.After values p.visits w) ∨
      ∃ before t l a c w, p.classify values = .error ⟨l, c⟩ ∧
        before ++ [.branch t l a] <+: p.visits ∧
        valueAfter values before t = .error c ∧ Walk.After values before w := by
  unfold classify
  rw [Stmt.walkAll_eq]
  rcases (Walk.After.start values).run p.visits with
    ⟨w, hrun, hafter⟩ | ⟨before, t, l, a, c, w, hrun, hpre, hvalue, hafter⟩
  · refine .inl ⟨w, ?_, hafter⟩
    unfold visits at hrun
    rw [hrun]
    rfl
  · refine .inr ⟨before, t, l, a, c, w, ?_, hpre, hvalue, hafter⟩
    unfold visits at hrun
    rw [hrun]
    rfl

/-- What a classification says, for all programs and all lists of values.

It fails if and only if some branch has a test without value; the error is then that of the first
such branch, with the line on which it starts. Otherwise the lines that are not taken are those of
the branches that do not hold or lie in the chain of `else if` behind a branch that holds, and the
lines taken are those of the branches that hold, without the former. -/
theorem Program.classify_spec (p : Program) (values : List Expr) :
    ((∃ err, p.classify values = .error err) ↔
      ∃ before t l a c, before ++ [.branch t l a] <+: p.visits ∧
        valueAfter values before t = .error c) ∧
    (∀ err, p.classify values = .error err →
      ∃ before t a, before ++ [.branch t err.line a] <+: p.visits ∧
        valueAfter values before t = .error err.cause ∧
        ∀ before' t' l' a', before' ++ [.branch t' l' a'] <+: before →
          ∃ v, valueAfter values before' t' = .ok v) ∧
    (∀ c, p.classify values = .ok c → ∀ line,
      (c.notTaken.contains line = true ↔ MeetsBranch values p.visits (RuledOutOn line)) ∧
      (c.taken.contains line = true ↔ MeetsBranch values p.visits (TakenOn line) ∧
        ¬ c.notTaken.contains line = true)) := by
  rcases p.classify_cases values with
    ⟨w, hclassify, hafter⟩ | ⟨before, t, l, a, c, w, hclassify, hpre, hvalue, hafter⟩
  · rw [hclassify]
    refine ⟨⟨fun ⟨err, h⟩ => (by cases h), fun ⟨before, t, l, a, c, hpre, hvalue⟩ => ?_⟩,
      fun err h => (by cases h), fun c h line => ?_⟩
    · obtain ⟨v, hv⟩ := hafter.decided hpre
      rw [hv] at hvalue
      cases hvalue
    · cases h
      refine ⟨hafter.notTaken line, ?_⟩
      rw [LineSet.contains_diff, hafter.taken line]
  · rw [hclassify]
    refine ⟨⟨fun _ => ⟨before, t, l, a, c, hpre, hvalue⟩, fun _ => ⟨_, rfl⟩⟩, fun err h => ?_,
      fun c h => (by cases h)⟩
    cases h
    exact ⟨before, t, a, hpre, hvalue, fun _ _ _ _ hpre' => hafter.decided hpre'⟩

end BranchPaint
