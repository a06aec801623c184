import BranchPaint.Proofs.Branch.Lines
import BranchPaint.Proofs.Inline.Function
import BranchPaint.Report

/-!
# What a report says about the run

A report on a function without loops tells the truth about the function as it was written: for each
branch that a run of the function comes to, the line of this branch in the simplified source is
marked as taken if its test held in the run, and as not taken if it did not
(`Style.analyze_tells_run`).

Four facts meet here. The inlined function runs as the function does, test by test
(`Stmt.execAll_inline`). Its canonical text reads back, with each branch on a line of its own
(`Program.parse_text`). The classification evaluates the same tests under the same values
(`Program.classify_cases`). And the chains of `else if` never rule out a branch that the run came
to, because the run came to it past tests that did not hold (`Stmt.told_of_exec`).
-/

namespace BranchPaint

/-! ## What the visits tell about a line -/

/-- Over the values `ρ`, the visits tell that the test on the line comes out as `b`: so it does at a
branch on this line and at no other branch there, and no branch that holds rules out the line. -/
structure Told (ρ : Store) (vs : List Visit) (line : Nat) (b : Bool) : Prop where
  met : ∃ t a v, .branch t line a ∈ vs ∧ t.evalWith ρ = .ok v ∧ v.truthy = b
  alone {t : Expr} {l : Nat} {a : Option Stmt} {v : Value} : .branch t l a ∈ vs →
    t.evalWith ρ = .ok v → (l = line → v.truthy = b) ∧ (v.truthy = true → line ∉ ruledOut a)

/-- Further visits change nothing, if they are of branches on other lines and none of them that
holds rules out this one. -/
theorem Told.of_subset {ρ : Store} {vs ws : List Visit} {line : Nat} {b : Bool}
    (h : Told ρ vs line b) (hsub : vs ⊆ ws)
    (hmore : ∀ {t l a v}, .branch t l a ∈ ws → .branch t l a ∉ vs → t.evalWith ρ = .ok v →
      l ≠ line ∧ (v.truthy = true → line ∉ ruledOut a)) :
    Told ρ ws line b := by
  obtain ⟨t, a, v, hmem, hv⟩ := h.met
  refine ⟨⟨t, a, v, hsub hmem, hv⟩, fun {t l a v} hmem hv => ?_⟩
  by_cases hin : Visit.branch t l a ∈ vs
  · exact h.alone hin hv
  · obtain ⟨hline, hruled⟩ := hmore hmem hin hv
    exact ⟨fun hl => absurd hl hline, hruled⟩

namespace Stmt

/-- Behind `else` there are as many branches as lines of branches. -/
theorem branchCountElse_eq (a : Option Stmt) : branchCountElse a = (branchLinesElse a).length := by
  cases a
  all_goals rfl

/-- What is visited behind `else` stands there, and so does what it rules out. -/
theorem lines_of_mem_visitsElse {t : Expr} {l : Nat} {b a : Option Stmt}
    (h : .branch t l b ∈ visitsElse a) :
    l ∈ branchLinesElse a ∧ ruledOut b ⊆ branchLinesElse a := by
  cases a with
  | none => cases h
  | some a => exact lines_of_mem_visits a h

/-- What is ruled out stands behind `else`. -/
theorem ruledOut_subset (a : Option Stmt) : ruledOut a ⊆ branchLinesElse a := by
  cases a with
  | none => exact List.nil_subset _
  | some a => exact a.chainLines_subset

/-- What holds without results holds of all branches that are not reached. -/
theorem forall₂_unreached {R : Nat → List Bool → Prop} (hR : ∀ line, R line []) (lines : List Nat) :
    List.Forall₂ R lines (unreached lines.length) := by
  induction lines with
  | nil => exact .nil
  | cons line lines ih => exact .cons (hR line) ih

/-- The visits tell how the tests come out, line by line. -/
def TellsAll (ρ : Store) (vs : List Visit) (lines : List Nat) (tests : List (List Bool)) : Prop :=
  List.Forall₂ (fun line results => ∀ b ∈ results, Told ρ vs line b) lines tests

/-- Nothing need be told of branches that are not reached. -/
theorem TellsAll.unreached (ρ : Store) (vs : List Visit) (lines : List Nat) :
    TellsAll ρ vs lines (unreached lines.length) :=
  forall₂_unreached (fun _ _ hb => absurd hb List.not_mem_nil) lines

/-- Further visits that have nothing to do with the lines change nothing. -/
theorem TellsAll.mono {ρ : Store} {vs ws : List Visit} {lines : List Nat} {tests : List (List Bool)}
    (h : TellsAll ρ vs lines tests) (hvs : ∀ {t l a}, .branch t l a ∈ vs → l ∈ lines)
    (hsub : vs ⊆ ws) (hmore : ∀ {t l a v}, .branch t l a ∈ ws → .branch t l a ∉ vs →
      t.evalWith ρ = .ok v → l ∉ lines ∧ (v.truthy = true → ∀ k ∈ ruledOut a, k ∉ lines)) :
    TellsAll ρ ws lines tests := by
  refine List.Forall₂.imp (fun line results htold b hb => ?_) h
  obtain ⟨t, a, v, hmem, -⟩ := (htold b hb).met
  have hline := hvs hmem
  refine (htold b hb).of_subset hsub fun hmem hnot hv => ?_
  obtain ⟨hl, hruled⟩ := hmore hmem hnot hv
  exact ⟨fun heq => hl (heq ▸ hline), fun htrue hk => hruled htrue line hk hline⟩

/-- What is told of two rows of branches is told of both together. -/
theorem TellsAll.append {ρ : Store} {vs : List Visit} {lines lines' : List Nat}
    {tests tests' : List (List Bool)} (h : TellsAll ρ vs lines tests)
    (h' : TellsAll ρ vs lines' tests') : TellsAll ρ vs (lines ++ lines') (tests ++ tests') :=
  List.rel_append h h'

/-- The results of a branch are told by its line. -/
theorem TellsAll.exists_line {ρ : Store} {vs : List Visit} {lines : List Nat}
    {tests : List (List Bool)} (h : TellsAll ρ vs lines tests) {j : Nat} {results : List Bool}
    (hj : tests[j]? = some results) :
    ∃ line, lines[j]? = some line ∧ ∀ b ∈ results, Told ρ vs line b := by
  obtain ⟨hlt, rfl⟩ := List.getElem?_eq_some_iff.1 hj
  have hlt' : j < lines.length := h.length_eq ▸ hlt
  exact ⟨lines[j], List.getElem?_eq_getElem hlt', h.get hlt' hlt⟩

mutual

/-- If statements that store nothing are run, then the walk's visits tell how the tests come out. -/
theorem told_of_exec {rounds : Nat} {ρ : Store} :
    (s : Stmt) → s.Forall Storeless → s.ForallExpr Expr.Formed →
    s.branchLines.Nodup → {out : RunResult} → s.exec rounds ρ = some out →
    TellsAll ρ s.visits s.branchLines out.tests ∧ out.store = ρ
  | .branch t c a s, hs, he, hnodup, out, h => by
    rw [branchLines_branch] at hnodup
    rw [branchLines_branch, visits_branch]
    obtain ⟨hfirst, hnodup⟩ := List.nodup_cons.1 hnodup
    obtain ⟨hc, ha, hdisjoint⟩ := List.nodup_append.1 hnodup
    obtain ⟨v, τ, ht, hside⟩ := exec_branch.1 h
    obtain ⟨hv, hτ⟩ :=
      (Expr.run_eq_ok_iff (he.here t List.mem_cons_self) (Expr.assigned_of_pure hs.here)).1 ht
    rw [hτ] at hside
    have hinc : c ∈ (branch t c a s).children := List.mem_cons_self
    have hhead :
        Told ρ (.branch t s.startLine a :: (c.visits ++ visitsElse a)) s.startLine v.truthy := by
      refine ⟨⟨t, a, v, List.mem_cons_self, hv, rfl⟩, fun {t' l' a' v'} hmem hv' => ?_⟩
      rcases List.mem_cons.1 hmem with hmem | hmem
      · cases hmem
        rw [hv] at hv'
        cases hv'
        exact ⟨fun _ => rfl, fun _ hk => hfirst (List.mem_append_right _ (ruledOut_subset a hk))⟩
      · have hlines : l' ∈ c.branchLines ++ branchLinesElse a ∧
            ruledOut a' ⊆ c.branchLines ++ branchLinesElse a := by
          rcases List.mem_append.1 hmem with hmem | hmem
          · obtain ⟨hl, hr⟩ := lines_of_mem_visits c hmem
            exact ⟨List.mem_append_left _ hl, fun k hk => List.mem_append_left _ (hr hk)⟩
          · obtain ⟨hl, hr⟩ := lines_of_mem_visitsElse hmem
            exact ⟨List.mem_append_right _ hl, fun k hk => List.mem_append_right _ (hr hk)⟩
        exact ⟨fun hl => absurd (hl ▸ hlines.1) hfirst, fun _ hk => hfirst (hlines.2 hk)⟩
    split at hside
    · rename_i htrue
      obtain ⟨o, ho, rfl⟩ := hside
      obtain ⟨htold, hstore⟩ := told_of_exec c (hs.inside c hinc) (he.inside c hinc) hc ho
      refine ⟨.cons (fun b hb => ?_) (TellsAll.append ?_ ?_), hstore⟩
      · obtain rfl := List.mem_singleton.1 hb
        rw [htrue] at hhead
        exact hhead
      · refine htold.mono (fun hmem => (lines_of_mem_visits c hmem).1) (fun x hx =>
          List.mem_cons_of_mem _ (List.mem_append_left _ hx)) fun {t' l' a' v'} hmem hnot _ => ?_
        rcases List.mem_cons.1 hmem with hmem | hmem
        · cases hmem
          exact ⟨fun hl => hfirst (List.mem_append_left _ hl),
            fun _ k hk hkc => hdisjoint k hkc k (ruledOut_subset a hk) rfl⟩
        · obtain ⟨hl, hr⟩ := lines_of_mem_visitsElse ((List.mem_append.1 hmem).resolve_left hnot)
          exact ⟨fun hlc => hdisjoint l' hlc l' hl rfl,
            fun _ k hk hkc => hdisjoint k hkc k (hr hk) rfl⟩
      · rw [branchCountElse_eq]
        exact TellsAll.unreached ρ _ _
    · rename_i hfalse
      obtain ⟨o, ho, rfl⟩ := hside
      have helse : TellsAll ρ (visitsElse a) (branchLinesElse a) o.tests ∧ o.store = ρ := by
        cases a with
        | none =>
          cases ho
          exact ⟨.nil, rfl⟩
        | some a =>
          have hina : a ∈ (branch t c (some a) s).children := by simp [children]
          exact told_of_exec a (hs.inside a hina) (he.inside a hina) ha ho
      refine ⟨.cons (fun b hb => ?_) (TellsAll.append (.unreached ρ _ _) ?_), helse.2⟩
      · obtain rfl := List.mem_singleton.1 hb
        rw [Bool.eq_false_of_not_eq_true hfalse] at hhead
        exact hhead
      · refine helse.1.mono (fun hmem => (lines_of_mem_visitsElse hmem).1) (fun x hx =>
          List.mem_cons_of_mem _ (List.mem_append_right _ hx)) fun {t' l' a' v'} hmem hnot hv' => ?_
        rcases List.mem_cons.1 hmem with hmem | hmem
        · -- this is the branch that the run passed by, since its test does not hold
          cases hmem
          rw [hv] at hv'
          cases hv'
          exact ⟨fun hl => hfirst (List.mem_append_right _ hl), fun htrue => absurd htrue hfalse⟩
        · obtain ⟨hl, hr⟩ := lines_of_mem_visits c ((List.mem_append.1 hmem).resolve_right hnot)
          exact ⟨fun hla => hdisjoint l' hl l' hla rfl,
            fun _ k hk hka => hdisjoint k (hr hk) k hka rfl⟩
  | .expr e s, hs, he, hnodup, out, h => by
    obtain ⟨v, τ, hrun, rfl⟩ := exec_expr.1 h
    exact ⟨.nil, ((Expr.run_eq_ok_iff (he.here e List.mem_cons_self)
        (Expr.assigned_of_pure hs.here)).1 hrun).2⟩
  | .ret none s, hs, he, hnodup, out, h => by
    cases h
    exact ⟨.nil, rfl⟩
  | .ret (some e) s, hs, he, hnodup, out, h => by
    obtain ⟨v, τ, hrun, rfl⟩ := exec_ret.1 h
    exact ⟨.nil, ((Expr.run_eq_ok_iff (he.here e List.mem_cons_self)
        (Expr.assigned_of_pure (hs.here e rfl))).1 hrun).2⟩
  | .block body s, hs, he, hnodup, out, h => told_of_execAll body hs.inside he.inside hnodup h
  | .empty s, hs, he, hnodup, out, h => by
    cases h
    exact ⟨.nil, rfl⟩
  | .function _ _ _ _, hs, he, hnodup, out, h | .declare _ _ _, hs, he, hnodup, out, h
  | .whileLoop _ _ _, hs, he, hnodup, out, h | .forLoop _ _ _ _ _, hs, he, hnodup, out, h
  | .breakLoop _, hs, he, hnodup, out, h | .continueLoop _, hs, he, hnodup, out, h => hs.here.elim

/-- The same for statements in a row. -/
theorem told_of_execAll {rounds : Nat} {ρ : Store} :
    (ss : List Stmt) → (∀ s ∈ ss, s.Forall Storeless) →
    (∀ s ∈ ss, s.ForallExpr Expr.Formed) → (branchLinesAll ss).Nodup → {out : RunResult} →
      execAll rounds ss ρ = some out →
    TellsAll ρ (visitsAll ss) (branchLinesAll ss) out.tests ∧ out.store = ρ
  | [], hs, he, hnodup, out, h => by
    cases h
    exact ⟨.nil, rfl⟩
  | s :: ss, hs, he, hnodup, out, h => by
    obtain ⟨hs, hss⟩ := List.forall_mem_cons.1 hs
    obtain ⟨he, hes⟩ := List.forall_mem_cons.1 he
    obtain ⟨hnodup, hnodups, hdisjoint⟩ := List.nodup_append.1 hnodup
    obtain ⟨o, ho, hrest⟩ := execAll_cons.1 h
    obtain ⟨htold, hstore⟩ := told_of_exec s hs he hnodup ho
    have htold : TellsAll ρ (visitsAll (s :: ss)) s.branchLines o.tests := by
      refine htold.mono (fun hmem => (lines_of_mem_visits s hmem).1)
        (fun x hx => List.mem_append_left _ hx) fun {t l a v} hmem hnot _ => ?_
      obtain ⟨hl, hr⟩ := lines_of_mem_visitsAll ss ((List.mem_append.1 hmem).resolve_left hnot)
      exact ⟨fun hls => hdisjoint l hls l hl rfl, fun _ k hk hks => hdisjoint k hks k (hr hk) rfl⟩
    rcases hrest with ⟨-, o', ho', rfl⟩ | ⟨v, -, rfl⟩
    · rw [hstore] at ho'
      obtain ⟨htolds, hstore'⟩ := told_of_execAll ss hss hes hnodups ho'
      refine ⟨htold.append (htolds.mono (fun hmem => (lines_of_mem_visitsAll ss hmem).1)
        (fun x hx => List.mem_append_right _ hx) fun {t l a v} hmem hnot _ => ?_), hstore'⟩
      obtain ⟨hl, hr⟩ := lines_of_mem_visits s ((List.mem_append.1 hmem).resolve_right hnot)
      exact ⟨fun hls => hdisjoint l hl l hls rfl, fun _ k hk hks => hdisjoint k (hr hk) k hks rfl⟩
    · exact ⟨htold.append (.unreached ρ _ _), hstore⟩

end

mutual

/-- Without functions inside, no parameter is visited. -/
theorem param?_of_mem_visits : (s : Stmt) → s.Forall Storeless → ∀ v ∈ s.visits, v.param? = none
  | .branch t c a s, hs, v, hv => by
    rw [visits_branch] at hv
    rcases List.mem_cons.1 hv with rfl | hv
    · rfl
    · rcases List.mem_append.1 hv with hv | hv
      · exact param?_of_mem_visits c (hs.inside c List.mem_cons_self) v hv
      · cases a with
        | none => cases hv
        | some a => exact param?_of_mem_visits a (hs.inside a (by simp [children])) v hv
  | .block body s, hs, v, hv => param?_of_mem_visitsAll body hs.inside v hv
  | .expr _ _, hs, v, hv | .ret _ _, hs, v, hv | .empty _, hs, v, hv => by cases hv
  | .function _ _ _ _, hs, v, hv | .declare _ _ _, hs, v, hv | .whileLoop _ _ _, hs, v, hv
  | .forLoop _ _ _ _ _, hs, v, hv
  | .breakLoop _, hs, v, hv | .continueLoop _, hs, v, hv => hs.here.elim

/-- The same for statements in a row. -/
theorem param?_of_mem_visitsAll :
    (ss : List Stmt) → (∀ s ∈ ss, s.Forall Storeless) → ∀ v ∈ visitsAll ss, v.param? = none
  | [], hs, v, hv => by cases hv
  | s :: ss, hs, v, hv => by
    obtain ⟨hs, hss⟩ := List.forall_mem_cons.1 hs
    rcases List.mem_append.1 hv with hv | hv
    · exact param?_of_mem_visits s hs v hv
    · exact param?_of_mem_visitsAll ss hss v hv

end

end Stmt

/-! ## The classification of a single function -/

/-- One value for each parameter: names stand for what they do when the function starts. -/
theorem Scope.value_ofParams {params : List String} {values : List Expr}
    (hlength : values.length = params.length) {args : String → Value}
    (hargs : ∀ x ∈ params.zip values, x.2.evalWith builtinName = .ok (args x.1)) :
    (Scope.ofParams params values).value = Store.entry params args := by
  funext n
  unfold value Store.entry
  cases hlookup : (Scope.ofParams params values).lookup? n with
  | some e =>
    have hmem : (n, e) ∈ params.zip values := List.mem_reverse.1 (mem_entries_of_lookup? hlookup)
    rw [if_pos (List.of_mem_zip hmem).1]
    exact hargs _ hmem
  | none =>
    have hnot := Scope.lookup?_ofParams_eq_none.1 hlookup
    rw [hlength, List.take_length] at hnot
    rw [if_neg hnot]

/-- In front of a branch in the body of a function lie all its parameters. -/
theorem exists_of_prefix {params : List String} {body before : List Visit} {t : Expr} {l : Nat}
    {a : Option Stmt} (h : before ++ [.branch t l a] <+: params.map .param ++ body) :
    ∃ inner, before = params.map .param ++ inner ∧ inner ++ [.branch t l a] <+: body := by
  have hnot : Visit.branch t l a ∉ params.map Visit.param := by simp
  rcases List.prefix_or_prefix_of_prefix h (List.prefix_append _ _) with hpre | hpre
  · exact absurd (hpre.subset (by simp)) hnot
  · rcases List.prefix_concat_iff.1 hpre with heq | ⟨inner, rfl⟩
    · exact absurd (heq ▸ by simp) hnot
    · rw [List.append_assoc, List.prefix_append_right_inj] at h
      exact ⟨inner, rfl, h⟩

/-- What the walk through a single function without inner functions meets. -/
theorem meetsBranch_iff {params : List String} {values : List Expr} {body : List Visit} {ρ : Store}
    (hρ : (Scope.ofParams params values).value = ρ) (hbody : ∀ v ∈ body, v.param? = none)
    {Q : Nat → Option Stmt → Value → Prop} :
    MeetsBranch values (params.map .param ++ body) Q ↔
      ∃ t l a v, .branch t l a ∈ body ∧ t.evalWith ρ = .ok v ∧ Q l a v := by
  have hvalue {inner : List Visit} (hinner : inner ⊆ body) (t : Expr) :
      valueAfter values (params.map .param ++ inner) t = t.evalWith ρ := by
    have hnone : paramsOf inner = [] := List.filterMap_eq_nil_iff.2 fun v hv => hbody v (hinner hv)
    unfold valueAfter Expr.eval
    rw [paramsOf_append, paramsOf_params, hnone, List.append_nil, hρ]
  constructor
  · rintro ⟨before, t, l, a, v, hpre, hv, hQ⟩
    obtain ⟨inner, rfl, hinner⟩ := exists_of_prefix hpre
    rw [hvalue (fun v hv => hinner.subset (List.mem_append_left _ hv))] at hv
    exact ⟨t, l, a, v, hinner.subset (by simp), hv, hQ⟩
  · rintro ⟨t, l, a, v, hmem, hv, hQ⟩
    obtain ⟨inner, rest, rfl⟩ := List.append_of_mem hmem
    refine ⟨params.map .param ++ inner, t, l, a, v, ⟨rest, by simp⟩, ?_, hQ⟩
    rw [hvalue (List.subset_append_left _ _)]
    exact hv

/-- If the visits tell how a test comes out, then the classification marks its line accordingly. -/
theorem Told.classify {params : List String} {values : List Expr} {body : List Visit} {ρ : Store}
    (hρ : (Scope.ofParams params values).value = ρ) (hbody : ∀ v ∈ body, v.param? = none)
    {w : Walk} (hw : w.After values (params.map .param ++ body)) {line : Nat} {b : Bool}
    (h : Told ρ body line b) :
    (w.taken.diff w.notTaken).contains line = b ∧ w.notTaken.contains line = !b := by
  have htaken := (hw.taken line).trans (meetsBranch_iff hρ hbody)
  have hnotTaken := (hw.notTaken line).trans (meetsBranch_iff hρ hbody)
  obtain ⟨t, a, v, hmem, hv, htruthy⟩ := h.met
  cases b with
  | true =>
    have hout : ¬ w.notTaken.contains line = true := by
      rw [hnotTaken]
      rintro ⟨t', l', a', v', hmem', hv', ⟨hfalse, rfl⟩ | ⟨htrue, hchain⟩⟩
      · rw [(h.alone hmem' hv').1 rfl] at hfalse
        cases hfalse
      · exact (h.alone hmem' hv').2 htrue (mem_ruledOut.2 hchain)
    refine ⟨?_, Bool.eq_false_of_not_eq_true hout⟩
    exact (LineSet.contains_diff _ _ _).2 ⟨htaken.2 ⟨t, line, a, v, hmem, hv, htruthy, rfl⟩, hout⟩
  | false =>
    have hin : w.notTaken.contains line = true :=
      hnotTaken.2 ⟨t, line, a, v, hmem, hv, .inl ⟨htruthy, rfl⟩⟩
    refine ⟨Bool.eq_false_of_not_eq_true fun hdiff => ?_, hin⟩
    exact ((LineSet.contains_diff _ _ _).1 hdiff).2 hin

/-! ## The text in between -/

/-- Whether an expression is pure does not depend on where it stands. -/
theorem Expr.pure_eraseSpans (e : Expr) : e.eraseSpans.Pure ↔ e.Pure := by
  cases e
  all_goals rfl

/-- Nor does whether a statement stores. -/
theorem Stmt.storeless_eraseSpans (s : Stmt) : s.eraseSpans.Storeless ↔ s.Storeless := by
  have hpure := Expr.forall_eraseSpans Expr.pure_eraseSpans
  cases s with
  | branch t c a s =>
    cases a
    all_goals exact hpure t
  | expr e s => exact hpure e
  | ret v s =>
    cases v with
    | none => simp [eraseSpans, Storeless]
    | some e => simpa [eraseSpans, Storeless] using hpure e
  | _ => rfl

/-- A program that is a single function up to spans is a single function. -/
theorem Program.exists_of_eraseSpans_function {q : Program} {name : String}
    {params : List String} {body : List Stmt} {s s' : Span}
    (h : q.eraseSpans = (⟨[.function name params body s], s'⟩ : Program).eraseSpans) :
    ∃ body' t t', q = ⟨[.function name params body' t], t'⟩ ∧
      Stmt.eraseSpansAll body' = Stmt.eraseSpansAll body := by
  obtain ⟨ss, t'⟩ := q
  have hbody : Stmt.eraseSpansAll ss = [.function name params (Stmt.eraseSpansAll body) .nowhere] :=
    congrArg Program.body h
  rw [Stmt.eraseSpansAll_eq] at hbody
  obtain ⟨f, rfl, hf⟩ := List.map_eq_singleton_iff.1 hbody
  cases f with
  | function name' params' body' t =>
    rw [Stmt.eraseSpans] at hf
    injection hf with hname hparams hbody'
    subst hname hparams
    exact ⟨body', t, t', rfl, hbody'⟩
  | branch _ _ a _ =>
    cases a
    all_goals cases hf
  | _ => cases hf

/-- Another name for its error does not change what succeeds. -/
theorem ok_of_mapError {ε ε' α : Type} {f : ε → ε'} {x : Except ε α} {a : α}
    (h : x.mapError f = .ok a) : x = .ok a := by
  cases x with
  | error _ => cases h
  | ok _ => exact congrArg Except.ok (Except.ok.inj h)

/-- What a painting is made of. -/
theorem Style.paint_eq_ok {style : Style} {source params : String} {painting : Painting}
    (h : style.paint source params = .ok painting) :
    ∃ p values, Program.parse source = .ok p ∧ readValues params = .ok values ∧
      p.classify values = .ok painting.classification ∧
        painting.html = style.palette.html painting.classification source := by
  obtain ⟨p, hp, h⟩ := bind_eq_ok.1 h
  obtain ⟨values, hvalues, h⟩ := bind_eq_ok.1 h
  obtain ⟨c, hc, h⟩ := bind_eq_ok.1 h
  cases h
  exact ⟨p, values, ok_of_mapError hp, ok_of_mapError hvalues, ok_of_mapError hc, rfl⟩

/-- What a report is made of. -/
theorem Style.analyze_eq_ok {style : Style} {source params : String} {report : Report}
    (h : style.analyze source params = .ok report) : ∃ p q values, Program.parse source = .ok p ∧
      report.simplified = p.inline.text style.width ∧ Program.parse report.simplified = .ok q ∧
      readValues params = .ok values ∧ q.classify values = .ok report.classification := by
  obtain ⟨simplified, hsimplified, h⟩ := bind_eq_ok.1 h
  obtain ⟨painting, hpainting, h⟩ := bind_eq_ok.1 h
  cases h
  obtain ⟨p, hp, hsimplified⟩ := bind_eq_ok.1 hsimplified
  cases hsimplified
  obtain ⟨q, values, hq, hvalues, hc, -⟩ := paint_eq_ok hpainting
  exact ⟨p, q, values, ok_of_mapError hp, rfl, hq, hvalues, hc⟩

/-- Inlining, printing and reading: the function that is painted stores nothing, has each branch on
a line of its own, and passes the same tests as the function that was written. -/
theorem Program.exists_parse_inline {source : String} {name : String}
    {params : List String} {body : List Stmt} {s s' : Span}
    (hparse : Program.parse source = .ok ⟨[.function name params body s], s'⟩)
    (hfinite : (⟨[.function name params body s], s'⟩ : Program).ForallExpr Expr.FiniteNumber)
    (hshort : (⟨[.function name params body s], s'⟩ : Program).ForallExpr Expr.ShortList)
    (hundef : "undefined" ∉ params) (hl : ∀ s ∈ body, s.Forall Stmt.LoopFree) (width : Nat) :
    ∃ body' t t',
      Program.parse ((⟨[.function name params body s], s'⟩ : Program).inline.text width) =
        .ok ⟨[.function name params body' t], t'⟩ ∧
      (∀ s ∈ body', s.Forall Stmt.Storeless) ∧ (∀ s ∈ body', s.ForallExpr Expr.Formed) ∧
        (Stmt.branchLinesAll body').Nodup ∧
      ∀ {args : String → Value} {rounds : Nat} {out : RunResult},
        Stmt.execAll rounds body (Store.entry params args) = some out →
        Stmt.execAll rounds body' (Store.entry params args) =
          some ⟨out.flow, Store.entry params args, out.tests⟩ := by
  obtain ⟨hformed, hplain⟩ := Program.plain_of_parse hparse hfinite hshort
  obtain ⟨-, hreadable⟩ := Program.readable_of_parse hparse hfinite
  obtain ⟨hformed', hreadable'⟩ := Program.inline_readable hformed hreadable
  obtain ⟨q, hq, herase, hlines⟩ := Program.parse_text width _ hformed' hreadable'
  rw [Program.inline_function] at herase
  obtain ⟨body', t, t', rfl, hbody⟩ := Program.exists_of_eraseSpans_function herase
  have hfunction := List.forall_mem_singleton.1 hformed
  have hexprs := List.forall_mem_singleton.1 hplain
  refine ⟨body', t, t', hq, ?_, ?_, ?_, fun {args rounds out} hrun => ?_⟩
  · exact Stmt.forall_of_eraseSpansAll Stmt.storeless_eraseSpans hbody.symm
      (Stmt.inlineAll_storeless body hl (Scope.Forall.empty.bindOpaque fun _ _ => trivial)).1
  · exact (List.forall_mem_singleton.1 (Program.formed_of_parse hq).2).inside
  · have hall : Stmt.branchLinesAll body' ++ [] =
        (⟨[.function name params body' t], t'⟩ : Program).branchLines := rfl
    rw [← List.append_nil (Stmt.branchLinesAll body'), hall]
    exact hlines.imp Nat.ne_of_lt
  · rw [← Stmt.execAll_eraseSpans, hbody, Stmt.execAll_eraseSpans]
    exact Stmt.execAll_inline hfunction.here.2 hundef hl hfunction.inside hexprs.inside hrun

/-- A report tells the truth about the function as it was written. Take a text that is read as one
function without loops, and one value for each of its parameters. If the function runs to an end on
these values, and there is a report, then for the `j`-th branch of the function, each time its test
came out as `b` in the run: the line of the `j`-th branch of the simplified source is taken or not
as `b` says. -/
theorem Style.analyze_tells_run (style : Style) {source params : String}
    {name : String} {ps : List String} {body : List Stmt} {s s' : Span}
    (hparse : Program.parse source = .ok ⟨[.function name ps body s], s'⟩)
    (hfinite : (⟨[.function name ps body s], s'⟩ : Program).ForallExpr Expr.FiniteNumber)
    (hshort : (⟨[.function name ps body s], s'⟩ : Program).ForallExpr Expr.ShortList)
    (hundef : "undefined" ∉ ps) (hl : ∀ s ∈ body, s.Forall Stmt.LoopFree) {values : List Expr}
    (hvalues : readValues params = .ok values) (hlength : values.length = ps.length)
    {args : String → Value} (hargs : ∀ x ∈ ps.zip values, x.2.evalWith builtinName = .ok (args x.1))
    {rounds : Nat} {out : RunResult}
    (hrun : Stmt.execAll rounds body (Store.entry ps args) = some out) {report : Report}
    (hreport : style.analyze source params = .ok report) :
    ∃ q, Program.parse report.simplified = .ok q ∧ q.branchLines.length = out.tests.length ∧
      ∀ (j : Nat) (results : List Bool), out.tests[j]? = some results →
        ∀ b ∈ results, ∃ line, q.branchLines[j]? = some line ∧
        report.classification.taken.contains line = b ∧
          report.classification.notTaken.contains line = !b := by
  obtain ⟨p, q, values', hp, hsimplified, hq, hvalues', hclassify⟩ := Style.analyze_eq_ok hreport
  rw [hparse] at hp
  cases hp
  rw [hvalues] at hvalues'
  cases hvalues'
  obtain ⟨body', t, t', hq', hstoreless, hexprs, hnodup, hmeaning⟩ :=
    Program.exists_parse_inline hparse hfinite hshort hundef hl style.width
  rw [hsimplified, hq'] at hq
  cases hq
  have hlines : (⟨[.function name ps body' t], t'⟩ : Program).branchLines =
      Stmt.branchLinesAll body' := List.append_nil _
  have hvisits : (⟨[.function name ps body' t], t'⟩ : Program).visits = ps.map .param ++
      Stmt.visitsAll body' :=
    List.append_nil _
  have hρ := Scope.value_ofParams hlength hargs
  have htold := (Stmt.told_of_execAll body' hstoreless hexprs hnodup (hmeaning hrun)).1
  refine ⟨_, hsimplified ▸ hq', hlines ▸ htold.length_eq, fun j results hj b hb => ?_⟩
  obtain ⟨line, hline, htold⟩ := htold.exists_line hj
  refine ⟨line, hlines ▸ hline, ?_⟩
  rcases Program.classify_cases ⟨[.function name ps body' t], t'⟩ values
    with ⟨w, hw, hafter⟩ | ⟨_, _, _, _, _, _, herror, _⟩
  · rw [hw] at hclassify
    rw [← Except.ok.inj hclassify]
    exact (htold b hb).classify hρ (Stmt.param?_of_mem_visitsAll body' hstoreless)
      (hvisits ▸ hafter)
  · rw [herror] at hclassify
    cases hclassify

/-- The string that is written out. -/
def Expr.string? : Expr → Option String
  | .str v _ => some v
  | _ => none

/-- A quoted text has itself as its value. -/
theorem Expr.evalWith_of_string? {e : Expr} {v : String} (h : e.string? = some v)
    {names : String → Except EvalCause Value} : e.evalWith names = .ok (.str v) := by
  unfold string? at h
  split at h
  · cases h
    rfl
  · cases h

/-- A function that declares, assigns in a branch that returns, and goes on behind a chain of
branches: the first test fails and the second one holds. -/
theorem Style.analyze_tells_run_chain : ∃ report q,
    Style.analyze {}
      ("function f(x, y) \x7b let a = [x, y + x]; x += a[1]; " ++
        "if (a[0] === y) \x7b y = x; return y; \x7d else if (x) \x7b \x7d return [x, a]; \x7d")
      "'x', 'y'" = .ok report ∧
    Program.parse report.simplified = .ok q ∧ q.branchLines.length = 2 ∧
    ∀ (j : Nat) (results : List Bool), [[false], [true]][j]? = some results →
      ∀ b ∈ results, ∃ line, q.branchLines[j]? = some line ∧
        report.classification.taken.contains line = b ∧
        report.classification.notTaken.contains line = !b := by
  obtain ⟨p, hp, hfinite, hshort, hcheck⟩ := Program.exists_parse
    ("function f(x, y) \x7b let a = [x, y + x]; x += a[1]; " ++
      "if (a[0] === y) \x7b y = x; return y; \x7d else if (x) \x7b \x7d return [x, a]; \x7d")
    (fun p => p.ForallExpr Expr.FiniteNumber ∧ p.ForallExpr Expr.ShortList ∧
      p.isFunctionWith (fun params body =>
        decide (params = ["x", "y"] ∧ (∀ s ∈ body, s.Forall Stmt.LoopFree) ∧
          (Stmt.execAll 0 body (Store.entry params .str)).map RunResult.tests =
            some [[false], [true]])) = true)
    (by decide +kernel)
  obtain ⟨name, params, body, s, s', rfl, hcheck⟩ := Program.exists_of_isFunctionWith hcheck
  obtain ⟨rfl, hl, htests⟩ := of_decide_eq_true hcheck
  obtain ⟨out, hrun, htests⟩ := Option.map_eq_some_iff.1 htests
  obtain ⟨report, hreport, -⟩ : ∃ report,
      Style.analyze {}
        ("function f(x, y) \x7b let a = [x, y + x]; x += a[1]; " ++
          "if (a[0] === y) \x7b y = x; return y; \x7d else if (x) \x7b \x7d return [x, a]; \x7d")
        "'x', 'y'" = .ok report ∧
      (fun _ => true) report = true :=
    exists_ok_of_any (by decide +kernel)
  obtain ⟨values, hvalues, hstrings⟩ : ∃ values, readValues "'x', 'y'" = .ok values ∧
      decide (values.map Expr.string? = [some "x", some "y"]) = true :=
    exists_ok_of_any (by decide +kernel)
  obtain ⟨e, es, rfl, he, hes⟩ := List.map_eq_cons_iff.1 (of_decide_eq_true hstrings)
  obtain ⟨f, fs, rfl, hf, hfs⟩ := List.map_eq_cons_iff.1 hes
  obtain rfl := List.map_eq_nil_iff.1 hfs
  have hargs : ∀ x ∈ ["x", "y"].zip [e, f], x.2.evalWith builtinName = .ok (.str x.1) := by
    simp [Expr.evalWith_of_string? he, Expr.evalWith_of_string? hf]
  obtain ⟨q, hq, hlength, htold⟩ :=
    Style.analyze_tells_run {} hp hfinite hshort (by decide) hl hvalues rfl hargs hrun hreport
  rw [htests] at hlength htold
  exact ⟨report, q, hreport, hq, hlength, htold⟩

end BranchPaint
