import BranchPaint.Proofs.Branch.Classify
import BranchPaint.Proofs.Store.Statement
import BranchPaint.Proofs.Value.Evaluate

/-!
# Lines and classifications

A walk comes upon the branches of a program in the order of the source (`Program.lines_visits`), and
when it succeeds it has marked their lines and no others (`Program.mem_classify`). So no line is
marked twice, and if all branches stand on lines of their own then there are as many marked lines as
branches (`Program.card_classify`).

Of the spans of a program a classification uses the lines of the branches only: programs that differ
in their spans alone and whose branches stand on the same lines are classified alike
(`Program.classify_congr`).
-/

namespace BranchPaint

/-! ## Lines of visits -/

/-- The lines of a chain are among those of its branches. -/
theorem Stmt.chainLines_subset (s : Stmt) : s.chainLines ⊆ s.branchLines := by
  induction s using Stmt.induction with
  | step s ih =>
  intro k hk
  cases s with
  | branch t c a span =>
    cases a with
    | none =>
      obtain rfl := List.mem_singleton.1 hk
      exact List.mem_cons_self
    | some a =>
      rcases List.mem_cons.1 hk with rfl | hk
      · exact List.mem_cons_self
      · exact List.mem_cons_of_mem _ (List.mem_append_right _ (ih a (by simp [children]) hk))
  | _ => cases hk

mutual

/-- The line of a branch, and the lines it may rule out, are lines of branches of the statement. -/
theorem Stmt.lines_of_mem_visits {t : Expr} {l : Nat} {a : Option Stmt} :
    (s : Stmt) → .branch t l a ∈ s.visits →
    l ∈ s.branchLines ∧ ruledOut a ⊆ s.branchLines
  | .function _ ps body _, h => by
    rcases List.mem_append.1 h with h | h
    · obtain ⟨p, -, hp⟩ := List.mem_map.1 h
      cases hp
    · exact lines_of_mem_visitsAll body h
  | .block body _, h => lines_of_mem_visitsAll body h
  | .branch t' c none s, h => by
    rcases List.mem_cons.1 h with h | h
    · cases h
      exact ⟨List.mem_cons_self, List.nil_subset _⟩
    · obtain ⟨hl, ha⟩ := lines_of_mem_visits c h
      exact ⟨List.mem_cons_of_mem _ hl, List.subset_cons_of_subset _ ha⟩
  | .branch t' c (some b) s, h => by
    rcases List.mem_cons.1 h with h | h
    · cases h
      exact ⟨List.mem_cons_self,
        fun k hk => List.mem_cons_of_mem _ (List.mem_append_right _ (b.chainLines_subset hk))⟩
    · rcases List.mem_append.1 h with h | h
      · obtain ⟨hl, ha⟩ := lines_of_mem_visits c h
        exact ⟨List.mem_cons_of_mem _ (List.mem_append_left _ hl),
          fun k hk => List.mem_cons_of_mem _ (List.mem_append_left _ (ha hk))⟩
      · obtain ⟨hl, ha⟩ := lines_of_mem_visits b h
        exact ⟨List.mem_cons_of_mem _ (List.mem_append_right _ hl),
          fun k hk => List.mem_cons_of_mem _ (List.mem_append_right _ (ha hk))⟩
  | .whileLoop _ body _, h | .forLoop _ _ _ body _, h => lines_of_mem_visits body h
  | .declare _ _ _, h | .ret _ _, h | .expr _ _, h | .breakLoop _, h | .continueLoop _, h
  | .empty _, h => by cases h

/-- What is visited in statements stands there, and so does what it rules out. -/
theorem Stmt.lines_of_mem_visitsAll {t : Expr} {l : Nat} {a : Option Stmt} : (ss : List Stmt) →
    .branch t l a ∈ visitsAll ss → l ∈ branchLinesAll ss ∧ ruledOut a ⊆ branchLinesAll ss
  | [], h => by cases h
  | s :: ss, h => by
    rcases List.mem_append.1 h with h | h
    · obtain ⟨hl, ha⟩ := lines_of_mem_visits s h
      exact ⟨List.mem_append_left _ hl, fun k hk => List.mem_append_left _ (ha hk)⟩
    · obtain ⟨hl, ha⟩ := lines_of_mem_visitsAll ss h
      exact ⟨List.mem_append_right _ hl, fun k hk => List.mem_append_right _ (ha hk)⟩

end

namespace Stmt

/-- The lines of the branches in what stands behind `else`. -/
def branchLinesElse : Option Stmt → List Nat
  | none => []
  | some a => a.branchLines

/-- What a walk comes upon in what stands behind `else`. -/
def visitsElse : Option Stmt → List Visit
  | none => []
  | some a => a.visits

/-- The lines of a branch are its own and those of its sides. -/
theorem branchLines_branch (t : Expr) (c : Stmt) (a : Option Stmt) (s : Span) :
    (branch t c a s).branchLines = s.startLine :: (c.branchLines ++ branchLinesElse a) := by
  cases a
  all_goals simp [branchLines, branchLinesElse]

/-- A branch is visited in front of its sides. -/
theorem visits_branch (t : Expr) (c : Stmt) (a : Option Stmt) (s : Span) :
    (branch t c a s).visits = .branch t s.startLine a :: (c.visits ++ visitsElse a) := by
  cases a
  all_goals simp [visits, visitsElse]

end Stmt

/-- The line of a branch. -/
def Visit.line? : Visit → Option Nat
  | param _ => none
  | branch _ line _ => some line

/-- Parameters have no lines. -/
theorem Visit.lines_params (ps : List String) : (ps.map Visit.param).filterMap line? = [] := by
  induction ps with
  | nil => rfl
  | cons p ps ih => exact ih

mutual

/-- The lines of all visits are those of the branches, in order. -/
theorem Stmt.lines_visits : (s : Stmt) → s.visits.filterMap Visit.line? = s.branchLines
  | .function _ ps body _ => by
    rw [visits, List.filterMap_append, Visit.lines_params, lines_visitsAll body]
    rfl
  | .block body _ => lines_visitsAll body
  | .branch _ c none s => congrArg (s.startLine :: ·) (lines_visits c)
  | .branch _ c (some a) s => by
    rw [branchLines, ← lines_visits c, ← lines_visits a, ← List.filterMap_append]
    rfl
  | .whileLoop _ body _ | .forLoop _ _ _ body _ => lines_visits body
  | .declare _ _ _ | .ret _ _ | .expr _ _ | .breakLoop _ | .continueLoop _ | .empty _ => rfl

/-- The same for statements in a row. -/
theorem Stmt.lines_visitsAll :
    (ss : List Stmt) → (visitsAll ss).filterMap Visit.line? = branchLinesAll ss
  | [] => rfl
  | s :: ss => by
    rw [visitsAll, List.filterMap_append, lines_visits s, lines_visitsAll ss, branchLinesAll]

end

/-- A walk comes upon the branches in the order of the source. -/
theorem Program.lines_visits (p : Program) : p.visits.filterMap Visit.line? = p.branchLines :=
  Stmt.lines_visitsAll p.body

/-- Each line of a branch is visited. -/
theorem Program.exists_visit_of_mem_branchLines {p : Program} {line : Nat}
    (h : line ∈ p.branchLines) : ∃ before t a, before ++ [.branch t line a] <+: p.visits := by
  rw [← p.lines_visits] at h
  obtain ⟨v, hv, hline⟩ := List.mem_filterMap.1 h
  cases v with
  | param name => cases hline
  | branch t l a =>
    cases hline
    obtain ⟨before, after, hsplit⟩ := List.append_of_mem hv
    exact ⟨before, t, a, after, by rw [hsplit]; simp⟩

/-! ## The lines that are marked -/

/-- The lines as a finite set. -/
def LineSet.lines (s : LineSet) : Finset Nat := s.toList.toFinset

/-- The lines of a set are those that it contains. -/
theorem LineSet.mem_lines {s : LineSet} {line : Nat} : line ∈ s.lines ↔ s.contains line = true := by
  simp [lines, contains]

/-- A classification is read off the state behind all visits. -/
theorem Program.exists_walk_of_classify {p : Program} {values : List Expr} {c : Classification}
    (h : p.classify values = .ok c) :
    ∃ w, Walk.After values p.visits w ∧ c = ⟨w.taken.diff w.notTaken, w.notTaken⟩ := by
  rcases p.classify_cases values with ⟨w, hok, hw⟩ | ⟨before, t, l, a, cause, w, herror, -⟩
  · rw [h] at hok
    cases hok
    exact ⟨w, hw, rfl⟩
  · rw [h] at herror
    cases herror

/-- No line is both taken and not taken. -/
theorem Program.disjoint_classify {p : Program} {values : List Expr} {c : Classification}
    (h : p.classify values = .ok c) : Disjoint c.taken.lines c.notTaken.lines := by
  obtain ⟨w, -, rfl⟩ := exists_walk_of_classify h
  refine Finset.disjoint_left.2 fun line htaken hnot => ?_
  rw [LineSet.mem_lines, LineSet.contains_diff] at htaken
  exact htaken.2 (LineSet.mem_lines.1 hnot)

/-- The lines that are marked are those of the branches. -/
theorem Program.mem_classify {p : Program} {values : List Expr} {c : Classification}
    (h : p.classify values = .ok c) (line : Nat) :
    line ∈ c.taken.lines ∪ c.notTaken.lines ↔ line ∈ p.branchLines := by
  obtain ⟨w, hw, rfl⟩ := exists_walk_of_classify h
  have hmarked : line ∈ (w.taken.diff w.notTaken).lines ∪ w.notTaken.lines ↔
      w.taken.contains line = true ∨ w.notTaken.contains line = true := by
    rw [Finset.mem_union, LineSet.mem_lines, LineSet.mem_lines, LineSet.contains_diff]
    tauto
  rw [hmarked, hw.taken, hw.notTaken]
  constructor
  · have hmem {before : List Visit} {t : Expr} {l : Nat} {a : Option Stmt}
        (hb : before ++ [.branch t l a] <+: p.visits) :=
      Stmt.lines_of_mem_visitsAll p.body
        (hb.subset (List.mem_append_right before List.mem_cons_self))
    rintro (⟨before, t, l, a, v, hb, -, -, rfl⟩ |
      ⟨before, t, l, a, v, hb, -, ⟨-, rfl⟩ | ⟨-, hchain⟩⟩)
    · exact (hmem hb).1
    · exact (hmem hb).1
    · exact (hmem hb).2 (mem_ruledOut.2 hchain)
  · intro hline
    obtain ⟨before, t, a, hb⟩ := exists_visit_of_mem_branchLines hline
    obtain ⟨v, hv⟩ := hw.decided hb
    cases htrue : v.truthy with
    | true => exact .inl ⟨before, t, line, a, v, hb, hv, htrue, rfl⟩
    | false => exact .inr ⟨before, t, line, a, v, hb, hv, .inl ⟨htrue, rfl⟩⟩

/-- If all branches stand on lines of their own then as many lines are marked as there are
branches. -/
theorem Program.card_classify {p : Program} {values : List Expr} {c : Classification}
    (h : p.classify values = .ok c) (hnodup : p.branchLines.Nodup) :
    (c.taken.lines ∪ c.notTaken.lines).card = p.branchLines.length := by
  have hset : c.taken.lines ∪ c.notTaken.lines = p.branchLines.toFinset := by
    ext line
    rw [mem_classify h, List.mem_toFinset]
  rw [hset, List.toFinset_card_of_nodup hnodup]

/-! ## Spans that do not matter -/

/-- Visits that a walk cannot tell apart: tests that differ in their spans alone, and branches on
the same lines. -/
inductive Visit.Alike : Visit → Visit → Prop
  | param (name : String) : Alike (.param name) (.param name)
  | branch {t t' : Expr} {a a' : Option Stmt} (line : Nat) (ht : t.eraseSpans = t'.eraseSpans)
      (ha : ruledOut a = ruledOut a') : Alike (.branch t line a) (.branch t' line a')

/-- Parameters are visited alike. -/
theorem Visit.alike_params (ps : List String) :
    List.Forall₂ Alike (ps.map .param) (ps.map .param) := by
  induction ps with
  | nil => exact .nil
  | cons p ps ih => exact .cons (.param p) ih

/-- Visits that are alike take a walk to the same place. -/
theorem Walk.step_alike {v v' : Visit} (h : v.Alike v') (w : Walk) : w.step v = w.step v' := by
  cases h with
  | param name => rfl
  | branch line ht ha => simp only [step, Expr.evalAt_congr ht, mark, ha]

/-- So do rows of such visits. -/
theorem Walk.foldlM_alike {vs vs' : List Visit} (h : List.Forall₂ Visit.Alike vs vs') (w : Walk) :
    vs.foldlM Walk.step w = vs'.foldlM Walk.step w := by
  induction h generalizing w with
  | nil => rfl
  | cons hv hvs ih =>
    rw [List.foldlM_cons, List.foldlM_cons, step_alike hv]
    exact congrArg _ (funext ih)

namespace Stmt

/-- The spans of a branch are erased in its test and in both sides. -/
theorem eraseSpans_branch (t : Expr) (c : Stmt) (a : Option Stmt) (s : Span) :
    (branch t c a s).eraseSpans = .branch t.eraseSpans c.eraseSpans (a.map eraseSpans)
      .nowhere := by
  cases a
  all_goals rfl

/-- Statements that are the same up to spans have as many branches. -/
theorem length_branchLines_congr {s s' : Stmt} (h : s.eraseSpans = s'.eraseSpans) :
    s.branchLines.length = s'.branchLines.length := by
  have hcount : s.branchCount = s'.branchCount := by
    rw [← branchCount_eraseSpans s, h, branchCount_eraseSpans]
  exact hcount

/-- Statements of which at most the spans differ, seen from the outside. Those without statements
inside are all alike to a walk. -/
inductive Twins : Stmt → Stmt → Prop
  | function {n n' : String} {ps : List String} {body body' : List Stmt} {s s' : Span}
      (h : body.map eraseSpans = body'.map eraseSpans) :
      Twins (.function n ps body s) (.function n' ps body' s')
  | block {body body' : List Stmt} {s s' : Span} (h : body.map eraseSpans = body'.map eraseSpans) :
      Twins (.block body s) (.block body' s')
  | branch {t t' : Expr} {c c' : Stmt} {a a' : Option Stmt} {s s' : Span}
      (ht : t.eraseSpans = t'.eraseSpans) (hc : c.eraseSpans = c'.eraseSpans)
      (ha : a.map eraseSpans = a'.map eraseSpans) : Twins (.branch t c a s) (.branch t' c' a' s')
  | whileLoop {t t' : Expr} {body body' : Stmt} {s s' : Span}
      (h : body.eraseSpans = body'.eraseSpans) :
      Twins (.whileLoop t body s) (.whileLoop t' body' s')
  | forLoop {i i' : Option ForInit} {t t' u u' : Option Expr} {body body' : Stmt} {s s' : Span}
      (h : body.eraseSpans = body'.eraseSpans) :
      Twins (.forLoop i t u body s) (.forLoop i' t' u' body' s')
  | leaf {s s' : Stmt} (hvisits : s.visits = [] ∧ s'.visits = [])
      (hchain : s.chainLines = [] ∧ s'.chainLines = []) : Twins s s'

/-- Statements that are the same up to spans are made alike. -/
theorem twins_of_eraseSpans {s s' : Stmt} (h : s.eraseSpans = s'.eraseSpans) : Twins s s' := by
  cases s with
  | function n ps body span =>
    cases s' with
    | function n' ps' body' span' =>
      simp only [eraseSpans, eraseSpansAll_eq, function.injEq] at h
      obtain ⟨-, rfl, hbody, -⟩ := h
      exact .function hbody
    | _ => simp [eraseSpans_branch, eraseSpans] at h
  | block body span =>
    cases s' with
    | block body' span' =>
      simp only [eraseSpans, eraseSpansAll_eq, block.injEq] at h
      exact .block h.1
    | _ => simp [eraseSpans_branch, eraseSpans] at h
  | branch t c a span =>
    cases s' with
    | branch t' c' a' span' =>
      rw [eraseSpans_branch, eraseSpans_branch, branch.injEq] at h
      exact .branch h.1 h.2.1 h.2.2.1
    | _ => simp [eraseSpans_branch, eraseSpans] at h
  | whileLoop t body span =>
    cases s' with
    | whileLoop t' body' span' =>
      simp only [eraseSpans, whileLoop.injEq] at h
      exact .whileLoop h.2.1
    | _ => simp [eraseSpans_branch, eraseSpans] at h
  | forLoop i t u body span =>
    cases s' with
    | forLoop i' t' u' body' span' =>
      simp only [eraseSpans, forLoop.injEq] at h
      exact .forLoop h.2.2.2.1
    | _ => simp [eraseSpans_branch, eraseSpans] at h
  | _ =>
    cases s' with
    | function _ _ _ _ | block _ _ | branch _ _ _ _ | whileLoop _ _ _ | forLoop _ _ _ _ _ =>
      simp [eraseSpans_branch, eraseSpans] at h
    | _ => exact .leaf ⟨rfl, rfl⟩ ⟨rfl, rfl⟩

/-- The parts of branches of which at most the spans differ stand on the same lines, if the branches
do. -/
theorem branchLines_parts {t t' : Expr} {c c' : Stmt} {a a' : Option Stmt}
    {s s' : Span} (hc : c.eraseSpans = c'.eraseSpans)
    (h : (branch t c a s).branchLines = (branch t' c' a' s').branchLines) :
    s.startLine = s'.startLine ∧ c.branchLines = c'.branchLines ∧
      branchLinesElse a = branchLinesElse a' := by
  rw [branchLines_branch, branchLines_branch, List.cons.injEq] at h
  exact ⟨h.1, List.append_inj h.2 (length_branchLines_congr hc)⟩

/-- With the same lines of branches they have the same lines of chains. -/
theorem chainLines_congr {s s' : Stmt} (hsame : s.eraseSpans = s'.eraseSpans)
    (hlines : s.branchLines = s'.branchLines) : s.chainLines = s'.chainLines := by
  induction s using Stmt.induction generalizing s' with
  | step s ih =>
  cases twins_of_eraseSpans hsame with
  | @branch t t' c c' a a' span span' ht hc ha =>
    obtain ⟨hline, -, helse⟩ := branchLines_parts hc hlines
    match a, a' with
    | none, none => simp only [chainLines, hline]
    | some a, some a' =>
      simp only [chainLines, hline, ih a (by simp [children]) (Option.some.inj ha) helse]
  | leaf hvisits hchain => rw [hchain.1, hchain.2]
  | _ => rfl

/-- Rows of them are visited alike if each of them is. -/
theorem visitsAll_alike {ss ss' : List Stmt} (hsame : ss.map eraseSpans = ss'.map eraseSpans)
    (hlines : branchLinesAll ss = branchLinesAll ss')
    (h : ∀ s ∈ ss, ∀ s' : Stmt, s.eraseSpans = s'.eraseSpans → s.branchLines = s'.branchLines →
      List.Forall₂ Visit.Alike s.visits s'.visits) :
    List.Forall₂ Visit.Alike (visitsAll ss) (visitsAll ss') := by
  induction ss generalizing ss' with
  | nil =>
    obtain rfl : ss' = [] := List.map_eq_nil_iff.1 hsame.symm
    exact .nil
  | cons s ss ih =>
    obtain ⟨s', ss', rfl, hs, hss⟩ := List.map_eq_cons_iff.1 hsame.symm
    obtain ⟨hline, hrest⟩ := List.append_inj hlines (length_branchLines_congr hs.symm)
    exact List.rel_append (h s List.mem_cons_self s' hs.symm hline)
      (ih hss.symm hrest fun t ht => h t (List.mem_cons_of_mem _ ht))

/-- Walks through statements of which at most the spans differ, and whose branches stand on the same
lines, are alike. -/
theorem visits_alike {s s' : Stmt} (hsame : s.eraseSpans = s'.eraseSpans)
    (hlines : s.branchLines = s'.branchLines) : List.Forall₂ Visit.Alike s.visits s'.visits := by
  induction s using Stmt.induction generalizing s' with
  | step s ih =>
  have hin : ∀ c ∈ s.children, ∀ c' : Stmt, c.eraseSpans = c'.eraseSpans →
      c.branchLines = c'.branchLines →
      List.Forall₂ Visit.Alike c.visits c'.visits :=
    fun c hc c' hsame hlines => ih c hc hsame hlines
  cases twins_of_eraseSpans hsame with
  | @function n n' ps body body' span span' h =>
    exact List.rel_append (Visit.alike_params ps) (visitsAll_alike h hlines hin)
  | block h => exact visitsAll_alike h hlines hin
  | @branch t t' c c' a a' span span' ht hc ha =>
    obtain ⟨hline, hbody, helse⟩ := branchLines_parts hc hlines
    have hfirst := hin c List.mem_cons_self c' hc hbody
    rw [visits_branch, visits_branch, hline]
    match a, a' with
    | none, none => exact .cons (.branch _ ht rfl) (List.rel_append hfirst .nil)
    | some a, some a' =>
      have hsame := Option.some.inj ha
      exact .cons (.branch _ ht (chainLines_congr hsame helse))
        (List.rel_append hfirst (hin a (by simp [children]) a' hsame helse))
  | @whileLoop t t' body body' span span' h => exact hin body List.mem_cons_self body' h hlines
  | @forLoop i i' t t' u u' body body' span span' h =>
    exact hin body List.mem_cons_self body' h hlines
  | leaf hvisits hchain =>
    rw [hvisits.1, hvisits.2]
    exact .nil

end Stmt

/-- Programs that differ in their spans alone, and whose branches stand on the same lines, are
classified alike. -/
theorem Program.classify_congr {p q : Program} (hsame : p.eraseSpans = q.eraseSpans)
    (hlines : p.branchLines = q.branchLines) (values : List Expr) :
    p.classify values = q.classify values := by
  have hbodies : p.body.map Stmt.eraseSpans = q.body.map Stmt.eraseSpans := by
    simpa [eraseSpans] using hsame
  have hvisits := Stmt.visitsAll_alike hbodies hlines fun s _ s' => Stmt.visits_alike
  unfold classify
  rw [Stmt.walkAll_eq, Stmt.walkAll_eq, Walk.foldlM_alike hvisits]

end BranchPaint
