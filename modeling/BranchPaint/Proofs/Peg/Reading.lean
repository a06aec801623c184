import BranchPaint.Proofs.Grammar.Result
import BranchPaint.Proofs.Peg.Lexeme

/-!
# Patterns that read what rules read

The table of the language and the rules that are run have the same shape, so that they can be
compared part by part. `Reads bound p rule fits` says: on every text shorter than `bound` that
starts with no blank, the pattern `p` matches if and only if the rule reads something, both stop at
the same place and got equally far before giving up, and what the rule gives fits the nodes that the
pattern leaves.

There is one lemma for each way of combining patterns and the way of combining rules that goes with
it. In a sequence the rule has to skip blanks where the pattern does by itself. What a sequence
leaves is not known before its end, so the lemma hands the nodes found so far on to the rest of the
sequence (`Reads.seq`). Reading something makes the text shorter; behind it the parts need to agree
on shorter texts only (`Reads.seq_strict`), which is what the recursion of the language needs.
-/

namespace BranchPaint

/-! ## The place reached -/

namespace Position

/-- The later of two positions has the greater offset. -/
theorem offset_later (p q : Position) : (p.later q).offset = max p.offset q.offset := by
  unfold later
  split
  · rw [Nat.max_eq_right ‹_›]
  · rw [Nat.max_eq_left (Nat.le_of_lt (Nat.lt_of_not_le ‹_›))]

/-- No position is before the start. -/
@[simp] theorem start_later (p : Position) : start.later p = p := if_pos (Nat.zero_le _)

/-- The latest of three positions does not depend on the order. -/
theorem later_assoc (p q r : Position) : (p.later q).later r = p.later (q.later r) := by
  unfold later
  by_cases hpq : p.offset ≤ q.offset
  · by_cases hqr : q.offset ≤ r.offset
    · simp [hpq, hqr, Nat.le_trans hpq hqr]
    · simp [hpq, hqr]
  · by_cases hqr : q.offset ≤ r.offset
    · simp [hpq, hqr]
    · have hpr : ¬ p.offset ≤ r.offset := by omega
      simp [hpq, hqr, hpr]

end Position

namespace Rule

variable {α β γ : Type}

/-- A value in front of a rule is given to it. -/
theorem pure_bind (a : α) (f : α → Rule β) : (pure a >>= f : Rule β) = f a := by
  funext s
  change (⟨Position.start.later (f a s).reach, (f a s).result⟩ : Reply β) = f a s
  rw [Position.start_later]

/-- Rules in a row may be grouped in any way. -/
theorem bind_assoc (p : Rule α) (f : α → Rule β) (g : β → Rule γ) :
    (p >>= f) >>= g = p >>= fun a => f a >>= g := by
  funext s
  simp only [Bind.bind]
  rcases p s with ⟨r, _ | ⟨a, t⟩⟩
  · rfl
  · dsimp only
    rcases f a t with ⟨r', _ | ⟨b, u⟩⟩
    · rfl
    · simp only [Position.later_assoc]

/-- A rule behind a refusal is not reached. -/
theorem bind_of_none {p : Rule α} {s : Cursor} {r : Position} (h : p s = ⟨r, none⟩)
    (f : α → Rule β) : (p >>= f) s = ⟨r, none⟩ := by
  simp only [Bind.bind, h]

/-- A rule behind a success goes on from there. -/
theorem bind_of_some {p : Rule α} {s t : Cursor} {r : Position} {a : α} (h : p s = ⟨r, some (a, t)⟩)
    (f : α → Rule β) : (p >>= f) s = ⟨r.later (f a t).reach, (f a t).result⟩ := by
  simp only [Bind.bind, h]

/-- A token that is missing is missed where it was looked for. -/
theorem token_of_none {lex : Lexer α} {s : Cursor} (h : lex s = none) :
    token lex s = ⟨s.pos, none⟩ := by simp only [token, h]

/-- A token that is there is read. -/
theorem token_of_some {lex : Lexer α} {s : Cursor} {x : α × Cursor} (h : lex s = some x) :
    token lex s = ⟨.start, some x⟩ := by
  simp only [token, h]

end Rule

namespace Peg

open Rule

variable {α β : Type}

/-! ## Answers and replies -/

/-- The answer of a pattern at `s` and the reply of a rule say the same: they got equally far, and
if they read something, they stop at the same place and the value fits the nodes. -/
inductive Same (s : Cursor) (fits : α → Span → List (Node Name) → Prop) :
    Answer Name → Reply α → Prop where
  | gaveUp {n : Nat} {r : Position} (reach : n = r.offset) : Same s fits ⟨n, none⟩ ⟨r, none⟩
  | read {n : Nat} {r : Position} {v : α} {xs : List (Node Name)} {t : Cursor}
      (reach : n = r.offset) (fit : fits v (.between s.pos t.pos) xs) :
      Same s fits ⟨n, some (xs, t)⟩ ⟨r, some (v, t)⟩

/-- At `s`, the pattern reads what the rule reads. -/
def ReadsAt (s : Cursor) (p : Pattern Name) (rule : Rule α)
    (fits : α → Span → List (Node Name) → Prop) : Prop :=
  ∃ a, Matches script .plain p s a ∧ Same s fits a (rule s)

/-- On texts shorter than `bound` that start with no blank, the pattern reads what the rule
reads. -/
def Reads (bound : Nat) (p : Pattern Name) (rule : Rule α)
    (fits : α → Span → List (Node Name) → Prop) : Prop :=
  ∀ s : Cursor, s.rest.length < bound → s.skipBlanks = s → ReadsAt s p rule fits

/-- The nodes of an optional part. -/
def Maybe (fits : α → Span → List (Node Name) → Prop) : Option α → Span → List (Node Name) → Prop
  | none, _, xs => xs = []
  | some v, span, xs => fits v span xs

/-- The nodes of a repetition are those of its rounds. -/
inductive Laid (fits : α → List (Node Name) → Prop) : List α → List (Node Name) → Prop where
  | nil : Laid fits [] []
  | cons {v : α} {vs : List α} {xs ys : List (Node Name)} (fit : fits v xs)
      (rest : Laid fits vs ys) : Laid fits (v :: vs) (xs ++ ys)

/-- With the nodes `xs` in it, what stands at `span` as a node of the rule `x` is built into `v`. -/
def Inside (build : Node Name → Except BuildError α) (x : Name) (v : α) (span : Span)
    (xs : List (Node Name)) : Prop :=
  ∀ text, build (.mk x text span xs) = .ok v

/-- One node, which is built into `v`. -/
def Builds (build : Node Name → Except BuildError α) (v : α) (xs : List (Node Name)) : Prop :=
  ∃ y, xs = [y] ∧ build y = .ok v

/-- One node of the rule `x`, which is built into `v`. -/
def Gives (build : Node Name → Except BuildError α) (x : Name) (v : α) (xs : List (Node Name)) :
    Prop :=
  ∃ text span ys, xs = [.mk x text span ys] ∧ build (.mk x text span ys) = .ok v

/-- A node that gives a value is built to it. -/
theorem Gives.builds {build : Node Name → Except BuildError α} {x : Name} {v : α}
    {xs : List (Node Name)} (h : Gives build x v xs) : Builds build v xs := by
  obtain ⟨text, span, ys, rfl, hbuild⟩ := h
  exact ⟨_, rfl, hbuild⟩

namespace ReadsAt

variable {s : Cursor} {p q : Pattern Name} {rule : Rule α} {f : α → Rule β}
  {fits : α → Span → List (Node Name) → Prop} {fits' : β → Span → List (Node Name) → Prop}

/-- The value may be changed. -/
theorem map (h : ReadsAt s p rule fits)
    (hf : ∀ v span xs, fits v span xs → ∃ w, f v = pure w ∧ fits' w span xs) :
    ReadsAt s p (rule >>= f) fits' := by
  obtain ⟨a, ha, hsame⟩ := h
  refine ⟨a, ha, ?_⟩
  generalize hreply : rule s = reply at hsame
  cases hsame with
  | gaveUp reach =>
    rw [bind_of_none hreply]
    exact .gaveUp reach
  | read reach fit =>
    obtain ⟨w, hw, hfit⟩ := hf _ _ _ fit
    rw [bind_of_some hreply, hw]
    refine .read ?_ hfit
    rw [Position.offset_later, reach]
    exact (Nat.max_zero _).symm

/-- Less may be said of what is read. -/
theorem imp {fits' : α → Span → List (Node Name) → Prop} (h : ReadsAt s p rule fits)
    (hf : ∀ v span xs, fits v span xs → fits' v span xs) : ReadsAt s p rule fits' := by
  obtain ⟨a, ha, hsame⟩ := h
  refine ⟨a, ha, ?_⟩
  generalize rule s = reply at hsame ⊢
  cases hsame with
  | gaveUp reach => exact .gaveUp reach
  | read reach fit => exact .read reach (hf _ _ _ fit)

/-- What is read with its span is read. -/
theorem spanned (h : ReadsAt s p rule fits) :
    ReadsAt s p (Rule.spanned rule) fun v span xs => v.2 = span ∧ fits v.1 span xs := by
  obtain ⟨a, ha, hsame⟩ := h
  refine ⟨a, ha, ?_⟩
  generalize hreply : rule s = reply at hsame
  have hposition : Rule.position s = ⟨.start, some (s.pos, s)⟩ := rfl
  cases hsame with
  | gaveUp reach =>
    rw [Rule.spanned, bind_of_some hposition, bind_of_none hreply, Position.start_later]
    exact .gaveUp reach
  | read reach fit =>
    rw [Rule.spanned, bind_of_some hposition, bind_of_some hreply, Position.start_later]
    refine .read ?_ ⟨rfl, fit⟩
    rw [Position.offset_later, reach]
    exact (Nat.max_zero _).symm

/-- One after the other, where the second part reads what it should behind the blanks. -/
theorem seq {fits' : β → List (Node Name) → Prop} (h : ReadsAt s p rule fits)
    (h' : ∀ v t xs, Reached (p.nullable Name.isEmpty) s t → fits v (.between s.pos t.pos) xs →
      ReadsAt t.skipBlanks q (f v) fun w _ ys => fits' w (xs ++ ys)) :
    ReadsAt s (.seq p q) (rule >>= fun v => blanks >>= fun _ => f v) fun w _ zs => fits' w zs := by
  obtain ⟨a, ha, hsame⟩ := h
  generalize hreply : rule s = reply at hsame
  cases hsame with
  | gaveUp reach =>
    refine ⟨_, ha.seq_none, ?_⟩
    rw [bind_of_none hreply]
    exact .gaveUp reach
  | @read n r v xs t reach fit =>
    obtain ⟨b, hb, hsame'⟩ := h' v t xs (scriptRanking.reaches_of_matches ha xs t rfl) fit
    refine ⟨_, ha.seq (skips_blanks t) hb, ?_⟩
    have hblanks : (blanks >>= fun _ => f v) t = f v t.skipBlanks := by
      rw [bind_of_some (show blanks t = ⟨.start, some ((), t.skipBlanks)⟩ from rfl),
        Position.start_later]
    rw [bind_of_some hreply, hblanks]
    generalize f v t.skipBlanks = reply' at hsame'
    cases hsame' with
    | gaveUp reach' => exact .gaveUp (by rw [Position.offset_later, reach, reach'])
    | read reach' fit' => exact .read (by rw [Position.offset_later, reach, reach']) fit'

/-- A rule of the table with the parts of its node. -/
theorem call {x : Name} (hx : x.kind = .plain) (h : ReadsAt s x.pattern rule fits) :
    ReadsAt s (.call x) (Rule.reporting rule) fun v span xs =>
      ∃ text ys, xs = [.mk x text span ys] ∧ fits v span ys := by
  obtain ⟨a, ha, hsame⟩ := h
  have hinside : Mode.inside .plain (script.kind x) = .plain := by
    rw [show script.kind x = .plain from hx]; rfl
  rw [← hinside] at ha
  unfold ReadsAt
  generalize hreply : rule s = reply at hsame
  simp only [Rule.reporting, hreply]
  cases hsame with
  | gaveUp reach =>
    exact ⟨_, ha.call_none (by decide), .gaveUp (by rw [Position.offset_later, reach])⟩
  | read reach fit => exact ⟨_, ha.call_some (by decide), .read reach ⟨_, _, rfl, fit⟩⟩

/-- A rule of the table with what its node is built into. -/
theorem node {build : Node Name → Except BuildError α} {x : Name} (hx : x.kind = .plain)
    (h : ReadsAt s x.pattern rule (Inside build x)) :
    ReadsAt s (.call x) (Rule.reporting rule) fun v _ xs => Gives build x v xs := by
  refine (call hx h).imp fun v span xs hv => ?_
  obtain ⟨text, ys, rfl, hbuild⟩ := hv
  exact ⟨text, span, ys, rfl, hbuild text⟩

/-- The span of the node is part of what is built. -/
theorem made {build : Node Name → Except BuildError β} {x : Name} {f : α × Span → Rule β}
    (make : α → Span → β) (hf : ∀ v span, f (v, span) = pure (make v span))
    (h : ReadsAt s p rule fun v _ xs => ∀ span, Inside build x (make v span) span xs) :
    ReadsAt s p (Rule.spanned rule >>= f) (Inside build x) := by
  refine h.spanned.map fun v span xs hv => ?_
  obtain ⟨v, span'⟩ := v
  obtain ⟨rfl, hbuild⟩ := hv
  exact ⟨_, hf v _, hbuild _⟩

end ReadsAt

namespace Reads

variable {bound bound' : Nat} {p q : Pattern Name} {rule rule' : Rule α} {f : α → Rule β}
  {fits : α → Span → List (Node Name) → Prop} {fits' : β → Span → List (Node Name) → Prop}

/-- The bound may be smaller. -/
theorem weaken (h : Reads bound p rule fits) (hb : bound' ≤ bound) : Reads bound' p rule fits :=
  fun s hs => h s (Nat.lt_of_lt_of_le hs hb)

/-- What is made of a value fits if the value does. -/
theorem map (h : Reads bound p rule fits)
    (hf : ∀ v span xs, fits v span xs → ∃ w, f v = pure w ∧ fits' w span xs) :
    Reads bound p (rule >>= f) fits' :=
  fun s hs hblank => (h s hs hblank).map hf

/-- Less may be said of what is read everywhere. -/
theorem imp {fits' : α → Span → List (Node Name) → Prop} (h : Reads bound p rule fits)
    (hf : ∀ v span xs, fits v span xs → fits' v span xs) : Reads bound p rule fits' :=
  fun s hs hblank => (h s hs hblank).imp hf

/-- What is read everywhere is read with its span. -/
theorem spanned (h : Reads bound p rule fits) :
    Reads bound p (Rule.spanned rule) fun v span xs => v.2 = span ∧ fits v.1 span xs :=
  fun s hs hblank => (h s hs hblank).spanned

/-! ## Sequences -/

/-- Two patterns in a row are read as two rules in a row. -/
theorem seq {fits' : β → List (Node Name) → Prop} (h : Reads bound p rule fits)
    (h' : ∀ v span xs, fits v span xs → Reads bound q (f v) fun w _ ys => fits' w (xs ++ ys)) :
    Reads bound (.seq p q) (rule >>= fun v => blanks >>= fun _ => f v) fun w _ zs =>
      fits' w zs := by
  intro s hs hblank
  refine (h s hs hblank).seq fun v t xs hreached fit =>
    h' v _ xs fit t.skipBlanks ?_ t.skipBlanks_skipBlanks
  have hskip := t.length_skipBlanks_le
  have hle := hreached.le
  omega

/-- Behind something that was read, on shorter texts. -/
theorem seq_strict {fits' : β → List (Node Name) → Prop}
    (hnull : p.nullable Name.isEmpty = false) (h : Reads (bound + 1) p rule fits)
    (h' : ∀ v span xs, fits v span xs → Reads bound q (f v) fun w _ ys => fits' w (xs ++ ys)) :
    Reads (bound + 1) (.seq p q) (rule >>= fun v => blanks >>= fun _ => f v) fun w _ zs =>
      fits' w zs := by
  intro s hs hblank
  refine (h s hs hblank).seq fun v t xs hreached fit =>
    h' v _ xs fit t.skipBlanks ?_ t.skipBlanks_skipBlanks
  have hskip := t.length_skipBlanks_le
  have hless := hreached.2 hnull
  omega

/-- A fixed text is read without a node. -/
theorem literal (w : String) : Reads bound (.text w) (Rule.literal w) fun _ _ xs => xs = [] := by
  intro s _ _
  refine ⟨_, Matches.text w, ?_⟩
  unfold Rule.literal
  cases s.literal? w.toList with
  | none => exact .gaveUp rfl
  | some t => exact .read rfl rfl

/-- A pattern behind a fixed text is read as the rule behind it. -/
theorem skip {fits : α → List (Node Name) → Prop} {w : String}
    (h : Reads bound q rule fun v _ xs => fits v xs) :
    Reads bound (.seq (.text w) q) (Rule.literal w >>= fun _ => blanks >>= fun _ => rule)
      fun v _ xs => fits v xs :=
  (literal w).seq fun _ _ _ hxs => by
    subst hxs
    exact h

/-- Behind a fixed text, on shorter texts. -/
theorem mark {fits : α → List (Node Name) → Prop} {w : String} (hw : w.toList ≠ [])
    (h : Reads bound q rule fun v _ xs => fits v xs) :
    Reads (bound + 1) (.seq (.text w) q) (Rule.literal w >>= fun _ => blanks >>= fun _ => rule)
      fun v _ xs => fits v xs :=
  (literal w).seq_strict (by simpa [Pattern.nullable] using hw) fun _ _ _ hxs => by
    subst hxs
    exact h

/-- A fixed text at the end adds no node. -/
theorem close {fits : α → List (Node Name) → Prop} {w : String} {v : α} (h : fits v []) :
    Reads bound (.text w) (Rule.literal w >>= fun _ => pure v) fun v _ xs => fits v xs :=
  (literal w).map fun _ _ _ hxs => ⟨v, rfl, by subst hxs; exact h⟩

/-! ## Choices and repetitions -/

/-- Of two rules the first that applies is read. -/
theorem or (h : Reads bound p rule fits) (h' : Reads bound q rule' fits) :
    Reads bound (.or p q) (Rule.orElse rule rule') fits := by
  intro s hs hblank
  obtain ⟨a, ha, hsame⟩ := h s hs hblank
  obtain ⟨b, hb, hsame'⟩ := h' s hs hblank
  generalize hreply : rule s = reply at hsame
  cases hsame with
  | read reach fit =>
    refine ⟨_, ha.or_left, ?_⟩
    simp only [Rule.orElse, hreply]
    exact .read reach fit
  | gaveUp reach =>
    refine ⟨_, ha.or_right hb, ?_⟩
    simp only [Rule.orElse, hreply]
    generalize rule' s = reply' at hsame'
    cases hsame' with
    | gaveUp reach' => exact .gaveUp (by rw [Position.offset_later, reach, reach'])
    | read reach' fit => exact .read (by rw [Position.offset_later, reach, reach']) fit

/-- So it is with more rules than two. -/
theorem firstOf_cons {ps : List (Pattern Name)} {rules : List (Rule α)}
    (h : Reads bound p rule fits) (h' : Reads bound (.oneOf (q :: ps)) (Rule.firstOf rules) fits) :
    Reads bound (.oneOf (p :: q :: ps)) (Rule.firstOf (rule :: rules)) fits :=
  h.or h'

/-- The last of them stands alone. -/
theorem firstOf_last (h : Reads bound p rule fits) :
    Reads bound (.oneOf [p]) (Rule.firstOf [rule]) fits := by
  intro s hs hblank
  obtain ⟨a, ha, hsame⟩ := h s hs hblank
  refine ⟨a, ha, ?_⟩
  generalize hreply : rule s = reply at hsame
  simp only [Rule.firstOf, Rule.orElse, hreply]
  cases hsame with
  | gaveUp reach =>
    refine .gaveUp ?_
    rw [Position.offset_later, reach]
    exact (Nat.max_zero _).symm
  | read reach fit => exact .read reach fit

/-- An optional part is read if it is there. -/
theorem opt (h : Reads bound p rule fits) :
    Reads bound (.opt p) (Rule.optional rule) (Maybe fits) := by
  intro s hs hblank
  obtain ⟨a, ha, hsame⟩ := h s hs hblank
  refine ⟨_, ha.opt, ?_⟩
  generalize hreply : rule s = reply at hsame
  simp only [Rule.optional, hreply]
  cases hsame with
  | gaveUp reach => exact .read reach rfl
  | read reach fit => exact .read reach fit

/-- A fixed text that may be missing is read as such. -/
theorem optional_literal (w : String) :
    Reads bound (.opt (.text w)) (Rule.optional (Rule.literal w)) fun _ _ xs => xs = [] := by
  refine (literal w).opt.imp fun o _ xs hxs => ?_
  cases o with
  | none => exact hxs
  | some u => exact hxs

/-- Behind some rounds, wherever these have ended: blanks are skipped before each further round. The
induction is on the number of rounds that the rule may take, which is above the length of the
text. -/
theorem more {fits : α → List (Node Name) → Prop} (hnull : p.nullable Name.isEmpty = false)
    (h : Reads bound p rule fun v _ xs => fits v xs) {n : Nat} {t : Cursor} (hn : t.rest.length < n)
    (ht : t.rest.length < bound) :
    ∃ a, Matches script .plain (.more p) t a ∧
      Same t (fun vs _ xs => Laid fits vs xs) a (Rule.many rule n t) := by
  induction n generalizing t with
  | zero => exact absurd hn (Nat.not_lt_zero _)
  | succ n ih =>
    have hskip := t.length_skipBlanks_le
    obtain ⟨a, ha, hsame⟩ := h t.skipBlanks (by omega) t.skipBlanks_skipBlanks
    generalize hreply : rule t.skipBlanks = reply at hsame
    simp only [Rule.many, hreply]
    cases hsame with
    | gaveUp reach => exact ⟨_, ha.more_none (skips_blanks t), .read reach .nil⟩
    | @read k r v xs u reach fit =>
      have hless := (scriptRanking.reaches_of_matches ha xs u rfl).2 hnull
      obtain ⟨b, hb, hsame'⟩ := ih (t := u) (by omega) (by omega)
      refine ⟨_, ha.more (skips_blanks t) hb, ?_⟩
      dsimp only
      generalize Rule.many rule n u = reply' at hsame'
      cases hsame' with
      | gaveUp reach' => exact .gaveUp (by rw [Position.offset_later, reach, reach'])
      | read reach' rest =>
        exact .read (by rw [Position.offset_later, reach, reach']) (.cons fit rest)

/-- A part is read as often as it is there. -/
theorem star {fits : α → List (Node Name) → Prop} (hnull : p.nullable Name.isEmpty = false)
    (h : Reads bound p rule fun v _ xs => fits v xs) {n : Nat} (hn : bound ≤ n) :
    Reads bound (.star p) (Rule.many rule n) fun vs _ xs => Laid fits vs xs := by
  intro s hs hblank
  obtain ⟨a, ha, hsame⟩ := more hnull h (Nat.lt_of_lt_of_le hs hn) hs
  have hskips := skips_blanks s
  rw [hblank] at hskips
  exact ⟨a, ha.star_of_more hskips, hsame⟩

/-- One or more, divided by commas, are read as a list with commas. -/
theorem commas {fits : α → List (Node Name) → Prop} (h : Reads bound p rule fun v _ xs => fits v xs)
    {n : Nat} (hn : bound ≤ n) :
    Reads bound (.commas p) (Rule.commaList n rule) fun v _ xs => Laid fits (v.1 :: v.2) xs := by
  have hround : Reads bound (.inOrder [.text ",", p]) (do Rule.literal ","; blanks; rule)
      fun v _ xs => fits v xs := h.skip
  refine h.seq fun v _ xs fit => (star rfl hround hn).map fun vs _ ys rest => ?_
  exact ⟨(v, vs), rfl, .cons fit rest⟩

/-! ## Rules that leave nodes -/

/-- A named rule makes a node around what it reads. -/
theorem call {x : Name} (hx : x.kind = .plain) (h : Reads bound x.pattern rule fits) :
    Reads bound (.call x) (Rule.reporting rule) fun v span xs =>
      ∃ text ys, xs = [.mk x text span ys] ∧ fits v span ys :=
  fun s hs hblank => (h s hs hblank).call hx

/-- A named rule gives what its node is built to. -/
theorem node {build : Node Name → Except BuildError α} {x : Name} (hx : x.kind = .plain)
    (h : Reads bound x.pattern rule (Inside build x)) :
    Reads bound (.call x) (Rule.reporting rule) fun v _ xs => Gives build x v xs :=
  fun s hs hblank => (h s hs hblank).node hx

/-- What is made of a value and its span is built from the parts. -/
theorem made {build : Node Name → Except BuildError β} {x : Name} {f : α × Span → Rule β}
    (make : α → Span → β) (hf : ∀ v span, f (v, span) = pure (make v span))
    (h : Reads bound p rule fun v _ xs => ∀ span, Inside build x (make v span) span xs) :
    Reads bound p (Rule.spanned rule >>= f) (Inside build x) :=
  fun s hs hblank => (h s hs hblank).made make hf

/-- The span of the node does not matter. -/
theorem anywhere {build : Node Name → Except BuildError α} {x : Name}
    (h : Reads bound p rule fun v _ xs => ∀ span, Inside build x v span xs) :
    Reads bound p rule (Inside build x) :=
  h.imp fun _ span _ hbuild => hbuild span

/-- A rule of the table whose name does not matter any more. -/
theorem builds {build : Node Name → Except BuildError β} {x : Name} {f : α × Span → Rule β}
    (hx : x.kind = .plain) (make : α → Span → β) (hf : ∀ v span, f (v, span) = pure (make v span))
    (h : Reads bound x.pattern rule fun v _ xs => ∀ span, Inside build x (make v span) span xs) :
    Reads bound (.call x) (Rule.reporting (Rule.spanned rule >>= f)) fun v _ xs =>
      Builds build v xs :=
  ((h.made make hf).node hx).imp fun _ _ _ hv => hv.builds

/-- An atomic rule of the table is read as the token that it lexes. -/
theorem token {x : Name} {lex : Lexer α} {means : α → String → Prop} (hx : x.kind = .atomic)
    (h : Lexes x lex means) :
    Reads bound (.call x) (Rule.token lex) fun v span xs => ∃ text, xs = [.mk x text span []] ∧
      means v text := by
  intro s hs hblank
  have hscan := h.scans s
  have hinside : Mode.inside .plain (script.kind x) = .quiet := by
    rw [show script.kind x = .atomic from hx]; rfl
  cases hlex : lex s with
  | none =>
    rw [hlex] at hscan
    refine ⟨_, Matches.call_none (by decide) (by rw [hinside]; exact hscan), ?_⟩
    rw [token_of_none hlex]
    exact .gaveUp (Nat.zero_max _)
  | some y =>
    rw [hlex] at hscan
    refine ⟨_, Matches.call_some (by decide) (by rw [hinside]; exact hscan), ?_⟩
    rw [token_of_some hlex]
    exact .read rfl ⟨_, rfl, h.means hlex⟩

/-- Quoted text, whose node has what is between the quotes in it. -/
theorem quoted : Reads bound (.call .string) (Rule.token Quoted.scan?) fun v span xs =>
    ∃ text body, xs = [.mk .string text span [body]] ∧
        String.ofList (unescaped body.text.toList) = v := by
  intro s hs hblank
  obtain ⟨x, hmatch, ⟨hscan, rfl⟩ | ⟨text, t, body, hscan, rfl, htext⟩⟩ := matches_string s
  · refine ⟨_, Matches.call_none (by decide) hmatch, ?_⟩
    rw [token_of_none hscan]
    exact .gaveUp (Nat.zero_max _)
  · refine ⟨_, Matches.call_some (by decide) hmatch, ?_⟩
    rw [token_of_some hscan]
    exact .read rfl ⟨_, _, rfl, htext⟩

end Reads

end Peg

end BranchPaint
