import BranchPaint.Proofs.Peg.Termination

/-!
# Which rules call which

What is matched on the way, while a pattern is matched. `Tries` follows one pattern through its
parts, with the text at which each of them is reached; it stops at calls. `Calls` goes from one call
of a rule to those that its pattern makes.

In a ranked table no pattern that is repeated matches the empty text (`Ranking.lt_of_repeats`), a
call that is made before anything is read is of lower rank (`Ranking.rank_lt_of_calls`), and so
there is no infinite chain of calls (`Ranking.wellFounded_calls`). This is the reason why matching
ends, where `Ranking.exists_answer` counts the depth.
-/

namespace BranchPaint.Peg

variable {ν : Type}

/-- While the first pattern is matched at the first cursor, the second one is matched at the second
cursor. -/
inductive Tries (g : Table ν) : Mode → Pattern ν → Cursor → Mode → Pattern ν → Cursor → Prop where
  | here {m : Mode} {p : Pattern ν} {s : Cursor} : Tries g m p s m p s
  | first {m m' : Mode} {p q o : Pattern ν} {s t : Cursor} (h : Tries g m p s m' o t) :
      Tries g m (.seq p q) s m' o t
  | between {m' : Mode} {p q o : Pattern ν} {s t u : Cursor} {r : Nat} {xs : List (Node ν)}
      (hp : Matches g .plain p s ⟨r, some (xs, t)⟩) (h : Tries g .quiet g.blank t m' o u) :
      Tries g .plain (.seq p q) s m' o u
  | second {m m' : Mode} {p q o : Pattern ν} {s t u v : Cursor} {r : Nat} {xs : List (Node ν)}
      (hp : Matches g m p s ⟨r, some (xs, t)⟩) (hskips : Skips g m t u) (h : Tries g m q u m' o v) :
      Tries g m (.seq p q) s m' o v
  | left {m m' : Mode} {p q o : Pattern ν} {s t : Cursor} (h : Tries g m p s m' o t) :
      Tries g m (.or p q) s m' o t
  | right {m m' : Mode} {p q o : Pattern ν} {s t : Cursor} {r : Nat}
      (hp : Matches g m p s ⟨r, none⟩) (h : Tries g m q s m' o t) : Tries g m (.or p q) s m' o t
  | opt {m m' : Mode} {p o : Pattern ν} {s t : Cursor} (h : Tries g m p s m' o t) :
      Tries g m (.opt p) s m' o t
  | not {m m' : Mode} {p o : Pattern ν} {s t : Cursor} (h : Tries g .quiet p s m' o t) :
      Tries g m (.not p) s m' o t
  | round {m m' : Mode} {p o : Pattern ν} {s t : Cursor} (h : Tries g m p s m' o t) :
      Tries g m (.star p) s m' o t
  | rounds {m m' : Mode} {p o : Pattern ν} {s t u : Cursor} {r : Nat} {xs : List (Node ν)}
      (hp : Matches g m p s ⟨r, some (xs, t)⟩) (h : Tries g m (.more p) t m' o u) :
      Tries g m (.star p) s m' o u
  | beforeRound {m' : Mode} {p o : Pattern ν} {s t : Cursor} (h : Tries g .quiet g.blank s m' o t) :
    Tries g .plain (.more p) s m' o t
  | nextRound {m m' : Mode} {p o : Pattern ν} {s t u : Cursor} (hskips : Skips g m s t)
      (h : Tries g m p t m' o u) : Tries g m (.more p) s m' o u
  | moreRounds {m m' : Mode} {p o : Pattern ν} {s t u v : Cursor} {r : Nat} {xs : List (Node ν)}
      (hskips : Skips g m s t) (hp : Matches g m p t ⟨r, some (xs, u)⟩)
      (h : Tries g m (.more p) u m' o v) : Tries g m (.more p) s m' o v

/-- A call of a rule. -/
structure Call (ν : Type) where
  name : ν
  mode : Mode
  /-- The text at which the rule is called. -/
  cursor : Cursor

/-- The first call makes the second. -/
def Calls (g : Table ν) (c d : Call ν) : Prop :=
  Tries g (c.mode.inside (g.kind c.name)) (g.pattern c.name) c.cursor d.mode (.call d.name) d.cursor

/-- The pattern is repeated in some rule, or in the blanks between the parts of one. -/
def Table.Repeats (g : Table ν) (p : Pattern ν) : Prop :=
  ∃ x m s m' t, Tries g m (g.pattern x) s m' (.star p) t ∨ Tries g m (g.pattern x) s m' (.more p) t

namespace Ranking

variable {g : Table ν} (k : Ranking g)

include k

/-- Skipping blanks does not go back. -/
theorem le_of_skips {m : Mode} {t u : Cursor} (h : Skips g m t u) :
    u.rest.length ≤ t.rest.length := by
  obtain ⟨n, hn⟩ := h
  exact (Pattern.reached_of_skipped (fun a ha xs v hv => (k.run_reaches ha xs v hv).loose) hn).le

/-- What is tried in a guarded pattern is guarded itself, and as long as nothing is read, by no
higher rank. -/
theorem guarded_of_tries {m m' : Mode} {p o : Pattern ν} {s t : Cursor} {r : Nat}
    (h : Tries g m p s m' o t) (hguard : p.guarded k.empty k.rank k.top r = true) :
    ∃ r', o.guarded k.empty k.rank k.top r' = true ∧
      t.rest.length ≤ s.rest.length ∧ (t.rest.length = s.rest.length → r' ≤ r) := by
  induction h generalizing r with
  | here => exact ⟨r, hguard, Nat.le_refl _, fun _ => Nat.le_refl _⟩
  | first _ ih | left _ ih =>
    simp only [Pattern.guarded, Bool.and_eq_true] at hguard
    exact ih hguard.1
  | right _ _ ih =>
    simp only [Pattern.guarded, Bool.and_eq_true] at hguard
    exact ih hguard.2
  | opt _ ih | not _ ih => exact ih hguard
  | round _ ih =>
    simp only [Pattern.guarded, Bool.and_eq_true] at hguard
    exact ih hguard.2
  | between hp _ ih =>
    have hle := (k.reaches_of_matches hp _ _ rfl).le
    obtain ⟨r', hr', hle', hrank⟩ := ih k.guarded_blank
    exact ⟨r', hr', by omega, fun heq => by have := hrank (by omega); omega⟩
  | second hp hskips _ ih =>
    simp only [Pattern.guarded, Bool.and_eq_true] at hguard
    have hreached := k.reaches_of_matches hp _ _ rfl
    have hle := hreached.le
    have hskip := k.le_of_skips hskips
    obtain ⟨r', hr', hle', hrank⟩ := ih hguard.2
    refine ⟨r', hr', by omega, fun heq => ?_⟩
    -- the rank is free only behind something that was read
    split at hrank
    · exact hrank (by omega)
    · rename_i hnull
      have hless := hreached.2 (by simpa using hnull)
      omega
  | rounds hp _ ih =>
    have hle := (k.reaches_of_matches hp _ _ rfl).le
    obtain ⟨r', hr', hle', hrank⟩ := ih hguard
    exact ⟨r', hr', by omega, fun heq => hrank (by omega)⟩
  | beforeRound _ ih =>
    obtain ⟨r', hr', hle', hrank⟩ := ih k.guarded_blank
    exact ⟨r', hr', hle', fun heq => Nat.le_trans (hrank heq) (Nat.zero_le _)⟩
  | nextRound hskips _ ih =>
    simp only [Pattern.guarded, Bool.and_eq_true] at hguard
    have hskip := k.le_of_skips hskips
    obtain ⟨r', hr', hle', hrank⟩ := ih hguard.2
    exact ⟨r', hr', by omega, fun heq => hrank (by omega)⟩
  | moreRounds hskips hp _ ih =>
    have hskip := k.le_of_skips hskips
    have hle := (k.reaches_of_matches hp _ _ rfl).le
    obtain ⟨r', hr', hle', hrank⟩ := ih hguard
    exact ⟨r', hr', by omega, fun heq => hrank (by omega)⟩

/-- Every round of a repetition reads something. -/
theorem lt_of_repeats {p : Pattern ν} (h : g.Repeats p) {m : Mode} {s t : Cursor} {r : Nat}
    {xs : List (Node ν)} (hp : Matches g m p s ⟨r, some (xs, t)⟩) :
    t.rest.length < s.rest.length := by
  have hnull : p.nullable k.empty = false := by
    obtain ⟨x, m, s, m', t, h | h⟩ := h
    all_goals
      obtain ⟨r', hguard, -⟩ := k.guarded_of_tries h (k.guarded x)
      simp only [Pattern.guarded, Bool.and_eq_true, Bool.not_eq_true'] at hguard
      exact hguard.1
  exact (k.reaches_of_matches hp xs t rfl).2 hnull

/-- A call that is made on the way does not start further back. -/
theorem le_of_calls {c d : Call ν} (h : Calls g c d) :
    d.cursor.rest.length ≤ c.cursor.rest.length :=
  (k.guarded_of_tries h (k.guarded c.name)).elim fun _ hr => hr.2.1

/-- A call that is made before anything is read is of lower rank. -/
theorem rank_lt_of_calls {c d : Call ν} (h : Calls g c d)
    (hlength : d.cursor.rest.length = c.cursor.rest.length) : k.rank d.name < k.rank c.name := by
  obtain ⟨r', hguard, -, hrank⟩ := k.guarded_of_tries h (k.guarded c.name)
  simp only [Pattern.guarded, decide_eq_true_eq] at hguard
  exact Nat.lt_of_lt_of_le hguard (hrank hlength)

/-- Calls one inside the other, all before anything is read, are not more than there are ranks. -/
theorem length_le_of_isChain {cs : List (Call ν)}
    (h : cs.IsChain fun c d => Calls g c d ∧ d.cursor.rest.length = c.cursor.rest.length) :
    cs.length ≤ k.top := by
  -- each call needs a rank of its own below that of the call around it
  have hroom : ∀ c cs, (c :: cs).IsChain
      (fun c d => Calls g c d ∧ d.cursor.rest.length = c.cursor.rest.length) →
      cs.length ≤ k.rank c.name := by
    intro c cs hcs
    induction cs generalizing c with
    | nil => exact Nat.zero_le _
    | cons d ds ih =>
      obtain ⟨⟨hcall, hlength⟩, hrest⟩ := List.isChain_cons_cons.1 hcs
      exact Nat.lt_of_le_of_lt (ih d hrest) (k.rank_lt_of_calls hcall hlength)
  cases cs with
  | nil => exact Nat.zero_le _
  | cons c cs => exact Nat.lt_of_le_of_lt (hroom c cs h) (k.rank_lt c.name)

/-- Matching is a recursion on the text that is left and, as long as that stays the same, on the
rank. -/
theorem wellFounded_calls : WellFounded fun d c : Call ν => Calls g c d := by
  refine Subrelation.wf (r :=
    InvImage (Prod.Lex (· < ·) (· < ·)) fun c : Call ν => (c.cursor.rest.length, k.rank c.name)) ?_
    (InvImage.wf _ (Prod.lex ⟨_, Nat.lt_wfRel.wf⟩ ⟨_, Nat.lt_wfRel.wf⟩).wf)
  intro d c h
  rcases Nat.lt_or_eq_of_le (k.le_of_calls h) with hless | hlength
  · exact .left _ _ hless
  · simp only [InvImage, hlength]
    exact .right _ (k.rank_lt_of_calls h hlength)

end Ranking

end BranchPaint.Peg
