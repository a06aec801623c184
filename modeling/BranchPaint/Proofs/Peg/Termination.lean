import BranchPaint.Proofs.Peg.Pattern

/-!
# Matching ends

When matching a pattern ends, on every text. A rule may call itself, directly or through others, but
every round of calls has to read something, and so has every round of a repetition.

Both can be checked on the table. Given which rules may match the empty text, `Pattern.nullable`
says which patterns may. Given a rank for each rule, `Pattern.guarded` checks that a rule calls only
rules of lower rank as long as nothing has been read, and that no repetition is of a pattern that
may match the empty text. A table that passes (`Ranking`) needs calls of a depth that is linear in
the length of the text (`Ranking.exists_answer`): the depth grows with the text that is left and, as
long as that does not change, with the rank.
-/

namespace BranchPaint.Peg

variable {ν : Type}

namespace Pattern

/-- Can the pattern match the empty text, if the rules that can are those with `empty`? -/
def nullable (empty : ν → Bool) : Pattern ν → Bool
  | .text w => w.toList.isEmpty
  | .char _ => false
  | .call x => empty x
  | .seq p q => p.nullable empty && q.nullable empty
  | .or p q => p.nullable empty || q.nullable empty
  | .start | .finish | .opt _ | .star _ | .more _ | .not _ => true

/-- Does the pattern, as long as nothing is read, only call rules with a rank below `r`, and repeat
nothing that can match the empty text? Behind what reads something the ranks below `top` are
free. -/
def guarded (empty : ν → Bool) (rank : ν → Nat) (top : Nat) (r : Nat) : Pattern ν → Bool
  | .call x => rank x < r
  | .seq p q => p.guarded empty rank top r && q.guarded empty rank top
    (if p.nullable empty then r else top)
  | .or p q => p.guarded empty rank top r && q.guarded empty rank top r
  | .opt p | .not p => p.guarded empty rank top r
  | .star p | .more p => !p.nullable empty && p.guarded empty rank top r
  | .text _ | .char _ | .start | .finish => true

/-- How deep calls go in the pattern itself, where blanks take a depth of `b`. -/
def depth (b : Nat) : Pattern ν → Nat
  | .seq p q => p.depth b + q.depth b + b + 1
  | .or p q => p.depth b + q.depth b + 1
  | .opt p | .not p => p.depth b + 1
  | .star p => p.depth b + b + 2
  | .more p => p.depth b + b + 1
  | .text _ | .char _ | .start | .finish | .call _ => 1

/-- With a greater bound for rules a pattern is no less deep. -/
theorem depth_mono {b b' : Nat} (h : b ≤ b') (p : Pattern ν) : p.depth b ≤ p.depth b' := by
  induction p with
  | seq p q ihp ihq | or p q ihp ihq =>
    simp only [depth]
    omega
  | opt p ih | star p ih | more p ih | not p ih =>
    simp only [depth]
    omega
  | text _ | char _ | start | finish | call _ => exact Nat.le_refl _

end Pattern

/-- A table of which the rank of each rule shows that matching ends. -/
structure Ranking (g : Table ν) where
  rank : ν → Nat
  /-- The rules that can match the empty text. -/
  empty : ν → Bool
  /-- Above all ranks. -/
  top : Nat
  /-- No pattern is deeper. -/
  size : Nat
  rank_lt (x : ν) : rank x < top
  nullable_le (x : ν) : (g.pattern x).nullable empty = true → empty x = true
  guarded (x : ν) : (g.pattern x).guarded empty rank top (rank x) = true
  guarded_blank : g.blank.guarded empty rank top 0 = true
  depth_le (x : ν) : (g.pattern x).depth (g.blank.depth 0) ≤ size

/-! ## Matching moves forward -/

/-- The second cursor is reached from the first by reading, and something is read unless `empty`. -/
def Reached (empty : Bool) (s t : Cursor) : Prop :=
  s.Leads t ∧ (empty = false → t.rest.length < s.rest.length)

namespace Reached

variable {e e' : Bool} {s t u : Cursor}

/-- A cursor is reached from itself, if nothing need be read. -/
theorem refl (s : Cursor) : Reached true s s := ⟨.refl s, nofun⟩

/-- What is reached is not further back. -/
theorem le (h : Reached e s t) : t.rest.length ≤ s.rest.length := h.1.length_le

/-- Reading something is reading something or nothing. -/
theorem loose (h : Reached e s t) : Reached true s t := ⟨h.1, nofun⟩

/-- Less may be asked. -/
theorem weaken (h : Reached e s t) (he : e = true → e' = true) : Reached e' s t := by
  refine ⟨h.1, fun he' => h.2 ?_⟩
  cases e with
  | false => rfl
  | true => rw [he rfl] at he'; cases he'

/-- One step after the other reads something if one of them does. -/
theorem trans (h : Reached e s t) (h' : Reached e' t u) : Reached (e && e') s u := by
  refine ⟨h.1.trans h'.1, fun hand => ?_⟩
  have hle := h.le
  have hle' := h'.le
  rcases Bool.and_eq_false_iff.1 hand with he | he'
  · exact Nat.lt_of_le_of_lt hle' (h.2 he)
  · exact Nat.lt_of_lt_of_le (h'.2 he') hle

end Reached

/-- If the pattern matched, the text that is left is reached. -/
def Answer.Reaches (a : Answer ν) (e : Bool) (s : Cursor) : Prop :=
  ∀ xs t, a.result = some (xs, t) → Reached e s t

namespace Answer.Reaches

variable {a b : Answer ν} {e e' : Bool} {s t : Cursor} {r : Nat} {xs : List (Node ν)}

/-- A failure reaches nothing. -/
theorem none : Reaches (⟨r, .none⟩ : Answer ν) e s := fun _ _ h => by cases h

/-- A success reaches where it stops. -/
theorem some (h : Reached e s t) : Reaches ⟨r, .some (xs, t)⟩ e s := fun _ _ heq => by
  cases heq
  exact h

/-- What a test of characters reaches is reached by its answer. -/
theorem of_map {x : Option Cursor} (h : ∀ t, x = .some t → Reached e s t) :
    Reaches (⟨r, x.map fun t => (xs, t)⟩ : Answer ν) e s := by
  intro ys t ht
  obtain ⟨u, hu, heq⟩ := Option.map_eq_some_iff.1 ht
  cases heq
  exact h t hu

/-- An answer behind another reaches further. -/
theorem behind (h : Reached e s t) (hb : b.Reaches e' t) : (b.behind r xs).Reaches (e && e') s := by
  intro ys u hu
  obtain ⟨⟨zs, v⟩, hv, heq⟩ := Option.map_eq_some_iff.1 hu
  cases heq
  exact h.trans (hb zs v hv)

/-- Where an answer stops was reached. -/
theorem stop (h : a.Reaches e s) : Reached true s (a.stop s) := by
  unfold Answer.stop
  split
  · rename_i xs t ht
    exact (h xs t ht).loose
  · exact .refl s

/-- Closing a node does not change what is reached. -/
theorem close (h : a.Reaches e s) (m : Mode) (x : ν) : (a.close m x s).Reaches e s := by
  cases m with
  | quiet => exact h
  | plain | compound =>
    unfold Answer.close
    dsimp only
    split
    · exact none
    · rename_i xs t ht
      exact some (h xs t ht)

end Answer.Reaches

/-- Skipping blanks reaches where it stops. -/
theorem Pattern.reached_of_skipped {m : Mode} {t u : Cursor} {x : Option (Answer ν)}
    (hx : ∀ a, x = some a → a.Reaches true t) (h : skipped m t x = some u) : Reached true t u := by
  cases m with
  | plain =>
    obtain ⟨a, ha, rfl⟩ := Option.map_eq_some_iff.1 h
    exact (hx a ha).stop
  | compound | quiet =>
    cases h
    exact .refl t

namespace Ranking

variable {g : Table ν} (k : Ranking g)

/-- A text that is not empty reaches further. -/
theorem reached_text {w : String} {s t : Cursor} (h : s.literal? w.toList = some t) :
    Reached w.toList.isEmpty s t := by
  refine ⟨.literal? h, fun hw => ?_⟩
  have hlength := Cursor.length_of_literal? h
  have hpos : 0 < w.toList.length := List.length_pos_iff.2 (by simpa using hw)
  omega

/-- A character reaches further. -/
theorem reached_char {f : Char → Bool} {s t : Cursor} (h : s.char? f = some t) :
    Reached false s t := by
  obtain ⟨_ | ⟨c, r⟩, p⟩ := s
  · cases h
  · refine ⟨.char? h, fun _ => ?_⟩
    simp only [Cursor.char?] at h
    split at h
    · cases h
      exact Nat.lt_succ_self _
    · cases h

/-- Matching moves forward, over something unless the pattern can match the empty text. -/
theorem run_reaches {n : Nat} {m : Mode} {p : Pattern ν} {s : Cursor} {a : Answer ν}
    (h : p.run g n m s = some a) : a.Reaches (p.nullable k.empty) s := by
  induction n generalizing m p s a with
  | zero => cases h
  | succ n ih =>
    cases p with
    | text w =>
      cases h
      exact .of_map fun t ht => reached_text ht
    | char f =>
      cases h
      exact .of_map fun t ht => reached_char ht
    | start | finish =>
      cases h
      split
      · exact .some (.refl s)
      · exact .none
    | call x =>
      obtain ⟨b, hb, rfl⟩ := Option.map_eq_some_iff.1 h
      exact Answer.Reaches.close (fun xs t ht => (ih hb xs t ht).weaken (k.nullable_le x)) m x
    | seq p q =>
      obtain ⟨b, hb, h⟩ := Option.bind_eq_some_iff.1 h
      split at h
      · rename_i hnone
        cases h
        intro xs t ht
        rw [hnone] at ht
        cases ht
      · rename_i xs t ht
        obtain ⟨u, hu, h⟩ := Option.bind_eq_some_iff.1 h
        obtain ⟨c, hc, rfl⟩ := Option.map_eq_some_iff.1 h
        have hskip : Reached true t u :=
          Pattern.reached_of_skipped (fun d hd xs t ht => (ih hd xs t ht).loose) hu
        have hfirst := (ih hb xs t ht).trans hskip
        rw [Bool.and_true] at hfirst
        exact .behind hfirst (ih hc)
    | or p q =>
      obtain ⟨b, hb, h⟩ := Option.bind_eq_some_iff.1 h
      split at h
      · cases h
        exact fun xs t ht => (ih hb xs t ht).weaken fun he => by simp [Pattern.nullable, he]
      · obtain ⟨c, hc, rfl⟩ := Option.map_eq_some_iff.1 h
        exact fun xs t ht => (ih hc xs t ht).weaken fun he => by simp [Pattern.nullable, he]
    | opt p =>
      obtain ⟨b, hb, rfl⟩ := Option.map_eq_some_iff.1 h
      intro xs t ht
      cases hres : b.result with
      | none =>
        rw [hres] at ht
        cases ht
        exact .refl s
      | some x =>
        rw [hres] at ht
        cases ht
        exact (ih hb xs t hres).loose
    | star p =>
      obtain ⟨b, hb, h⟩ := Option.bind_eq_some_iff.1 h
      split at h
      · cases h
        exact .some (.refl s)
      · rename_i xs t ht
        obtain ⟨c, hc, rfl⟩ := Option.map_eq_some_iff.1 h
        exact .behind (ih hb xs t ht).loose (ih hc)
    | more p =>
      obtain ⟨u, hu, h⟩ := Option.bind_eq_some_iff.1 h
      obtain ⟨b, hb, h⟩ := Option.bind_eq_some_iff.1 h
      split at h
      · cases h
        exact .some (.refl s)
      · rename_i xs t ht
        obtain ⟨c, hc, rfl⟩ := Option.map_eq_some_iff.1 h
        have hskip : Reached true s u :=
          Pattern.reached_of_skipped (fun d hd xs t ht => (ih hd xs t ht).loose) hu
        exact .behind (hskip.trans (ih hb xs t ht)).loose (ih hc)
    | not p =>
      obtain ⟨b, hb, rfl⟩ := Option.map_eq_some_iff.1 h
      split
      · exact .none
      · exact .some (.refl s)

/-- A match reaches further, unless its pattern may be empty. -/
theorem reaches_of_matches {m : Mode} {p : Pattern ν} {s : Cursor} {a : Answer ν}
    (h : Matches g m p s a) : a.Reaches (p.nullable k.empty) s :=
  h.elim fun _ hn => k.run_reaches hn

/-! ## Matching ends -/

/-- How much deeper calls may go for each character that is left. -/
def stride : Nat := k.top * k.size + 1

/-- A character less makes room for calls from the top again. -/
theorem stride_lt {i j : Nat} (h : i < j) : i * k.stride + k.top * k.size + 1 ≤ j * k.stride := by
  have hle := Nat.mul_le_mul_right k.stride (Nat.succ_le_of_lt h)
  rw [Nat.succ_mul] at hle
  unfold stride at hle ⊢
  omega

/-- A call of lower rank makes room for the pattern of the rule. -/
theorem rank_mul_lt {x : ν} {r : Nat} (h : k.rank x < r) :
    k.rank x * k.size + k.size ≤ r * k.size := by
  rw [← Nat.succ_mul]
  exact Nat.mul_le_mul_right _ h

/-- Where blanks may stand, they are matched with calls of a depth of `b` above what the length of
the text allows. -/
def BlanksEnd (b : Nat) (m : Mode) : Prop :=
  m = .plain → ∀ (n : Nat) (t : Cursor), t.rest.length * k.stride + b ≤ n →
    (g.blank.run g n .quiet t).isSome

/-- With enough fuel blanks are skipped, and nothing is gone back. -/
theorem exists_skipped {b n : Nat} {m : Mode} {t : Cursor} (h : k.BlanksEnd b m)
    (ht : t.rest.length * k.stride + b ≤ n) :
    ∃ u, Pattern.skipped m t (g.blank.run g n .quiet t) = some u ∧ u.rest.length ≤
      t.rest.length := by
  cases m with
  | plain =>
    obtain ⟨a, ha⟩ := Option.isSome_iff_exists.1 (h rfl n t ht)
    refine ⟨a.stop t, by simp only [Pattern.skipped, ha, Option.map_some], ?_⟩
    exact (k.run_reaches ha).stop.le
  | compound | quiet => exact ⟨t, rfl, Nat.le_refl _⟩

/-- A guarded pattern is matched with calls of a depth that depends on the length of the text and on
its guard. The invariant is the bound itself: a call inside takes from the rank, and what was read
takes from the length. -/
theorem isSome_run {b : Nat} (hdepth : ∀ x, (g.pattern x).depth b ≤ k.size)
    {n : Nat} {m : Mode} {p : Pattern ν} {s : Cursor} {r : Nat}
    (hblank : k.BlanksEnd b m) (hguard : p.guarded k.empty k.rank k.top r = true)
    (hn : s.rest.length * k.stride + r * k.size + p.depth b ≤ n) : (p.run g n m s).isSome := by
  induction n generalizing m p s r with
  | zero =>
    cases p
    all_goals simp only [Pattern.depth] at hn; omega
  | succ n ih =>
    cases p with
    | text w | char f | start | finish => rfl
    | call x =>
      simp only [Pattern.guarded, decide_eq_true_eq] at hguard
      simp only [Pattern.depth] at hn
      have hroom := k.rank_mul_lt hguard
      have hsize := hdepth x
      have hinside : m.inside (g.kind x) = .plain → m = .plain := by
        cases m
        all_goals cases g.kind x
        all_goals decide
      have hrun : ((g.pattern x).run g n (m.inside (g.kind x)) s).isSome :=
        ih (fun hm => hblank (hinside hm)) (k.guarded x) (by omega)
      simp only [Pattern.run, Option.isSome_map, hrun]
    | seq p q =>
      simp only [Pattern.guarded, Bool.and_eq_true] at hguard
      simp only [Pattern.depth] at hn
      obtain ⟨a, ha⟩ := Option.isSome_iff_exists.1 (ih (p := p) (s := s) hblank hguard.1 (by omega))
      simp only [Pattern.run, ha, Option.bind_some]
      split
      · rfl
      · rename_i xs t ht
        have hreached := k.run_reaches ha xs t ht
        have hlength := Nat.mul_le_mul_right k.stride hreached.le
        obtain ⟨u, hu, hut⟩ := k.exists_skipped hblank (n := n) (t := t) (by omega)
        have hlength' := Nat.mul_le_mul_right k.stride hut
        have hrun : (q.run g n m u).isSome := by
          refine ih hblank hguard.2 ?_
          split
          · omega
          · rename_i hnull
            have hless := k.stride_lt (Nat.lt_of_le_of_lt hut (hreached.2 (by simpa using hnull)))
            omega
        simp only [hu, Option.bind_some, Option.isSome_map, hrun]
    | or p q =>
      simp only [Pattern.guarded, Bool.and_eq_true] at hguard
      simp only [Pattern.depth] at hn
      obtain ⟨a, ha⟩ := Option.isSome_iff_exists.1 (ih (p := p) (s := s) hblank hguard.1 (by omega))
      have hrun : (q.run g n m s).isSome := ih hblank hguard.2 (by omega)
      simp only [Pattern.run, ha, Option.bind_some]
      split
      · rfl
      · simp only [Option.isSome_map, hrun]
    | opt p =>
      simp only [Pattern.depth] at hn
      have hrun : (p.run g n m s).isSome := ih hblank hguard (by omega)
      simp only [Pattern.run, Option.isSome_map, hrun]
    | star p =>
      have hmore : (Pattern.more p).guarded k.empty k.rank k.top r = true := hguard
      simp only [Pattern.guarded, Bool.and_eq_true] at hguard
      simp only [Pattern.depth] at hn
      obtain ⟨a, ha⟩ := Option.isSome_iff_exists.1 (ih (p := p) (s := s) hblank hguard.2 (by omega))
      simp only [Pattern.run, ha, Option.bind_some]
      split
      · rfl
      · rename_i xs t ht
        have hlength := Nat.mul_le_mul_right k.stride (k.run_reaches ha xs t ht).le
        have hrun : ((Pattern.more p).run g n m t).isSome :=
          ih hblank hmore (by simp only [Pattern.depth]; omega)
        simp only [Option.isSome_map, hrun]
    | more p =>
      have hmore := hguard
      simp only [Pattern.guarded, Bool.and_eq_true] at hguard
      simp only [Pattern.depth] at hn
      obtain ⟨u, hu, hus⟩ := k.exists_skipped hblank (n := n) (t := s) (by omega)
      have hlength := Nat.mul_le_mul_right k.stride hus
      obtain ⟨a, ha⟩ := Option.isSome_iff_exists.1 (ih (p := p) (s := u) hblank hguard.2 (by omega))
      simp only [Pattern.run, hu, ha, Option.bind_some]
      split
      · rfl
      · rename_i xs t ht
        have hless := k.stride_lt
          (Nat.lt_of_lt_of_le ((k.run_reaches ha xs t ht).2 (by simpa using hguard.1)) hus)
        have hrun : ((Pattern.more p).run g n m t).isSome :=
          ih hblank hmore (by simp only [Pattern.depth]; omega)
        simp only [Option.isSome_map, hrun]
    | not p =>
      simp only [Pattern.depth] at hn
      have hrun : (p.run g n .quiet s).isSome := ih nofun hguard (by omega)
      simp only [Pattern.run, Option.isSome_map, hrun]

/-- The blanks at the front of a text are matched. -/
theorem isSome_run_blank {n : Nat} {s : Cursor}
    (hn : s.rest.length * k.stride + g.blank.depth 0 ≤ n) : (g.blank.run g n .quiet s).isSome := by
  refine k.isSome_run (fun x => Nat.le_trans (Pattern.depth_mono (Nat.zero_le _) _) (k.depth_le x))
    nofun k.guarded_blank ?_
  omega

/-- A depth of calls that suffices for a text of the given length. -/
def fuel (length : Nat) : Nat := (length + 1) * k.stride

/-- Every rule has an answer on every text, with calls of a depth that is linear in the length of
the text. -/
theorem exists_answer (m : Mode) (x : ν) (s : Cursor) :
    ∃ a, ∀ n, k.fuel s.rest.length ≤ n → (Pattern.call x).run g n m s = some a := by
  have hrun : ((Pattern.call x).run g (k.fuel s.rest.length) m s).isSome := by
    refine k.isSome_run k.depth_le (fun _ _ _ => k.isSome_run_blank) (r := k.top) ?_ ?_
    · simpa [Pattern.guarded] using k.rank_lt x
    · simp only [Pattern.depth, fuel, Nat.succ_mul, stride]
      omega
  obtain ⟨a, ha⟩ := Option.isSome_iff_exists.1 hrun
  exact ⟨a, fun n hn => Pattern.run_mono ha hn⟩

end Ranking

end BranchPaint.Peg
