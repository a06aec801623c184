import BranchPaint.Proofs.Source.Cursor

/-!
# Grammars as tables

A grammar written down as data: a table that has a pattern for each rule name. A pattern is matched
against the front of a text with ordered choice, greedy repetition and look-ahead; between the parts
of a sequence, and between the rounds of a repetition, blanks may stand. What a rule matched becomes
a node, so that a match leaves a tree of nodes which follows the grammar and not yet the syntax
trees that are made of it.

`Pattern.run` matches with a bound on the depth of calls and says openly when the bound was too low:
the answer is then `none`. An answer once given does not depend on the bound (`Pattern.run_mono`),
and `Matches` forgets it. The rules of inference for `Matches`, one or two for each kind of pattern,
are all that is used of `Pattern.run` later.

Matching also records how far some rule got before it gave up, in bytes. Nothing is recorded inside
atomic rules and look-aheads, and no nodes are made there.
-/

namespace BranchPaint

/-- The cursor behind the next character, if that satisfies `f`. -/
def Cursor.char? (f : Char → Bool) : Cursor → Option Cursor
  | ⟨[], _⟩ => none
  | ⟨c :: r, p⟩ => if f c then some ⟨r, p.next c⟩ else none

/-- The text between a cursor and a later one. -/
def Cursor.upTo (s t : Cursor) : String :=
  String.ofList (s.rest.take (s.rest.length - t.rest.length))

/-- What stands between two cursors is what was read. -/
theorem Cursor.upTo_eq {s t : Cursor} {read : List Char} (h : s.rest = read ++ t.rest) :
    s.upTo t = String.ofList read := by
  simp [upTo, h]

/-- A character leads on. -/
theorem Cursor.Leads.char? {f : Char → Bool} {s t : Cursor} (h : s.char? f = some t) :
    s.Leads t := by
  obtain ⟨_ | ⟨c, r⟩, p⟩ := s
  · cases h
  · simp only [Cursor.char?] at h
    split at h
    · cases h
      exact .cons (.refl _)
    · cases h

namespace Peg

variable {ν : Type}

/-! ## Patterns and tables -/

/-- A pattern over rule names. -/
inductive Pattern (ν : Type) where
  /-- Fixed text. -/
  | text (word : String)
  /-- One character of a class. -/
  | char (test : Char → Bool)
  /-- The start of the whole text. -/
  | start
  /-- The end of the text. -/
  | finish
  /-- What the rule with this name matches. -/
  | call (name : ν)
  /-- One after the other. -/
  | seq (first second : Pattern ν)
  /-- The first that matches. -/
  | or (first second : Pattern ν)
  /-- The pattern, or nothing. -/
  | opt (inner : Pattern ν)
  /-- As often as possible. -/
  | star (inner : Pattern ν)
  /-- Further rounds of a repetition. -/
  | more (inner : Pattern ν)
  /-- Nothing, where the pattern does not match. -/
  | not (inner : Pattern ν)

/-- How a rule treats blanks, and what it leaves. -/
inductive Kind where
  /-- Blanks may stand between the parts; the node has the nodes of the parts in it. -/
  | plain
  /-- No blanks; the node has no others in it. -/
  | atomic
  /-- No blanks; the node has the nodes of the parts in it. -/
  | compound
deriving DecidableEq

/-- A grammar. -/
structure Table (ν : Type) where
  kind : ν → Kind
  pattern : ν → Pattern ν
  /-- What may stand between the parts of a sequence. -/
  blank : Pattern ν

/-- What a rule matched: its name, the text, where it stands, and the nodes in it. -/
inductive Node (ν : Type) where
  | mk (name : ν) (text : String) (span : Span) (inner : List (Node ν))

namespace Node

variable (x : Node ν)

/-- The name of the rule. -/
def name : ν := match x with | mk name _ _ _ => name

/-- The text that was matched. -/
def text : String := match x with | mk _ text _ _ => text

/-- Where the text stands. -/
def span : Span := match x with | mk _ _ span _ => span

/-- The nodes of the parts, in order. -/
def inner : List (Node ν) := match x with | mk _ _ _ inner => inner

end Node

/-! ## Matching -/

/-- Where in the grammar a pattern is matched. -/
inductive Mode where
  /-- In a rule that allows blanks. -/
  | plain
  /-- In a rule that allows no blanks but makes nodes. -/
  | compound
  /-- In an atomic rule, a look-ahead or a blank. -/
  | quiet
deriving DecidableEq

/-- Where the pattern of a rule is matched that is called in this mode. -/
def Mode.inside : Mode → Kind → Mode
  | .quiet, _ => .quiet
  | m, .plain => m
  | _, .atomic => .quiet
  | _, .compound => .compound

/-- What matching answers. -/
structure Answer (ν : Type) where
  /-- The furthest place, in bytes, at which a rule that gave up had started. -/
  reach : Nat
  /-- The nodes and the text behind them, or nothing if the pattern does not match. -/
  result : Option (List (Node ν) × Cursor)

namespace Answer

/-- The answer of the second of two parts, with what the first left. -/
def behind (a : Answer ν) (reach : Nat) (xs : List (Node ν)) : Answer ν :=
  ⟨max reach a.reach, a.result.map fun r => (xs ++ r.1, r.2)⟩

/-- Where matching stopped: at `s` if it did not succeed. -/
def stop (a : Answer ν) (s : Cursor) : Cursor :=
  match a.result with
  | some (_, t) => t
  | none => s

/-- The answer of a rule called at `s`, of that of its pattern: what was matched becomes a node, and
a rule that gives up says where it started. -/
def close (a : Answer ν) (m : Mode) (name : ν) (s : Cursor) : Answer ν :=
  match m with
  | .quiet => a
  | .plain | .compound =>
    match a.result with
    | none => ⟨max a.reach s.pos.offset, none⟩
    | some (xs, t) => ⟨a.reach, some ([.mk name (s.upTo t) (.between s.pos t.pos) xs], t)⟩

end Answer

namespace Pattern

variable (g : Table ν)

/-- Where the next part is matched: behind the blanks, where blanks may stand. -/
def skipped (m : Mode) (t : Cursor) (blanks : Option (Answer ν)) : Option Cursor :=
  match m with
  | .plain => blanks.map fun a => a.stop t
  | .compound | .quiet => some t

/-- Matches a pattern at the front of a text, with calls nested to a depth below `n`; there is no
answer if that does not suffice. -/
def run : Nat → Mode → Pattern ν → Cursor → Option (Answer ν)
  | 0, _, _, _ => none
  | _ + 1, _, .text w, s => some ⟨0, (s.literal? w.toList).map fun t => ([], t)⟩
  | _ + 1, _, .char f, s => some ⟨0, (s.char? f).map fun t => ([], t)⟩
  | _ + 1, _, .start, s => some ⟨0, if s.pos.offset = 0 then some ([], s) else none⟩
  | _ + 1, _, .finish, s => some ⟨0, if s.rest = [] then some ([], s) else none⟩
  | n + 1, m, .call x, s => (run n (m.inside (g.kind x)) (g.pattern x) s).map fun a => a.close m x s
  | n + 1, m, .seq p q, s => (run n m p s).bind fun a =>
    match a.result with
    | none => some a
    | some (xs, t) => (skipped m t (run n .quiet g.blank t)).bind fun u =>
      (run n m q u).map fun b => b.behind a.reach xs
  | n + 1, m, .or p q, s => (run n m p s).bind fun a =>
    match a.result with
    | some _ => some a
    | none => (run n m q s).map fun b => ⟨max a.reach b.reach, b.result⟩
  | n + 1, m, .opt p, s => (run n m p s).map fun a => ⟨a.reach, some (a.result.getD ([], s))⟩
  | n + 1, m, .star p, s => (run n m p s).bind fun a =>
    match a.result with
    | none => some ⟨a.reach, some ([], s)⟩
    | some (xs, t) => (run n m (.more p) t).map fun b => b.behind a.reach xs
  | n + 1, m, .more p, s => (skipped m s (run n .quiet g.blank s)).bind fun u =>
    (run n m p u).bind fun a =>
    match a.result with
    | none => some ⟨a.reach, some ([], s)⟩
    | some (xs, t) => (run n m (.more p) t).map fun b => b.behind a.reach xs
  | n + 1, _, .not p, s => (run n .quiet p s).map fun a =>
    ⟨0, if a.result.isSome then none else some ([], s)⟩

end Pattern

/-! ## More depth, same answer -/

/-- Whatever the first answers, the second answers too. -/
def Keeps {α : Type} (x y : Option α) : Prop := ∀ a, x = some a → y = some a

namespace Keeps

variable {α β : Type} {x y : Option α}

/-- An outcome keeps itself. -/
theorem refl (x : Option α) : Keeps x x := fun _ h => h

/-- No outcome keeps nothing. -/
theorem none (y : Option α) : Keeps none y := fun _ h => nomatch h

/-- Computations in a row keep their outcome if each of them does. -/
theorem bind (h : Keeps x y) {f f' : α → Option β} (hf : ∀ a, Keeps (f a) (f' a)) :
    Keeps (x.bind f) (y.bind f') := by
  intro b hb
  obtain ⟨a, ha, hb⟩ := Option.bind_eq_some_iff.1 hb
  exact Option.bind_eq_some_iff.2 ⟨a, h a ha, hf a b hb⟩

/-- What is made of an outcome is kept with it. -/
theorem map (h : Keeps x y) (f : α → β) : Keeps (x.map f) (y.map f) := by
  intro b hb
  obtain ⟨a, ha, rfl⟩ := Option.map_eq_some_iff.1 hb
  exact Option.map_eq_some_iff.2 ⟨a, h a ha, rfl⟩

/-- Skipping keeps its outcome. -/
theorem skipped {m : Mode} {t : Cursor} {x y : Option (Answer ν)} (h : Keeps x y) :
    Keeps (Pattern.skipped m t x) (Pattern.skipped m t y) := by
  cases m with
  | plain => exact h.map _
  | compound | quiet => exact refl _

end Keeps

namespace Pattern

variable (g : Table ν)

/-- With more fuel a run keeps its outcome. -/
theorem run_keeps (n : Nat) (m : Mode) (p : Pattern ν) (s : Cursor) :
    Keeps (p.run g n m s) (p.run g (n + 1) m s) := by
  induction n generalizing m p s with
  | zero => exact .none _
  | succ n ih =>
    cases p with
    | text w | char f | start | finish => exact .refl _
    | call x => exact (ih _ _ _).map _
    | seq p q =>
      refine (ih _ _ _).bind fun a => ?_
      split
      · exact .refl _
      · exact (Keeps.skipped (ih _ _ _)).bind fun u => (ih _ _ _).map _
    | or p q =>
      refine (ih _ _ _).bind fun a => ?_
      split
      · exact .refl _
      · exact (ih _ _ _).map _
    | opt p | not p => exact (ih _ _ _).map _
    | star p =>
      refine (ih _ _ _).bind fun a => ?_
      split
      · exact .refl _
      · exact (ih _ _ _).map _
    | more p =>
      refine (Keeps.skipped (ih _ _ _)).bind fun u => (ih _ _ _).bind fun a => ?_
      split
      · exact .refl _
      · exact (ih _ _ _).map _

/-- An answer does not depend on the bound. -/
theorem run_mono {g : Table ν} {n k : Nat} {m : Mode} {p : Pattern ν} {s : Cursor} {a : Answer ν}
    (h : p.run g n m s = some a) (hk : n ≤ k) : p.run g k m s = some a := by
  induction hk with
  | refl => exact h
  | step _ ih => exact run_keeps g _ m p s a ih

end Pattern

/-! ## Matching without a bound -/

/-- The pattern has the answer `a` at `s`. -/
def Matches (g : Table ν) (m : Mode) (p : Pattern ν) (s : Cursor) (a : Answer ν) : Prop :=
  ∃ n, p.run g n m s = some a

/-- The next part of a sequence that was matched up to `t` is matched at `u`. -/
def Skips (g : Table ν) (m : Mode) (t u : Cursor) : Prop :=
  ∃ n, Pattern.skipped m t (g.blank.run g n .quiet t) = some u

namespace Matches

variable {g : Table ν} {m : Mode} {p q : Pattern ν} {s t u : Cursor} {a b : Answer ν} {r : Nat}
  {xs : List (Node ν)}

/-- There is only one answer. -/
theorem unique (h : Matches g m p s a) (h' : Matches g m p s b) : a = b := by
  obtain ⟨n, hn⟩ := h
  obtain ⟨k, hk⟩ := h'
  have ha := Pattern.run_mono hn (Nat.le_max_left n k)
  rw [Pattern.run_mono hk (Nat.le_max_right n k)] at ha
  exact (Option.some.inj ha).symm

/-- Between the parts of a plain rule blanks are skipped. -/
theorem skips_plain (h : Matches g .quiet g.blank t a) : Skips g .plain t (a.stop t) := by
  obtain ⟨n, hn⟩ := h
  exact ⟨n, by simp only [Pattern.skipped, hn, Option.map_some]⟩

/-- Within blanks nothing is skipped. -/
theorem skips_quiet : Skips g .quiet t t := ⟨0, rfl⟩

/-- Within a token nothing is skipped. -/
theorem skips_compound : Skips g .compound t t := ⟨0, rfl⟩

/-- A fixed text matches where it stands, and leaves no node. -/
theorem text (w : String) :
    Matches g m (.text w) s ⟨0, (s.literal? w.toList).map fun t => ([], t)⟩ := ⟨1, rfl⟩

/-- A class matches one character of it, and leaves no node. -/
theorem char (f : Char → Bool) : Matches g m (.char f) s ⟨0, (s.char? f).map fun t => ([], t)⟩ :=
  ⟨1, rfl⟩

/-- The start of the text matches there. -/
theorem start (h : s.pos.offset = 0) : Matches g m .start s ⟨0, some ([], s)⟩ :=
  ⟨1, congrArg (some ∘ Answer.mk 0) (if_pos h)⟩

/-- The end of the text matches there only. -/
theorem finish : Matches g m .finish s ⟨0, if s.rest = [] then some ([], s) else none⟩ := ⟨1, rfl⟩

/-- A named rule matches as its pattern does, and closes a node around what it leaves. -/
theorem call {x : ν} (h : Matches g (m.inside (g.kind x)) (g.pattern x) s a) :
    Matches g m (.call x) s (a.close m x s) := by
  obtain ⟨n, hn⟩ := h
  exact ⟨n + 1, congrArg (Option.map _) hn⟩

/-- A rule that leaves a node. -/
theorem call_some {x : ν} (hm : m ≠ .quiet)
    (h : Matches g (m.inside (g.kind x)) (g.pattern x) s ⟨r, some (xs, t)⟩) :
    Matches g m (.call x) s ⟨r, some ([.mk x (s.upTo t) (.between s.pos t.pos) xs], t)⟩ := by
  have hcall := h.call
  cases m with
  | plain | compound => exact hcall
  | quiet => exact absurd rfl hm

/-- A rule that gives up. -/
theorem call_none {x : ν} (hm : m ≠ .quiet)
    (h : Matches g (m.inside (g.kind x)) (g.pattern x) s ⟨r, none⟩) :
    Matches g m (.call x) s ⟨max r s.pos.offset, none⟩ := by
  have hcall := h.call
  cases m with
  | plain | compound => exact hcall
  | quiet => exact absurd rfl hm

/-- A sequence fails where its first part does. -/
theorem seq_none (h : Matches g m p s ⟨r, none⟩) : Matches g m (.seq p q) s ⟨r, none⟩ := by
  obtain ⟨n, hn⟩ := h
  exact ⟨n + 1, Option.bind_eq_some_iff.2 ⟨_, hn, rfl⟩⟩

/-- A sequence goes on with its second part behind the blanks. -/
theorem seq (h : Matches g m p s ⟨r, some (xs, t)⟩) (hskips : Skips g m t u)
    (h' : Matches g m q u b) : Matches g m (.seq p q) s (b.behind r xs) := by
  obtain ⟨n, hn⟩ := h
  obtain ⟨k, hk⟩ := h'
  obtain ⟨l, hl⟩ := hskips
  have hskipped : Keeps (g.blank.run g l .quiet t) (g.blank.run g (max l (max n k)) .quiet t) :=
    fun _ ha => Pattern.run_mono ha (Nat.le_max_left _ _)
  have hn' := Pattern.run_mono hn (Nat.le_trans (Nat.le_max_left n k) (Nat.le_max_right l _))
  have hk' := Pattern.run_mono hk (Nat.le_trans (Nat.le_max_right n k) (Nat.le_max_right l _))
  refine ⟨max l (max n k) + 1, Option.bind_eq_some_iff.2 ⟨_, hn', ?_⟩⟩
  exact Option.bind_eq_some_iff.2 ⟨u, hskipped.skipped _ hl, congrArg (Option.map _) hk'⟩

/-- A choice takes its first part if that matches. -/
theorem or_left {x : List (Node ν) × Cursor} (h : Matches g m p s ⟨r, some x⟩) :
    Matches g m (.or p q) s ⟨r, some x⟩ := by
  obtain ⟨n, hn⟩ := h
  exact ⟨n + 1, Option.bind_eq_some_iff.2 ⟨_, hn, rfl⟩⟩

/-- A choice takes its second part if the first fails. -/
theorem or_right (h : Matches g m p s ⟨r, none⟩) (h' : Matches g m q s b) :
    Matches g m (.or p q) s ⟨max r b.reach, b.result⟩ := by
  obtain ⟨n, hn⟩ := h
  obtain ⟨k, hk⟩ := h'
  refine ⟨max n k + 1, Option.bind_eq_some_iff.2 ⟨_, Pattern.run_mono hn (Nat.le_max_left n k), ?_⟩⟩
  exact congrArg (Option.map _) (Pattern.run_mono hk (Nat.le_max_right n k))

/-- An optional part matches in any case. -/
theorem opt (h : Matches g m p s a) :
    Matches g m (.opt p) s ⟨a.reach, some (a.result.getD ([], s))⟩ := by
  obtain ⟨n, hn⟩ := h
  exact ⟨n + 1, congrArg (Option.map _) hn⟩

/-- A repetition of which no round matches leaves nothing. -/
theorem star_none (h : Matches g m p s ⟨r, none⟩) : Matches g m (.star p) s ⟨r, some ([], s)⟩ := by
  obtain ⟨n, hn⟩ := h
  exact ⟨n + 1, Option.bind_eq_some_iff.2 ⟨_, hn, rfl⟩⟩

/-- A repetition goes on behind its first round. -/
theorem star (h : Matches g m p s ⟨r, some (xs, t)⟩) (h' : Matches g m (.more p) t b) :
    Matches g m (.star p) s (b.behind r xs) := by
  obtain ⟨n, hn⟩ := h
  obtain ⟨k, hk⟩ := h'
  refine ⟨max n k + 1, Option.bind_eq_some_iff.2 ⟨_, Pattern.run_mono hn (Nat.le_max_left n k), ?_⟩⟩
  exact congrArg (Option.map _) (Pattern.run_mono hk (Nat.le_max_right n k))

/-- Further rounds end where none matches behind the blanks. -/
theorem more_none (hskips : Skips g m s u) (h : Matches g m p u ⟨r, none⟩) :
    Matches g m (.more p) s ⟨r, some ([], s)⟩ := by
  obtain ⟨n, hn⟩ := h
  obtain ⟨l, hl⟩ := hskips
  have hskipped : Keeps (g.blank.run g l .quiet s) (g.blank.run g (max l n) .quiet s) :=
    fun _ ha => Pattern.run_mono ha (Nat.le_max_left _ _)
  refine ⟨max l n + 1, Option.bind_eq_some_iff.2 ⟨u, hskipped.skipped _ hl, ?_⟩⟩
  exact Option.bind_eq_some_iff.2 ⟨_, Pattern.run_mono hn (Nat.le_max_right l n), rfl⟩

/-- Further rounds go on behind the blanks. -/
theorem more (hskips : Skips g m s u) (h : Matches g m p u ⟨r, some (xs, t)⟩)
    (h' : Matches g m (.more p) t b) : Matches g m (.more p) s (b.behind r xs) := by
  obtain ⟨n, hn⟩ := h
  obtain ⟨k, hk⟩ := h'
  obtain ⟨l, hl⟩ := hskips
  have hskipped : Keeps (g.blank.run g l .quiet s) (g.blank.run g (max l (max n k)) .quiet s) :=
    fun _ ha => Pattern.run_mono ha (Nat.le_max_left _ _)
  have hn' := Pattern.run_mono hn (Nat.le_trans (Nat.le_max_left n k) (Nat.le_max_right l _))
  have hk' := Pattern.run_mono hk (Nat.le_trans (Nat.le_max_right n k) (Nat.le_max_right l _))
  refine ⟨max l (max n k) + 1, Option.bind_eq_some_iff.2 ⟨u, hskipped.skipped _ hl, ?_⟩⟩
  exact Option.bind_eq_some_iff.2 ⟨_, hn', congrArg (Option.map _) hk'⟩

/-- Where there is nothing to skip, a repetition starts as it goes on. -/
theorem star_of_more (hskips : Skips g m s s) (h : Matches g m (.more p) s a) :
    Matches g m (.star p) s a := by
  obtain ⟨n, hn⟩ := h
  obtain ⟨l, hl⟩ := hskips
  cases n with
  | zero => cases hn
  | succ n =>
    obtain ⟨u, hu, hn⟩ := Option.bind_eq_some_iff.1 hn
    have hu' : Pattern.skipped m s (g.blank.run g (max l n) .quiet s) = some u :=
      Keeps.skipped (fun _ ha => Pattern.run_mono ha (Nat.le_max_right l n)) _ hu
    have hs' : Pattern.skipped m s (g.blank.run g (max l n) .quiet s) = some s :=
      Keeps.skipped (fun _ ha => Pattern.run_mono ha (Nat.le_max_left l n)) _ hl
    rw [hu'] at hs'
    cases hs'
    exact ⟨n + 1, hn⟩

/-- A part that must not stand there matches if it fails, and reads nothing. -/
theorem not (h : Matches g .quiet p s a) :
    Matches g m (.not p) s ⟨0, if a.result.isSome then none else some ([], s)⟩ := by
  obtain ⟨n, hn⟩ := h
  exact ⟨n + 1, congrArg (Option.map _) hn⟩

end Matches

end Peg

end BranchPaint
