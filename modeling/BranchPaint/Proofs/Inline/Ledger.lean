import BranchPaint.Proofs.Inline.Function
import BranchPaint.Proofs.Inline.Lookup
import BranchPaint.Proofs.Inline.Unchanged

/-!
# What is known of names that were stored to

Inlining binds a name where it is stored to, also if the store is kept. Behind a kept store the
name can be read from the store or replaced by the expression that it is bound to. Both give the
same value as long as none of the names in that expression is stored to again.

A `Ledger` keeps account of this for a row of statements: for each name that was stored to it lists
the names that the bound expression reads, or says that the expression is out of date. An expression
that reads no name that is out of date (`Expr.Clear`) has the same value before and after inlining
(`Expr.Clear.run_inline`), if the ledger fits the scope (`Scope.Seen`) and the store
(`Scope.Current`). An assignment keeps both (`Scope.Seen.store`, `Scope.Current.store`).
-/

namespace BranchPaint

/-! ## Inlining looks at mentioned names only -/

namespace Expr

/-- A pure expression leaves the scope as it is. -/
theorem inline_scope_of_pure {e : Expr} (h : e.Forall Pure) (test : LoopTest) (scope : Scope) :
    (e.inline test scope).2 = scope :=
  inline_scope_of_assigned (assigned_of_pure h) test scope

/-- Pure expressions in a row are inlined each for itself. -/
theorem inlineAll_of_pure {es : List Expr} (h : ∀ e ∈ es, e.Forall Pure) (test : LoopTest)
    (scope : Scope) : (inlineAll test es scope).1 = es.map fun e => (e.inline test scope).1 := by
  induction es with
  | nil => rfl
  | cons e es ih =>
    obtain ⟨he, hes⟩ := List.forall_mem_cons.1 h
    simp only [inlineAll, inline_scope_of_pure he, ih hes, List.map_cons]

/-- Inlining replaces a pure expression by what a name is bound to, or by an element of such a list,
or else goes into its operands. -/
theorem inline_cases_of_pure {e : Expr} (h : e.Forall Pure) (test : LoopTest) (scope : Scope) :
    (∃ n s, e = .ident n s ∧ (e.inline test scope).1 = (scope.lookup? n).getD e) ∨
      (∃ o p s f, e = .member o p true s ∧
        scope.element? o.text (p.inline test scope).1.text = some f ∧ (e.inline test scope).1 = f) ∨
      (e.inline test scope).1.ownName = [] ∧
        (e.inline test scope).1.children = e.children.map fun c => (c.inline test scope).1 := by
  have hscope : ∀ c ∈ e.children, (c.inline test scope).2 = scope := fun c hc =>
    inline_scope_of_pure (h.inside c hc) test scope
  cases e with
  | ident n s => exact .inl ⟨n, s, rfl, rfl⟩
  | bool | num | str | null => exact .inr (.inr ⟨rfl, rfl⟩)
  | list es s | sequence es s =>
    have hes : ∀ e ∈ es, e.Forall Pure := h.inside
    exact .inr (.inr ⟨rfl, inlineAll_of_pure hes test scope⟩)
  | member o p computed s =>
    cases computed with
    | false => exact .inr (.inr ⟨rfl, rfl⟩)
    | true =>
      have hp := hscope p (by simp [children])
      cases helement : scope.element? o.text (p.inline test scope).1.text with
      | some f => exact .inr (.inl ⟨o, p, s, f, rfl, helement, by simp only [inline, hp, helement]⟩)
      | none =>
        refine .inr (.inr ⟨?_, ?_⟩)
        · simp only [inline, hp, helement, ownName]
        · simp [inline, hp, helement, children]
  | binary op l r s | logical op l r s =>
    simp only [children, List.forall_mem_cons] at hscope
    exact .inr (.inr ⟨rfl, by simp only [inline, hscope, children, List.map_cons, List.map_nil]⟩)
  | unary op a s => exact .inr (.inr ⟨rfl, rfl⟩)
  | ternary c t f s =>
    simp only [children, List.forall_mem_cons] at hscope
    exact .inr (.inr ⟨rfl, by simp only [inline, hscope, children, List.map_cons, List.map_nil]⟩)
  | assign | update | call => exact h.here.elim

/-- What an inlined expression mentions was mentioned before and is not bound, or stands in what a
name is bound to. -/
theorem mentions_inline {e : Expr} (h : e.Forall Pure) (test : LoopTest) (scope : Scope) :
    ∀ m ∈ (e.inline test scope).1.mentions, (m ∈ e.mentions ∧ scope.lookup? m = none) ∨
      ∃ n f, scope.lookup? n = some f ∧ m ∈ f.mentions := by
  induction e using Expr.induction with
  | step e ih =>
  intro m hm
  rcases inline_cases_of_pure h test scope with
    ⟨n, s, rfl, heq⟩ | ⟨o, p, s, f, rfl, helement, heq⟩ | ⟨hname, hchildren⟩
  · rw [heq] at hm
    cases hlookup : scope.lookup? n with
    | none =>
      rw [hlookup] at hm
      obtain rfl : m = n := List.mem_singleton.1 hm
      exact .inl ⟨List.mem_singleton_self m, hlookup⟩
    | some f =>
      rw [hlookup] at hm
      exact .inr ⟨n, f, hlookup, hm⟩
  · obtain ⟨es, s', i, hlookup, -, hi⟩ := Scope.element?_eq_some helement
    rw [heq] at hm
    have hin : f ∈ (list es s').children := List.mem_of_getElem? hi
    exact .inr ⟨_, _, hlookup, mem_mentions_of_child hin hm⟩
  · rcases mem_collect.1 hm with hown | ⟨c', hc', hm⟩
    · rw [hname] at hown
      cases hown
    · rw [hchildren] at hc'
      obtain ⟨c, hc, rfl⟩ := List.mem_map.1 hc'
      rcases ih c hc (h.inside c hc) m hm with ⟨hmem, hnone⟩ | hbound
      · exact .inl ⟨mem_mentions_of_child hc hmem, hnone⟩
      · exact .inr hbound

end Expr

/-- The scope with the bindings of some names only. -/
def Scope.only (scope : Scope) (names : List String) : Scope :=
  ⟨names.filterMap fun n => (scope.lookup? n).map fun e => (n, e)⟩

/-- A name that is left is bound as it was, and any other is not bound. -/
theorem Scope.lookup?_only (scope : Scope) (names : List String) (n : String) :
    (scope.only names).lookup? n = if n ∈ names then scope.lookup? n else none := by
  unfold only
  induction names with
  | nil => rfl
  | cons m names ih =>
    simp only [lookup?, List.filterMap_cons] at ih ⊢
    cases hlookup : List.lookup m scope.entries with
    | none =>
      simp only [Option.map_none, ih, List.mem_cons]
      by_cases hnm : n = m
      · simp [hnm, hlookup]
      · simp [hnm]
    | some e =>
      simp only [Option.map_some, List.lookup_cons, ih, List.mem_cons]
      by_cases hnm : n = m
      · simp [hnm, hlookup]
      · simp [hnm, beq_false_of_ne hnm]

/-- Each binding that is left is the one that counted. -/
theorem Scope.lookup?_of_mem_only {scope : Scope} {names : List String} {x : String × Expr}
    (hx : x ∈ (scope.only names).entries) : x.1 ∈ names ∧ scope.lookup? x.1 = some x.2 := by
  obtain ⟨n, hn, hmap⟩ := List.mem_filterMap.1 hx
  obtain ⟨e, he, rfl⟩ := Option.map_eq_some_iff.1 hmap
  exact ⟨hn, he⟩

namespace Expr

/-- An expression with the text of a name that is bound to a list is that name, unless it is a
number that is too large: that has the text of a name too. -/
theorem eq_ident_of_list {scope : Scope} (hnamed : scope.Named) {o : Expr} (hf : o.Formed)
    {es : List Expr} {s : Span} (hlookup : scope.lookup? o.text = some (.list es s))
    (hfinite : o.text = "Infinity" → o.FiniteNumber) : ∃ s, o = .ident o.text s := by
  have hreadable : o.Readable := by
    refine ⟨hf, ?_⟩
    cases o with
    | num v s =>
      by_contra hv
      have htext : numberText v = "Infinity" :=
        numberText_of_isUnsigned hf (Bool.eq_false_of_not_eq_true hv)
      exact hv (hfinite htext)
    | _ => trivial
  exact eq_ident_of_text hreadable (hnamed _ (Scope.mem_entries_of_lookup? hlookup)) rfl

/-- Which element of an object is picked depends only on the names that the object mentions. -/
theorem element?_only {scope : Scope} (hnamed : scope.Named) {names : List String} {o : Expr}
    (hf : o.Formed) (hnames : ∀ n ∈ o.mentions, n ∈ names)
    (hfinite : (∀ es s, scope.lookup? "Infinity" ≠ some (.list es s)) ∨ o.FiniteNumber)
    (index : String) : (scope.only names).element? o.text index = scope.element? o.text index := by
  by_cases ho : o.text ∈ names
  · simp only [Scope.element?, scope.lookup?_only, ho, if_true]
  · rw [Scope.element?_eq_none, Scope.element?_eq_none]
    · intro es s hlookup
      obtain ⟨s', hident⟩ := eq_ident_of_list hnamed hf hlookup fun hinf => by
        rcases hfinite with hnone | hfinite
        · exact absurd (hinf ▸ hlookup) (hnone es s)
        · exact hfinite
      refine ho (hnames _ ?_)
      rw [hident]
      exact List.mem_singleton_self _
    · intro es s hlookup
      rw [scope.lookup?_only, if_neg ho] at hlookup
      cases hlookup

/-- In which scope a pure expression is inlined only matters for the names that it mentions. -/
theorem inline_only {scope : Scope} (hnamed : scope.Named) {names : List String} {e : Expr}
    (hf : e.Forall Formed) (hp : e.Forall Pure) (hnames : ∀ n ∈ e.mentions, n ∈ names)
    (hfinite : (∀ es s, scope.lookup? "Infinity" ≠ some (.list es s)) ∨ e.Forall FiniteNumber)
    (test : LoopTest) : (e.inline .none (scope.only names)).1 = (e.inline test scope).1 := by
  induction e using Expr.induction with
  | step e ih =>
  have hin : ∀ c ∈ e.children,
      (c.inline .none (scope.only names)).1 = (c.inline test scope).1 := fun c hc =>
    ih c hc (hf.inside c hc) (hp.inside c hc) (forall_mentions_of_child hnames hc)
      (hfinite.imp_right fun h => h.inside c hc)
  have hscope : ∀ c ∈ e.children, (c.inline test scope).2 = scope ∧
      (c.inline .none (scope.only names)).2 = scope.only names := fun c hc =>
    ⟨inline_scope_of_pure (hp.inside c hc) test scope,
      inline_scope_of_pure (hp.inside c hc) .none (scope.only names)⟩
  cases e with
  | bool | num | str | null => rfl
  | ident n s =>
    have hn : n ∈ names := hnames n (List.mem_singleton_self n)
    simp only [inline, scope.lookup?_only, hn, if_true]
  | list es s | sequence es s =>
    have hes : ∀ e ∈ es, e.Forall Pure := hp.inside
    have hmap : (es.map fun e => (e.inline .none (scope.only names)).1) =
        es.map fun e => (e.inline test scope).1 := List.map_congr_left hin
    simp only [inline, inlineAll_of_pure hes, hmap]
  | member o p computed s =>
    have ho := hin o (by cases computed <;> simp [children])
    cases computed with
    | false => simp only [inline, ho]
    | true =>
      have hinp : p ∈ (member o p true s).children := by simp [children]
      have hino : o ∈ (member o p true s).children := by simp [children]
      have helement := element?_only hnamed (hf.inside o hino).here
        (forall_mentions_of_child hnames hino) (hfinite.imp_right fun h => (h.inside o hino).here)
      simp only [inline, (hscope p hinp).1, (hscope p hinp).2, hin p hinp, helement, ho]
      split
      · rfl
      · rfl
  | binary op l r s | logical op l r s =>
    simp only [children, List.forall_mem_cons] at hin hscope
    simp only [inline, hscope, hin]
  | unary op a s =>
    simp only [children, List.forall_mem_cons] at hin
    simp only [inline, hin]
  | ternary c t f s =>
    simp only [children, List.forall_mem_cons] at hin hscope
    simp only [inline, hscope, hin]
  | assign | update | call => exact hp.here.elim

end Expr

/-! ## Ledgers -/

/-- For each name that was stored to, the names that the expression reads that it is bound to, or
`none` if that expression is out of date. The first entry of a name counts. -/
structure Ledger where
  entries : List (String × Option (List String))

namespace Ledger

/-- The names that were stored to. -/
def names (l : Ledger) : List String := l.entries.map Prod.fst

/-- The names from which the value of a name comes, unless that is out of date. A name that was not
stored to is read itself. -/
def sources? (l : Ledger) (n : String) : Option (List String) :=
  (l.entries.lookup n).getD (some [n])

/-- All names from which the values of the names come. -/
def reads (l : Ledger) (names : List String) : List String :=
  names.flatMap fun n => (l.sources? n).getD []

/-- The ledger in which the entries that are not kept are out of date. -/
def revise (l : Ledger) (keep : String → List String → Bool) : Ledger :=
  ⟨l.entries.map fun x => (x.1, x.2.filter (keep x.1))⟩

/-- The ledger behind a store to some names: what is bound to one of them or reads one is out of
date. -/
def forget (l : Ledger) (stored : List String) : Ledger :=
  l.revise fun n sources => decide (n ∉ stored ∧ ∀ m ∈ sources, m ∉ stored)

/-- The ledger in which all entries are out of date. -/
def close (l : Ledger) : Ledger := l.revise fun _ _ => false

end Ledger

/-- The names whose values an assignment to `n` combines. -/
def Expr.operands (op : AssignOp) (n : String) (v : Expr) : List String :=
  match op with
  | .assign => v.mentions
  | .compound _ => n :: v.mentions

/-- Numbers are finite and lists are short, so an index picks an element by its value. -/
def Expr.Moderate (e : Expr) : Prop := e.FiniteNumber ∧ e.ShortList

instance : DecidablePred Expr.Moderate := fun e =>
  inferInstanceAs (Decidable (e.FiniteNumber ∧ e.ShortList))

namespace Ledger

/-- The expression that an assignment binds `n` to keeps the value of `n`: it is put together from
what is up to date and does not read `n` itself. -/
def Settles (l : Ledger) (op : AssignOp) (n : String) (v : Expr) : Prop :=
  v.Forall Expr.Moderate ∧ (∀ m ∈ v.operands op n, (l.sources? m).isSome) ∧
    n ∉ l.reads (v.operands op n)

instance (l : Ledger) (op : AssignOp) (n : String) (v : Expr) : Decidable (l.Settles op n v) :=
  inferInstanceAs (Decidable (v.Forall Expr.Moderate ∧
      (∀ m ∈ v.operands op n, (l.sources? m).isSome) ∧ n ∉ l.reads (v.operands op n)))

/-- The ledger behind an assignment to `n`. -/
def store (l : Ledger) (op : AssignOp) (n : String) (v : Expr) : Ledger :=
  ⟨(n, if l.Settles op n v then some (l.reads (v.operands op n)) else none) ::
    (l.forget [n]).entries⟩

variable {l : Ledger} {n m : String}

/-- A name that was not stored to has no entry. -/
theorem lookup_of_not_mem (h : n ∉ l.names) : l.entries.lookup n = none := by
  rw [List.lookup_eq_none_iff]
  intro x hx
  refine bne_iff_ne.2 fun heq => h ?_
  exact heq ▸ List.mem_map_of_mem hx

/-- A name that was not stored to is read itself. -/
theorem sources?_of_not_mem (h : n ∉ l.names) : l.sources? n = some [n] := by
  rw [sources?, lookup_of_not_mem h]
  rfl

/-- The sources of names are among all that is read. -/
theorem mem_reads {names sources : List String} (hn : n ∈ names)
    (hsources : l.sources? n = some sources) (hm : m ∈ sources) : m ∈ l.reads names := by
  refine List.mem_flatMap.2 ⟨n, hn, ?_⟩
  rw [hsources]
  exact hm

/-- Revising a ledger keeps the names. -/
theorem names_revise (l : Ledger) (keep : String → List String → Bool) :
    (l.revise keep).names = l.names := by
  simp [revise, names]

/-- Revising a ledger goes through its entries one by one. -/
theorem lookup_revise (l : Ledger) (keep : String → List String → Bool) (n : String) :
    (l.revise keep).entries.lookup n = (l.entries.lookup n).map (Option.filter (keep n)) := by
  obtain ⟨entries⟩ := l
  simp only [revise]
  induction entries with
  | nil => rfl
  | cons x entries ih =>
    obtain ⟨m, sources⟩ := x
    simp only [List.map_cons, List.lookup_cons]
    by_cases hnm : n = m
    · subst hnm
      simp
    · simpa only [beq_false_of_ne hnm] using ih

/-- What is known in a revised ledger was known before, and is kept if the name was stored to. -/
theorem sources?_of_revise {keep : String → List String → Bool} {sources : List String}
    (h : (l.revise keep).sources? n = some sources) :
    l.sources? n = some sources ∧ (n ∈ l.names → keep n sources = true) := by
  by_cases hn : n ∈ l.names
  · unfold sources? at h ⊢
    rw [lookup_revise] at h
    cases hlookup : l.entries.lookup n with
    | none =>
      obtain ⟨x, hx, rfl⟩ := List.mem_map.1 hn
      have hne := (List.lookup_eq_none_iff.1 hlookup) x hx
      simp at hne
    | some entry =>
      simp only [hlookup, Option.map_some, Option.getD_some] at h ⊢
      obtain ⟨hentry, hkeep⟩ := Option.filter_eq_some_iff.1 h
      exact ⟨hentry, fun _ => hkeep⟩
  · have hrevised : n ∉ (l.revise keep).names := by rwa [names_revise]
    rw [sources?_of_not_mem hrevised] at h
    rw [sources?_of_not_mem hn]
    exact ⟨h, fun hmem => absurd hmem hn⟩

end Ledger

/-! ## Ledgers that fit a scope and a store -/

/-- The expression is pure and reads no name that is out of date. A number that is too large has the
text of a name, so it counts as reading that name. -/
def Expr.Clear (l : Ledger) (e : Expr) : Prop :=
  e.Forall Pure ∧ (∀ n ∈ e.mentions, (l.sources? n).isSome) ∧
    ("Infinity" ∈ l.names → e.Forall FiniteNumber)

instance (l : Ledger) : DecidablePred (Expr.Clear l) := fun e =>
  inferInstanceAs (Decidable (e.Forall Expr.Pure ∧ (∀ n ∈ e.mentions, (l.sources? n).isSome) ∧
    ("Infinity" ∈ l.names → e.Forall Expr.FiniteNumber)))

/-- The scope binds names as the ledger tells. -/
structure Scope.Seen (l : Ledger) (scope : Scope) : Prop where
  named : scope.Named
  /-- Names that were not stored to stand for themselves. -/
  itself {n : String} {e : Expr} : n ∉ l.names → scope.lookup? n = some e → e = .name n
  /-- What is up to date is as it is read, stores nothing and reads the sources only. -/
  bound {n : String} {sources : List String} {e : Expr} : l.sources? n = some sources →
    scope.lookup? n = some e → e.Forall Expr.Plain ∧ e.Forall Expr.Pure ∧
    ∀ m ∈ e.mentions, m ∈ sources
  /-- A name that is not bound is its own source. -/
  free {n : String} {sources : List String} : l.sources? n = some sources → scope.lookup? n = none →
    n ∈ sources

/-- What is up to date has the value that the store holds. -/
structure Scope.Current (l : Ledger) (scope : Scope) (σ : Store) : Prop where
  /-- Every bound name has a value. -/
  valued {n : String} {e : Expr} : scope.lookup? n = some e → ∃ v, σ n = .ok v
  evalWith_eq {n : String} {sources : List String} {e : Expr} : l.sources? n = some sources →
    scope.lookup? n = some e → e.evalWith σ = σ n

/-- The second store differs from the first in some names only, and what had a value has one
still. -/
structure Store.Evolves (stored : List String) (σ τ : Store) : Prop where
  same {n : String} : n ∉ stored → τ n = σ n
  valued {n : String} {v : Value} : σ n = .ok v → ∃ w, τ n = .ok w

namespace Store.Evolves

variable {stored stored' : List String} {σ τ τ' : Store}

/-- A store that stays differs in nothing. -/
theorem refl (stored : List String) (σ : Store) : σ.Evolves stored σ where
  same _ := rfl
  valued h := ⟨_, h⟩

/-- Stores one after the other change what either changes. -/
theorem trans (h : σ.Evolves stored τ) (h' : τ.Evolves stored' τ') :
    σ.Evolves (stored ++ stored') τ' where
  same hn := by
    rw [List.mem_append, not_or] at hn
    exact (h'.same hn.2).trans (h.same hn.1)
  valued hv := by
    obtain ⟨w, hw⟩ := h.valued hv
    exact h'.valued hw

/-- The names that may differ may be more. -/
theorem mono (h : σ.Evolves stored τ) (hsub : stored ⊆ stored') : σ.Evolves stored' τ where
  same hn := h.same fun hmem => hn (hsub hmem)
  valued := h.valued

/-- A store to one name changes this name only. -/
theorem set (σ : Store) (n : String) (v : Value) : σ.Evolves [n] (σ.set n v) where
  same hm := σ.set_of_ne (fun heq => hm (List.mem_singleton.2 heq)) v
  valued {m w} hm := by
    by_cases hmn : m = n
    · exact ⟨v, hmn ▸ Store.set_self σ m v⟩
    · exact ⟨w, (σ.set_of_ne hmn v).trans hm⟩

end Store.Evolves

/-- An expression has the same value in stores that agree on the names that it mentions. -/
theorem Expr.evalWith_agree {e : Expr} (hf : e.Forall Formed) (hp : e.Forall Pure) {σ τ : Store}
    (hagree : ∀ n ∈ e.mentions, τ n = σ n) {v : Value} (hv : e.evalWith σ = .ok v) :
    e.evalWith τ = .ok v := by
  have hassigned := assigned_of_pure hp
  have hrun : e.run σ = .ok (v, σ) := (run_eq_ok_iff hf hassigned).2 ⟨hv, rfl⟩
  obtain ⟨τ', hrun', -⟩ := e.run_agree (fun _ hn => hn) hrun hagree
  exact ((run_eq_ok_iff hf hassigned).1 hrun').1

namespace Scope

variable {l : Ledger} {scope : Scope} {σ τ : Store} {names : List String}

/-- What is bound is formed. -/
theorem Ready.formed (h : scope.Ready) : scope.Forall Expr.Formed := fun x hx =>
  Expr.formed_of_plain (h.plain.exprs x hx)

/-- Among the names that are up to date, all are bound to pure expressions as they are read. -/
theorem Seen.ready_only (h : scope.Seen l) (hnames : ∀ n ∈ names, (l.sources? n).isSome) :
    (scope.only names).Ready := by
  have hbound : ∀ x ∈ (scope.only names).entries,
      x.2.Forall Expr.Plain ∧ x.2.Forall Expr.Pure := by
    intro x hx
    obtain ⟨hn, hlookup⟩ := lookup?_of_mem_only hx
    obtain ⟨sources, hsources⟩ := Option.isSome_iff_exists.1 (hnames _ hn)
    obtain ⟨hplain, hpure, -⟩ := h.bound hsources hlookup
    exact ⟨hplain, hpure⟩
  refine ⟨⟨?_, fun x hx => (hbound x hx).1⟩, fun x hx => (hbound x hx).2⟩
  intro x hx
  exact h.named _ (mem_entries_of_lookup? (lookup?_of_mem_only hx).2)

/-- Among the names that are up to date, the scope tells what the store holds. -/
theorem Current.tracks_only (h : scope.Current l σ) (hnames : ∀ n ∈ names, (l.sources? n).isSome) :
    (scope.only names).Tracks σ σ where
  bound {n e} hlookup := by
    rw [lookup?_only] at hlookup
    split at hlookup
    · rename_i hn
      obtain ⟨sources, hsources⟩ := Option.isSome_iff_exists.1 (hnames n hn)
      obtain ⟨v, hv⟩ := h.valued hlookup
      exact ⟨v, (h.evalWith_eq hsources hlookup).trans hv, hv⟩
    · cases hlookup
  free _ := rfl

/-- A name is bound to a list only if it was stored to. -/
theorem Seen.mem_names_of_list (h : scope.Seen l) {n : String} {es : List Expr} {s : Span}
    (hlookup : scope.lookup? n = some (.list es s)) : n ∈ l.names := by
  by_contra hn
  cases h.itself hn hlookup

/-- Where names stand for what the ledger tells, a store to some names puts out of date what it
should. -/
theorem Seen.forget (h : scope.Seen l) (stored : List String) : scope.Seen (l.forget stored) where
  named := h.named
  itself hn := h.itself (by rwa [Ledger.forget, Ledger.names_revise] at hn)
  bound hsources := h.bound (Ledger.sources?_of_revise hsources).1
  free hsources := h.free (Ledger.sources?_of_revise hsources).1

/-- What reads no name that was stored to has the value that it had. -/
theorem Current.evolve (h : scope.Current l σ) (hseen : scope.Seen l) {stored : List String}
    (hstored : σ.Evolves stored τ) : scope.Current (l.forget stored) τ where
  valued hlookup := by
    obtain ⟨v, hv⟩ := h.valued hlookup
    exact hstored.valued hv
  evalWith_eq {n sources e} hsources hlookup := by
    obtain ⟨hknown, hkept⟩ := Ledger.sources?_of_revise hsources
    by_cases hn : n ∈ l.names
    · obtain ⟨hnot, hapart⟩ := of_decide_eq_true (hkept hn)
      obtain ⟨hplain, hpure, hreads⟩ := hseen.bound hknown hlookup
      obtain ⟨v, hv⟩ := h.valued hlookup
      have hagree : ∀ m ∈ e.mentions, τ m = σ m := fun m hm => hstored.same (hapart m (hreads m hm))
      have hvalue : e.evalWith σ = .ok v := (h.evalWith_eq hknown hlookup).trans hv
      rw [Expr.evalWith_agree (Expr.formed_of_plain hplain) hpure hagree hvalue,
        hstored.same hnot, hv]
    · rw [hseen.itself hn hlookup]
      rfl

end Scope

namespace Expr

variable {l : Ledger} {scope : Scope} {σ : Store}

/-- A clear expression is inlined as in the scope of the names that it mentions. -/
theorem Clear.inline_only {e : Expr} (h : e.Clear l) (hf : e.Forall Formed) (hseen : scope.Seen l)
    (test : LoopTest) :
    (e.inline .none (scope.only e.mentions)).1 = (e.inline test scope).1 := by
  refine Expr.inline_only hseen.named hf h.1 (fun _ hn => hn) ?_ test
  by_cases hinf : "Infinity" ∈ l.names
  · exact .inr (h.2.2 hinf)
  · exact .inl fun es s hlookup => hinf (hseen.mem_names_of_list hlookup)

/-- An element of a bound list that inlining picks has the value of the member, if the expression
that names the list is no number that is too large. -/
theorem evalWith_picked_of_current (hseen : scope.Seen l) (hcurrent : scope.Current l σ)
    {names : List String} (hnames : ∀ n ∈ names, (l.sources? n).isSome) {o p f : Expr}
    (ho : o.Formed) (hfinite : "Infinity" ∈ l.names → o.FiniteNumber) (hp : p.Forall Formed)
    (hkey : (p.inline .none (scope.only names)).1.evalWith σ = p.evalWith σ)
    (helement : (scope.only names).element? o.text (p.inline .none (scope.only names)).1.text =
      some f) (s : Span) : f.evalWith σ = (member o p true s).evalWith σ := by
  have hready := hseen.ready_only hnames
  have htracks := hcurrent.tracks_only hnames
  obtain ⟨es, s', -, hlookup, -, -⟩ := Scope.element?_eq_some helement
  obtain ⟨os, hident⟩ := eq_ident_of_list hready.plain.named ho hlookup fun hinf => by
    rw [scope.lookup?_only] at hlookup
    split at hlookup
    · exact hfinite (hinf ▸ hseen.mem_names_of_list hlookup)
    · cases hlookup
  have hreadable : o.Readable := by
    rw [hident] at ho ⊢
    exact ⟨ho, trivial⟩
  have hformed : (p.inline .none (scope.only names)).1.Forall Formed :=
    (p.inline_forall inlinable_formed .none _ hp hready.formed).1
  obtain ⟨n, ns, a, x, rfl, ha, hx, hmember⟩ :=
    memberOf_of_element hready.plain htracks hreadable hformed helement
  rw [evalWith_computed, ← hkey, hx, ← hmember]
  simp only [evalWith, ha]
  rfl

/-- Inlining keeps a clear expression formed and pure. -/
theorem Clear.forall_inline {e : Expr} (h : e.Clear l) (hf : e.Forall Formed) (hseen : scope.Seen l)
    (test : LoopTest) :
    (e.inline test scope).1.Forall Formed ∧ (e.inline test scope).1.Forall Pure := by
  have hready := hseen.ready_only h.2.1
  rw [← h.inline_only hf hseen test]
  exact ⟨(e.inline_forall inlinable_formed .none _ hf hready.formed).1,
    (e.inline_forall inlinable_pure .none _ h.1 hready.pure).1⟩

/-- A clear expression has the same value before and after inlining. -/
theorem Clear.evalWith_inline {e : Expr} (h : e.Clear l) (hf : e.Forall Formed)
    (hseen : scope.Seen l) (hcurrent : scope.Current l σ) (test : LoopTest) :
    (e.inline test scope).1.evalWith σ = e.evalWith σ := by
  have hall : e.Forall fun e => e.Formed ∧ ("Infinity" ∈ l.names → e.FiniteNumber) := by
    by_cases hinf : "Infinity" ∈ l.names
    · exact (hf.and (h.2.2 hinf)).imp fun _ h => ⟨h.1, fun _ => h.2⟩
    · exact hf.imp fun _ h => ⟨h, fun h => absurd h hinf⟩
  rw [← h.inline_only hf hseen test]
  exact evalWith_inline_of_tracks (hcurrent.tracks_only h.2.1) (fun _ h => h.1)
    (fun s ho hp _ hkey helement => evalWith_picked_of_current hseen hcurrent h.2.1 ho.1 ho.2
      (hp.imp fun _ h => h.1) hkey helement s) hall (assigned_of_pure h.1)

/-- A clear expression runs in the same way before and after inlining. -/
theorem Clear.run_inline {e : Expr} (h : e.Clear l) (hf : e.Forall Formed) (hseen : scope.Seen l)
    (hcurrent : scope.Current l σ) (test : LoopTest) : (e.inline test scope).1.run σ = e.run σ := by
  obtain ⟨hformed, hpure⟩ := h.forall_inline hf hseen test
  rw [run_of_assigned _ hformed (assigned_of_pure hpure), h.evalWith_inline hf hseen hcurrent test,
    run_of_assigned e hf (assigned_of_pure h.1)]

/-- What a clear expression reads after inlining are sources of the names that it mentions. -/
theorem Clear.mentions_inline {e : Expr} (h : e.Clear l) (hf : e.Forall Formed)
    (hseen : scope.Seen l) (test : LoopTest) :
    ∀ m ∈ (e.inline test scope).1.mentions, m ∈ l.reads e.mentions := by
  intro m hm
  rw [← h.inline_only hf hseen test] at hm
  rcases Expr.mentions_inline h.1 .none (scope.only e.mentions) m hm
    with ⟨hmem, hnone⟩ | ⟨n, f, hbound, hm⟩
  · obtain ⟨sources, hsources⟩ := Option.isSome_iff_exists.1 (h.2.1 m hmem)
    rw [scope.lookup?_only, if_pos hmem] at hnone
    exact Ledger.mem_reads hmem hsources (hseen.free hsources hnone)
  · rw [scope.lookup?_only] at hbound
    split at hbound
    · rename_i hn
      obtain ⟨sources, hsources⟩ := Option.isSome_iff_exists.1 (h.2.1 n hn)
      exact Ledger.mem_reads hn hsources ((hseen.bound hsources hbound).2.2 m hm)
    · cases hbound

end Expr

/-! ## Assignments -/

namespace Ledger

variable {l : Ledger} {op : AssignOp} {n : String} {v : Expr}

/-- Behind an assignment to `n` one more name was stored to. -/
theorem names_store (l : Ledger) (op : AssignOp) (n : String) (v : Expr) :
    (l.store op n v).names = n :: l.names :=
  congrArg (n :: ·) (l.names_revise _)

/-- What is known of `n` itself behind an assignment to it. -/
theorem sources?_store_self {sources : List String}
    (h : (l.store op n v).sources? n = some sources) :
    sources = l.reads (v.operands op n) ∧ l.Settles op n v := by
  simp only [store, sources?, List.lookup_cons_self, Option.getD_some] at h
  split at h
  · rename_i hsettles
    cases h
    exact ⟨rfl, hsettles⟩
  · cases h

/-- What is known of other names behind an assignment to `n`. -/
theorem sources?_store_of_ne {m : String} (h : m ≠ n) :
    (l.store op n v).sources? m = (l.forget [n]).sources? m := by
  simp only [store, sources?, List.lookup_cons, beq_false_of_ne h]

end Ledger

namespace Scope

variable {l : Ledger} {scope : Scope} {σ : Store} {op : AssignOp} {n : String} {v : Expr}

/-- What an assignment binds, if its operands are up to date: a pure expression as it is read that
reads their sources. -/
theorem Seen.stored (hseen : scope.Seen l) (hn : IsIdentifier n) (hf : v.Forall Expr.Formed)
    (h : v.Clear l) (hmoderate : v.Forall Expr.Moderate)
    (hknown : ∀ m ∈ v.operands op n, (l.sources? m).isSome) (test : LoopTest) (s : Span) :
    (scope.stored n op (v.inline test scope).1 s).Forall Expr.Plain ∧
      (scope.stored n op (v.inline test scope).1 s).Forall Expr.Pure ∧
      ∀ m ∈ (scope.stored n op (v.inline test scope).1 s).mentions,
        m ∈ l.reads (v.operands op n) := by
  have hready := hseen.ready_only h.2.1
  have hplain : (v.inline test scope).1.Forall Expr.Plain := by
    rw [← h.inline_only hf hseen test]
    exact (v.inline_forall Expr.inlinable_plain .none _
      ((hf.and hmoderate).imp fun _ h => ⟨⟨h.1, h.2.1⟩, h.2.2⟩) hready.plain.exprs).1
  have hpure := (h.forall_inline hf hseen test).2
  have hreads := h.mentions_inline hf hseen test
  cases op with
  | assign => exact ⟨hplain, hpure, hreads⟩
  | compound b =>
    obtain ⟨sources, hsources⟩ := Option.isSome_iff_exists.1 (hknown n List.mem_cons_self)
    -- what stands on the left is the name or what it is bound to so far
    have hleft : ((scope.lookup? n).getD (.name n)).Forall Expr.Plain ∧
        ((scope.lookup? n).getD (.name n)).Forall Expr.Pure ∧
        ∀ m ∈ ((scope.lookup? n).getD (.name n)).mentions, m ∈ sources := by
      cases hlookup : scope.lookup? n with
      | none =>
        refine ⟨.leaf ⟨⟨hn, trivial⟩, trivial⟩ rfl, .leaf trivial rfl, fun m hm => ?_⟩
        obtain rfl : m = n := List.mem_singleton.1 hm
        exact hseen.free hsources hlookup
      | some e => exact hseen.bound hsources hlookup
    obtain ⟨hleftPlain, hleftPure, hleftReads⟩ := hleft
    refine ⟨.node ⟨⟨trivial, trivial⟩, trivial⟩ ?_, .node trivial ?_, fun m hm => ?_⟩
    · exact List.forall_mem_cons.2 ⟨hleftPlain, List.forall_mem_singleton.2 hplain⟩
    · exact List.forall_mem_cons.2 ⟨hleftPure, List.forall_mem_singleton.2 hpure⟩
    · rcases Expr.mem_collect.1 hm with hown | ⟨c, hc, hm⟩
      · cases hown
      · rcases List.mem_cons.1 hc with rfl | hc
        · exact Ledger.mem_reads List.mem_cons_self hsources (hleftReads m hm)
        · obtain rfl := List.mem_singleton.1 hc
          obtain ⟨k, hk, hin⟩ := List.mem_flatMap.1 (hreads m hm)
          exact List.mem_flatMap.2 ⟨k, List.mem_cons_of_mem n hk, hin⟩

/-- Behind an assignment names are bound as the ledger tells. -/
theorem Seen.store (hseen : scope.Seen l) (hn : IsIdentifier n) (hf : v.Forall Expr.Formed)
    (h : v.Clear l) (op : AssignOp) (test : LoopTest) (s : Span) :
    (scope.bind n (scope.stored n op (v.inline test scope).1 s)).Seen (l.store op n v) where
  named := hseen.named.bind hn _
  itself {m e} hm hlookup := by
    rw [Ledger.names_store, List.mem_cons, not_or] at hm
    rw [lookup?_bind_of_ne _ _ hm.1] at hlookup
    exact hseen.itself hm.2 hlookup
  bound {m sources e} hsources hlookup := by
    by_cases hmn : m = n
    · subst hmn
      obtain ⟨rfl, hmoderate, hknown, -⟩ := Ledger.sources?_store_self hsources
      rw [lookup?_bind_self] at hlookup
      cases hlookup
      exact hseen.stored hn hf h hmoderate hknown test s
    · rw [Ledger.sources?_store_of_ne hmn] at hsources
      rw [lookup?_bind_of_ne _ _ hmn] at hlookup
      exact (hseen.forget [n]).bound hsources hlookup
  free {m sources} hsources hlookup := by
    by_cases hmn : m = n
    · subst hmn
      rw [lookup?_bind_self] at hlookup
      cases hlookup
    · rw [Ledger.sources?_store_of_ne hmn] at hsources
      rw [lookup?_bind_of_ne _ _ hmn] at hlookup
      exact (hseen.forget [n]).free hsources hlookup

/-- What an assignment binds has the value that it stores, if its operands are up to date. -/
theorem Current.evalWith_stored (hcurrent : scope.Current l σ) (hseen : scope.Seen l)
    (hf : v.Forall Expr.Formed) (h : v.Clear l)
    (hknown : ∀ m ∈ v.operands op n, (l.sources? m).isSome)
    {x w : Value} (hx : v.evalWith σ = .ok x) (hw : Expr.combine op (σ n) x = .ok w)
    (test : LoopTest) (s : Span) :
    (scope.stored n op (v.inline test scope).1 s).evalWith σ = .ok w := by
  have hvalue : (v.inline test scope).1.evalWith σ = .ok x :=
    (h.evalWith_inline hf hseen hcurrent test).trans hx
  have honly : (scope.only (v.operands op n)).stored n op (v.inline test scope).1 s =
      scope.stored n op (v.inline test scope).1 s := by
    cases op with
    | assign => rfl
    | compound b =>
      have hmem : n ∈ v.operands (.compound b) n := List.mem_cons_self
      simp only [Scope.stored, lookup?_only, if_pos hmem]
  rw [← honly]
  exact (hcurrent.tracks_only hknown).evalWith_stored hvalue hw s

/-- Behind an assignment what is up to date has the value that the store holds. -/
theorem Current.store (hcurrent : scope.Current l σ) (hseen : scope.Seen l) (hn : IsIdentifier n)
    (hf : v.Forall Expr.Formed) (h : v.Clear l) {x w : Value} (hx : v.evalWith σ = .ok x)
    (hw : Expr.combine op (σ n) x = .ok w) (test : LoopTest) (s : Span) :
    (scope.bind n (scope.stored n op (v.inline test scope).1 s)).Current (l.store op n v)
      (σ.set n w) where
  valued {m e} hlookup := by
    by_cases hmn : m = n
    · exact ⟨w, hmn ▸ Store.set_self σ m w⟩
    · rw [lookup?_bind_of_ne _ _ hmn] at hlookup
      rw [σ.set_of_ne hmn]
      exact hcurrent.valued hlookup
  evalWith_eq {m sources e} hsources hlookup := by
    by_cases hmn : m = n
    · subst hmn
      obtain ⟨rfl, hmoderate, hknown, hapart⟩ := Ledger.sources?_store_self hsources
      rw [lookup?_bind_self] at hlookup
      cases hlookup
      obtain ⟨hplain, hpure, hreads⟩ := hseen.stored hn hf h hmoderate hknown test s
      -- the expression does not read the name, so the store to it does not change the value
      have hagree : ∀ k ∈ (scope.stored m op (v.inline test scope).1 s).mentions,
          σ.set m w k = σ k :=
        fun k hk => σ.set_of_ne (fun (heq : k = m) => hapart (heq ▸ hreads k hk)) w
      rw [Store.set_self]
      exact Expr.evalWith_agree (Expr.formed_of_plain hplain) hpure hagree
        (hcurrent.evalWith_stored hseen hf h hknown hx hw test s)
    · rw [Ledger.sources?_store_of_ne hmn] at hsources
      rw [lookup?_bind_of_ne _ _ hmn] at hlookup
      exact (hcurrent.evolve hseen (Store.Evolves.set σ n w)).evalWith_eq hsources hlookup

end Scope

/-! ## Ledgers in which all is out of date -/

/-- Where all that was stored to is out of date, a clear expression stays as it is, up to spans. -/
theorem Expr.Clear.inline_of_close {l : Ledger} {scope : Scope} (hseen : scope.Seen l) {e : Expr}
    (hf : e.Forall Formed) (h : e.Clear l.close) (test : LoopTest) :
    (e.inline test scope).1.eraseSpans = e.eraseSpans := by
  have hnot : ∀ n ∈ e.mentions, n ∉ l.names := by
    intro n hn hmem
    obtain ⟨sources, hsources⟩ := Option.isSome_iff_exists.1 (h.2.1 n hn)
    cases (Ledger.sources?_of_revise hsources).2 hmem
  have hfinite : "Infinity" ∈ l.names → e.Forall FiniteNumber := by
    have hfinite := h.2.2
    rwa [Ledger.close, Ledger.names_revise] at hfinite
  have halone : e.Forall scope.LeavesAlone := by
    clear h
    induction hf with
    | @node e here inside ih =>
    refine .node ?_ fun c hc => ih c hc (forall_mentions_of_child hnot hc)
      fun hinf => (hfinite hinf).inside c hc
    cases e with
    | ident n s => exact fun f hlookup => hseen.itself (hnot n (List.mem_singleton_self n)) hlookup
    | member o p computed s =>
      cases computed with
      | false => trivial
      | true =>
        have ho : o ∈ (member o p true s).children := by simp [children]
        intro index
        refine Scope.element?_eq_none fun es s' hlookup => ?_
        have hstored := hseen.mem_names_of_list hlookup
        obtain ⟨s'', hident⟩ := eq_ident_of_list hseen.named (inside o ho).here hlookup
          fun hinf => ((hfinite (hinf ▸ hstored)).inside o ho).here
        refine hnot o.text (mem_mentions_of_child ho ?_) hstored
        rw [hident]
        exact List.mem_singleton_self _
    | _ => trivial
  exact (e.inline_unchanged test (storedNames_of_pure h.1) halone).1

end BranchPaint
