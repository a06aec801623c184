import BranchPaint.Source.Cursor
import Mathlib

/-!
# Moving over text

How a cursor moves over a literal, a run of characters and blanks. Positions only ever advance over
what was read, so a cursor behind some text is written `⟨rest, p.advance text⟩` throughout, and the
lemmas here keep cursors in that form.
-/

namespace BranchPaint

/-! ## Positions -/

namespace Position

/-- Over no text a position stays. -/
@[simp] theorem advance_nil (p : Position) : p.advance [] = p := rfl

/-- Over a text a position goes on character by character. -/
@[simp] theorem advance_cons (p : Position) (c : Char) (text : List Char) :
    p.advance (c :: text) = (p.next c).advance text := rfl

/-- Over two texts it goes on over one after the other. -/
theorem advance_append (p : Position) (a b : List Char) :
    p.advance (a ++ b) = (p.advance a).advance b :=
  List.foldl_append

/-- A character other than a line feed stays on its line. -/
theorem next_line {c : Char} (h : c ≠ '\n') (p : Position) : (p.next c).line = p.line := by
  simp [next, h]

/-- Behind a line feed the next line starts. -/
@[simp] theorem next_lineFeed_line (p : Position) : (p.next '\n').line = p.line + 1 := by
  simp [next]

/-- Lines are counted by line feeds. -/
theorem advance_line (p : Position) (text : List Char) :
    (p.advance text).line = p.line + text.count '\n' := by
  induction text generalizing p with
  | nil => rfl
  | cons c r ih =>
    rw [advance_cons, ih, List.count_cons]
    by_cases h : c = '\n'
    · subst h
      simp
      omega
    · simp [next_line h, h]

end Position

/-! ## Literals and runs -/

namespace Cursor

/-- The empty text stands everywhere. -/
@[simp] theorem literal?_nil (s : Cursor) : s.literal? [] = some s := by
  cases s
  rfl

/-- What a literal leaves is shorter by the literal. -/
theorem length_of_literal? {w : List Char} {s t : Cursor} (h : s.literal? w = some t) :
    t.rest.length + w.length = s.rest.length := by
  induction w generalizing s with
  | nil =>
    rw [literal?_nil] at h
    cases h
    rfl
  | cons c w ih =>
    obtain ⟨_ | ⟨d, r⟩, p⟩ := s
    · simp [literal?] at h
    · simp only [literal?] at h
      split at h
      · have := ih h
        simp only [List.length_cons] at this ⊢
        omega
      · cases h

/-- A text does not stand where another character does. -/
theorem literal?_cons_of_ne {c d : Char} (h : d ≠ c) (w r : List Char) (p : Position) :
    (⟨d :: r, p⟩ : Cursor).literal? (c :: w) = none := by
  simp [literal?, h]

/-- A text stands where its first character does and the rest follows. -/
@[simp] theorem literal?_cons_self (c : Char) (w r : List Char) (p : Position) :
    (⟨c :: r, p⟩ : Cursor).literal? (c :: w) = (⟨r, p.next c⟩ : Cursor).literal? w := by
  simp [literal?]

/-- At the end no text stands. -/
@[simp] theorem literal?_cons_nil (c : Char) (w : List Char) (p : Position) :
    (⟨[], p⟩ : Cursor).literal? (c :: w) = none := rfl

/-- At the end no character is seen. -/
@[simp] theorem peek_nil (f : Char → Bool) (p : Position) : (⟨[], p⟩ : Cursor).peek f = false := by
  simp [peek]

/-- Elsewhere the next character is seen. -/
@[simp] theorem peek_cons (f : Char → Bool) (c : Char) (r : List Char) (p : Position) :
    (⟨c :: r, p⟩ : Cursor).peek f = f c := by
  simp [peek]

/-- A run of characters in a class ends before the first character outside of it. -/
theorem takeWhile_append {f : Char → Bool} {w r : List Char} (hw : ∀ c ∈ w, f c)
    (hr : ∀ c ∈ r.head?, f c = false) (p : Position) :
    (⟨w ++ r, p⟩ : Cursor).takeWhile f = (w, ⟨r, p.advance w⟩) := by
  have hstop : r.takeWhile f = [] ∧ r.dropWhile f = r := by
    cases r with
    | nil => exact ⟨rfl, rfl⟩
    | cons c r => simp [List.takeWhile, List.dropWhile, hr c rfl]
  have htake : (w ++ r).takeWhile f = w := by
    rw [List.takeWhile_append_of_pos hw, hstop.1, List.append_nil]
  have hdrop : (w ++ r).dropWhile f = r := by
    rw [List.dropWhile_append_of_pos hw, hstop.2]
  simp [takeWhile, htake, hdrop]

/-- A run and what is left make up the text. -/
theorem length_takeWhile (f : Char → Bool) (s : Cursor) :
    (s.takeWhile f).2.rest.length + (s.takeWhile f).1.length = s.rest.length := by
  have h := congrArg List.length (List.takeWhile_append_dropWhile (p := f) (l := s.rest))
  rw [List.length_append] at h
  simp only [takeWhile]
  omega

end Cursor

/-! ## Blanks

Skipping blanks stops at a token: text on which it would not move. -/

/-- Outside of comments blanks are skipped, and a slash may start a comment. -/
theorem skipBlanksFrom_outside_cons (c : Char) (r : List Char) (p : Position) :
    skipBlanksFrom .outside (c :: r) p =
      if isBlankChar c then skipBlanksFrom .outside r (p.next c)
      else if c = '/' && r.head? = some '/' then skipBlanksFrom .line r (p.next c)
      else if c = '/' && r.head? = some '*' && closesComment r.tail then
        skipBlanksFrom .opening r (p.next c)
      else ⟨c :: r, p⟩ := rfl

/-- A comment that takes a line ends with the line. -/
theorem skipBlanksFrom_line_cons (c : Char) (r : List Char) (p : Position) :
    skipBlanksFrom .line (c :: r) p = skipBlanksFrom (if c = '\n' then .outside else .line) r
      (p.next c) := rfl

/-- Any other comment ends with its closing mark. -/
theorem skipBlanksFrom_inside_cons (c : Char) (r : List Char) (p : Position) :
    skipBlanksFrom .inside (c :: r) p =
      skipBlanksFrom (if c = '*' && r.head? = some '/' then .closing else .inside) r (p.next c) :=
    rfl

/-- A text that does not start with a blank. -/
def AtToken (cs : List Char) : Prop := ∀ p, skipBlanksFrom .outside cs p = ⟨cs, p⟩

/-- At the end of the text nothing is to be skipped. -/
theorem atToken_nil : AtToken [] := fun _ => rfl

/-- A character that is no blank and opens no comment starts a token. -/
theorem atToken_cons {c : Char} (hb : isBlankChar c = false) (hs : c ≠ '/') (r : List Char) :
    AtToken (c :: r) := by
  intro p
  simp [skipBlanksFrom_outside_cons, hb, hs]

/-- A slash that opens no comment is a token. -/
theorem atToken_slash {r : List Char} (h : r.head? ≠ some '/') (h' : r.head? ≠ some '*') :
    AtToken ('/' :: r) := by
  intro p
  simp [skipBlanksFrom_outside_cons, isBlankChar, h, h']

/-- Behind skipped blanks nothing more is to be skipped. -/
theorem atToken_skipBlanksFrom (st : BlankState) (cs : List Char) (p : Position) :
    AtToken (skipBlanksFrom st cs p).rest := by
  induction cs generalizing st p with
  | nil => exact atToken_nil
  | cons c r ih =>
    cases st with
    | outside =>
      rw [skipBlanksFrom_outside_cons]
      split
      · exact ih _ _
      · split
        · exact ih _ _
        · split
          · exact ih _ _
          · intro q
            rw [skipBlanksFrom_outside_cons, if_neg ‹_›, if_neg ‹_›, if_neg ‹_›]
    | line => exact ih _ _
    | opening => exact ih _ _
    | inside => exact ih _ _
    | closing => exact ih _ _

/-- What is left behind blanks does not depend on where they stand. -/
theorem rest_skipBlanksFrom (st : BlankState) (cs : List Char) (p q : Position) :
    (skipBlanksFrom st cs p).rest = (skipBlanksFrom st cs q).rest := by
  induction cs generalizing st p q with
  | nil => rfl
  | cons c r ih =>
    cases st with
    | outside =>
      rw [skipBlanksFrom_outside_cons, skipBlanksFrom_outside_cons]
      split
      · exact ih _ _ _
      · split
        · exact ih _ _ _
        · split
          · exact ih _ _ _
          · rfl
    | line => exact ih _ _ _
    | opening => exact ih _ _ _
    | inside => exact ih _ _ _
    | closing => exact ih _ _ _

namespace Cursor

/-- At a token there is nothing to skip. -/
theorem skipBlanks_of_atToken {cs : List Char} (h : AtToken cs) (p : Position) :
    (⟨cs, p⟩ : Cursor).skipBlanks = ⟨cs, p⟩ := h p

/-- Blanks are skipped at once. -/
@[simp] theorem skipBlanks_skipBlanks (s : Cursor) : s.skipBlanks.skipBlanks = s.skipBlanks :=
  atToken_skipBlanksFrom _ _ _ _

/-- A blank is skipped. -/
theorem skipBlanks_cons_blank {c : Char} (h : isBlankChar c) (r : List Char) (p : Position) :
    (⟨c :: r, p⟩ : Cursor).skipBlanks = (⟨r, p.next c⟩ : Cursor).skipBlanks := by
  simp [skipBlanks, skipBlanksFrom_outside_cons, h]

/-- A run of blank characters is skipped whole. -/
theorem skipBlanks_append {w : List Char} (h : ∀ c ∈ w, isBlankChar c) (r : List Char)
    (p : Position) :
    (⟨w ++ r, p⟩ : Cursor).skipBlanks = (⟨r, p.advance w⟩ : Cursor).skipBlanks := by
  induction w generalizing p with
  | nil => rfl
  | cons c w ih =>
    rw [List.cons_append, skipBlanks_cons_blank (h c List.mem_cons_self),
      ih fun d hd => h d (List.mem_cons_of_mem _ hd), Position.advance_cons]

end Cursor

/-! ## Reading moves forward -/

/-- The second cursor is what the first becomes by moving over some text. -/
def Cursor.Leads (s t : Cursor) : Prop :=
  ∃ read, s.rest = read ++ t.rest ∧ t.pos = s.pos.advance read

namespace Cursor.Leads

variable {s t u : Cursor}

/-- A cursor leads to itself. -/
theorem refl (s : Cursor) : s.Leads s := ⟨[], rfl, rfl⟩

/-- Going on leads on. -/
theorem trans (h : s.Leads t) (h' : t.Leads u) : s.Leads u := by
  obtain ⟨read, hrest, hpos⟩ := h
  obtain ⟨read', hrest', hpos'⟩ := h'
  exact ⟨read ++ read', by rw [hrest, hrest', List.append_assoc],
    by rw [hpos', hpos, Position.advance_append]⟩

/-- A character leads on. -/
theorem cons {c : Char} {r : List Char} {p : Position} (h : (⟨r, p.next c⟩ : Cursor).Leads t) :
    (⟨c :: r, p⟩ : Cursor).Leads t :=
  trans ⟨[c], rfl, rfl⟩ h

/-- A fixed text leads on. -/
theorem literal? {w : List Char} (h : s.literal? w = some t) : s.Leads t := by
  induction w generalizing s with
  | nil =>
    rw [literal?_nil] at h
    cases h
    exact refl t
  | cons c w ih =>
    obtain ⟨_ | ⟨d, r⟩, p⟩ := s
    · cases h
    · simp only [Cursor.literal?] at h
      split at h
      · exact cons (ih h)
      · cases h

/-- A run leads on. -/
theorem takeWhile (f : Char → Bool) (s : Cursor) : s.Leads (s.takeWhile f).2 :=
  ⟨_, List.takeWhile_append_dropWhile.symm, rfl⟩

/-- Skipping blanks leads on, from every state. -/
theorem skipBlanksFrom (st : BlankState) (cs : List Char) (p : Position) :
    (⟨cs, p⟩ : Cursor).Leads (skipBlanksFrom st cs p) := by
  induction cs generalizing st p with
  | nil => exact refl _
  | cons c r ih =>
    cases st with
    | outside =>
      rw [skipBlanksFrom_outside_cons]
      split
      · exact cons (ih _ _)
      · split
        · exact cons (ih _ _)
        · split
          · exact cons (ih _ _)
          · exact refl _
    | line | opening | inside | closing => exact cons (ih _ _)

/-- Skipping blanks leads on. -/
theorem skipBlanks (s : Cursor) : s.Leads s.skipBlanks := skipBlanksFrom .outside s.rest s.pos

/-- Moving forward leaves no more text. -/
theorem length_le (h : s.Leads t) : t.rest.length ≤ s.rest.length := by
  obtain ⟨read, hrest, -⟩ := h
  rw [hrest, List.length_append]
  exact Nat.le_add_left _ _

end Cursor.Leads

/-- Skipping blanks makes the text no longer. -/
theorem Cursor.length_skipBlanks_le (s : Cursor) :
    s.skipBlanks.rest.length ≤ s.rest.length :=
  (Leads.skipBlanks s).length_le

end BranchPaint
