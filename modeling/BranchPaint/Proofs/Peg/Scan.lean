import BranchPaint.Proofs.Grammar.Head
import BranchPaint.Proofs.Peg.Script

/-!
# Blanks and words as patterns

Inside a blank, a word or a symbol nothing is recorded: a pattern leads from one cursor to another,
or it does not match. `Scans` says so, with a rule for each kind of pattern, and `Rounds` does for
repetitions. With these the patterns for blanks and words are compared with the functions that read
them: blanks lead where `Cursor.skipBlanks` does (`scans_blanks`), and the pattern of some given
words matches the words that `Lexer.word` reads and that are given (`scans_words`). For the second
no given word may be the front of another, as a choice once made is not taken back.
-/

namespace BranchPaint

/-! ## Single characters -/

namespace Cursor

variable {f g : Char → Bool}

/-- At the end there is no character. -/
@[simp] theorem char?_nil (p : Position) : (⟨[], p⟩ : Cursor).char? f = none := rfl

/-- Elsewhere the next character is read if it is in the class. -/
theorem char?_cons (c : Char) (r : List Char) (p : Position) :
    (⟨c :: r, p⟩ : Cursor).char? f = if f c then some ⟨r, p.next c⟩ else none := rfl

/-- A class of one character is a fixed text. -/
theorem char?_eq (c : Char) (s : Cursor) : s.char? (· = c) = s.literal? [c] := by
  obtain ⟨_ | ⟨d, r⟩, p⟩ := s
  · rfl
  · simp [char?, literal?]

/-- A character is in one of two classes. -/
theorem char?_or (s : Cursor) : (s.char? f).or (s.char? g) = s.char? fun c => f c || g c := by
  obtain ⟨_ | ⟨d, r⟩, p⟩ := s
  · rfl
  · cases hf : f d
    all_goals simp [char?, hf]

/-- A character is read if it is seen. -/
theorem isSome_char? (s : Cursor) : (s.char? f).isSome = s.peek f := by
  obtain ⟨_ | ⟨d, r⟩, p⟩ := s
  · rfl
  · cases hf : f d
    all_goals simp [char?, hf]

/-- Where a literal of two characters is read, the text starts with them. -/
theorem literal?_two {a b : Char} {cs : List Char} {p : Position} {t : Cursor}
    (h : (⟨cs, p⟩ : Cursor).literal? [a, b] = some t) :
    ∃ r, cs = a :: b :: r ∧ t = ⟨r, (p.next a).next b⟩ := by
  rcases cs with _ | ⟨c, _ | ⟨d, r⟩⟩
  · cases h
  · simp [literal?] at h
  · simp only [literal?] at h
    split at h
    · split at h
      · rename_i hc hd
        cases h
        exact ⟨r, by rw [hc, hd], by rw [hc, hd]⟩
      · cases h
    · cases h

/-- A text moves over what it starts with. -/
theorem literal?_append (w r : List Char) (p : Position) :
    (⟨w ++ r, p⟩ : Cursor).literal? w = some ⟨r, p.advance w⟩ := by
  induction w generalizing p with
  | nil => simp
  | cons c w ih => rw [List.cons_append, literal?_cons_self, ih, Position.advance_cons]

/-- Only one cursor with the same text left is reached. -/
theorem Leads.eq_of_rest {s t u : Cursor} (ht : s.Leads t) (hu : s.Leads u) (h : t.rest = u.rest) :
    t = u := by
  obtain ⟨read, hrest, hpos⟩ := ht
  obtain ⟨read', hrest', hpos'⟩ := hu
  rw [hrest, h] at hrest'
  rw [List.append_cancel_right hrest', ← hpos'] at hpos
  cases t
  cases u
  cases h
  cases hpos
  rfl

/-- A run of characters is one character after the other. -/
theorem takeWhile_cons {c : Char} (h : f c) (r : List Char) (p : Position) :
    ((⟨c :: r, p⟩ : Cursor).takeWhile f).2 = ((⟨r, p.next c⟩ : Cursor).takeWhile f).2 := by
  simp [takeWhile, h]

/-- A run ends in front of a character that is not in its class. -/
theorem takeWhile_cons_of_not {c : Char} (h : f c = false) (r : List Char) (p : Position) :
    ((⟨c :: r, p⟩ : Cursor).takeWhile f).2 = ⟨c :: r, p⟩ := by
  simp [takeWhile, h]

end Cursor

namespace Peg

variable {ν : Type} {g : Table ν} {p q : Pattern ν} {s t u : Cursor} {o o' : Option Cursor}

/-! ## Scanning -/

/-- Where nothing is recorded, the pattern leads from `s` to the cursor `o`, if that is one, and
does not match otherwise. -/
def Scans (g : Table ν) (p : Pattern ν) (s : Cursor) (o : Option Cursor) : Prop :=
  Matches g .quiet p s ⟨0, o.map fun t => ([], t)⟩

/-- Repeated, the pattern leads from `s` to `t`, at the start of a repetition and behind other
rounds. -/
structure Rounds (g : Table ν) (p : Pattern ν) (s t : Cursor) : Prop where
  star : Scans g (.star p) s (some t)
  more : Scans g (.more p) s (some t)

/-- A part that leaves no nodes adds nothing. -/
theorem Answer.behind_nil (o : Option Cursor) :
    (⟨0, o.map fun t => ([], t)⟩ : Answer ν).behind 0 [] = ⟨0, o.map fun t => ([], t)⟩ := by
  cases o with
  | none => rfl
  | some t => rfl

namespace Scans

/-- A fixed text is scanned where it stands. -/
theorem text (w : String) : Scans g (.text w) s (s.literal? w.toList) := Matches.text w

/-- A class scans one character of it. -/
theorem char (f : Char → Bool) : Scans g (.char f) s (s.char? f) := Matches.char f

/-- A named rule scans as its pattern does. -/
theorem call {x : ν} (h : Scans g (g.pattern x) s o) : Scans g (.call x) s o := Matches.call h

/-- A sequence scans one part after the other. -/
theorem seq {f : Cursor → Option Cursor} (h : Scans g p s o)
    (h' : ∀ t, o = some t → Scans g q t (f t)) : Scans g (.seq p q) s (o.bind f) := by
  cases o with
  | none => exact Matches.seq_none h
  | some t =>
    have hmatch := Matches.seq h Matches.skips_quiet (h' t rfl)
    rwa [Answer.behind_nil] at hmatch

/-- A choice scans the first part that applies. -/
theorem or (h : Scans g p s o) (h' : Scans g q s o') : Scans g (.or p q) s (o.or o') := by
  cases o with
  | none =>
    exact Matches.or_right h h'
  | some t => exact Matches.or_left h

/-- An optional part is scanned if it is there. -/
theorem opt (h : Scans g p s o) : Scans g (.opt p) s (some (o.getD s)) := by
  have hmatch := Matches.opt h
  cases o with
  | none => exact hmatch
  | some t => exact hmatch

/-- Where a part must not stand, nothing is scanned. -/
theorem not (h : Scans g p s o) : Scans g (.not p) s (if o.isSome then none else some s) := by
  have hmatch := Matches.not (m := .quiet) h
  cases o with
  | none => exact hmatch
  | some t => exact hmatch

/-- A choice of nothing scans nothing. -/
theorem oneOf_nil : Scans g (.oneOf []) s none := (text "").not

/-- A choice of several parts scans the first that applies. -/
theorem oneOf_cons {ps : List (Pattern ν)} (h : Scans g p s o) (h' : Scans g (.oneOf ps) s o') :
    Scans g (.oneOf (p :: ps)) s (o.or o') := by
  cases ps with
  | nil =>
    have hnone : o' = none := by
      have heq := congrArg Answer.result (Matches.unique h' oneOf_nil)
      simpa using heq
    rw [hnone, Option.or_none]
    exact h
  | cons q qs => exact h.or h'

/-- A text of one character scans this character. -/
theorem letter {w : String} {c : Char} (hw : w.toList = [c]) :
    Scans g (.text w) s (s.char? (· = c)) := by
  rw [Cursor.char?_eq, ← hw]
  exact text w

/-- A choice of two classes of characters scans their union. -/
theorem either {f f' : Char → Bool} (h : Scans g p s (s.char? f)) (h' : Scans g q s (s.char? f')) :
    Scans g (.or p q) s (s.char? fun c => f c || f' c) := by
  rw [← Cursor.char?_or]
  exact h.or h'

end Scans

namespace Rounds

/-- Rounds stop where none applies. -/
theorem stop (h : Scans g p s none) : Rounds g p s s :=
  ⟨Matches.star_none h, Matches.more_none Matches.skips_quiet h⟩

/-- Rounds go on where one applies. -/
theorem step (h : Scans g p s (some t)) (h' : Rounds g p t u) : Rounds g p s u := by
  exact ⟨Matches.star h h'.more, Matches.more Matches.skips_quiet h h'.more⟩

/-- The longest run of characters of a class. -/
theorem run {f : Char → Bool} (h : ∀ s, Scans g p s (s.char? f)) (s : Cursor) :
    Rounds g p s (s.takeWhile f).2 := by
  obtain ⟨cs, pos⟩ := s
  induction cs generalizing pos with
  | nil => exact stop (h _)
  | cons c r ih =>
    have hscan := h ⟨c :: r, pos⟩
    rw [Cursor.char?_cons] at hscan
    cases hc : f c with
    | true =>
      rw [hc] at hscan
      rw [Cursor.takeWhile_cons hc]
      exact step hscan (ih (pos.next c))
    | false =>
      rw [hc] at hscan
      rw [Cursor.takeWhile_cons_of_not hc]
      exact stop hscan

end Rounds

/-! ## Blanks -/

/-- The pattern of white space scans one blank. -/
theorem scans_whiteSpace (s : Cursor) : Scans g .whiteSpace s (s.char? isBlankChar) := by
  have hscan : Scans g .whiteSpace s
      (s.char? fun c => c = ' ' || (c = '\t' || (c = '\r' || c = '\n'))) :=
    (Scans.letter rfl).either
      ((Scans.letter rfl).either ((Scans.letter rfl).either (Scans.letter rfl)))
  have hclass : (fun c : Char => decide (c = ' ') ||
      (decide (c = '\t') || (decide (c = '\r') || decide (c = '\n')))) =
      isBlankChar := by
    funext c
    simp only [isBlankChar, Bool.or_assoc]
  rwa [hclass] at hscan

/-- One more character, where a pattern does not match. -/
theorem Scans.butNot (h : Scans g p s o) :
    Scans g (.seq (.not p) (.char fun _ => true)) s (if o.isSome then none
      else s.char? fun _ => true) := by
  have hscan := h.not.seq fun t _ => Scans.char (g := g) (s := t) fun _ => true
  cases o with
  | none => exact hscan
  | some t => exact hscan

/-- The text of a comment up to the end of its line. -/
theorem rounds_line (s : Cursor) :
    Rounds g (.seq (.not (.text "\n")) (.char fun _ => true)) s (s.takeWhile (· ≠ '\n')).2 := by
  refine .run (fun s => ?_) s
  have hscan : Scans g _ s _ := (Scans.letter (w := "\n") (c := '\n') rfl).butNot
  rw [Cursor.isSome_char?] at hscan
  obtain ⟨_ | ⟨c, r⟩, pos⟩ := s
  · exact hscan
  · by_cases hc : c = '\n'
    all_goals simpa [Cursor.char?_cons, hc] using hscan

/-- The cursor in front of the first mark that closes a block comment, or at the end. -/
def upToClosing : List Char → Position → Cursor
  | [], pos => ⟨[], pos⟩
  | c :: r, pos => if c = '*' ∧ r.head? = some '/' then ⟨c :: r, pos⟩
    else upToClosing r (pos.next c)

/-- The closing mark of a comment is not further back. -/
theorem length_upToClosing (cs : List Char) (pos : Position) :
    (upToClosing cs pos).rest.length ≤ cs.length := by
  induction cs generalizing pos with
  | nil => exact Nat.le_refl _
  | cons c r ih =>
    unfold upToClosing
    split
    · exact Nat.le_refl _
    · exact Nat.le_succ_of_le (ih _)

/-- A closing mark stands at the front or it does not. -/
theorem literal?_closing (c : Char) (r : List Char) (pos : Position) :
    (⟨c :: r, pos⟩ : Cursor).literal? ['*', '/'] =
    if c = '*' ∧ r.head? = some '/' then some ⟨r.tail, (pos.next '*').next '/'⟩ else none := by
  by_cases hc : c = '*'
  · rcases r with _ | ⟨d, r⟩
    · simp [Cursor.literal?, hc]
    · by_cases hd : d = '/'
      all_goals simp [Cursor.literal?, hc, hd]
  · simp [Cursor.literal?, hc]

/-- The inside of a comment goes up to its closing mark. -/
theorem rounds_block (s : Cursor) :
    Rounds g (.seq (.not (.text "*/")) (.char fun _ => true)) s (upToClosing s.rest s.pos) := by
  obtain ⟨cs, pos⟩ := s
  induction cs generalizing pos with
  | nil => exact .stop (Scans.butNot (Scans.text "*/"))
  | cons c r ih =>
    have hscan : Scans g _ (⟨c :: r, pos⟩ : Cursor) _ := (Scans.text "*/").butNot
    rw [show "*/".toList = ['*', '/'] from rfl, literal?_closing] at hscan
    unfold upToClosing
    split
    · rename_i hclosing
      rw [if_pos hclosing] at hscan
      exact .stop hscan
    · rename_i hclosing
      rw [if_neg hclosing] at hscan
      exact .step hscan (ih (pos.next c))

/-- The cursor behind a comment, if the text starts with one. -/
def afterComment? (s : Cursor) : Option Cursor :=
  ((s.literal? ['/', '/']).bind fun t => some (t.takeWhile (· ≠ '\n')).2).or ((s.literal? ['/',
      '*']).bind fun t => (some (upToClosing t.rest t.pos)).bind fun u => u.literal? ['*', '/'])

/-- The pattern of comments scans one comment. -/
theorem scans_comment (s : Cursor) : Scans g .comment s (afterComment? s) := by
  refine .or ?_ ?_
  · exact (Scans.text "//").seq fun t _ => (rounds_line t).star
  · exact (Scans.text "/*").seq fun t _ => (rounds_block t).star.seq fun u _ => Scans.text "*/"

/-! ### Skipping and matching -/

/-- Skipping goes on behind the line of a comment. -/
theorem skipBlanksFrom_line (cs : List Char) (pos : Position) :
    skipBlanksFrom .line cs pos = ((⟨cs, pos⟩ : Cursor).takeWhile (· ≠ '\n')).2.skipBlanks := by
  induction cs generalizing pos with
  | nil => rfl
  | cons c r ih =>
    by_cases hc : c = '\n'
    · rw [Cursor.takeWhile_cons_of_not (by simp [hc]),
        Cursor.skipBlanks_cons_blank (by rw [hc]; rfl), skipBlanksFrom_line_cons, if_pos hc]
      rfl
    · rw [Cursor.takeWhile_cons (by simp [hc]), skipBlanksFrom_line_cons, if_neg hc, ih]

/-- A comment is closed here or further on. -/
theorem closesComment_cons (c : Char) (r : List Char) :
    closesComment (c :: r) = (decide (c = '*' ∧ r.head? = some '/') || closesComment r) := by
  rcases r with _ | ⟨d, r⟩
  · simp [closesComment]
  · by_cases hmark : c = '*' ∧ d = '/'
    · rw [hmark.1, hmark.2]
      simp [closesComment]
    · rw [closesComment.eq_3 _ _ fun _ hc hd => hmark ⟨hc, by simpa using congrArg List.head? hd⟩]
      simp [hmark]

/-- A closing mark is found if the comment is closed. -/
theorem isSome_closing (cs : List Char) (pos : Position) :
    ((upToClosing cs pos).literal? ['*', '/']).isSome = closesComment cs := by
  induction cs generalizing pos with
  | nil => rfl
  | cons c r ih =>
    rw [closesComment_cons, upToClosing]
    split
    · rename_i hclosing
      rw [literal?_closing, if_pos hclosing]
      simp [hclosing]
    · rename_i hclosing
      simp [ih, hclosing]

/-- Skipping goes on behind the closing mark. -/
theorem skipBlanksFrom_inside {cs : List Char} {pos : Position}
    (h : (upToClosing cs pos).literal? ['*', '/'] = some t) :
    skipBlanksFrom .inside cs pos = t.skipBlanks := by
  induction cs generalizing pos with
  | nil => cases h
  | cons c r ih =>
    unfold upToClosing at h
    split at h
    · rename_i hclosing
      rw [literal?_closing, if_pos hclosing] at h
      cases h
      obtain ⟨rfl, hhead⟩ := hclosing
      obtain ⟨r, rfl⟩ : ∃ r', r = '/' :: r' := by
        cases r with
        | nil => cases hhead
        | cons d r =>
          cases hhead
          exact ⟨r, rfl⟩
      rfl
    · rename_i hclosing
      rw [skipBlanksFrom_inside_cons, if_neg (by simpa using hclosing)]
      exact ih h

/-- Skipping goes on behind a comment. -/
theorem skipBlanks_of_afterComment? (h : afterComment? s = some t) :
    s.skipBlanks = t.skipBlanks ∧ t.rest.length < s.rest.length := by
  obtain ⟨cs, pos⟩ := s
  rcases Option.or_eq_some_iff.1 h with hline | ⟨-, hblock⟩
  · obtain ⟨u, hu, ht⟩ := Option.bind_eq_some_iff.1 hline
    cases ht
    obtain ⟨r, rfl, rfl⟩ := Cursor.literal?_two hu
    refine ⟨?_, ?_⟩
    · rw [← skipBlanksFrom_line]
      rfl
    · have hle := (Cursor.Leads.takeWhile (· ≠ '\n') ⟨r, (pos.next '/').next '/'⟩).length_le
      simp only [List.length_cons] at hle ⊢
      omega
  · obtain ⟨u, hu, ht⟩ := Option.bind_eq_some_iff.1 hblock
    obtain ⟨r, rfl, rfl⟩ := Cursor.literal?_two hu
    have hclosing : (upToClosing r ((pos.next '/').next '*')).literal? ['*', '/'] = some t := ht
    have hcloses : closesComment r = true := by
      rw [← isSome_closing r ((pos.next '/').next '*'), hclosing]; rfl
    refine ⟨?_, ?_⟩
    · have hopens : (⟨'/' :: '*' :: r, pos⟩ : Cursor).skipBlanks =
          skipBlanksFrom .opening ('*' :: r) (pos.next '/') := by
        simp [Cursor.skipBlanks, skipBlanksFrom_outside_cons, isBlankChar, hcloses]
      rw [← skipBlanksFrom_inside hclosing]
      exact hopens
    · have hle := length_upToClosing r ((pos.next '/').next '*')
      have hlength := Cursor.length_of_literal? hclosing
      simp only [List.length_cons] at hlength ⊢
      omega

/-- Where neither a blank character nor a comment stands, there is nothing to skip. -/
theorem skipBlanks_of_none (hblank : s.peek isBlankChar = false) (h : afterComment? s = none) :
    s.skipBlanks = s := by
  obtain ⟨_ | ⟨c, r⟩, pos⟩ := s
  · rfl
  · obtain ⟨hline, hblock⟩ := Option.or_eq_none_iff.1 h
    have hslashes : ¬ (c = '/' ∧ r.head? = some '/') := by
      rintro ⟨rfl, hhead⟩
      obtain ⟨r, rfl⟩ := List.head?_eq_some_iff.1 hhead
      simp at hline
    have hopening : ¬ (c = '/' ∧ r.head? = some '*' ∧ closesComment r.tail = true) := by
      rintro ⟨rfl, hhead, hcloses⟩
      obtain ⟨r, rfl⟩ := List.head?_eq_some_iff.1 hhead
      rw [List.tail_cons, ← isSome_closing r ((pos.next '/').next '*')] at hcloses
      simp at hblock
      rw [hblock] at hcloses
      cases hcloses
    rw [Cursor.peek_cons] at hblank
    simp only [Cursor.skipBlanks, skipBlanksFrom_outside_cons, hblank, Bool.false_eq_true, if_false,
      Bool.and_eq_true, decide_eq_true_eq]
    rw [if_neg hslashes, if_neg fun hall => hopening ⟨hall.1.1, hall.1.2, hall.2⟩]

/-- A run of blank characters may be skipped first. -/
theorem skipBlanks_takeWhile (s : Cursor) :
    (s.takeWhile isBlankChar).2.skipBlanks = s.skipBlanks := by
  obtain ⟨cs, pos⟩ := s
  induction cs generalizing pos with
  | nil => rfl
  | cons c r ih =>
    cases hc : isBlankChar c with
    | true => rw [Cursor.takeWhile_cons hc, ih, Cursor.skipBlanks_cons_blank hc]
    | false => rw [Cursor.takeWhile_cons_of_not hc]

/-- Behind a run no character of its class follows. -/
theorem peek_takeWhile (f : Char → Bool) (s : Cursor) : (s.takeWhile f).2.peek f = false := by
  obtain ⟨cs, pos⟩ := s
  induction cs generalizing pos with
  | nil => rfl
  | cons c r ih =>
    cases hc : f c with
    | true => rw [Cursor.takeWhile_cons hc, ih]
    | false => rw [Cursor.takeWhile_cons_of_not hc, Cursor.peek_cons, hc]

/-- Comments with blank characters between them lead where skipping does. The induction is on the
text that is left: a comment takes at least its mark. -/
theorem rounds_comments (s : Cursor) (h : s.peek isBlankChar = false) :
    Rounds g (.inOrder [.comment, .star .whiteSpace]) s s.skipBlanks := by
  induction hlength : s.rest.length using Nat.strong_induction_on generalizing s with
  | h n ih =>
    have hround : Scans g (.inOrder [.comment, .star .whiteSpace]) s
        ((afterComment? s).bind fun t => some (t.takeWhile isBlankChar).2) :=
      (scans_comment s).seq fun t _ => (Rounds.run scans_whiteSpace t).star
    cases hcomment : afterComment? s with
    | none =>
      rw [hcomment] at hround
      rw [skipBlanks_of_none h hcomment]
      exact .stop hround
    | some t =>
      rw [hcomment] at hround
      obtain ⟨hskip, hless⟩ := skipBlanks_of_afterComment? hcomment
      have hle := (Cursor.Leads.takeWhile isBlankChar t).length_le
      rw [hskip, ← skipBlanks_takeWhile t]
      exact .step hround (ih _ (by omega) _ (peek_takeWhile _ t) rfl)

/-- The pattern of blanks leads where skipping does. -/
theorem scans_blanks (s : Cursor) : Scans g .blanks s (some s.skipBlanks) := by
  have hcomments := rounds_comments (g := g) _ (peek_takeWhile isBlankChar s)
  rw [skipBlanks_takeWhile] at hcomments
  exact (Rounds.run scans_whiteSpace s).star.seq (f := fun _ => some s.skipBlanks) fun t ht => by
    cases ht
    exact hcomments.star

/-- Between the parts of a rule of the language, blanks are skipped. -/
theorem skips_blanks (s : Cursor) : Skips script .plain s s.skipBlanks :=
  Matches.skips_plain (g := script) (scans_blanks s)

/-! ## Words -/

/-- A character of a class, an underscore or a dollar sign is scanned as the class with these
two. -/
theorem scans_oneOf_class {inClass isWord : Char → Bool}
    (hword : ∀ c, isWord c = (inClass c || (decide (c = '_') || decide (c = '$')))) (s : Cursor) :
    Scans g (.oneOf [.char inClass, .text "_", .text "$"]) s (s.char? isWord) := by
  rw [funext hword]
  exact (Scans.char inClass).either ((Scans.letter rfl).either (Scans.letter rfl))

/-- The pattern of first characters scans what starts a word. -/
theorem scans_wordStart (s : Cursor) : Scans g .wordStart s (s.char? isWordStart) :=
  scans_oneOf_class (fun _ => Bool.or_assoc ..) s

/-- The pattern of further characters scans what is part of a word. -/
theorem scans_wordChar (s : Cursor) : Scans g .wordChar s (s.char? isWordChar) :=
  scans_oneOf_class (fun _ => Bool.or_assoc ..) s

/-- A first character and the run behind it are a word. -/
theorem scans_word (s : Cursor) :
    Scans g (.inOrder [.wordStart, .star .wordChar]) s ((Lexer.word s).map Prod.snd) := by
  have hscan : Scans g (.inOrder [.wordStart, .star .wordChar]) s _ :=
    (scans_wordStart s).seq fun t _ => (Rounds.run scans_wordChar t).star
  obtain ⟨_ | ⟨c, r⟩, pos⟩ := s
  · exact hscan
  · cases hc : isWordStart c with
    | true =>
      have hchar := isWordChar_of_isWordStart hc
      simp only [Cursor.char?_cons, hc, if_true, Option.bind_some] at hscan
      simpa [Lexer.word, hc, Cursor.takeWhile, hchar] using hscan
    | false =>
      simp only [Cursor.char?_cons, hc] at hscan
      simpa [Lexer.word, hc] using hscan

/-- The first of some texts with which the text goes on. -/
theorem scans_oneOf_text (ws : List String) (s : Cursor) :
    Scans g (.oneOf (ws.map .text)) s (ws.findSome? fun w => s.literal? w.toList) := by
  induction ws with
  | nil => exact .oneOf_nil
  | cons w ws ih =>
    have hscan := (Scans.text w).oneOf_cons ih
    rw [List.findSome?_cons]
    cases hw : s.literal? w.toList with
    | none | some t =>
      rw [hw] at hscan
      exact hscan

/-- No word of the list is the front of another. -/
def Apart (ws : List String) : Prop := ∀ v ∈ ws, ∀ w ∈ ws, v.toList <+: w.toList → v = w

instance (ws : List String) : Decidable (Apart ws) :=
  inferInstanceAs (Decidable (∀ v ∈ ws, ∀ w ∈ ws, _))

/-- The cursor behind the next word, if that is one of the given words. -/
def afterWord? (ws : List String) (s : Cursor) : Option Cursor :=
  match Lexer.word s with
  | some (w, t) => if w ∈ ws then some t else none
  | none => none

/-- The characters of a word are parts of words. -/
theorem isWordChar_of_mem {w : String} (h : IsWord w) {c : Char} (hc : c ∈ w.toList) :
    isWordChar c := by
  obtain ⟨d, cs, htext, hstart, hrest⟩ := h
  rw [htext] at hc
  rcases List.mem_cons.1 hc with rfl | hc
  · exact isWordChar_of_isWordStart hstart
  · exact hrest c hc

/-- A word with which the text goes on is the front of the whole word there. -/
theorem word_of_literal? {v w : String} (hv : IsWord v) (hword : Lexer.word s = some (w, t))
    (h : s.literal? v.toList = some u) :
    ∃ cs, w.toList = v.toList ++ cs ∧ u.rest = cs ++ t.rest := by
  have hrest := Cursor.literal?_inv h
  rw [(Lexer.word_inv hword).2] at hrest
  rcases List.append_eq_append_iff.1 hrest with ⟨cs, hcs, htail⟩ | ⟨cs, hcs, htail⟩
  · -- the given word would go on behind the end of the word
    rcases cs with _ | ⟨c, cs⟩
    · exact ⟨[], by rw [hcs]; simp, by rw [htail]; rfl⟩
    · have hchar : isWordChar c := isWordChar_of_mem hv (by rw [hcs]; simp)
      have hends := Lexer.endsWord_of_word hword c (by rw [htail]; rfl)
      rw [hchar] at hends
      cases hends
  · exact ⟨cs, hcs, htail⟩

/-- No word with which the text goes on, where there is no word. -/
theorem literal?_of_noWord {v : String} (hv : IsWord v) (hword : Lexer.word s = none) :
    s.literal? v.toList = none := by
  obtain ⟨c, cs, htext, hstart, -⟩ := hv
  rw [htext]
  refine Cursor.literal?_of_peek (f := isWordStart) ?_ hstart cs
  unfold Lexer.word at hword
  split at hword
  · cases hword
  · rename_i hpeek
    simpa using hpeek

/-- The pattern of words scans one of them that ends there. -/
theorem scans_words (ws : List String) (hwords : ∀ w ∈ ws, IsWord w) (hapart : Apart ws)
    (s : Cursor) : Scans g (.words ws) s (afterWord? ws s) := by
  have hscan : Scans g (.words ws) s ((ws.findSome? fun w => s.literal? w.toList).bind fun t =>
      if (t.char? isWordChar).isSome then none else some t) :=
    (scans_oneOf_text ws s).seq fun t _ => (scans_wordChar t).not
  suffices h : ((ws.findSome? fun w => s.literal? w.toList).bind fun t =>
      if (t.char? isWordChar).isSome then none else some t) = afterWord? ws s by rwa [h] at hscan
  unfold afterWord?
  cases hword : Lexer.word s with
  | none =>
    have hnone : (ws.findSome? fun w => s.literal? w.toList) = none :=
      List.findSome?_eq_none_iff.2 fun w hw => literal?_of_noWord (hwords w hw) hword
    rw [hnone]
    rfl
  | some x =>
    obtain ⟨w, t⟩ := x
    dsimp only
    cases hfind : ws.findSome? fun w => s.literal? w.toList with
    | none =>
      have hmem : w ∉ ws := by
        intro hw
        have hnone := List.findSome?_eq_none_iff.1 hfind w hw
        obtain ⟨cs, pos⟩ := s
        have hrest : cs = w.toList ++ t.rest := (Lexer.word_inv hword).2
        rw [hrest, Cursor.literal?_append] at hnone
        cases hnone
      rw [if_neg hmem]
      rfl
    | some u =>
      obtain ⟨v, hv, hliteral⟩ := List.exists_of_findSome?_eq_some hfind
      obtain ⟨cs, htext, hrest⟩ := word_of_literal? (hwords v hv) hword hliteral
      rw [Option.bind_some, Cursor.isSome_char?]
      cases cs with
      | nil =>
        have hvw : v = w := String.toList_inj.1 (by rw [htext, List.append_nil])
        have hut : u = t :=
          Cursor.Leads.eq_of_rest (.literal? hliteral) (Lexer.passes_word s w t hword).1 hrest
        have hpeek : t.peek isWordChar = false := by
          have hends := Lexer.endsWord_of_word hword
          obtain ⟨_ | ⟨c, r⟩, pos⟩ := t
          · rfl
          · exact hends c rfl
        rw [hut, hpeek, if_neg Bool.false_ne_true, if_pos (hvw ▸ hv)]
      | cons c cs =>
        have hchar : isWordChar c :=
          isWordChar_of_mem (Lexer.word_inv hword).1 (by rw [htext]; simp)
        have hpeek : u.peek isWordChar = true := by
          obtain ⟨r, pos⟩ := u
          dsimp only at hrest
          rw [hrest]
          exact hchar
        have hmem : w ∉ ws := by
          intro hw
          have hvw := hapart v hv w hw (by rw [htext]; exact List.prefix_append _ _)
          rw [hvw] at htext
          simp at htext
        rw [hpeek, if_pos rfl, if_neg hmem]

end Peg

end BranchPaint
