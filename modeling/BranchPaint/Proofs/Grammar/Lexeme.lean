import BranchPaint.Proofs.Number.Decimal

/-!
# Words, literals and symbols read back

What the lexers make of a text whose front is known. Two conditions on the text behind a lexeme
recur: a word ends in front of it (`EndsWord`), and no number goes on with it
(`Decimal.EndsNumber`). The lexers also fail on the wrong first character, and the converse lemmas
say what a lexer that succeeded has read.
-/

namespace BranchPaint

/-! ## Classes of characters -/

/-- What starts a word is part of it. -/
theorem isWordChar_of_isWordStart {c : Char} (h : isWordStart c) : isWordChar c := by
  simp only [isWordStart, isWordChar, Char.isAlphanum, Bool.or_eq_true] at h ⊢
  rcases h with (h | h) | h
  · exact .inl (.inl (.inl h))
  · exact .inl (.inr h)
  · exact .inr h

/-- A digit may be part of a word. -/
theorem isWordChar_of_isDigit {c : Char} (h : c.isDigit) : isWordChar c := by
  simp [isWordChar, Char.isAlphanum, h]

/-- No digit starts a word. -/
theorem isWordStart_of_isDigit {c : Char} (h : c.isDigit) : isWordStart c = false := by
  simp only [Char.isDigit, isWordStart, Char.isAlpha, Char.isUpper, Char.isLower, Bool.and_eq_true,
    decide_eq_true_eq, UInt32.le_iff_toNat_le, ge_iff_le] at h ⊢
  have hne : ∀ d : Char, 57 < d.val.toNat ∨ d.val.toNat < 48 → c ≠ d := by
    rintro d hd rfl
    have h0 : '0'.val.toNat = 48 := rfl
    have h9 : '9'.val.toNat = 57 := rfl
    omega
  have hA : 'A'.val.toNat = 65 := rfl
  have ha : 'a'.val.toNat = 97 := rfl
  have h9 : '9'.val.toNat = 57 := rfl
  simp only [hne '_' (by decide), hne '$' (by decide), decide_false, Bool.or_false,
    Bool.or_eq_false_iff, Bool.and_eq_false_iff, decide_eq_false_iff_not]
  omega

/-- A character of a class differs from every character outside of it. -/
theorem ne_of_class {f : Char → Bool} {c d : Char} (hc : f c) (hd : f d = false) : c ≠ d := by
  rintro rfl
  rw [hc] at hd
  cases hd

/-- A text in front of which a word ends. -/
def EndsWord (r : List Char) : Prop := ∀ c ∈ r.head?, isWordChar c = false

/-- A word ends where the text does. -/
theorem endsWord_nil : EndsWord [] := by
  intro c hc
  cases hc

/-- A word ends in front of any other character. -/
theorem endsWord_cons {c : Char} (h : isWordChar c = false) (r : List Char) :
    EndsWord (c :: r) := by
  intro d hd
  cases hd
  exact h

/-- It ends there whatever follows that character. -/
theorem EndsWord.of_append {cs r : List Char} (h : EndsWord (cs ++ r)) : EndsWord cs := by
  cases cs with
  | nil => exact endsWord_nil
  | cons c cs => exact h

/-- A number too ends where a word would, unless there is a point. -/
theorem EndsWord.endsNumber {r : List Char} (h : EndsWord r) (hdot : r.head? ≠ some '.') :
    Decimal.EndsNumber r := by
  intro c hc
  have hword := h c hc
  refine ⟨?_, ?_, ?_, ?_⟩
  · cases hd : c.isDigit with
    | false => rfl
    | true => exact absurd (isWordChar_of_isDigit hd) (by simp [hword])
  · rintro rfl
    exact hdot hc
  · rintro rfl
    exact absurd hword (by decide)
  · rintro rfl
    exact absurd hword (by decide)

/-! ## Words -/

/-- A text that the lexer takes for a word. -/
def IsWord (w : String) : Prop :=
  ∃ c cs, w.toList = c :: cs ∧ isWordStart c ∧ ∀ d ∈ cs, isWordChar d

/-- Is the list the letters of a word? -/
def isWordText : List Char → Bool
  | [] => false
  | c :: cs => isWordStart c && cs.all isWordChar

/-- The test of words is right. -/
theorem isWordText_iff {w : String} : isWordText w.toList = true ↔ IsWord w := by
  unfold IsWord
  cases w.toList with
  | nil => simp [isWordText]
  | cons c cs =>
    rw [isWordText, Bool.and_eq_true, List.all_eq_true]
    constructor
    · exact fun h => ⟨c, cs, rfl, h.1, h.2⟩
    · rintro ⟨_, _, heq, hstart, hrest⟩
      cases heq
      exact ⟨hstart, hrest⟩

instance (w : String) : Decidable (IsWord w) := decidable_of_iff _ isWordText_iff

/-- A word that is not reserved. -/
def IsIdentifier (w : String) : Prop := IsWord w ∧ w ∉ reservedWords

instance (w : String) : Decidable (IsIdentifier w) :=
  inferInstanceAs (Decidable (IsWord w ∧ w ∉ reservedWords))

namespace Lexer

/-- A word is read back if it ends there. -/
theorem word_append {w : String} (hw : IsWord w) {r : List Char} (hr : EndsWord r) (p : Position) :
    word ⟨w.toList ++ r, p⟩ = some (w, ⟨r, p.advance w.toList⟩) := by
  obtain ⟨c, cs, htext, hc, hcs⟩ := hw
  have hall : ∀ d ∈ c :: cs, isWordChar d := by
    intro d hd
    rcases List.mem_cons.1 hd with rfl | hd
    · exact isWordChar_of_isWordStart hc
    · exact hcs d hd
  have hname : String.ofList (c :: cs) = w := by rw [← htext, String.ofList_toList]
  rw [htext]
  unfold word
  rw [Cursor.takeWhile_append hall hr]
  simp [hc, hname]

/-- No word starts with another character. -/
theorem word_of_head {c : Char} (h : isWordStart c = false) (r : List Char) (p : Position) :
    word ⟨c :: r, p⟩ = none := by
  simp [word, h]

/-- No word is read at the end of the text. -/
@[simp] theorem word_nil (p : Position) : word ⟨[], p⟩ = none := by
  simp [word]

/-- A word that was read is the front of the text. -/
theorem word_inv {s t : Cursor} {w : String} (h : word s = some (w, t)) :
    IsWord w ∧ s.rest = w.toList ++ t.rest := by
  obtain ⟨_ | ⟨c, r⟩, p⟩ := s
  · simp at h
  · simp only [word, Cursor.peek_cons] at h
    split at h
    · rename_i hc
      cases h
      have hchar := isWordChar_of_isWordStart hc
      refine ⟨⟨c, r.takeWhile isWordChar, ?_, hc, fun d hd => ?_⟩, ?_⟩
      · simp [Cursor.takeWhile, hchar]
      · exact List.all_eq_true.1 List.all_takeWhile d hd
      · simp [Cursor.takeWhile, List.takeWhile_append_dropWhile]
    · cases h

/-- A word ends where the lexer stops. -/
theorem endsWord_of_word {s t : Cursor} {w : String} (h : word s = some (w, t)) :
    EndsWord t.rest := by
  unfold word at h
  split at h
  · cases h
    intro c hc
    have hstop := List.head?_dropWhile_not isWordChar s.rest
    rw [show (s.rest.dropWhile isWordChar).head? = some c from hc] at hstop
    exact hstop
  · cases h

/-- An identifier is read back if it ends there. -/
theorem identifier_append {w : String} (hw : IsIdentifier w) {r : List Char} (hr : EndsWord r)
    (p : Position) : identifier ⟨w.toList ++ r, p⟩ = some (w, ⟨r, p.advance w.toList⟩) := by
  unfold identifier
  rw [word_append hw.1 hr]
  simp [hw.2]

/-- What is read as an identifier is one. -/
theorem isIdentifier_of_identifier {s t : Cursor} {w : String} (h : identifier s = some (w, t)) :
    IsIdentifier w := by
  unfold identifier at h
  split at h
  · rename_i hw
    split at h
    · cases h
    · rename_i hres
      cases h
      exact ⟨(word_inv hw).1, by simpa using hres⟩
  · cases h

/-- In front of a word a keyword is read just if it is this word. -/
theorem keyword_append (k : String) {w : String} (hw : IsWord w) {r : List Char} (hr : EndsWord r)
    (p : Position) :
    keyword k ⟨w.toList ++ r, p⟩ = if w = k then some ((), ⟨r, p.advance w.toList⟩) else none := by
  unfold keyword
  rw [word_append hw hr]

/-- A word is read as a truth value if it is `true` or `false`. -/
theorem boolean_append {w : String} (hw : IsWord w) {r : List Char} (hr : EndsWord r)
    (p : Position) : boolean ⟨w.toList ++ r, p⟩ =
      if w = "true" then some (true, ⟨r, p.advance w.toList⟩)
      else if w = "false" then some (false, ⟨r, p.advance w.toList⟩) else none := by
  unfold boolean
  rw [word_append hw hr]

/-- A word is read as one of declarations if it is one. -/
theorem declareWord_append {w : String} (hw : IsWord w) {r : List Char} (hr : EndsWord r)
    (p : Position) :
    declareWord ⟨w.toList ++ r, p⟩ = (DeclareWord.ofText? w).map fun d =>
      (d, ⟨r, p.advance w.toList⟩) := by
  unfold declareWord
  rw [word_append hw hr]

/-! ## Literals of other kinds -/

/-- A number starts with a digit or a point. -/
theorem number_of_head {c : Char} (hd : c.isDigit = false) (hdot : c ≠ '.') (r : List Char)
    (p : Position) : number ⟨c :: r, p⟩ = none := by
  have htake : (⟨c :: r, p⟩ : Cursor).takeWhile Char.isDigit = ([], ⟨c :: r, p⟩) := by
    simp [Cursor.takeWhile, hd]
  unfold number Decimal.scan?
  rw [htake]
  dsimp only
  rw [Cursor.literal?_cons_of_ne hdot]
  rfl

/-- No number is read at the end of the text. -/
@[simp] theorem number_nil (p : Position) : number ⟨[], p⟩ = none := rfl

end Lexer

namespace Quoted

/-- Without a quotation mark no quoted text is read. -/
theorem scan?_of_head {c : Char} (h : c ≠ '\'') (h' : c ≠ '"') (r : List Char) (p : Position) :
    scan? ⟨c :: r, p⟩ = none := by
  simp [scan?, h, h']

/-- Nor is one at the end of the text. -/
@[simp] theorem scan?_nil (p : Position) : scan? ⟨[], p⟩ = none := rfl

/-- A character is written by a backslash and one that stands for it there, or as it is. Either way
no line feed is written. -/
theorem escape_cases (c : Char) :
    (∃ d, escape c = ['\\', d] ∧ unescape d = c ∧ d ≠ '\n') ∨
      (escape c = [c] ∧ c ≠ '\\' ∧ c ≠ '\'' ∧ c ≠ '\n') := by
  unfold escape
  split
  case h_7 hslash hquote hfeed _ _ _ => exact .inr ⟨rfl, hslash, hquote, hfeed⟩
  all_goals exact .inl ⟨_, rfl, rfl, by decide⟩

/-- One written character is read as the character. -/
theorem body?_escape (c : Char) (r : List Char) (p : Position) :
    body? '\'' (escape c ++ r) p =
      (body? '\'' r (p.advance (escape c))).map fun x => (c :: x.1, x.2) := by
  rcases escape_cases c with ⟨d, hc, rfl, -⟩ | ⟨hc, hslash, hquote, hfeed⟩
  · rw [hc]
    rfl
  · have hone : c = '\\' → r = [] → False := fun h => absurd h hslash
    have htwo : ∀ d r', c = '\\' → r = d :: r' → False := fun _ _ h => absurd h hslash
    rw [hc, List.singleton_append, body?.eq_4 _ _ _ _ hone htwo, if_neg hquote, if_neg hfeed]
    rfl

/-- A line feed is not written as it is. -/
theorem feed_not_mem_escape (c : Char) : '\n' ∉ escape c := by
  rcases escape_cases c with ⟨d, hc, -, hfeed⟩ | ⟨hc, -, -, hfeed⟩
  · simpa [hc] using hfeed.symm
  · simpa [hc] using hfeed.symm

/-- A quoted text is its escaped characters between marks. -/
theorem toList_quote (text : String) :
    (quote text).toList = '\'' :: (text.toList.flatMap escape ++ ['\'']) :=
  String.toList_ofList

/-- The same with more behind it. -/
theorem toList_quote_append (text : String) (r : List Char) :
    (quote text).toList ++ r = '\'' :: (text.toList.flatMap escape ++ '\'' :: r) := by
  rw [toList_quote, List.cons_append, List.append_assoc, List.singleton_append]

/-- A written text has no line feed in it. -/
theorem feed_not_mem_quote (text : String) : '\n' ∉ (quote text).toList := by
  simp [toList_quote, feed_not_mem_escape]

/-- Quoted text is read back, whatever follows it. -/
theorem scan?_quote (text : String) (r : List Char) (p : Position) :
    scan? ⟨(quote text).toList ++ r, p⟩ = some (text, ⟨r, p.advance (quote text).toList⟩) := by
  have hbody : ∀ cs p, body? '\'' (cs.flatMap escape ++ '\'' :: r) p =
      some (cs, ⟨r, p.advance (cs.flatMap escape ++ ['\''])⟩) := by
    intro cs
    induction cs with
    | nil =>
      intro p
      simp [body?]
    | cons c cs ih =>
      intro p
      rw [List.flatMap_cons, List.append_assoc, body?_escape, ih, List.append_assoc,
        Position.advance_append _ (escape c)]
      rfl
  rw [toList_quote_append, toList_quote]
  simp [scan?, hbody]

end Quoted

end BranchPaint
