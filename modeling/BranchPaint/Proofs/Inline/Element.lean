import BranchPaint.Proofs.Inline.Node
import BranchPaint.Proofs.Number.Whole
import BranchPaint.Value.Evaluate

/-!
# Elements picked by their text

Inlining picks an element of a bound list by the texts of the object and of the index. For trees as
they are read the text says enough (`Scope.element?_inv`): the object can only be the name that the
list is bound to, and the index can only be a number, perhaps behind a plus sign, whose value is the
index that was picked.

The reason is that the text of every expression with parts contains a mark that belongs to no word
and to no index, with few exceptions (`Expr.text_cases`). Of any tree at all, as it is read or not,
the text is an index only if the tree is a number, a name, or one of these with a plus sign or alone
in a sequence (`Expr.index_cases`).
-/

namespace BranchPaint

/-! ## Texts made of word characters -/

namespace Expr

/-- The text of two or more items has a comma. -/
theorem mem_toList_intercalate {t u : String} {ts : List String} :
    ',' ∈ (", ".intercalate (t :: u :: ts)).toList := by
  rw [String.intercalate_cons_cons]
  simp

/-- Marks that stand in no word, no number and no index. -/
def marks : List Char := ['[', '.', '(', ' ', ',', '!', '-', '~']

/-- The text of an expression with parts contains a mark, two kinds of expression with a plus sign
and the sequence of a single expression apart. -/
theorem text_cases (e : Expr) :
    (∃ c ∈ marks, c ∈ e.text.toList) ∨ e.children = [] ∨ (∃ a s, e = .unary .plus a s) ∨
      (∃ before a s, e = .update .increment before a s) ∨ ∃ a s, e = .sequence [a] s := by
  cases e with
  | list es s => exact .inl ⟨'[', by decide, by simp [text]⟩
  | member o p computed s =>
    cases computed
    · exact .inl ⟨'.', by decide, by simp [text]⟩
    · exact .inl ⟨'[', by decide, by simp [text]⟩
  | call f args s => exact .inl ⟨'(', by decide, by simp [text]⟩
  | binary op l r s => exact .inl ⟨' ', by decide, by simp [text]⟩
  | logical op l r s => exact .inl ⟨' ', by decide, by simp [text]⟩
  | assign op t v s => exact .inl ⟨' ', by decide, by simp [text]⟩
  | ternary c t e s => exact .inl ⟨' ', by decide, by simp [text]⟩
  | unary op a s =>
    cases op with
    | not => exact .inl ⟨'!', by decide, by simp [text, UnaryOp.text]⟩
    | neg => exact .inl ⟨'-', by decide, by simp [text, UnaryOp.text]⟩
    | plus => exact .inr (.inr (.inl ⟨a, s, rfl⟩))
    | bitNot => exact .inl ⟨'~', by decide, by simp [text, UnaryOp.text]⟩
    | typeOf => exact .inl ⟨' ', by decide, by simp [text, UnaryOp.gap]⟩
  | update op before a s =>
    cases op with
    | increment => exact .inr (.inr (.inr (.inl ⟨before, a, s, rfl⟩)))
    | decrement => exact .inl ⟨'-', by decide, by cases before <;> simp [text, UpdateOp.text]⟩
  | sequence es s =>
    rcases es with _ | ⟨a, _ | ⟨b, cs⟩⟩
    · exact .inr (.inl rfl)
    · exact .inr (.inr (.inr (.inr ⟨a, s, rfl⟩)))
    · exact .inl ⟨',', by decide, mem_toList_intercalate⟩
  | bool v s => exact .inr (.inl rfl)
  | num v s => exact .inr (.inl rfl)
  | str v s => exact .inr (.inl rfl)
  | null s => exact .inr (.inl rfl)
  | ident n s => exact .inr (.inl rfl)

/-- A mark is no part of a word. -/
theorem isWordChar_of_mem_marks {c : Char} (h : c ∈ marks) : isWordChar c = false := by
  have hall : marks.all (fun c => !isWordChar c) = true := by decide
  simpa using List.all_eq_true.1 hall c h

/-- An expression whose text is made of word characters has no parts. -/
theorem children_eq_nil_of_text {e : Expr} (hformed : e.Formed)
    (h : ∀ c ∈ e.text.toList, isWordChar c) : e.children = [] := by
  have hplus : '+' ∉ e.text.toList := by
    intro hmem
    cases h '+' hmem
  rcases e.text_cases with ⟨c, hc, hmem⟩ | hnil | ⟨a, s, rfl⟩ | ⟨before, a, s, rfl⟩ | ⟨a, s, rfl⟩
  · have hword := h c hmem
    rw [isWordChar_of_mem_marks hc] at hword
    cases hword
  · exact hnil
  · exact absurd (by simp [text, UnaryOp.text]) hplus
  · exact absurd (by cases before <;> simp [text, UpdateOp.text]) hplus
  · exact absurd hformed (Nat.not_succ_le_self 1)

/-- An expression whose text is a name is that name. -/
theorem eq_ident_of_text {e : Expr} (he : e.Readable) {n : String} (hn : IsIdentifier n)
    (h : e.text = n) : ∃ s, e = .ident n s := by
  obtain ⟨⟨c, cs, hchars, hstart, hcs⟩, hreserved⟩ := hn
  have htext : e.text.toList = c :: cs := by rw [h, hchars]
  have hword : ∀ d ∈ e.text.toList, isWordChar d := by
    rw [htext]
    exact List.forall_mem_cons.2 ⟨isWordChar_of_isWordStart hstart, hcs⟩
  have hnil := children_eq_nil_of_text he.1 hword
  cases e with
  | ident m s => exact ⟨s, by rw [← h]; rfl⟩
  | num v s =>
    obtain ⟨d, r, hd, hdigit⟩ := head_numberText (isLiteral_of_isUnsigned he.1 he.2)
    have : d :: r = c :: cs := hd.symm.trans htext
    cases this
    rw [isWordStart_of_isDigit hdigit] at hstart
    cases hstart
  | str v s =>
    have : '\'' :: (v.toList.flatMap Quoted.escape ++ ['\'']) = c :: cs :=
      (Quoted.toList_quote v).symm.trans htext
    cases this
    cases hstart
  | bool v s =>
    cases v
    · exact absurd (by rw [← h]; simp [text, reservedWords]) hreserved
    · exact absurd (by rw [← h]; simp [text, reservedWords]) hreserved
  | null s => exact absurd (by rw [← h]; simp [text, reservedWords]) hreserved
  | member o p computed s => cases computed <;> cases hnil
  | list es s =>
    have : '[' ∈ (list es s).text.toList := by simp [text]
    cases hword '[' this
  | sequence es s =>
    have hes : es = [] := hnil
    subst hes
    cases htext
  | call f args s => cases hnil
  | binary op l r s => cases hnil
  | logical op l r s => cases hnil
  | unary op a s => cases hnil
  | update op before a s => cases hnil
  | assign op t v s => cases hnil
  | ternary c t e s => cases hnil

/-! ## Texts that are indices -/

section texts

variable {text : String} {i : Nat}

/-- Without a plus sign an index is its digits. -/
theorem indexOfText?_of_head (h : text.toList.head? ≠ some '+') :
    indexOfText? text = indexOfDigits? text.toList := by
  unfold indexOfText?
  split
  · rename_i ds htext
    exact absurd (by rw [htext]; rfl) h
  · rfl

/-- Digits do not start with a plus sign. -/
theorem head_of_indexOfDigits? (h : indexOfDigits? text.toList = some i) :
    text.toList.head? ≠ some '+' := by
  intro hhead
  cases (digits_of_indexOfDigits? h).2 '+' (List.mem_of_mem_head? hhead)

/-- Digits are an index text. -/
theorem indexOfText?_of_digits (h : indexOfDigits? text.toList = some i) :
    indexOfText? text = some i := by
  rw [indexOfText?_of_head (head_of_indexOfDigits? h), h]

/-- An index text is made of digits, with a plus sign in front of them or not. -/
theorem digits_of_indexOfText? (h : indexOfText? text = some i) :
    ∃ ds, indexOfDigits? ds = some i ∧ (text.toList = ds ∨ text.toList = '+' :: ds) := by
  unfold indexOfText? at h
  split at h
  · rename_i ds htext
    exact ⟨ds, h, .inr htext⟩
  · exact ⟨_, h, .inl rfl⟩

/-- No other characters stand in an index text. -/
theorem not_mem_of_index (h : indexOfText? text = some i) {c : Char} (hdigit : c.isDigit = false)
    (hplus : c ≠ '+') : c ∉ text.toList := by
  intro hmem
  obtain ⟨ds, hds, htext⟩ := digits_of_indexOfText? h
  have hc : c ∈ ds := by
    rcases htext with htext | htext
    · rwa [htext] at hmem
    · rw [htext] at hmem
      exact (List.mem_cons.1 hmem).resolve_left hplus
  rw [(digits_of_indexOfDigits? hds).2 c hc] at hdigit
  cases hdigit

/-- The text of a number does not start with a plus sign. -/
theorem head_numberText_ne (x : Float) : (numberText x).toList.head? ≠ some '+' := by
  have hdigits (bits : Nat) : (Decimal.textOfBits bits).toList.head? ≠ some '+' := by
    obtain ⟨c, r, hc, hdigit⟩ := Decimal.head_positional (Decimal.trimZeros
        (Decimal.digitCount (Decimal.shortest bits).digits) (Decimal.shortest bits))
    have htext : (Decimal.textOfBits bits).toList = c :: r := hc
    rw [htext]
    rintro hhead
    cases hhead
    cases hdigit
  unfold numberText
  split
  · decide
  · dsimp only
    split
    · decide
    · cases Double.isNegative x with
      | true =>
        split
        · decide
        · simp
      | false =>
        split
        · decide
        · simpa using hdigits (Double.magnitudeBits x)

end texts

/-- An index is not in parentheses. -/
theorem parens_of_index {wanted : Bool} {t : String} {i : Nat}
    (h : indexOfText? (parens wanted t) = some i) : parens wanted t = t := by
  cases wanted with
  | false => rfl
  | true => exact absurd (by simp [parens]) (not_mem_of_index h (c := '(') (by decide) (by decide))

/-- Behind a plus sign stand bare digits, since neither a blank nor a parenthesis is a digit. -/
theorem digits_of_plus {a : Expr} {s : Span} {i : Nat}
    (h : indexOfText? (unary .plus a s).text = some i) : indexOfDigits? a.text.toList = some i := by
  have htext : (unary .plus a s).text.toList =
      '+' :: ((UnaryOp.gap .plus (a.textAt Precedence.unary)).toList ++
        (a.textAt Precedence.unary).toList) := by
    simp [text, textAt, UnaryOp.text]
  have hgap : UnaryOp.gap .plus (a.textAt Precedence.unary) = "" := by
    have hblank := not_mem_of_index h (c := ' ') (by decide) (by decide)
    rcases UnaryOp.gap_cases .plus (a.textAt Precedence.unary) with hgap | hgap
    · rw [htext, hgap] at hblank
      exact absurd (by simp) hblank
    · exact hgap
  have hdigits : indexOfDigits? (a.textAt Precedence.unary).toList = some i := by
    rw [hgap] at htext
    unfold indexOfText? at h
    rw [htext] at h
    exact h
  have hbare : a.textAt Precedence.unary = a.text :=
    parens_of_index (indexOfText?_of_digits hdigits)
  rwa [← hbare]

/-- Two plus signs are one too many. -/
theorem not_index_of_increment (before : Bool) (a : Expr) (s : Span) (i : Nat) :
    indexOfText? (update .increment before a s).text ≠ some i := by
  intro h
  obtain ⟨ds, hds, htext⟩ := digits_of_indexOfText? h
  have hplus : '+' ∉ ds := fun hmem => by cases (digits_of_indexOfDigits? hds).2 '+' hmem
  have htwo : 2 ≤ (update .increment before a s).text.toList.count '+' := by
    cases before
    all_goals simp [text, UpdateOp.text, List.count_append]
  rcases htext with htext | htext
  all_goals
    rw [htext] at htwo
    simp [List.count_eq_zero.2 hplus] at htwo

/-- What an expression can be whose text is an index. -/
theorem index_cases {e : Expr} {i : Nat} (h : indexOfText? e.text = some i) :
    (∃ x s, e = .num x s ∧ indexOfDigits? (numberText x).toList = some i) ∨
      (∃ n s, e = .ident n s) ∨
      (∃ a s, e = .unary .plus a s ∧ indexOfDigits? a.text.toList = some i) ∨
      ∃ a s, e = .sequence [a] s ∧ indexOfText? a.text = some i := by
  rcases e.text_cases with ⟨c, hc, hmem⟩ | hnil | ⟨a, s, rfl⟩ | ⟨before, a, s, rfl⟩ | ⟨a, s, rfl⟩
  · have hall : marks.all (fun c => !c.isDigit && c != '+') = true := by decide
    obtain ⟨hdigit, hplus⟩ : c.isDigit = false ∧ c ≠ '+' := by
      simpa using List.all_eq_true.1 hall c hc
    exact absurd hmem (not_mem_of_index h hdigit hplus)
  · cases e with
    | num x s => exact .inl ⟨x, s, rfl, by rwa [← indexOfText?_of_head (head_numberText_ne x)]⟩
    | ident n s => exact .inr (.inl ⟨n, s, rfl⟩)
    | str v s =>
      exact absurd (by simp [text, Quoted.quote])
        (not_mem_of_index h (c := '\'') (by decide) (by decide))
    | bool v s =>
      refine absurd ?_ (not_mem_of_index h (c := 'e') (by decide) (by decide))
      cases v
      · exact (by decide : 'e' ∈ "false".toList)
      · exact (by decide : 'e' ∈ "true".toList)
    | null s =>
      exact absurd (by decide : 'n' ∈ "null".toList) (not_mem_of_index h (by decide) (by decide))
    | list es s =>
      exact absurd (by simp [text]) (not_mem_of_index h (c := '[') (by decide) (by decide))
    | sequence es s =>
      obtain rfl : es = [] := hnil
      cases h
    | member o p computed s => cases computed <;> cases hnil
    | _ => cases hnil
  · exact .inr (.inr (.inl ⟨a, s, rfl, digits_of_plus h⟩))
  · exact absurd h (not_index_of_increment before a s i)
  · have hbare : a.textAt Precedence.assignment = a.text := parens_of_index h
    exact .inr (.inr (.inr ⟨a, s, rfl, by rwa [← hbare]⟩))

/-- A name is no index. -/
theorem not_index_of_isIdentifier {n : String} (hn : IsIdentifier n) : indexOfText? n = none := by
  cases h : indexOfText? n with
  | none => rfl
  | some i =>
    obtain ⟨⟨c, cs, hchars, hstart, -⟩, -⟩ := hn
    have hc : c.isDigit = false ∧ c ≠ '+' := by
      refine ⟨?_, ne_of_class hstart (by decide)⟩
      cases hdigit : c.isDigit with
      | false => rfl
      | true =>
        rw [isWordStart_of_isDigit hdigit] at hstart
        cases hstart
    exact absurd (by rw [hchars]; exact List.mem_cons_self) (not_mem_of_index h hc.1 hc.2)

/-- An expression as it is read whose text is an index is a number, perhaps behind a plus sign. -/
theorem eq_num_of_index {e : Expr} (he : e.Forall Formed) {i : Nat}
    (h : indexOfText? e.text = some i) :
    ∃ x s, indexOfDigits? (numberText x).toList = some i ∧
      (e = .num x s ∨ ∃ s', e = .unary .plus (.num x s) s') := by
  have hname {n : String} {s : Span} (hn : (ident n s).Formed) :
      indexOfText? (ident n s).text ≠ some i := by
    rw [show (ident n s).text = n from rfl, not_index_of_isIdentifier hn]
    exact nofun
  rcases index_cases h with ⟨x, s, rfl, hx⟩ | ⟨n, s, rfl⟩ | ⟨a, s, rfl, ha⟩ | ⟨a, s, rfl, -⟩
  · exact ⟨x, s, hx, .inl rfl⟩
  · exact absurd h (hname he.here)
  · have hformed := he.inside a List.mem_cons_self
    rcases index_cases (indexOfText?_of_digits ha) with
      ⟨x, s', rfl, hx⟩ | ⟨n, s', rfl⟩ | ⟨b, s', rfl, -⟩ | ⟨b, s', rfl, -⟩
    · exact ⟨x, s', hx, .inr ⟨s, rfl⟩⟩
    · exact absurd (indexOfText?_of_digits ha) (hname hformed.here)
    · exact absurd (by simp [text, UnaryOp.text]) (head_of_indexOfDigits? ha)
    · exact absurd hformed.here (Nat.not_succ_le_self 1)
  · exact absurd he.here (Nat.not_succ_le_self 1)

/-- Such an expression evaluates to a number with that index, whatever the names stand for. -/
theorem evalWith_of_index {e : Expr} (he : e.Forall Formed) {i : Nat}
    (h : indexOfText? e.text = some i) (hi : i < 2 ^ 53) :
    ∃ x, (Value.num x).index? = some i ∧ ∀ names, e.evalWith names = .ok (.num x) := by
  obtain ⟨x, s, hdigits, rfl | ⟨s', rfl⟩⟩ := eq_num_of_index he h
  · exact ⟨x, Value.index?_of_numberText hdigits hi, fun _ => rfl⟩
  · exact ⟨x, Value.index?_of_numberText hdigits hi, fun _ => rfl⟩

end Expr

/-! ## Elements of bound lists -/

/-- Only names are bound. -/
def Scope.Named (scope : Scope) : Prop := ∀ x ∈ scope.entries, IsIdentifier x.1

namespace Scope

variable {scope : Scope}

/-- Binding a name keeps all bound names identifiers. -/
theorem Named.bind (h : scope.Named) {n : String} (hn : IsIdentifier n) (e : Expr) :
    (scope.bind n e).Named :=
  List.forall_mem_cons.2 ⟨hn, h⟩

/-- So does binding parameters to themselves. -/
theorem Named.bindOpaque (h : scope.Named) {names : List String}
    (hnames : ∀ n ∈ names, IsIdentifier n) : (scope.bindOpaque names).Named := by
  induction names generalizing scope with
  | nil => exact h
  | cons n names ih =>
    obtain ⟨hn, hnames⟩ := List.forall_mem_cons.1 hnames
    exact ih (h.bind hn (.name n)) hnames

/-- An element that is picked by text belongs to the list that the object names, at the index that
the property's text names. -/
theorem element?_inv (hscope : scope.Named) {o p e : Expr} (ho : o.Readable)
    (h : scope.element? o.text p.text = some e) :
    ∃ n s es s' i, o = .ident n s ∧ scope.lookup? n = some (.list es s') ∧ es[i]? = some e ∧
      indexOfText? p.text = some i := by
  obtain ⟨es, s', i, hlookup, hi, hget⟩ := element?_eq_some h
  obtain ⟨s, hident⟩ := Expr.eq_ident_of_text ho (hscope _ (mem_entries_of_lookup? hlookup)) rfl
  exact ⟨o.text, s, es, s', i, hident, hlookup, hget, hi⟩

end Scope

end BranchPaint
