import BranchPaint.Proofs.Grammar.Lexeme
import BranchPaint.Proofs.Settings.Documented
import BranchPaint.Settings.Library

/-!
# Plain files are read and written

A plain file in TOML is read as its sections (`Toml.layer?_of_denotes`), and sections that are plain
are written as such a file (`Toml.exists_sectionsText?`). Texts in it hold no double quotes, no
backslashes and no control characters. Anything else may stand in them, also what would mean
something outside of quotes: brackets, equals signs, number signs, digits, words for truth values.

A file is read line by line. What a line says does not depend on the lines behind it
(`Reading.run_header`, `Reading.run_assign`), so each line is read on its own, and its value with a
line feed behind it (`Writes`). The lines of a section and the sections of a file follow by
induction.
-/

namespace BranchPaint.Toml

/-! ## Names and keys -/

/-- A name that needs no quotes. -/
def IsName (name : String) : Prop := name.toList ≠ [] ∧ ∀ c ∈ name.toList, isNameChar c = true

/-- A small name needs no quotes. -/
theorem IsName.of_small {name : String} (h : IsSmallName name) : IsName name := by
  refine ⟨h.1, fun c hc => ?_⟩
  have hsmall := h.2 c hc
  simp only [Bool.or_eq_true, decide_eq_true_eq] at hsmall
  rcases hsmall with hlower | rfl
  · simp [isNameChar, Char.isAlphanum, Char.isAlpha, hlower]
  · decide

/-- A character of a name is no blank. -/
theorem isGap_of_isNameChar {c : Char} (hc : isNameChar c = true) : isGap c = false := by
  simp [isGap, ne_of_class hc (by decide : isNameChar ' ' = false),
    ne_of_class hc (by decide : isNameChar '\t' = false)]

/-- A name has a first character. -/
theorem IsName.exists_cons {name : String} (h : IsName name) :
    ∃ c cs, name.toList = c :: cs ∧ isNameChar c = true := by
  obtain ⟨hne, hall⟩ := h
  cases hcs : name.toList with
  | nil => exact absurd hcs hne
  | cons c cs => exact ⟨c, cs, rfl, hall c (hcs ▸ List.mem_cons_self)⟩

/-- What is taken while characters are of a kind ends where the kind does. -/
theorem takeWhile_append_cons {p : Char → Bool} {cs : List Char} (hcs : ∀ c ∈ cs, p c = true)
    {d : Char} (hd : p d = false) (r : List Char) :
    (cs ++ d :: r).takeWhile p = cs ∧ (cs ++ d :: r).dropWhile p = d :: r := by
  constructor
  · rw [List.takeWhile_append_of_pos hcs, List.takeWhile_cons_of_neg (by simp [hd]),
      List.append_nil]
  · rw [List.dropWhile_append_of_pos hcs, List.dropWhile_cons_of_neg (by simp [hd])]

/-- A name is read up to the first character that does not belong to it. -/
theorem name?_append {name : String} (h : IsName name) {d : Char} (hd : isNameChar d = false)
    (r : List Char) : name? (name.toList ++ d :: r) = some (name, d :: r) := by
  obtain ⟨htake, hdrop⟩ := takeWhile_append_cons h.2 hd r
  obtain ⟨c, cs, hname, hc⟩ := h.exists_cons
  have hhead : (name.toList ++ d :: r).head? = some c := by
    rw [hname]
    rfl
  have hquote : ¬ (some c = some '"' || some c = some '\'') = true := by
    simp [ne_of_class hc (by decide : isNameChar '"' = false),
      ne_of_class hc (by decide : isNameChar '\'' = false)]
  unfold name?
  rw [htake, hdrop, hhead, if_neg hquote, if_neg (by simp [hname]), String.ofList_toList]

/-- A key of one name is read up to what follows it, which goes on with no dot. -/
theorem key?_append {name : String} (h : IsName name) {d : Char} (hd : isNameChar d = false)
    {r : List Char} (hdot : ((d :: r).dropWhile isGap).head? ≠ some '.') :
    key? (name.toList ++ d :: r) = some ([name], (d :: r).dropWhile isGap) := by
  obtain ⟨c, cs, hname, hc⟩ := h.exists_cons
  have hgap : (name.toList ++ d :: r).dropWhile isGap = name.toList ++ d :: r := by
    rw [hname, List.cons_append, List.dropWhile_cons_of_neg (by simp [isGap_of_isNameChar hc])]
  have hnames (n : Nat) :
      names? (n + 1) (name.toList ++ d :: r) = some ([name], (d :: r).dropWhile isGap) := by
    rw [names?, hgap, name?_append h hd]
    simp only [Option.bind_some]
    split
    · rename_i r' heq
      rw [heq] at hdot
      exact absurd rfl hdot
    · rfl
  rw [key?, hnames]
  rfl

/-! ## Statements -/

/-- A name in brackets is a header. -/
theorem statement?_header {name : String} (h : IsName name) (r : List Char) :
    statement? ('[' :: (name.toList ++ ']' :: r)) = some (.table [name], r) := by
  have hkey := key?_append h (by decide : isNameChar ']' = false) (r := r) (by simp [isGap])
  obtain ⟨c, cs, hname, hc⟩ := h.exists_cons
  have hopen : c ≠ '[' := ne_of_class hc (by decide)
  rw [hname] at hkey ⊢
  simp only [List.cons_append] at hkey ⊢
  unfold statement?
  split
  · rename_i heq
    cases heq
    exact absurd rfl hopen
  · rename_i heq
    cases heq
    rw [hkey]
    rfl
  · rename_i hnot
    exact absurd rfl (hnot _)

/-- A name with an equals sign and a value behind it sets a key. -/
theorem statement?_assign {name : String} (h : IsName name) {value r : List Char} {v : SettingTree}
    (hgap : (value ++ r).dropWhile isGap = value ++ r)
    (hvalue : value? (depthLimit - 1) (value ++ r) = some (v, r)) :
    statement? (name.toList ++ ' ' :: '=' :: ' ' :: (value ++ r)) = some (.assign [name] v, r) := by
  have hkey := key?_append h (by decide : isNameChar ' ' = false)
    (r := '=' :: ' ' :: (value ++ r)) (by simp [isGap])
  obtain ⟨c, cs, hname, hc⟩ := h.exists_cons
  have hopen : c ≠ '[' := ne_of_class hc (by decide)
  have hpair : pair? (value? (depthLimit - 1)) (name.toList ++ ' ' :: '=' :: ' ' :: (value ++ r)) =
      some (([name], v), r) := by
    have hitem : (' ' :: (value ++ r)).dropWhile isGap = value ++ r := hgap
    have hequals : (' ' :: '=' :: ' ' :: (value ++ r)).dropWhile isGap =
        '=' :: ' ' :: (value ++ r) := rfl
    rw [pair?, hkey, hequals]
    simp only [Option.bind_some, hitem, hvalue, Option.map_some]
  unfold statement?
  split
  · rename_i r' heq
    rw [hname] at heq
    exact absurd (List.cons.inj heq).1 hopen
  · rename_i r' heq
    rw [hname] at heq
    exact absurd (List.cons.inj heq).1 hopen
  · rw [hpair]
    rfl

/-! ## Values -/

/-- What starts no list and no table is a text or a word. -/
theorem value?_cons {c : Char} (hlist : c ≠ '[') (htable : c ≠ '\x7b') (n : Nat) (r : List Char) :
    value? n (c :: r) = plain? (c :: r) := by
  unfold value?
  split
  · rename_i heq
    exact absurd (List.cons.inj heq).1 hlist
  · rename_i heq
    exact absurd (List.cons.inj heq).1 htable
  · rfl

/-- The text at the end of a line is read as the value, and no blank stands in front of it. -/
def Writes (text : List Char) (v : SettingTree) : Prop :=
  ∀ r, (text ++ '\n' :: r).dropWhile isGap = text ++ '\n' :: r ∧
    ∀ n, value? n (text ++ '\n' :: r) = some (v, '\n' :: r)

/-- A text or a word that is read as a value in front of a line feed writes that value. -/
theorem Writes.of_cons {c : Char} {cs : List Char} {v : SettingTree} (hgap : isGap c = false)
    (hlist : c ≠ '[') (htable : c ≠ '\x7b')
    (h : ∀ r, plain? (c :: (cs ++ '\n' :: r)) = some (v, '\n' :: r)) : Writes (c :: cs) v := by
  intro r
  rw [List.cons_append]
  exact ⟨List.dropWhile_cons_of_neg (by simp [hgap]),
    fun n => (value?_cons hlist htable n _).trans (h r)⟩

/-- A plain character is no control character. -/
theorem isControl_of_isPlainChar {c : Char} (hc : isPlainChar c = true) : isControl c = false := by
  simp only [isPlainChar, Bool.and_eq_true, decide_eq_true_eq] at hc
  obtain ⟨⟨⟨-, -⟩, hlow⟩, hdel⟩ := hc
  simp [isControl, hdel, Nat.not_lt.2 hlow]

/-- A plain text is read up to the quote that closes it, whichever quote that is. -/
theorem oneLine?_of_isPlain {mark : Char} {cs : List Char} (hcs : ∀ c ∈ cs, isPlainChar c = true)
    (hmark : mark ∉ cs) (escapes : Bool) {n : Nat} (hn : cs.length < n) (r : List Char) :
    oneLine? mark escapes n (cs ++ mark :: r) = some (cs, r) := by
  induction cs generalizing n with
  | nil =>
    obtain ⟨m, rfl⟩ := Nat.exists_eq_add_of_lt hn
    simp [oneLine?]
  | cons c cs ih =>
    obtain ⟨hc, hcs⟩ := List.forall_mem_cons.1 hcs
    obtain ⟨hne, hmark⟩ := not_or.1 (mt List.mem_cons.2 hmark)
    obtain ⟨m, rfl⟩ := Nat.exists_eq_add_of_lt hn
    have hrest := ih hcs hmark (Nat.lt_add_right m (Nat.lt_succ_self cs.length))
    simp only [List.length_cons] at hrest ⊢
    simp [oneLine?, Ne.symm hne, isControl_of_isPlainChar hc,
      ne_of_class hc (by decide : isPlainChar '\\' = false), hrest]

/-- A plain text between quotes is read as it is. -/
theorem writes_between {mark : Char} (hquote : mark = '"' ∨ mark = '\'') {s : String}
    (hs : IsPlain s) (hmark : mark ∉ s.toList) : Writes (between mark s) (.scalar (.text s)) := by
  have hmarks : (mark = '"' || mark = '\'') = true := by simpa using hquote
  have hfeed : '\n' ≠ mark := by
    rcases hquote with rfl | rfl
    all_goals decide
  have hline (r : List Char) :
      lineText? (mark :: (s.toList ++ mark :: '\n' :: r)) = some (s, '\n' :: r) := by
    have hone := oneLine?_of_isPlain hs hmark (decide (mark = '"'))
      (n := (s.toList ++ mark :: '\n' :: r).length + 1) (by simp) ('\n' :: r)
    simp only [lineText?, hmarks, if_true, hone, Option.map_some, String.ofList_toList]
  have htext (r : List Char) :
      text? (mark :: (s.toList ++ mark :: '\n' :: r)) = some (s, '\n' :: r) := by
    rw [← hline]
    -- three quotes in a row would open a text of several lines; the empty text has two, and a line
    -- feed behind them
    cases hcs : s.toList with
    | nil => simp [text?, hfeed]
    | cons c cs =>
      have hc : c ≠ mark := fun h => hmark (hcs ▸ h ▸ List.mem_cons_self)
      unfold text?
      split
      · rename_i heq
        obtain ⟨ha, heq⟩ := List.cons.inj heq
        obtain ⟨rfl, -⟩ := List.cons.inj heq
        rw [← ha]
        exact if_neg (by simp [hc])
      · rfl
  have hhead : isGap mark = false ∧ mark ≠ '[' ∧ mark ≠ '\x7b' := by
    rcases hquote with rfl | rfl
    all_goals decide
  refine .of_cons hhead.1 hhead.2.1 hhead.2.2 fun r => ?_
  rw [List.append_assoc, List.cons_append, List.nil_append, plain?, htext, List.head?_cons]
  exact if_pos (by simpa using hquote)

/-! ## Words -/

/-- A word is read whole. -/
theorem writes_word {cs : List Char} {v : Scalar} (hne : cs ≠ []) (hword : cs.all isWordChar = true)
    (hv : scalarOfWord? cs = some v) : Writes cs (.scalar v) := by
  obtain ⟨c, cs, rfl⟩ := List.exists_cons_of_ne_nil hne
  rw [List.all_eq_true] at hword
  have hother : ∀ d, isWordChar d = false → c ≠ d := fun d =>
    ne_of_class (hword c List.mem_cons_self)
  have hgap : isGap c = false := by simp [isGap, hother ' ' (by decide), hother '\t' (by decide)]
  refine .of_cons hgap (hother _ (by decide)) (hother _ (by decide)) fun r => ?_
  have hwhole : word (c :: (cs ++ '\n' :: r)) = (c :: cs, '\n' :: r) := by
    obtain ⟨htake, hdrop⟩ := takeWhile_append_cons hword (by decide : isWordChar '\n' = false) r
    rw [List.cons_append] at htake hdrop
    rw [word, htake, hdrop]
    rfl
  have hquote : ¬ ((c :: (cs ++ '\n' :: r)).head? = some '"' ||
      (c :: (cs ++ '\n' :: r)).head? = some '\'') = true := by
    simp [hother '"' (by decide), hother '\'' (by decide)]
  rw [plain?, if_neg hquote, hwhole, hv]
  rfl

/-- The words for truth values are read as such. -/
theorem writes_boolean (b : Bool) :
    Writes (if b then "true" else "false").toList (.scalar (.boolean b)) := by
  cases b
  all_goals exact writes_word (by decide) (by decide) rfl

/-! ## Integers -/

/-- A decimal digit is read as its value. -/
theorem digit?_of_isDigit {c : Char} (hc : c.isDigit = true) :
    digit? 10 c = some (c.toNat - '0'.toNat) := by
  have hbounds := hc
  simp only [Char.isDigit, Bool.and_eq_true, decide_eq_true_eq, ge_iff_le, UInt32.le_iff_toNat_le]
    at hbounds
  have hlt : c.toNat - '0'.toNat < 10 := by
    have hzero : '0'.toNat = 48 := rfl
    have hnine : c.val.toNat ≤ 57 := hbounds.2
    rw [hzero]
    exact Nat.sub_lt_right_of_lt_add hbounds.1 (Nat.lt_succ_of_le hnine)
  simp only [digit?, hc, if_true, hlt]

/-- Digits are read as the number that they are. -/
theorem number?_of_isDigit {ds : List Char} (hds : ∀ c ∈ ds, c.isDigit = true) :
    number? 10 ds = some (Decimal.ofDigits ds) := by
  have hfold : ∀ (ds : List Char) (n : Nat), (∀ c ∈ ds, c.isDigit = true) →
      ds.foldl (fun n? c => n?.bind fun n => (digit? 10 c).map (10 * n + ·)) (some n) =
        some (Nat.ofDigitChars 10 ds n) := by
    intro ds
    induction ds with
    | nil => exact fun _ _ => rfl
    | cons c ds ih =>
      intro n h
      obtain ⟨hc, hds⟩ := List.forall_mem_cons.1 h
      rw [List.foldl_cons, Option.bind_some, digit?_of_isDigit hc, Option.map_some, ih _ hds,
        Nat.ofDigitChars_cons]
  exact hfold ds 0 hds

/-- Digits without underscores stay as they are. -/
theorem ungroup_of_isDigit {ds : List Char} (hds : ∀ c ∈ ds, c.isDigit = true) :
    ungroup true ds = some ds := by
  induction ds with
  | nil => rfl
  | cons c ds ih =>
    obtain ⟨hc, hds⟩ := List.forall_mem_cons.1 hds
    have hne : c ≠ '_' := by
      rintro rfl
      cases hc
    rw [ungroup, if_neg hne, ih hds]
    rfl

/-- A number does not start with a zero, unless it is zero. -/
theorem head?_toDigits {n : Nat} (hn : 0 < n) : (Nat.toDigits 10 n).head? ≠ some '0' := by
  induction n using Nat.strongRecOn with
  | ind n ih =>
  rw [Nat.toDigits_eq_if (by decide)]
  split
  · rename_i hlt
    have hdigit : ∀ m < 10, 0 < m → Nat.digitChar m ≠ '0' := by decide
    exact fun h => hdigit n hlt hn (Option.some.inj h)
  · rename_i hge
    have hquotient := ih (n / 10) (Nat.div_lt_self hn (by decide))
      (Nat.div_pos (Nat.not_lt.1 hge) (by decide))
    obtain ⟨c, cs, hcs⟩ := List.exists_cons_of_ne_nil (@Nat.toDigits_ne_nil (n / 10) 10)
    rw [hcs] at hquotient ⊢
    exact hquotient

/-- The digits of a number are read as the number. -/
theorem decimal?_toDigits (n : Nat) : decimal? (Nat.toDigits 10 n) = some n := by
  have hdigits := Decimal.isDigit_toDigits n
  have hungroup : ungroup false (Nat.toDigits 10 n) = some (Nat.toDigits 10 n) := by
    obtain ⟨c, cs, hcs⟩ := List.exists_cons_of_ne_nil (@Nat.toDigits_ne_nil n 10)
    have hwhole := ungroup_of_isDigit hdigits
    rw [hcs] at hwhole ⊢
    have hne : c ≠ '_' := by
      rintro rfl
      exact absurd (hdigits _ (hcs ▸ List.mem_cons_self)) (by decide)
    rw [ungroup, if_neg hne] at hwhole ⊢
    exact hwhole
  have hlead : ¬ (1 < (Nat.toDigits 10 n).length && (Nat.toDigits 10 n).head? = some '0') =
      true := by
    rcases Nat.eq_zero_or_pos n with rfl | hn
    · decide
    · simp [head?_toDigits hn]
  rw [decimal?, hungroup, Option.bind_some, if_neg hlead, number?_of_isDigit hdigits,
    Decimal.ofDigits_toDigits]

/-- An integer that fits is read back from its digits. -/
theorem integer?_toDigits {n : Nat} (hn : n < Nat.pow 2 63) :
    integer? (Nat.toDigits 10 n) = some (n : Int) := by
  have hdigits := Decimal.isDigit_toDigits n
  have hnot : ∀ {d : Char}, d.isDigit = false → d ∉ Nat.toDigits 10 n := fun hd hmem =>
    ne_of_class (hdigits _ hmem) hd rfl
  have hdecimal := decimal?_toDigits n
  have hfits : (some n).filter (fun m => decide (m ≤ Nat.pow 2 63 - 1)) = some n :=
    Option.filter_some_pos (decide_eq_true (Nat.le_pred_of_lt hn))
  unfold integer?
  generalize Nat.toDigits 10 n = ds at hnot hdecimal ⊢
  split
  · exact absurd (by simp) (hnot (by decide : 'x'.isDigit = false))
  · exact absurd (by simp) (hnot (by decide : 'o'.isDigit = false))
  · exact absurd (by simp) (hnot (by decide : 'b'.isDigit = false))
  · exact absurd (by simp) (hnot (by decide : '-'.isDigit = false))
  · exact absurd (by simp) (hnot (by decide : '+'.isDigit = false))
  · simp only [hdecimal, hfits]
    rfl

/-- An integer that fits is read back. -/
theorem writes_integer {i : Nat} (hi : i < Nat.pow 2 63) :
    Writes (toString i).toList (.scalar (.integer i)) := by
  have hdigits := Decimal.isDigit_toDigits i
  have hnot : ∀ {w : List Char} {d : Char}, d ∈ w → d.isDigit = false →
      Nat.toDigits 10 i ≠ w := by
    rintro w d hmem hd rfl
    exact ne_of_class (hdigits d hmem) hd rfl
  have hscalar : scalarOfWord? (Nat.toDigits 10 i) = some (.integer i) := by
    rw [scalarOfWord?, if_neg (hnot (by decide) (by decide : 't'.isDigit = false)),
      if_neg (hnot (by decide) (by decide : 'f'.isDigit = false)), integer?_toDigits hi]
    rfl
  have hword : (Nat.toDigits 10 i).all isWordChar = true :=
    List.all_eq_true.2 fun c hc => by simp [isWordChar, Char.isAlphanum, hdigits c hc]
  rw [Nat.toString_eq_ofList_toDigits, String.toList_ofList]
  exact writes_word Nat.toDigits_ne_nil hword hscalar

/-- A literal is read back from how it is written. -/
theorem Spells.writes {value : List Char} {v : Literal} (h : Spells value v) :
    Writes value (.scalar v.scalar) := by
  cases v with
  | number n =>
    obtain ⟨hn, rfl⟩ := h
    exact writes_integer hn
  | flag b =>
    obtain rfl : value = _ := h
    exact writes_boolean b
  | text s =>
    obtain ⟨hs, rfl | ⟨hmark, rfl⟩⟩ := h
    · exact writes_between (.inl rfl) hs fun hmem => absurd (hs _ hmem) (by decide)
    · exact writes_between (.inr rfl) hs hmark

/-! ## Lines -/

namespace Reading

/-- What can stand at the front of a line that says something. -/
def startsLine (c : Char) : Bool := c ≠ '\n' && c ≠ '\r' && c ≠ '#' && !isGap c

/-- A line that says something is taken in, and then the lines behind it. -/
theorem run_cons {c : Char} (hc : startsLine c = true) {cs r : List Char} {s : Statement}
    (hs : statement? (c :: cs) = some (s, '\n' :: r)) (n : Nat) (st : Reading) :
    run (n + 1) (c :: cs) st = (st.step s).bind (run n r) := by
  simp only [startsLine, Bool.and_eq_true, decide_eq_true_eq, Bool.not_eq_true'] at hc
  obtain ⟨⟨⟨hfeed, hreturn⟩, hcomment⟩, hgap⟩ := hc
  have hskip : skipBlank false (c :: cs) = some (c :: cs) := by
    simp [skipBlank, hreturn, hcomment, hgap]
  have hend : lineEnd? ('\n' :: r) = some r := by simp [lineEnd?, isGap, newline?]
  rw [run, hskip, Option.bind_some, if_neg (by simp), hs]
  simp only [Option.bind_some, hend]

/-- A name can stand at the front of a line. -/
theorem startsLine_of_isNameChar {c : Char} (hc : isNameChar c = true) : startsLine c = true := by
  simp [startsLine, isGap_of_isNameChar hc, ne_of_class hc (by decide : isNameChar '\n' = false),
    ne_of_class hc (by decide : isNameChar '\r' = false),
    ne_of_class hc (by decide : isNameChar '#' = false)]

/-- A header opens its table. -/
theorem run_header {name : String} (h : IsName name) {ps : Parts} (hnew : ps.lookup name = none)
    (r : List Char) (n : Nat) (current : List String) :
    run (n + 1) (headerLine name ++ r) ⟨current, ps⟩ =
      run n r ⟨[name], ps ++ [(name, .table .written [])]⟩ := by
  have hline : headerLine name ++ r = '[' :: (name.toList ++ ']' :: '\n' :: r) := by
    simp [headerLine]
  have hstep : (⟨current, ps⟩ : Reading).step (.table [name]) =
      some ⟨[name], ps ++ [(name, .table .written [])]⟩ := by
    simp [step, Parts.within, Parts.openTable, hnew]
  rw [hline, run_cons (by decide) (statement?_header h _), hstep, Option.bind_some]

/-- A key that is new is set in the table that is open, which is the last one. -/
theorem step_assign {name key : String} {ps fields : Parts} (hname : ps.lookup name = none)
    (hnew : fields.lookup key = none) (v : SettingTree) :
    (⟨[name], ps ++ [(name, .table .written fields)]⟩ : Reading).step (.assign [key] v) =
      some ⟨[name], ps ++ [(name, .table .written (fields ++ [(key, .value v)]))]⟩ := by
  have hlookup : (ps ++ [(name, Part.table .written fields)]).lookup name =
      some (.table .written fields) := by
    rw [List.lookup_append, hname]
    simp
  have hkeep (q : Part) : ps.map (fun p => if p.1 = name then (name, q) else p) = ps := by
    refine (List.map_congr_left fun p hp => if_neg fun h => ?_).trans (List.map_id _)
    have hne := List.lookup_eq_none_iff.1 hname p hp
    simp [h] at hne
  have hreplace (p q : Part) : Parts.replace (ps ++ [(name, p)]) name q = ps ++ [(name, q)] := by
    simp [Parts.replace, hkeep]
  simp [step, Parts.within, hlookup, Parts.assign, hnew, hreplace]

/-- A line with a key and a value sets the key. -/
theorem run_assign {key : String} (h : IsName key) {value : List Char} {v : SettingTree}
    (hvalue : Writes value v) {name : String} {ps fields : Parts} (hname : ps.lookup name = none)
    (hnew : fields.lookup key = none) (r : List Char) (n : Nat) :
    run (n + 1) (keyStart key ++ (value ++ '\n' :: r))
        ⟨[name], ps ++ [(name, .table .written fields)]⟩ =
      run n r ⟨[name], ps ++ [(name, .table .written (fields ++ [(key, .value v)]))]⟩ := by
  have hline : keyStart key ++ (value ++ '\n' :: r) =
      key.toList ++ ' ' :: '=' :: ' ' :: (value ++ '\n' :: r) := by
    simp [keyStart]
  have hstatement := statement?_assign h (hvalue r).1 ((hvalue r).2 _)
  obtain ⟨c, cs, hcs, hc⟩ := h.exists_cons
  rw [hcs, List.cons_append] at hstatement hline
  rw [hline, run_cons (startsLine_of_isNameChar hc) hstatement, step_assign hname hnew,
    Option.bind_some]

/-- An empty line says nothing. -/
theorem run_feed (cs : List Char) (n : Nat) (st : Reading) :
    run (n + 1) ('\n' :: cs) st = run (n + 1) cs st := by
  rw [run, run, skipBlank]

end Reading

/-! ## Files -/

/-- Keys and their values as parts. -/
def valueParts (es : List (String × Literal)) : Parts :=
  es.map fun e => (e.1, .value (.scalar e.2.scalar))

/-- Sections as parts. -/
def sectionParts (doc : Sections) : Parts :=
  doc.map fun sec => (sec.1, .table .written (valueParts sec.2))

/-- A name that is not among those of a list with one more in front is not among its fellows. -/
theorem lookup_append_eq_none {ps : Parts} {name other : String} {p : Part}
    (h : ps.lookup name = none) (hne : name ≠ other) : (ps ++ [(other, p)]).lookup name = none := by
  rw [List.lookup_append, h]
  simp [hne]

/-- The lines of a section set its keys. Each takes one unit of fuel at most, and is longer than
that. -/
theorem Lists.run {lines : List Char} {es : List (String × Literal)} (h : Lists lines es)
    (hnames : ∀ e ∈ es, IsSmallName e.1) (hnodup : (es.map Prod.fst).Nodup) {name : String}
    {ps : Parts} (hname : ps.lookup name = none) (fields : Parts)
    (hnew : ∀ e ∈ es, fields.lookup e.1 = none) (r : List Char) {n : Nat}
    (hn : (lines ++ r).length < n) :
    ∃ m, r.length < m ∧
      Reading.run n (lines ++ r) ⟨[name], ps ++ [(name, .table .written fields)]⟩ =
        Reading.run m r ⟨[name], ps ++ [(name, .table .written (fields ++ valueParts es))]⟩ := by
  induction h generalizing n fields with
  | nil => exact ⟨n, hn, by simp [valueParts]⟩
  | blank _ ih =>
    obtain ⟨n, rfl⟩ := Nat.exists_eq_add_of_lt (Nat.zero_lt_of_lt hn)
    obtain ⟨m, hm, hrun⟩ := ih hnames hnodup fields hnew (Nat.lt_of_succ_lt hn)
    exact ⟨m, hm, by rw [List.cons_append, Reading.run_feed]; exact hrun⟩
  | @entry cs es value v key hvalue _ ih =>
    obtain ⟨hkey, hnames⟩ := List.forall_mem_cons.1 hnames
    obtain ⟨hfresh, hnew⟩ := List.forall_mem_cons.1 hnew
    obtain ⟨hnot, hnodup⟩ := List.nodup_cons.1 hnodup
    obtain ⟨n, rfl⟩ := Nat.exists_eq_add_of_lt (Nat.zero_lt_of_lt hn)
    have hnew' : ∀ e ∈ es,
        (fields ++ [(key, Part.value (.scalar v.scalar))]).lookup e.1 = none := fun e he =>
      lookup_append_eq_none (hnew e he) fun h => hnot (List.mem_map.2 ⟨e, he, h⟩)
    have hlength : (cs ++ r).length < 0 + n := by
      simp only [List.length_append, List.length_cons] at hn ⊢
      omega
    obtain ⟨m, hm, hrun⟩ := ih hnames hnodup _ hnew' hlength
    refine ⟨m, hm, ?_⟩
    rw [List.append_assoc, List.append_assoc, List.cons_append,
      Reading.run_assign (.of_small hkey) hvalue.writes hname hfresh, hrun]
    simp [valueParts]

/-- The sections of a plain file are read one after the other. -/
theorem Denotes.run {cs : List Char} {doc : Sections} (h : Denotes cs doc) (hdoc : doc.Tidy)
    (ps : Parts) (hnew : ∀ sec ∈ doc, ps.lookup sec.1 = none) {n : Nat} (hn : cs.length < n)
    (current : List String) :
    (Reading.run n cs ⟨current, ps⟩).map Reading.parts = some (ps ++ sectionParts doc) := by
  induction h generalizing n ps current with
  | nil =>
    obtain ⟨n, rfl⟩ := Nat.exists_eq_add_of_lt (Nat.zero_lt_of_lt hn)
    simp [Reading.run, skipBlank, sectionParts]
  | blank _ ih =>
    obtain ⟨n, rfl⟩ := Nat.exists_eq_add_of_lt (Nat.zero_lt_of_lt hn)
    rw [Reading.run_feed]
    exact ih hdoc ps hnew (Nat.lt_of_succ_lt hn) current
  | @header lines es cs doc name hlines _ ih =>
    obtain ⟨hnodup, hkeys, hnames⟩ := hdoc
    obtain ⟨hfresh, hnew⟩ := List.forall_mem_cons.1 hnew
    obtain ⟨hnot, hnodup⟩ := List.nodup_cons.1 hnodup
    obtain ⟨hkeysHere, hkeys⟩ := List.forall_mem_cons.1 hkeys
    obtain ⟨⟨hname, hnamesHere⟩, hnames⟩ := List.forall_mem_cons.1 hnames
    obtain ⟨n, rfl⟩ := Nat.exists_eq_add_of_lt (Nat.zero_lt_of_lt hn)
    have hlength : (lines ++ cs).length < 0 + n := by
      simp only [headerLine, List.length_append, List.length_cons] at hn ⊢
      omega
    obtain ⟨m, hm, hrun⟩ :=
      hlines.run hnamesHere hkeysHere hfresh [] (fun _ _ => rfl) cs hlength
    have hnew' : ∀ sec ∈ doc,
        (ps ++ [(name, Part.table .written ([] ++ valueParts es))]).lookup sec.1 = none :=
      fun sec hsec => lookup_append_eq_none (hnew sec hsec) fun h =>
        hnot (List.mem_map.2 ⟨sec, hsec, h⟩)
    rw [Reading.run_header (.of_small hname) hfresh, hrun, ih ⟨hnodup, hkeys, hnames⟩ _ hnew' hm]
    simp [sectionParts]

/-- A plain file does not start with the mark of a byte order. -/
theorem Denotes.withoutMark {cs : List Char} {doc : Sections} (h : Denotes cs doc) :
    withoutMark cs = cs := by
  cases h
  all_goals rfl

/-- The trees of values are scalars. -/
theorem fieldTrees_valueParts (es : List (String × Literal)) :
    fieldTrees (valueParts es) = es.map fun e => (e.1, .scalar e.2.scalar) := by
  induction es with
  | nil => rfl
  | cons e es ih => exact congrArg (_ :: ·) ih

/-- The trees of sections are tables. -/
theorem fieldTrees_sectionParts (doc : Sections) : fieldTrees (sectionParts doc) =
    doc.map fun sec => (sec.1, .table (sec.2.map fun e => (e.1, .scalar e.2.scalar))) := by
  induction doc with
  | nil => rfl
  | cons sec doc ih =>
    rw [List.map_cons, ← ih, ← fieldTrees_valueParts]
    rfl

/-- A plain file is read as its sections. -/
theorem layer?_of_denotes {text : String} {doc : Sections} (hdoc : doc.Tidy)
    (h : Denotes text.toList doc) : layer? text = some doc.layer := by
  have hrun := h.run hdoc [] (fun _ _ => rfl) (Nat.lt_succ_self _) []
  obtain ⟨st, hst, hparts⟩ := Option.map_eq_some_iff.1 hrun
  have hparse : parse? text = some (fieldTrees (sectionParts doc)) := by
    simp only [parse?, h.withoutMark, Reading.start, hst, Option.map_some, hparts, List.nil_append]
  rw [layer?, hparse, fieldTrees_sectionParts, Option.map_some, List.map_map]
  rfl

/-! ## Writing -/

/-- A plain character is written as it is. -/
theorem escape_of_isPlainChar {c : Char} (hc : isPlainChar c = true) (lines : Bool) :
    escape lines c = [c] := by
  unfold escape
  split
  · exact absurd hc (by decide)
  · exact absurd hc (by decide)
  · exact absurd hc (by decide)
  · exact absurd hc (by decide)
  · exact absurd hc (by decide)
  · exact absurd hc (by decide)
  · rw [isControl_of_isPlainChar hc]
    rfl

/-- So is a plain text. -/
theorem escapeAll_of_isPlain {cs : List Char} (hcs : ∀ c ∈ cs, isPlainChar c = true) :
    escapeAll false 0 0 cs = cs := by
  induction cs with
  | nil => rfl
  | cons c cs ih =>
    obtain ⟨hc, hcs⟩ := List.forall_mem_cons.1 hcs
    rw [escapeAll, if_neg (ne_of_class hc (by decide)), escape_of_isPlainChar hc, ih hcs]
    rfl

/-- A plain text has no double quotes in a row. -/
theorem longestRun_of_isPlain {cs : List Char} (hcs : ∀ c ∈ cs, isPlainChar c = true) :
    longestRun '"' 0 cs = 0 := by
  induction cs with
  | nil => rfl
  | cons c cs ih =>
    obtain ⟨hc, hcs⟩ := List.forall_mem_cons.1 hcs
    rw [longestRun, if_neg (ne_of_class hc (by decide)), ih hcs]
    rfl

/-- A plain text is written between double quotes. -/
theorem quote_of_isPlain {s : String} (hs : IsPlain s) : (quote s).toList = between '"' s := by
  have hnot : ∀ d, isPlainChar d = false → s.toList.contains d = false := by
    intro d hd
    rw [List.contains_eq_mem, decide_eq_false_iff_not]
    exact fun hmem => ne_of_class (hs d hmem) hd rfl
  have hcontrol : (s.toList.any fun c => isControl c && c ≠ '\n') = false := by
    rw [List.any_eq_false]
    intro c hc
    simp [isControl_of_isPlainChar (hs c hc)]
  have hstyle : Style.of s.toList = .double := by
    simp only [Style.of, hcontrol, hnot '\\' (by decide), hnot '\n' (by decide),
      longestRun_of_isPlain hs]
    rfl
  simp [quote, hstyle, escapeAll_of_isPlain hs, between]

/-- A plain literal is written as it should be. -/
theorem exists_literalText? {v : Literal} (hv : v.IsPlain) :
    ∃ text, literalText? v = some text ∧ Spells text.toList v := by
  cases v with
  | number n => exact ⟨_, if_pos hv, hv, rfl⟩
  | flag b => exact ⟨_, rfl, rfl⟩
  | text s => exact ⟨_, rfl, hv, .inl (quote_of_isPlain hv)⟩

/-- Plain values are written line by line. -/
theorem exists_entriesText? {es : List (String × Literal)} (hes : ∀ e ∈ es, e.2.IsPlain) :
    ∃ text, entriesText? es = some text ∧ Lists text.toList es := by
  induction es with
  | nil => exact ⟨"", rfl, .nil⟩
  | cons e es ih =>
    obtain ⟨he, hes⟩ := List.forall_mem_cons.1 hes
    obtain ⟨value, hvalue, hspells⟩ := exists_literalText? he
    obtain ⟨lines, hlines, hlists⟩ := ih hes
    refine ⟨e.1 ++ " = " ++ value ++ "\n" ++ lines, ?_, ?_⟩
    · simp [entriesText?, hvalue, hlines]
    · have hentry := Lists.entry e.1 hspells hlists
      have htext : (e.1 ++ " = " ++ value ++ "\n" ++ lines).toList =
          keyStart e.1 ++ (value.toList ++ '\n' :: lines.toList) := by
        simp [keyStart]
      rwa [htext]

/-- Lines and an empty line behind them are lines too. -/
theorem Lists.append_feed {lines : List Char} {es : List (String × Literal)} (h : Lists lines es) :
    Lists (lines ++ ['\n']) es := by
  induction h with
  | nil => exact .blank .nil
  | blank _ ih => exact .blank ih
  | entry key hvalue _ ih =>
    have hentry := Lists.entry key hvalue ih
    simpa using hentry

/-- Plain sections are written as a plain file. -/
theorem exists_sectionsText? {doc : Sections} (hdoc : ∀ sec ∈ doc, ∀ e ∈ sec.2, e.2.IsPlain) :
    ∃ text, sectionsText? doc = some text ∧ Denotes text.toList doc := by
  induction doc with
  | nil => exact ⟨"", rfl, .nil⟩
  | cons sec doc ih =>
    obtain ⟨hsec, hdoc⟩ := List.forall_mem_cons.1 hdoc
    obtain ⟨lines, hlines, hlists⟩ := exists_entriesText? hsec
    obtain ⟨rest, hrest, hdenotes⟩ := ih hdoc
    let feed := if doc.isEmpty then "" else "\n"
    have hfeed : Lists (lines ++ feed).toList sec.2 := by
      cases doc with
      | nil => simpa [feed] using hlists
      | cons _ _ => simpa [feed] using hlists.append_feed
    refine ⟨"[" ++ sec.1 ++ "]\n" ++ lines ++ feed ++ rest, ?_, ?_⟩
    · simp [sectionsText?, hlines, hrest, feed]
    · have hheader := Denotes.header sec.1 hfeed hdenotes
      have htext : ("[" ++ sec.1 ++ "]\n" ++ lines ++ feed ++ rest).toList =
          headerLine sec.1 ++ ((lines ++ feed).toList ++ rest.toList) := by
        simp [headerLine]
      rwa [htext]

end BranchPaint.Toml
