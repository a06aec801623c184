import BranchPaint.Proofs.Peg.Scan

/-!
# Decimals as patterns

The pattern of decimals stops where the reader of decimals does (`scans_decimal`), and the text in
between is read as the number once more, alone and from the start (`Decimal.readFloat?_upTo`). For
the second, nothing that was read may depend on what follows it: `Cut` relates a cursor to one whose
text ends earlier, and each step of the reader goes the same way on both as long as it does not need
the part that is missing.
-/

namespace BranchPaint

/-! ## Text without what follows it -/

/-- The second cursor has the same text to read, without the end `z`; it may stand anywhere. -/
def Cut (z : List Char) (s s' : Cursor) : Prop := s.rest = s'.rest ++ z

namespace Cut

variable {z w cs : List Char} {s s' t : Cursor} {f : Char → Bool}

/-- A fixed text that stands in front of the cut is read from the shorter text too. -/
theorem literal? (h : Cut z s s') (hread : s.literal? w = some t) (hz : z.length ≤ t.rest.length) :
    ∃ t', s'.literal? w = some t' ∧ Cut z t t' := by
  obtain ⟨cs, p⟩ := s'
  have hrest : w ++ t.rest = cs ++ z := (Cursor.literal?_inv hread).symm.trans h
  obtain ⟨r, rfl⟩ : ∃ r, cs = w ++ r := by
    have hprefix : w <+: cs := by
      refine List.prefix_of_prefix_length_le (hrest ▸ List.prefix_append w t.rest)
        (List.prefix_append cs z) ?_
      have := congrArg List.length hrest
      simp only [List.length_append] at this
      omega
    exact hprefix.imp fun r hr => hr.symm
  rw [List.append_assoc] at hrest
  exact ⟨⟨r, p.advance w⟩, Cursor.literal?_append w r p, List.append_cancel_left hrest⟩

/-- A fixed text that is not read is not read from the shorter text. -/
theorem literal?_none (h : Cut z s s') (hread : s.literal? w = none) : s'.literal? w = none := by
  cases hcut : s'.literal? w with
  | none => rfl
  | some t' =>
    obtain ⟨cs, p⟩ := s
    have hrest : cs = s'.rest ++ z := h
    rw [hrest, Cursor.literal?_inv hcut, List.append_assoc, Cursor.literal?_append] at hread
    cases hread

/-- A run that ends in front of the cut is the same in the shorter text. -/
theorem takeWhile (h : Cut z s s') (hread : s.takeWhile f = (cs, t))
    (hz : z.length ≤ t.rest.length) : ∃ t', s'.takeWhile f = (cs, t') ∧ Cut z t t' := by
  obtain ⟨r, p⟩ := s'
  cases hread
  have hdrop : s.rest.takeWhile f ++ s.rest.dropWhile f = r ++ z := by
    rw [List.takeWhile_append_dropWhile, h]
  obtain ⟨r, rfl⟩ : ∃ r', r = s.rest.takeWhile f ++ r' := by
    have hprefix : s.rest.takeWhile f <+: r := by
      refine List.prefix_of_prefix_length_le (hdrop ▸ List.prefix_append _ _)
        (List.prefix_append r z) ?_
      have := congrArg List.length hdrop
      simp only [List.length_append] at this hz
      omega
    exact hprefix.imp fun r' hr => hr.symm
  rw [List.append_assoc] at hdrop
  have hr : s.rest.dropWhile f = r ++ z := List.append_cancel_left hdrop
  refine ⟨⟨r, p.advance (s.rest.takeWhile f)⟩, Cursor.takeWhile_append ?_ ?_ p, hr⟩
  · exact fun c hc => List.all_eq_true.1 List.all_takeWhile c hc
  · intro c hc
    have hstop := List.head?_dropWhile_not f s.rest
    rw [hr, List.head?_append_of_ne_nil _ (by rintro rfl; cases hc), show r.head? = some c from hc]
      at hstop
    exact hstop

/-- Where there was nothing to read, there still is not. -/
theorem takeWhile_nil (h : Cut z s s') (hread : (s.takeWhile f).1 = []) :
    (s'.takeWhile f).1 = [] := by
  obtain ⟨_ | ⟨c, r⟩, p⟩ := s'
  · rfl
  · have hrest : s.rest = c :: (r ++ z) := h
    simp only [Cursor.takeWhile, hrest, List.takeWhile_cons] at hread ⊢
    split at hread
    · cases hread
    · rw [if_neg ‹_›]

end Cut

/-! ## Numbers -/

namespace Decimal

variable {z : List Char} {s s' t : Cursor}

/-- A sign, if there is one: is it a minus, and the cursor behind it. -/
def sign (s : Cursor) : Bool × Cursor :=
  match s.literal? ['+'], s.literal? ['-'] with
  | some t, _ => (false, t)
  | none, some t => (true, t)
  | none, none => (false, s)

/-- An exponent is an optional sign and a run of digits. -/
theorem scanExponent?_eq (s : Cursor) : scanExponent? s =
    match (sign s).2.takeWhile Char.isDigit with
    | ([], _) => none
    | (ds, t) => some (if (sign s).1 then -(ofDigits ds : Int) else ofDigits ds, t) := rfl

/-- A whole text is read as a number behind its sign. -/
theorem readFloat?_eq (text : String) : readFloat? text =
    match scan? (sign (.ofString text)).2 with
    | some (d, ⟨[], _⟩) => some (d.toFloat (sign (.ofString text)).1)
    | _ => none := rfl

/-- A sign takes one character at most. -/
theorem length_sign (s : Cursor) : s.rest.length ≤ (sign s).2.rest.length + 1 := by
  unfold sign
  split
  · exact Nat.le_of_eq (Cursor.length_of_literal? ‹s.literal? ['+'] = _›).symm
  · exact Nat.le_of_eq (Cursor.length_of_literal? ‹s.literal? ['-'] = _›).symm
  · exact Nat.le_succ _

/-- A sign in front of the cut is the same in the shorter text. -/
theorem sign_cut (h : Cut z s s') (hz : z.length ≤ (sign s).2.rest.length) :
    (sign s').1 = (sign s).1 ∧ Cut z (sign s).2 (sign s').2 := by
  unfold sign at hz ⊢
  cases hplus : s.literal? ['+'] with
  | some t =>
    rw [hplus] at hz
    obtain ⟨t', ht', hcut⟩ := h.literal? hplus hz
    rw [ht']
    exact ⟨rfl, hcut⟩
  | none =>
    rw [hplus] at hz
    rw [h.literal?_none hplus]
    cases hminus : s.literal? ['-'] with
    | some t =>
      rw [hminus] at hz
      obtain ⟨t', ht', hcut⟩ := h.literal? hminus hz
      rw [ht']
      exact ⟨rfl, hcut⟩
    | none =>
      rw [h.literal?_none hminus]
      exact ⟨rfl, h⟩

/-- So is an exponent. -/
theorem scanExponent?_cut {e : Int} (h : Cut z s s') (hread : scanExponent? s = some (e, t))
    (hz : z.length ≤ t.rest.length) : ∃ t', scanExponent? s' = some (e, t') ∧ Cut z t t' := by
  rw [scanExponent?_eq] at hread
  rw [scanExponent?_eq s']
  split at hread
  · cases hread
  · rename_i ds u hne hdigits
    cases hread
    have hle := (Cursor.Leads.takeWhile Char.isDigit (sign s).2).length_le
    rw [hdigits] at hle
    obtain ⟨hsign, hcut⟩ := sign_cut h (Nat.le_trans hz hle)
    obtain ⟨t', ht', hcut'⟩ := hcut.takeWhile hdigits hz
    rw [hsign, ht']
    refine ⟨t', ?_, hcut'⟩
    split
    · rename_i heq
      cases heq
      exact absurd rfl hne
    · rename_i heq
      cases heq
      rfl

/-- What is no exponent is none without what follows either. -/
theorem scanExponent?_cut_none (h : Cut z s s') (hread : scanExponent? s = none) :
    scanExponent? s' = none := by
  have hdigits : ((sign s).2.takeWhile Char.isDigit).1 = [] := by
    rw [scanExponent?_eq] at hread
    split at hread
    · rename_i heq
      rw [heq]
    · cases hread
  have hdigits' : ((sign s').2.takeWhile Char.isDigit).1 = [] := by
    by_cases hz : z.length ≤ (sign s).2.rest.length
    · exact (sign_cut h hz).2.takeWhile_nil hdigits
    · -- the text ends in front of the sign
      have hsign := length_sign s
      have hlength := congrArg List.length h
      rw [List.length_append] at hlength
      obtain ⟨cs, p⟩ := s'
      obtain rfl : cs = [] := List.length_eq_zero_iff.1 (by dsimp only at hlength; omega)
      rfl
  rw [scanExponent?_eq]
  split
  · rfl
  · rename_i hne heq
    rw [heq] at hdigits'
    exact absurd hdigits' hne

/-- The characters that mark an exponent. -/
def isExponentMark (c : Char) : Bool := c = 'e' || c = 'E'

/-- A scale is a mark and an exponent; without an exponent it is not read at all. -/
theorem scanScale_eq (d : Decimal) (s : Cursor) : d.scanScale s =
    match s.char? isExponentMark with
    | none => (d, s)
    | some marked =>
      match scanExponent? marked with
      | none => (d, s)
      | some (e, t) => (⟨d.digits, d.exponent + e⟩, t) := by
  have hmark : s.char? isExponentMark = (s.literal? ['e']).or (s.literal? ['E']) := by
    rw [← Cursor.char?_eq, ← Cursor.char?_eq, Cursor.char?_or]
    rfl
  rw [hmark]
  rfl

/-- A scale in front of the cut is the same in the shorter text. -/
theorem scanScale_cut {d d' : Decimal} (h : Cut z s s') (hread : d.scanScale s = (d', t))
    (hz : z.length ≤ t.rest.length) : ∃ t', d.scanScale s' = (d', t') ∧ Cut z t t' := by
  rw [scanScale_eq] at hread
  obtain ⟨_ | ⟨c, r⟩, p⟩ := s'
  · -- nothing of the text is left, so no exponent can have been read
    have hrest : s.rest = z := h
    refine ⟨⟨[], p⟩, ?_⟩
    split at hread
    · cases hread
      exact ⟨rfl, h⟩
    · rename_i marked hmark
      split at hread
      · cases hread
        exact ⟨rfl, h⟩
      · rename_i e u hexponent
        cases hread
        have hless := (Peg.Ranking.reached_char hmark).2 rfl
        have hle := (leads_scanExponent? hexponent).length_le
        rw [hrest] at hless
        omega
  · obtain ⟨cs, q⟩ := s
    obtain rfl : cs = c :: (r ++ z) := h
    rw [Cursor.char?_cons] at hread
    rw [scanScale_eq, Cursor.char?_cons]
    cases hmark : isExponentMark c with
    | false =>
      rw [hmark] at hread
      cases hread
      exact ⟨_, rfl, rfl⟩
    | true =>
      rw [hmark] at hread
      have hcut : Cut z ⟨r ++ z, q.next c⟩ ⟨r, p.next c⟩ := rfl
      simp only [if_true] at hread ⊢
      split at hread
      · rename_i hexponent
        cases hread
        rw [scanExponent?_cut_none hcut hexponent]
        exact ⟨_, rfl, rfl⟩
      · rename_i e u hexponent
        cases hread
        obtain ⟨t', ht', hcut'⟩ := scanExponent?_cut hcut hexponent hz
        rw [ht']
        exact ⟨t', rfl, hcut'⟩

/-- A decimal without its exponent. -/
def mantissa? (s : Cursor) : Option (Decimal × Cursor) :=
  match s.takeWhile Char.isDigit with
  | ([], _) =>
    match s.literal? ['.'] with
    | none => none
    | some t =>
      match t.takeWhile Char.isDigit with
      | ([], _) => none
      | (fs, u) => some (⟨ofDigits fs, -(fs.length : Int)⟩, u)
  | (ds, t) =>
    match t.literal? ['.'] with
    | none => some (⟨ofDigits ds, 0⟩, t)
    | some t =>
      let (fs, u) := t.takeWhile Char.isDigit
      some (⟨ofDigits (ds ++ fs), -(fs.length : Int)⟩, u)

/-- A decimal is a mantissa and its scale. -/
theorem scan?_eq (s : Cursor) : scan? s = (mantissa? s).map fun x => x.1.scanScale x.2 := by
  unfold scan? mantissa?
  rcases s.takeWhile Char.isDigit with ⟨_ | ⟨c, ds⟩, u⟩
  · cases s.literal? ['.'] with
    | none => rfl
    | some t =>
      dsimp only
      rcases t.takeWhile Char.isDigit with ⟨_ | ⟨e, fs⟩, v⟩
      · rfl
      · rfl
  · dsimp only
    cases u.literal? ['.'] with
    | none => rfl
    | some t => rfl

/-- Digits without a point are a whole mantissa. -/
theorem mantissa?_whole {ds : List Char} (hne : ds ≠ [])
    (hdigits : s.takeWhile Char.isDigit = (ds, t)) (hpoint : t.literal? ['.'] = none) :
    mantissa? s = some (⟨ofDigits ds, 0⟩, t) := by
  obtain ⟨d, ds, rfl⟩ := List.exists_cons_of_ne_nil hne
  simp only [mantissa?, hdigits, hpoint]

/-- Digits with a point count the digits behind it. -/
theorem mantissa?_point {ds : List Char} {u : Cursor} (hne : ds ≠ [])
    (hdigits : s.takeWhile Char.isDigit = (ds, t)) (hpoint : t.literal? ['.'] = some u) :
    mantissa? s =
      some (⟨ofDigits (ds ++ (u.takeWhile Char.isDigit).1),
        -((u.takeWhile Char.isDigit).1.length : Int)⟩,
        (u.takeWhile Char.isDigit).2) := by
  obtain ⟨d, ds, rfl⟩ := List.exists_cons_of_ne_nil hne
  simp only [mantissa?, hdigits, hpoint]

/-- A mantissa in front of the cut is the same in the shorter text. -/
theorem mantissa?_cut {d : Decimal} (h : Cut z s s') (hread : mantissa? s = some (d, t))
    (hz : z.length ≤ t.rest.length) : ∃ t', mantissa? s' = some (d, t') ∧ Cut z t t' := by
  unfold mantissa? at hread
  split at hread
  · rename_i u hdigits
    have hnil : (s'.takeWhile Char.isDigit).1 = [] := h.takeWhile_nil (by rw [hdigits])
    split at hread
    · cases hread
    · rename_i v hpoint
      split at hread
      · cases hread
      · rename_i fs w hne hplaces
        cases hread
        have hle := (Cursor.Passes.takeWhile hplaces hne).1.length_le
        obtain ⟨v', hv', hcut⟩ := h.literal? hpoint (Nat.le_trans hz hle)
        obtain ⟨t', ht', hcut'⟩ := hcut.takeWhile hplaces hz
        refine ⟨t', ?_, hcut'⟩
        unfold mantissa?
        split
        · rw [hv']
          dsimp only
          rw [ht']
          split
          · rename_i heq
            cases heq
            exact absurd rfl hne
          · rename_i heq
            cases heq
            rfl
        · rename_i hne' hdigits'
          rw [hdigits'] at hnil
          exact absurd hnil hne'
  · rename_i ds u hne hdigits
    split at hread
    · rename_i hpoint
      cases hread
      obtain ⟨t', ht', hcut⟩ := h.takeWhile hdigits hz
      exact ⟨t', mantissa?_whole hne ht' (hcut.literal?_none hpoint), hcut⟩
    · rename_i v hpoint
      cases hread
      have hv : z.length ≤ v.rest.length :=
        Nat.le_trans hz (Cursor.Leads.takeWhile Char.isDigit v).length_le
      obtain ⟨u', hu', hcut⟩ :=
        h.takeWhile hdigits (Nat.le_trans hv (Cursor.Leads.literal? hpoint).length_le)
      obtain ⟨v', hv', hcut'⟩ := hcut.literal? hpoint hv
      obtain ⟨t', ht', hcut''⟩ := hcut'.takeWhile (f := Char.isDigit) rfl hz
      exact ⟨t', by rw [mantissa?_point hne hu' hv', ht'], hcut''⟩

/-- So is a decimal. -/
theorem scan?_cut {d : Decimal} (h : Cut z s s') (hread : scan? s = some (d, t))
    (hz : z.length ≤ t.rest.length) : ∃ t', scan? s' = some (d, t') ∧ Cut z t t' := by
  rw [scan?_eq] at hread
  obtain ⟨⟨d', u⟩, hu, hscale⟩ := Option.map_eq_some_iff.1 hread
  have hle := (d'.leads_scanScale u).length_le
  rw [hscale] at hle
  obtain ⟨u', hu', hcut⟩ := mantissa?_cut h hu (Nat.le_trans hz hle)
  obtain ⟨t', ht', hcut'⟩ := scanScale_cut hcut hscale hz
  exact ⟨t', by rw [scan?_eq, hu', Option.map_some, ht'], hcut'⟩

/-- A decimal has no sign. -/
theorem sign_of_scan? {d : Decimal} (h : scan? s = some (d, t)) : sign s = (false, s) := by
  have hnone {c : Char} (hdigit : c.isDigit = false) (hpoint : c ≠ '.') :
      s.literal? [c] = none := by
    cases hc : s.literal? [c] with
    | none => rfl
    | some u =>
      obtain ⟨cs, p⟩ := s
      obtain rfl : cs = c :: u.rest := Cursor.literal?_inv hc
      have hnumber := Lexer.number_of_head hdigit hpoint u.rest p
      rw [Lexer.number, h] at hnumber
      cases hnumber
  unfold sign
  rw [hnone (by decide) (by decide), hnone (by decide) (by decide)]

/-- The text of a decimal is read as the number. -/
theorem readFloat?_upTo {d : Decimal} (h : scan? s = some (d, t)) :
    readFloat? (s.upTo t) = some (d.toFloat false) := by
  obtain ⟨read, hrest, -⟩ := (passes_scan? h).1
  have hcut : Cut t.rest s (.ofString (s.upTo t)) := by
    rw [Cursor.upTo_eq hrest]
    simp [Cut, Cursor.ofString, hrest]
  obtain ⟨⟨cs, p⟩, hscan, hend⟩ := scan?_cut hcut h (Nat.le_refl _)
  obtain rfl : cs = [] := by simpa [Cut] using hend
  rw [readFloat?_eq, sign_of_scan? hscan, hscan]

end Decimal

namespace Peg

open Decimal

variable {ν : Type} {g : Table ν}

/-- The cursor behind a run of characters, if there are any. -/
def afterRun? (f : Char → Bool) (s : Cursor) : Option Cursor :=
  match s.takeWhile f with
  | ([], _) => none
  | (_ :: _, t) => some t

/-- The pattern of runs scans at least one character of the class. -/
theorem scans_plus (f : Char → Bool) (s : Cursor) :
    Scans g (.plus (.char f)) s (afterRun? f s) := by
  have hscan : Scans g (.plus (.char f)) s ((s.char? f).bind fun t => some (t.takeWhile f).2) :=
    (Scans.char f).seq fun t _ => (Rounds.run (fun s => Scans.char f) t).star
  obtain ⟨_ | ⟨c, r⟩, pos⟩ := s
  · exact hscan
  · rw [Cursor.char?_cons] at hscan
    cases hc : f c with
    | true => simpa [hc, afterRun?, Cursor.takeWhile] using hscan
    | false => simpa [hc, afterRun?, Cursor.takeWhile] using hscan

/-- Digits with or without a point, or a point and digits, are scanned. -/
theorem scans_mantissa (s : Cursor) : Scans g (.oneOf
    [.inOrder [.plus (.char Char.isDigit), .opt (.inOrder [.text ".", .star (.char Char.isDigit)])],
      .inOrder [.text ".", .plus (.char Char.isDigit)]]) s ((mantissa? s).map Prod.snd) := by
  have hplaces (t : Cursor) : Scans g (.opt (.inOrder [.text ".", .star (.char Char.isDigit)])) t
      (some (((t.literal? ['.']).bind fun u => some (u.takeWhile Char.isDigit).2).getD t)) :=
    ((Scans.text ".").seq fun u _ => (Rounds.run (fun s => Scans.char Char.isDigit) u).star).opt
  have hscan := ((scans_plus (g := g) Char.isDigit s).seq fun t _ => hplaces t).or
    ((Scans.text ".").seq fun t _ => scans_plus Char.isDigit t)
  suffices h : ((afterRun? Char.isDigit s).bind fun t =>
        some (((t.literal? ['.']).bind fun u => some (u.takeWhile Char.isDigit).2).getD t)).or
      ((s.literal? ['.']).bind fun t => afterRun? Char.isDigit t) = (mantissa? s).map Prod.snd by
    rw [← h]
    exact hscan
  unfold mantissa?
  rcases hdigits : s.takeWhile Char.isDigit with ⟨_ | ⟨c, ds⟩, u⟩
  · have hrun : afterRun? Char.isDigit s = none := by simp only [afterRun?, hdigits]
    rw [hrun]
    cases s.literal? ['.'] with
    | none => rfl
    | some t =>
      rcases hfraction : t.takeWhile Char.isDigit with ⟨_ | ⟨e, fs⟩, v⟩
      all_goals simp [afterRun?, hfraction]
  · have hrun : afterRun? Char.isDigit s = some u := by simp only [afterRun?, hdigits]
    rw [hrun]
    cases hpoint : u.literal? ['.'] with
    | none => simp [hpoint]
    | some t => simp [hpoint]

/-- The pattern of an exponent leads where reading it does. -/
theorem scans_exponent (s : Cursor) :
    Scans g (.inOrder [.opt (.oneOf [.text "+", .text "-"]), .plus (.char Char.isDigit)]) s
      ((scanExponent? s).map Prod.snd) := by
  have hsign : Scans g (.opt (.oneOf [.text "+", .text "-"])) s (some (sign s).2) := by
    have hscan : Scans g (.opt (.oneOf [.text "+", .text "-"])) s
        (some (((s.literal? ['+']).or (s.literal? ['-'])).getD s)) :=
      ((Scans.text "+").or (Scans.text "-")).opt
    unfold sign
    cases hplus : s.literal? ['+'] with
    | some t =>
      rw [hplus] at hscan
      exact hscan
    | none =>
      cases hminus : s.literal? ['-'] with
      | some t | none =>
        rw [hplus, hminus] at hscan
        exact hscan
  have hscan := hsign.seq fun t _ => scans_plus Char.isDigit t
  suffices h : afterRun? Char.isDigit (sign s).2 = (scanExponent? s).map Prod.snd by
    rw [← h]
    exact hscan
  rw [scanExponent?_eq]
  unfold afterRun?
  rcases (sign s).2.takeWhile Char.isDigit with ⟨_ | ⟨c, ds⟩, u⟩
  · rfl
  · rfl

/-- The pattern of decimals stops where the reader of decimals does. -/
theorem scans_decimal (s : Cursor) : Scans g .decimal s ((scan? s).map Prod.snd) := by
  have hmark (t : Cursor) : Scans g (.oneOf [.text "e", .text "E"]) t (t.char? isExponentMark) :=
    (Scans.letter rfl).either (Scans.letter rfl)
  have hscale (d : Decimal) (t : Cursor) :
      Scans g (.opt (.inOrder [.oneOf [.text "e", .text "E"], .opt (.oneOf [.text "+", .text "-"]),
        .plus (.char Char.isDigit)])) t (some (d.scanScale t).2) := by
    have hscan : Scans g (.opt (.inOrder [_, _, _])) t _ :=
      ((hmark t).seq fun u _ => scans_exponent u).opt
    suffices h : (((t.char? isExponentMark).bind fun u => (scanExponent? u).map Prod.snd).getD t) =
        (d.scanScale t).2 by
      rw [← h]
      exact hscan
    rw [scanScale_eq]
    cases t.char? isExponentMark with
    | none => rfl
    | some marked => cases hexponent : scanExponent? marked with
      | none => simp [hexponent]
      | some x => simp [hexponent]
  rw [scan?_eq]
  cases hmantissa : mantissa? s with
  | none =>
    have hscan := scans_mantissa (g := g) s
    rw [hmantissa] at hscan
    exact hscan.seq (f := fun _ => none) nofun
  | some x =>
    have hscan := scans_mantissa (g := g) s
    rw [hmantissa] at hscan
    refine hscan.seq (f := fun _ => some (x.1.scanScale x.2).2) fun t ht => ?_
    cases ht
    exact hscale x.1 x.2

end Peg

end BranchPaint
