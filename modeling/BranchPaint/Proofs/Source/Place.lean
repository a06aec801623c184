import BranchPaint.Proofs.Source.Cursor

/-!
# Places in a text

A reader only ever moves forward over what it reads (`Cursor.Leads`), so every cursor that it comes
to stands in the text it started from, behind some number of its characters (`Cursor.At`). Places
are compared through these numbers: `place text i` is where a cursor stands behind `i` characters,
and a stretch between two such places is written `stretch text i j`.

What a place is in bytes, lines and columns is counted from the characters before it
(`Position.advance_start`).
-/

namespace BranchPaint

/-! ## Counting -/

/-- Line feeds in a text. -/
def lineFeeds (text : String) : Nat := text.toList.count '\n'

/-- Characters behind the last line feed of a text. -/
def lastColumn (text : String) : Nat := (text.toList.reverse.takeWhile (· ≠ '\n')).length

/-- Behind a text, the place is counted from the text. -/
theorem Position.advance_start (text : List Char) :
    Position.start.advance text =
      ⟨(String.ofList text).utf8ByteSize, lineFeeds (String.ofList text),
        lastColumn (String.ofList text)⟩ := by
  induction text using List.reverseRecOn with
  | nil => rfl
  | append_singleton text c ih =>
    have hsize : (String.ofList (text ++ [c])).utf8ByteSize = (String.ofList text).utf8ByteSize +
        c.utf8Size := by
      simp [String.utf8ByteSize_ofList]
    rw [advance_append, ih, advance_cons, advance_nil, hsize]
    by_cases hc : c = '\n'
    · simp [next, hc, lineFeeds, lastColumn]
    · simp [next, hc, lineFeeds, lastColumn]

/-- Moving on does not lower the offset. -/
theorem Position.offset_le_advance (p : Position) (text : List Char) :
    p.offset ≤ (p.advance text).offset := by
  induction text generalizing p with
  | nil => exact Nat.le_refl _
  | cons c text ih =>
    refine Nat.le_trans ?_ (ih (p.next c))
    unfold next
    split
    all_goals exact Nat.le_add_right _ _

/-- Moving on over anything raises the offset. -/
theorem Position.offset_lt_advance (p : Position) {text : List Char} (h : text ≠ []) :
    p.offset < (p.advance text).offset := by
  obtain ⟨c, text, rfl⟩ := List.exists_cons_of_ne_nil h
  refine Nat.lt_of_lt_of_le ?_ (offset_le_advance (p.next c) text)
  have hpos := c.utf8Size_pos
  unfold next
  split
  all_goals exact Nat.lt_add_of_pos_right hpos

/-! ## Cursors in a text -/

variable {text : List Char} {i j k l : Nat}

/-- The place behind the first `i` characters. -/
def place (text : List Char) (i : Nat) : Position := Position.start.advance (text.take i)

/-- The characters from the place `i` up to the place `j`. -/
def slice (text : List Char) (i j : Nat) : List Char := (text.take j).drop i

/-- The span from the place `i` up to the place `j`. -/
def stretch (text : List Char) (i j : Nat) : Span := .between (place text i) (place text j)

/-- A slice goes on where the text in front of it ends. -/
theorem take_append_slice (hij : i ≤ j) : text.take i ++ slice text i j = text.take j := by
  have h := List.take_append_drop i (text.take j)
  rwa [List.take_take, Nat.min_eq_left hij] at h

/-- Going on over a slice leads to the place behind it. -/
theorem place_advance_slice (hij : i ≤ j) :
    (place text i).advance (slice text i j) = place text j := by
  rw [place, ← Position.advance_append, take_append_slice hij, place]

/-- Places further on have greater offsets. -/
theorem offset_place_le (hij : i ≤ j) : (place text i).offset ≤ (place text j).offset := by
  rw [← place_advance_slice hij]
  exact Position.offset_le_advance _ _

/-- Places in a text have the same offset only if they are the same. -/
theorem place_eq_of_offset_le (hij : i ≤ j) (h : (place text j).offset ≤ (place text i).offset) :
    place text j = place text i := by
  rw [← place_advance_slice hij] at h ⊢
  by_cases hslice : slice text i j = []
  · rw [hslice]
    rfl
  · exact absurd h (Nat.not_le.2 (Position.offset_lt_advance _ hslice))

/-- Stretches in order are merged into one from the start of the first to the end of the last. -/
theorem merge_stretch (hij : i ≤ j) (hjk : j ≤ k) (hkl : k ≤ l) :
    (stretch text i j).merge (stretch text k l) = stretch text i l := by
  have hstart : (place text i).offset ≤ (place text k).offset :=
    offset_place_le (Nat.le_trans hij hjk)
  by_cases hstop : (place text l).offset ≤ (place text j).offset
  · have heq := place_eq_of_offset_le (Nat.le_trans hjk hkl) hstop
    simp [stretch, Span.between, Span.merge, hstart, heq]
  · simp [stretch, Span.between, Span.merge, hstart, hstop]

/-- The cursor stands behind the first `i` characters of the text. -/
structure Cursor.At (text : List Char) (i : Nat) (s : Cursor) : Prop where
  rest : s.rest = text.drop i
  pos : s.pos = place text i
  le : i ≤ text.length

/-- The cursor of a text stands at its start. -/
theorem Cursor.at_ofString (text : String) : (Cursor.ofString text).At text.toList 0 :=
  ⟨rfl, rfl, Nat.zero_le _⟩

/-- A reader stays in the text. -/
theorem Cursor.At.leads {s t : Cursor} (hs : s.At text i) (h : s.Leads t) :
    ∃ j, i ≤ j ∧ t.At text j := by
  obtain ⟨read, hrest, hpos⟩ := h
  have htext : text = text.take i ++ (read ++ t.rest) := by
    rw [← hrest, hs.rest, List.take_append_drop]
  have hlength : (text.take i).length = i := by rw [List.length_take, Nat.min_eq_left hs.le]
  have htake : text.take (i + read.length) = text.take i ++ read := by
    conv_lhs => rw [htext, ← List.append_assoc]
    exact List.take_left' (by rw [List.length_append, hlength])
  refine ⟨i + read.length, Nat.le_add_right _ _, ?_, ?_, ?_⟩
  · conv_rhs => rw [htext, ← List.append_assoc]
    exact (List.drop_left' (by rw [List.length_append, hlength])).symm
  · rw [hpos, hs.pos, place, place, htake, Position.advance_append]
  · have := congrArg List.length htext
    rw [List.length_append, List.length_append, hlength] at this
    omega

/-- Between two cursors stands the text between their places. -/
theorem Cursor.At.rest_eq {s t : Cursor} (hs : s.At text i) (ht : t.At text j) (hij : i ≤ j) :
    s.rest = slice text i j ++ t.rest := by
  have hle : i ≤ (text.take j).length := by
    rw [List.length_take]
    exact Nat.le_min.2 ⟨hij, Nat.le_trans hij ht.le⟩
  rw [hs.rest, ht.rest, slice, ← List.drop_append_of_le_length hle, List.take_append_drop]

end BranchPaint
