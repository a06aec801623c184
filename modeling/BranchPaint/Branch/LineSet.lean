/-!
# Sets of lines

A set of line numbers, kept as a strictly ascending list, so that equal sets are equal lists.
-/

namespace BranchPaint

/-- Puts a number in its place in an ascending list, unless it is there already. -/
def insertAscending (n : Nat) : List Nat → List Nat
  | [] => [n]
  | m :: ms => if n < m then n :: m :: ms else if n = m then m :: ms else m :: insertAscending n ms

/-- Inserting a number adds that number and nothing else. -/
theorem mem_insertAscending {n k : Nat} {ms : List Nat} :
    k ∈ insertAscending n ms ↔ k = n ∨ k ∈ ms := by
  induction ms with
  | nil => simp [insertAscending]
  | cons m ms ih =>
    unfold insertAscending
    split
    · simp
    · split
      · rename_i h
        simp [h]
      · simp only [List.mem_cons, ih]
        constructor
        · rintro (h | h | h) <;> simp [h]
        · rintro (h | h | h) <;> simp [h]

/-- Inserting keeps the order. -/
theorem pairwise_insertAscending (n : Nat) {ms : List Nat} (h : ms.Pairwise (· < ·)) :
    (insertAscending n ms).Pairwise (· < ·) := by
  induction ms with
  | nil => simp [insertAscending]
  | cons m ms ih =>
    obtain ⟨hm, hms⟩ := List.pairwise_cons.1 h
    unfold insertAscending
    split
    · rename_i hn
      refine List.pairwise_cons.2 ⟨fun k hk => ?_, h⟩
      rcases List.mem_cons.1 hk with rfl | hk
      · exact hn
      · exact Nat.lt_trans hn (hm k hk)
    · split
      · exact h
      · rename_i hn hne
        refine List.pairwise_cons.2 ⟨fun k hk => ?_, ih hms⟩
        rcases mem_insertAscending.1 hk with rfl | hk
        · omega
        · exact hm k hk

/-- A set of line numbers. -/
structure LineSet where
  /-- The lines in ascending order. -/
  toList : List Nat
  /-- Each line stands once, below the next. -/
  ascending : toList.Pairwise (· < ·)

namespace LineSet

/-- No lines. -/
def empty : LineSet := ⟨[], .nil⟩

instance : Inhabited LineSet := ⟨empty⟩

/-- The set with one more line. -/
def insert (s : LineSet) (line : Nat) : LineSet :=
  ⟨insertAscending line s.toList, pairwise_insertAscending line s.ascending⟩

/-- The set with more lines. -/
def insertAll (s : LineSet) (lines : List Nat) : LineSet := lines.foldl insert s

/-- The set of the lines in a list. -/
def ofList (lines : List Nat) : LineSet := empty.insertAll lines

/-- Is the line in the set? -/
def contains (s : LineSet) (line : Nat) : Bool := s.toList.contains line

/-- The lines of the first set that are not in the second. -/
def diff (s t : LineSet) : LineSet :=
  ⟨s.toList.filter fun n => !t.contains n, s.ascending.filter _⟩

end LineSet

end BranchPaint
