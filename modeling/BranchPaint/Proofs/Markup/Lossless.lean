import BranchPaint.Proofs.Text.Lines

/-!
# Escaped markup loses nothing

With entities for the characters that have a meaning in HTML, painted source can be read back: the
fragment determines the source and what each of its lines is, provided that the two colours differ
and do not end the attribute that they stand in (`Palette.html_lossless`).

Paragraphs follow one another without a separator, so each of them has to tell where it ends. It
does: a fragment splits in one way into a first paragraph and a rest
(`Palette.paragraphChars_append_inj`). A colour ends at the first quote and an escaped text at the
first `<` (`append_cons_inj_of_not_mem`), and entities can be read back one by one
(`readEntity?_append`). Text that imitates tags or entities is escaped like any other.
-/

namespace BranchPaint

/-- What stands in front of the first occurrence of a mark, and what stands behind it, are
determined. -/
theorem append_cons_inj_of_not_mem {mark : Char} {as bs r s : List Char} (has : mark ∉ as)
    (hbs : mark ∉ bs) (h : as ++ mark :: r = bs ++ mark :: s) : as = bs ∧ r = s := by
  induction as generalizing bs with
  | nil =>
    cases bs with
    | nil => exact ⟨rfl, (List.cons.inj h).2⟩
    | cons b bs => exact absurd (List.cons.inj h).1 (List.ne_of_not_mem_cons hbs)
  | cons a as ih =>
    cases bs with
    | nil => exact absurd (List.cons.inj h).1.symm (List.ne_of_not_mem_cons has)
    | cons b bs =>
      obtain ⟨rfl, htail⟩ := List.cons.inj h
      obtain ⟨rfl, rfl⟩ :=
        ih (List.not_mem_of_not_mem_cons has) (List.not_mem_of_not_mem_cons hbs) htail
      exact ⟨rfl, rfl⟩

/-! ## Entities -/

/-- A character is written as an entity, or as itself. -/
theorem entity_cases (c : Char) :
    (c = '&' ∧ entity c = "&amp;".toList) ∨ (c = '<' ∧ entity c = "&lt;".toList) ∨
    (c = '>' ∧ entity c = "&gt;".toList) ∨ (c ≠ '&' ∧ c ≠ '<' ∧ c ≠ '>' ∧ entity c = [c]) := by
  unfold entity
  split
  · exact .inl ⟨rfl, rfl⟩
  · exact .inr (.inl ⟨rfl, rfl⟩)
  · exact .inr (.inr (.inl ⟨rfl, rfl⟩))
  · rename_i hamp hlt hgt
    exact .inr (.inr (.inr ⟨hamp, hlt, hgt, rfl⟩))

/-- Reads a character back, and gives the text behind it. -/
def readEntity? : List Char → Option (Char × List Char)
  | '&' :: 'a' :: 'm' :: 'p' :: ';' :: r => some ('&', r)
  | '&' :: 'l' :: 't' :: ';' :: r => some ('<', r)
  | '&' :: 'g' :: 't' :: ';' :: r => some ('>', r)
  | '&' :: _ | [] => none
  | c :: r => some (c, r)

/-- What is written for a character is read back, whatever follows. -/
theorem readEntity?_append (c : Char) (r : List Char) :
    readEntity? (entity c ++ r) = some (c, r) := by
  rcases entity_cases c with ⟨rfl, -⟩ | ⟨rfl, -⟩ | ⟨rfl, -⟩ | ⟨hamp, -, -, hc⟩
  · rfl
  · rfl
  · rfl
  · rw [hc, List.singleton_append]
    unfold readEntity?
    split
    all_goals simp_all

/-- The text of a line with entities. -/
def escaped (line : List Char) : List Char := line.flatMap entity

/-- The first character of an escaped line is read back. -/
theorem readEntity?_escaped_cons (c : Char) (line : List Char) :
    readEntity? (escaped (c :: line)) = some (c, escaped line) :=
  readEntity?_append c (escaped line)

/-- Different lines are escaped differently. -/
theorem escaped_injective : Function.Injective escaped := by
  intro l m h
  have hread := congrArg readEntity? h
  induction l generalizing m with
  | nil =>
    cases m with
    | nil => rfl
    | cons d m =>
      rw [readEntity?_escaped_cons] at hread
      cases hread
  | cons c l ih =>
    cases m with
    | nil =>
      rw [readEntity?_escaped_cons] at hread
      cases hread
    | cons d m =>
      rw [readEntity?_escaped_cons, readEntity?_escaped_cons] at hread
      obtain ⟨rfl, hrest⟩ := Prod.mk.inj (Option.some.inj hread)
      rw [ih hrest (congrArg readEntity? hrest)]

/-- No tag starts or ends in escaped text. -/
theorem not_mem_escaped (line : List Char) : '<' ∉ escaped line ∧ '>' ∉ escaped line := by
  have hentity : ∀ c, '<' ∉ entity c ∧ '>' ∉ entity c := fun c => by
    rcases entity_cases c with ⟨-, hc⟩ | ⟨-, hc⟩ | ⟨-, hc⟩ | ⟨-, hlt, hgt, hc⟩
    · rw [hc]
      decide
    · rw [hc]
      decide
    · rw [hc]
      decide
    · rw [hc]
      exact ⟨fun h => hlt (List.mem_singleton.1 h).symm, fun h => hgt (List.mem_singleton.1 h).symm⟩
  unfold escaped
  simp only [List.mem_flatMap, not_exists, not_and]
  exact ⟨fun c _ => (hentity c).1, fun c _ => (hentity c).2⟩

/-- An escaped text ends where a tag starts. -/
theorem escaped_append_inj {l m r s : List Char}
    (h : escaped l ++ '<' :: r = escaped m ++ '<' :: s) : l = m ∧ r = s := by
  obtain ⟨htext, hrest⟩ := append_cons_inj_of_not_mem (not_mem_escaped l).1 (not_mem_escaped m).1 h
  exact ⟨escaped_injective htext, hrest⟩

/-! ## Paragraphs -/

namespace Palette

/-- What stands in front of the text of a line that is marked in the given colour, if in any. -/
def opening : Option String → List Char
  | none => "<p>".toList
  | some color => "<p>".toList ++ '<' :: ("mark style=\"background-color:".toList ++
      (color.toList ++ '"' :: ">".toList))

/-- What stands behind it. -/
def closing : Option String → List Char
  | none => '<' :: "/p>".toList
  | some _ => '<' :: "/mark></p>".toList

/-- The paragraph of an escaped line. -/
def paragraphChars (color : Option String) (line : List Char) : List Char :=
  opening color ++ (escaped line ++ closing color)

/-- No tag is an escaped text and a tag that closes. -/
theorem escaped_ne_mark {line r s : List Char} :
    escaped line ++ '<' :: ('/' :: r) ≠ '<' :: ('m' :: s) := fun h => by
  obtain ⟨-, hrest⟩ := @escaped_append_inj line [] _ _ h
  exact absurd (List.cons.inj hrest).1 (by decide)

/-- A paragraph tells how it is marked, what its text is, and where it ends. The colours must not
end their attribute. -/
theorem paragraphChars_append_inj {a b : Option String} (ha : ∀ c ∈ a, '"' ∉ c.toList)
    (hb : ∀ c ∈ b, '"' ∉ c.toList) {l m r s : List Char}
    (h : paragraphChars a l ++ r = paragraphChars b m ++ s) : a = b ∧ l = m ∧ r = s := by
  cases a with
  | none =>
    cases b with
    | none =>
      simp only [paragraphChars, opening, closing, List.append_assoc, List.cons_append] at h
      obtain ⟨rfl, hrest⟩ := escaped_append_inj (List.append_cancel_left h)
      exact ⟨rfl, rfl, List.append_cancel_left hrest⟩
    | some b =>
      simp only [paragraphChars, opening, closing, List.append_assoc, List.cons_append] at h
      exact absurd (List.append_cancel_left h) escaped_ne_mark
  | some a =>
    cases b with
    | none =>
      simp only [paragraphChars, opening, closing, List.append_assoc, List.cons_append] at h
      exact absurd (List.append_cancel_left h).symm escaped_ne_mark
    | some b =>
      simp only [paragraphChars, opening, closing, List.append_assoc, List.cons_append,
        List.append_cancel_left_eq, List.cons.injEq, true_and] at h
      obtain ⟨hcolor, htext⟩ := append_cons_inj_of_not_mem (ha a rfl) (hb b rfl) h
      obtain ⟨rfl, hrest⟩ := escaped_append_inj (List.append_cancel_left htext)
      exact ⟨congrArg some (String.toList_inj.1 hcolor), rfl, List.append_cancel_left hrest⟩

/-- A paragraph has some text. -/
theorem paragraphChars_ne_nil (color : Option String) (line : List Char) :
    paragraphChars color line ≠ [] := by
  cases color
  all_goals exact List.cons_ne_nil _ _

/-- Paragraphs put together are told apart again. -/
theorem flatMap_paragraphChars_inj {xs ys : List (Option String × List Char)}
    (hxs : ∀ x ∈ xs, ∀ c ∈ x.1, '"' ∉ c.toList) (hys : ∀ y ∈ ys, ∀ c ∈ y.1, '"' ∉ c.toList)
    (h : (xs.flatMap fun x => paragraphChars x.1 x.2) =
      ys.flatMap fun y => paragraphChars y.1 y.2) :
    xs = ys := by
  induction xs generalizing ys with
  | nil =>
    cases ys with
    | nil => rfl
    | cons y ys => exact absurd (List.append_eq_nil_iff.1 h.symm).1 (paragraphChars_ne_nil y.1 y.2)
  | cons x xs ih =>
    cases ys with
    | nil => exact absurd (List.append_eq_nil_iff.1 h).1 (paragraphChars_ne_nil x.1 x.2)
    | cons y ys =>
      obtain ⟨hx, hxs⟩ := List.forall_mem_cons.1 hxs
      obtain ⟨hy, hys⟩ := List.forall_mem_cons.1 hys
      rw [List.flatMap_cons, List.flatMap_cons] at h
      obtain ⟨hcolor, hline, hrest⟩ := paragraphChars_append_inj hx hy h
      rw [Prod.ext hcolor hline, ih hxs hys hrest]

/-! ## Fragments -/

variable {palette : Palette}

/-- The colour in which a line is marked. -/
def color? (palette : Palette) : LineState → Option String
  | .taken => some palette.takenColor
  | .notTaken => some palette.notTakenColor
  | .plain => none

/-- Different states have different colors, if the two colors differ. -/
theorem color?_injective (h : palette.takenColor ≠ palette.notTakenColor) :
    Function.Injective palette.color? := by
  intro s s' hs
  cases s
  all_goals
    cases s'
    all_goals simp_all [color?]

/-- Colours without characters that have a meaning in HTML or end an attribute. -/
def Clean (palette : Palette) : Prop :=
  ∀ color ∈ [palette.takenColor, palette.notTakenColor], ∀ ch ∈ ['<', '>', '&', '"'],
    ch ∉ color.toList

/-- A clean color has no characters of markup. -/
theorem Clean.color? (h : palette.Clean) {state : LineState} {color : String}
    (hcolor : color ∈ palette.color? state) : ∀ ch ∈ ['<', '>', '&', '"'], ch ∉ color.toList := by
  cases state with
  | taken =>
    cases hcolor
    exact h _ (.head _)
  | notTaken =>
    cases hcolor
    exact h _ (.tail _ (.head _))
  | plain => cases hcolor

/-- The lines of a text, each with the colour in which it is marked. -/
def coloredLines (palette : Palette) (c : Classification) (source : String) :
    List (Option String × List Char) :=
  (textLines source.toList).mapIdx fun i line => (palette.color? (c.lineState i), line)

/-- Texts put together, the text of a line among them. -/
theorem toList_framed (a color b text c : String) :
    (a ++ color ++ b ++ text ++ c).toList = a.toList ++ (color.toList ++ b.toList) ++
      (text.toList ++ c.toList) := by
  simp only [String.toList_append, List.append_assoc]

/-- The text of a paragraph shows the color of its state and the escaped line. -/
theorem toList_paragraph (hescape : palette.escapeHtml = true) (state : LineState)
    (line : List Char) :
    (palette.paragraph state line).toList = paragraphChars (palette.color? state) line := by
  have htext : (palette.lineText line).toList = escaped line := by
    rw [lineText, if_pos hescape, String.toList_ofList, escaped]
  unfold paragraphChars
  rw [← htext]
  cases state with
  | taken => exact toList_framed _ palette.takenColor _ _ _
  | notTaken => exact toList_framed _ palette.notTakenColor _ _ _
  | plain =>
    unfold paragraph
    rw [String.toList_append, String.toList_append, List.append_assoc]
    rfl

/-- Mapping behind an indexed map is one indexed map. -/
theorem map_mapIdx {α β γ : Type} (g : β → γ) (f : Nat → α → β) (l : List α) :
    (l.mapIdx f).map g = l.mapIdx fun i a => g (f i a) := by
  rw [List.mapIdx_eq_zipIdx_map, List.mapIdx_eq_zipIdx_map, List.map_map]
  rfl

/-- The markup is the paragraphs of all lines. -/
theorem toList_html (hescape : palette.escapeHtml = true) (c : Classification) (source : String) :
    (palette.html c source).toList = (palette.coloredLines c source).flatMap fun x =>
      paragraphChars x.1 x.2 := by
  rw [html, String.toList_join, paragraphs, coloredLines, List.flatMap_def, List.flatMap_def,
    map_mapIdx, map_mapIdx]
  simp only [toList_paragraph hescape]

/-- A fragment determines the lines of its source and their colours. -/
theorem coloredLines_inj (hescape : palette.escapeHtml = true) (hclean : palette.Clean)
    {c c' : Classification} {source source' : String}
    (h : palette.html c source = palette.html c' source') :
    palette.coloredLines c source = palette.coloredLines c' source' := by
  have hquote (c : Classification) (source : String) : ∀ x ∈ palette.coloredLines c source,
      ∀ color ∈ x.1, '"' ∉ color.toList := by
    intro x hx color hcolor
    obtain ⟨i, _, rfl⟩ := List.mem_mapIdx.1 hx
    exact hclean.color? hcolor _ (by decide)
  refine flatMap_paragraphChars_inj (hquote c source) (hquote c' source') ?_
  rw [← toList_html hescape, ← toList_html hescape, h]

/-- Without colors the lines are those of the source. -/
theorem map_snd_coloredLines (c : Classification) (source : String) :
    (palette.coloredLines c source).map Prod.snd = textLines source.toList := by
  rw [coloredLines, map_mapIdx, List.mapIdx_eq_zipIdx_map]
  exact List.zipIdx_map_fst 0 _

/-- Without lines the colors are those of the states. -/
theorem map_fst_coloredLines (c : Classification) (source : String) :
    (palette.coloredLines c source).map Prod.fst = (c.lineStates source).map palette.color? := by
  rw [coloredLines, Classification.lineStates, map_mapIdx, map_mapIdx]

/-! ## Tags -/

/-- How many tags the paragraph of a line has. -/
def tagCount : LineState → Nat
  | .plain => 2
  | .taken | .notTaken => 4

variable {mark : Char} (hmark : mark = '<' ∨ mark = '>')

include hmark

/-- An escaped line has no marks of a tag. -/
theorem count_escaped (line : List Char) : (escaped line).count mark = 0 := by
  rcases hmark with rfl | rfl
  · exact List.count_eq_zero.2 (not_mem_escaped line).1
  · exact List.count_eq_zero.2 (not_mem_escaped line).2

/-- A marked paragraph has four such marks. -/
theorem count_marked {color : String} (hcolor : color.toList.count mark = 0) (line : List Char) :
    (paragraphChars (some color) line).count mark = 4 := by
  simp only [paragraphChars, opening, List.count_append, List.count_cons, hcolor,
    count_escaped hmark]
  rcases hmark with rfl | rfl
  all_goals rfl

/-- Of the characters that start and end tags, a paragraph has those of its own tags. -/
theorem count_paragraphChars (hclean : palette.Clean) (state : LineState) (line : List Char) :
    (paragraphChars (palette.color? state) line).count mark = tagCount state := by
  have hcolor : ∀ color ∈ palette.color? state, color.toList.count mark =
      0 := fun color hcolor => by
    refine List.count_eq_zero.2 (hclean.color? hcolor mark ?_)
    rcases hmark with rfl | rfl
    all_goals decide
  cases state with
  | taken | notTaken => exact count_marked hmark (hcolor _ rfl) line
  | plain =>
    rw [color?, paragraphChars, List.count_append, List.count_append, count_escaped hmark]
    rcases hmark with rfl | rfl
    all_goals rfl

/-- The markup has as many marks as the states of the lines ask for. -/
theorem count_html (hescape : palette.escapeHtml = true) (hclean : palette.Clean)
    (c : Classification) (source : String) :
    (palette.html c source).toList.count mark = ((c.lineStates source).map tagCount).sum := by
  rw [toList_html hescape, List.count_flatMap, coloredLines, Classification.lineStates,
    map_mapIdx, map_mapIdx]
  simp only [Function.comp_apply, count_paragraphChars hmark hclean]

omit hmark

/-! ## The theorem -/

/-- Escaped markup can be read back, and no text of the source becomes a tag.

With entities, and with two different colours free of `<`, `>`, `&` and quotes: sources and
classifications with the same fragment are the same source, and the classifications say the same of
each of its lines. And the characters `<` and `>` occur in the fragment as often as the tags of its
paragraphs need them, two for a plain line and four for one that is marked, whatever the text. -/
theorem html_lossless (hescape : palette.escapeHtml = true)
    (hcolors : palette.takenColor ≠ palette.notTakenColor) (hclean : palette.Clean) :
    (∀ c c' source source', palette.html c source = palette.html c' source' →
      source = source' ∧ ∀ i < lineFeeds source + 1, c.lineState i = c'.lineState i) ∧
    ∀ c source, ∀ mark ∈ ['<', '>'],
      (palette.html c source).toList.count mark = ((c.lineStates source).map tagCount).sum := by
  refine ⟨fun c c' source source' h => ?_, fun c source mark hmark => ?_⟩
  · have hlines := coloredLines_inj hescape hclean h
    have htext : textLines source.toList = textLines source'.toList := by
      rw [← map_snd_coloredLines c, hlines, map_snd_coloredLines]
    obtain rfl : source = source' := by
      rw [← String.toList_inj, ← intercalate_textLines source.toList, htext, intercalate_textLines]
    have hstates : c.lineStates source = c'.lineStates source := by
      refine List.map_injective_iff.2 (color?_injective hcolors) ?_
      rw [← map_fst_coloredLines, hlines, map_fst_coloredLines]
    refine ⟨rfl, fun i hi => List.mapIdx_eq_mapIdx_iff.1 hstates i ?_⟩
    rw [length_textLines]
    exact hi
  · refine count_html ?_ hescape hclean c source
    simpa using hmark

/-- A text that imitates the tags between two paragraphs is not taken for two lines, and an entity
of the source is not taken for what it stands for. -/
theorem html_lossless_imitation :
    (⟨"green", "salmon", true⟩ : Palette).html ⟨.ofList [0], .empty⟩ "a</p><p>&lt;" ≠
      (⟨"green", "salmon", true⟩ : Palette).html ⟨.ofList [0], .ofList [1]⟩ "a\n<" := by
  have hclean : (⟨"green", "salmon", true⟩ : Palette).Clean := by simp [Clean]
  intro h
  exact absurd ((html_lossless rfl (by decide) hclean).1 _ _ _ _ h).1 (by decide)

end Palette

end BranchPaint
