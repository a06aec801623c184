import BranchPaint.Proofs.Peg.Lexeme

/-!
# Quoting is undone by reading

Three tables of escapes have to agree: `Quoted.escape` says how a character is written, the pattern
of quoted text (`Pattern.quotedBy`) how far a literal goes, and `unescaped` what stands for what
between the quotes. They are compared character by character: whatever follows, the pattern takes a
written character as one piece and goes on behind it (`quotedRun_escape`), and the piece stands for
the character (`unescaped_escape`). A backslash is written twice, so it opens no escape with what
follows it; a quote is written behind a backslash, so it does not close the literal.

So the rule for quoted text matches a written text to its end and no further, and what it leaves
between the quotes stands for the text (`matches_quote`).
-/

namespace BranchPaint.Peg

open Quoted

/-! ## One character -/

/-- The pattern takes a written character as one piece. -/
theorem quotedRun_escape (c : Char) (r : List Char) (p : Position) :
    quotedRun '\'' (escape c ++ r) p =
      (escape c ++ (quotedRun '\'' r (p.advance (escape c))).1,
        (quotedRun '\'' r (p.advance (escape c))).2) := by
  rcases escape_cases c with ⟨d, hc, -, -⟩ | ⟨hc, hslash, hquote, hfeed⟩
  · rw [hc]
    rfl
  · have hone : c = '\\' → r = [] → False := fun h => absurd h hslash
    have htwo : ∀ d r', c = '\\' → r = d :: r' → False := fun _ _ h => absurd h hslash
    have hgo : ¬(c = '\'' ∨ c = '\n') := not_or.2 ⟨hquote, hfeed⟩
    rw [hc, List.singleton_append, quotedRun.eq_4 _ _ _ _ hone htwo, if_neg hgo]
    rfl

/-- A written character stands for the character. -/
theorem unescaped_escape (c : Char) (cs : List Char) :
    unescaped (escape c ++ cs) = c :: unescaped cs := by
  rcases escape_cases c with ⟨d, hc, rfl, -⟩ | ⟨hc, hslash, -, -⟩
  · rw [hc]
    rfl
  · rw [hc]
    exact unescaped_cons hslash cs

/-! ## Texts -/

/-- The pattern stops in front of the closing quote of a written text. -/
theorem quotedRun_flatMap_escape (cs r : List Char) (p : Position) :
    quotedRun '\'' (cs.flatMap escape ++ '\'' :: r) p =
      (cs.flatMap escape, ⟨'\'' :: r, p.advance (cs.flatMap escape)⟩) := by
  induction cs generalizing p with
  | nil => rfl
  | cons c cs ih =>
    rw [List.flatMap_cons, List.append_assoc, quotedRun_escape, ih, Position.advance_append]

/-- Reading escapes undoes writing them. -/
theorem unescaped_flatMap_escape (cs : List Char) : unescaped (cs.flatMap escape) = cs := by
  induction cs with
  | nil => rfl
  | cons c cs ih => rw [List.flatMap_cons, unescaped_escape, ih]

/-- The literal of a written text, with anything behind it: the first kind of quotes matches up to
the closing quote. -/
theorem matches_string_quote (text : String) (r : List Char) (p : Position) : ∃ body : Node Name,
    Matches script .compound (Name.pattern .string) ⟨(quote text).toList ++ r, p⟩
      ⟨0, some ([body], ⟨r, p.advance (quote text).toList⟩)⟩ ∧
    body.name = .singleQuoted ∧ body.text = String.ofList (text.toList.flatMap escape) := by
  have hend : ((p.next '\'').advance (text.toList.flatMap escape)).next '\'' =
      p.advance (quote text).toList := by
    rw [toList_quote, Position.advance_cons, Position.advance_append]
    rfl
  have hrun := quotedRun_flatMap_escape text.toList r (p.next '\'')
  have hsingle := matches_quotes .singleQuoted "'" '\'' rfl rfl rfl ⟨(quote text).toList ++ r, p⟩
  rw [toList_quote_append, Cursor.literal?_cons_self, Cursor.literal?_nil, Option.bind_some, hrun,
    Cursor.literal?_cons_self, Cursor.literal?_nil, Option.map_some, hend] at hsingle
  rw [toList_quote_append]
  exact ⟨_, hsingle.or_left, rfl, by rw [text_quotedNode, hrun]⟩

/-- Reading undoes quoting. On a written text with anything behind it, the rule for quoted text
matches the written text and nothing more; what it leaves between the quotes stands for the text,
and this is what reading in one go gives. A written text is on one line. -/
theorem matches_quote (text : String) (r : List Char) (p : Position) : ∃ body : Node Name,
    Matches script .plain (.call .string) ⟨(quote text).toList ++ r, p⟩
      ⟨0, some ([.mk .string (quote text) (.between p (p.advance (quote text).toList)) [body]],
        ⟨r, p.advance (quote text).toList⟩)⟩ ∧
    body.name = .singleQuoted ∧ (quote text).toList = '\'' :: (body.text.toList ++ ['\'']) ∧
    String.ofList (unescaped body.text.toList) = text ∧
    scan? ⟨(quote text).toList ++ r, p⟩ = some (text, ⟨r, p.advance (quote text).toList⟩) ∧
    '\n' ∉ (quote text).toList := by
  obtain ⟨body, hmatch, hname, htext⟩ := matches_string_quote text r p
  have hupTo : Cursor.upTo ⟨(quote text).toList ++ r, p⟩ ⟨r, p.advance (quote text).toList⟩ =
      quote text := by
    rw [Cursor.upTo_eq (s := ⟨(quote text).toList ++ r, p⟩) (t := ⟨r, _⟩) rfl, String.ofList_toList]
  have hcall := Matches.call_some (m := .plain) (x := Name.string) (by decide) hmatch
  simp only [hupTo] at hcall
  refine ⟨body, hcall, hname, ?_, ?_, scan?_quote text r p, feed_not_mem_quote text⟩
  · rw [htext, String.toList_ofList, toList_quote]
  · rw [htext, String.toList_ofList, unescaped_flatMap_escape, String.ofList_toList]

end BranchPaint.Peg
