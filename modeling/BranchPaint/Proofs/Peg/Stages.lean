import BranchPaint.Proofs.Branch.Arguments
import BranchPaint.Proofs.Peg.Calls
import BranchPaint.Proofs.Peg.Statement

/-!
# Reading in two stages

A program can be read in one go, as `Program.parse` does, or in two stages: `readInStages` matches
the whole text against the table of the language and then builds a program of the nodes. The second
stage has many ways to fail, and `readValuesInStages` adds one: of a program that is no list of
values no values can be taken.

Both ways of reading come to the same (`readsAt_program`, `readInStages_eq`). So no text that
matches fails to be built: the second stage is total on the nodes that the first leaves
(`readInStages_total`). The first stage ends on every text, with calls of a depth that is linear in
its length, and reading in one go does not run out of fuel (`matching_ends`).
-/

namespace BranchPaint.Peg

open Rule Grammar

/-! ## Programs -/

section program

variable {bound n : Nat}

/-- The end of the text is read as a node without parts. -/
theorem reads_endOfText : Reads bound (.call .endOfText) endOfText fun _ span xs =>
    ∃ text, xs = [.mk .endOfText text span []] := by
  refine Reads.imp (Reads.token rfl (?_ : Lexes .endOfText _ fun _ _ => True)) fun _ span xs hxs =>
    ?_
  · refine ⟨fun s => ?_, fun _ => trivial⟩
    obtain ⟨_ | ⟨c, r⟩, p⟩ := s
    · exact Matches.finish
    · exact Matches.finish
  · obtain ⟨text, rfl, -⟩ := hxs
    exact ⟨text, rfl⟩

/-- The nodes of statements are kept, that of the end of the text is dropped. -/
theorem filter_of_laid {body : List Stmt} {xs : List (Node Name)}
    (h : Laid (Gives buildStmt .statement) body xs) :
    xs.filter (fun y => y.name ≠ .endOfText) = xs := by
  induction h with
  | nil => rfl
  | cons fit rest ih =>
    obtain ⟨text, span, ys, rfl, -⟩ := fit
    rw [List.filter_append, ih]
    rfl

/-- Statements up to the end of the text. -/
theorem reads_body (hn : bound ≤ n) :
    Reads bound (.inOrder [.star (.call .statement), .call .endOfText])
      (many (statement n) n >>= fun body => blanks >>= fun _ => endOfText >>= fun _ => pure body)
      fun body _ xs => ∀ span, Inside buildProgram .program ⟨body, span⟩ span xs := by
  refine (Reads.star rfl (reads_statement hn) hn).seq fun body _ xs hxs => ?_
  refine reads_endOfText.map fun _ stop ys hys => ⟨body, rfl, ?_⟩
  obtain ⟨endtext, rfl⟩ := hys
  intro span text
  have hkept : (xs ++ [Node.mk Name.endOfText endtext stop []]).filter
      (fun y => y.name ≠ .endOfText) = xs := by
    rw [List.filter_append, filter_of_laid hxs]
    exact List.append_nil xs
  rw [buildProgram]
  simp only [Node.inner, hkept, buildStmts_of_laid hxs]
  rfl

/-- On a whole text, the table reads the program that the rule reads. -/
theorem readsAt_program {s : Cursor} (hs : s.pos.offset = 0) (hn : s.rest.length < n) :
    ReadsAt s (.call .program) (program n) fun p _ xs => Gives buildProgram .program p xs := by
  have hstart : ReadsAt s .start (pure ()) fun _ _ xs => xs = [] := ⟨_, .start hs, .read rfl rfl⟩
  have hparts : ReadsAt s (Name.pattern .program) (blanks >>= fun _ =>
      many (statement n) n >>= fun body => blanks >>= fun _ => endOfText >>= fun _ => pure body)
          fun body _ xs =>
        ∀ span, Inside buildProgram .program ⟨body, span⟩ span xs := by
    -- nothing is read where the text starts, which the rule does not say
    rw [← Rule.pure_bind () fun _ => blanks >>= _]
    refine hstart.seq fun _ t xs hreached hxs => ?_
    subst hxs
    have hle := t.length_skipBlanks_le
    have hle' := hreached.le
    exact reads_body (Nat.le_refl n) t.skipBlanks (by omega) t.skipBlanks_skipBlanks
  exact (hparts.made Program.mk fun _ _ => rfl).node rfl

end program

/-! ## Two stages -/

/-- An error of reading in one go, as one of reading in two stages. -/
def StageError.ofSyntax (e : SyntaxError) : StageError := .syntaxAt e.place.offset

/-- Text that is no list of values is refused by the second stage. -/
def StageError.ofRead : ReadError → StageError
  | .malformed e => .ofSyntax e
  | .notValues span => .build ⟨(ReadError.notValues span).text, some span⟩

/-- The second stage, on what the first answered. -/
def buildAnswer (a : Answer Name) : Except StageError Program :=
  match a.result with
  | none => .error (.syntaxAt a.reach)
  | some ([], _) => .error (.build ⟨"Empty parse result", none⟩)
  | some (x :: _, _) => (buildProgram x).mapError .build

/-- Reads a program in two stages; there is no answer if calls go too deep for the first. -/
def readInStages (text : String) : Option (Except StageError Program) :=
  ((Pattern.call .program).run script (scriptRanking.fuel text.toList.length) .plain
    (.ofString text)).map buildAnswer

/-- Reads parameter values in two stages. -/
def readValuesInStages (text : String) : Option (Except StageError (List Expr)) :=
  (readInStages text).map fun x => x.bind fun p => p.values.mapError .ofRead

/-- What the first stage answers, whatever the depth, if it suffices. The rule that reads in one go
replies the same. -/
theorem exists_answer_program (text : String) : ∃ a,
    (∀ n, scriptRanking.fuel text.toList.length ≤ n →
      (Pattern.call .program).run script n .plain (.ofString text) = some a) ∧
    ∀ n, text.toList.length < n →
      Same (.ofString text) (fun p _ xs => Gives buildProgram .program p xs) a
        (program n (.ofString text)) := by
  obtain ⟨a, ha⟩ := scriptRanking.exists_answer .plain .program (.ofString text)
  refine ⟨a, ha, fun n hn => ?_⟩
  obtain ⟨b, hb, hsame⟩ := readsAt_program (s := .ofString text) rfl hn
  rwa [Matches.unique ⟨_, ha _ (Nat.le_refl _)⟩ hb]

/-- Both ways of reading come to the same. -/
theorem readInStages_eq (text : String) :
    readInStages text = some ((Program.parse text).mapError .ofSyntax) := by
  obtain ⟨a, ha, hsame⟩ := exists_answer_program text
  unfold readInStages Program.parse
  rw [ha _ (Nat.le_refl _), Option.map_some]
  replace hsame := hsame ((Cursor.ofString text).rest.length + 1) (Nat.lt_succ_self _)
  dsimp only
  generalize program ((Cursor.ofString text).rest.length + 1) (.ofString text) = reply at hsame
  cases hsame with
  | gaveUp reach =>
    subst reach
    rfl
  | read reach fit =>
    obtain ⟨_, _, ys, rfl, hbuild⟩ := fit
    simp only [buildAnswer, hbuild]
    rfl

/-- Values are read in stages as they are read at once. -/
theorem readValuesInStages_eq (text : String) :
    readValuesInStages text = some ((readValues text).mapError .ofRead) := by
  unfold readValuesInStages readValues
  rw [readInStages_eq]
  cases Program.parse text with
  | error e => rfl
  | ok p => rfl

/-- Reading in stages gives the programs that reading at once gives. -/
theorem readInStages_eq_ok_iff {text : String} {p : Program} :
    readInStages text = some (.ok p) ↔ Program.parse text = .ok p := by
  rw [readInStages_eq, Option.some_inj]
  cases Program.parse text with
  | error e => exact ⟨nofun, nofun⟩
  | ok q => exact ⟨fun h => by cases h; rfl, fun h => by cases h; rfl⟩

/-- Only what is no list of values is refused by the second stage. -/
theorem readValuesInStages_eq_build_iff {text : String} {e : BuildError} :
    readValuesInStages text = some (.error (.build e)) ↔
    ∃ span, readValues text = .error (.notValues span) ∧
      e = ⟨(ReadError.notValues span).text, some span⟩ := by
  rw [readValuesInStages_eq, Option.some_inj]
  rcases readValues text with (_ | span) | values
  · exact ⟨nofun, nofun⟩
  · constructor
    · intro h
      cases h
      exact ⟨span, rfl, rfl⟩
    · rintro ⟨_, hspan, rfl⟩
      cases hspan
      rfl
  · exact ⟨nofun, nofun⟩

/-- The second stage is total on what the first accepts. A text is read as a program, or it does not
match, and then the place is that at which reading in one go gives up. Of parameter text, building
values fails exactly if it is a program whose first statement is not an expression. -/
theorem readInStages_total (text : String) :
    ((∃ p, readInStages text = some (.ok p) ∧ Program.parse text = .ok p) ∨
      ∃ e, readInStages text = some (.error (.syntaxAt e.place.offset)) ∧
        Program.parse text = .error e) ∧
    readValuesInStages text = some ((readValues text).mapError .ofRead) ∧
    ∀ e, readValuesInStages text = some (.error (.build e)) ↔
      ∃ p s rest, readInStages text = some (.ok p) ∧
      p.body = s :: rest ∧ s.isExpr = false ∧
      e = ⟨"Parameter values must be a comma-separated list of expressions", some s.span⟩ := by
  refine ⟨?_, readValuesInStages_eq text, fun e => ?_⟩
  · rw [readInStages_eq]
    cases Program.parse text with
    | ok p => exact .inl ⟨p, rfl, rfl⟩
    | error e => exact .inr ⟨e, rfl, rfl⟩
  · rw [readValuesInStages_eq_build_iff]
    constructor
    · rintro ⟨span, hrefused, rfl⟩
      obtain ⟨p, s, rest, hparse, hbody, hs, rfl⟩ := readValues_eq_notValues_iff.1 hrefused
      exact ⟨p, s, rest, readInStages_eq_ok_iff.2 hparse, hbody, hs, rfl⟩
    · rintro ⟨p, s, rest, hread, hbody, hs, rfl⟩
      exact ⟨s.span, readValues_eq_notValues_iff.2 ⟨p, s, rest, readInStages_eq_ok_iff.1 hread,
          hbody, hs, rfl⟩, rfl⟩

/-! ## Matching ends -/

/-- Matching ends on every text. Each round of a repetition reads something, calls one inside the
other that read nothing are not more than 17, and there is no infinite chain of calls. Calls of a
depth that is linear in the length of the text suffice. Reading in one go ends with the same reply
for all fuel above the length of the text, which is that of the table. -/
theorem matching_ends :
    (∀ p m s r xs t, script.Repeats p → Matches script m p s ⟨r, some (xs, t)⟩ →
      t.rest.length < s.rest.length) ∧
    (∀ cs : List (Call Name),
      cs.IsChain (fun c d => Calls script c d ∧ d.cursor.rest.length = c.cursor.rest.length) →
      cs.length ≤ 17) ∧
    WellFounded (fun d c => Calls script c d) ∧
    ∀ text, ∃ a, (∀ n, (text.toList.length + 1) * 17001 ≤ n →
        (Pattern.call .program).run script n .plain (.ofString text) = some a) ∧
      ∀ n, text.toList.length < n →
        program n (.ofString text) = program (text.toList.length + 1) (.ofString text) ∧
        Same (.ofString text) (fun p _ xs => Gives buildProgram .program p xs) a
          (program n (.ofString text)) := by
  refine ⟨fun p m s r xs t h hp => scriptRanking.lt_of_repeats h hp,
    fun cs h => scriptRanking.length_le_of_isChain h, scriptRanking.wellFounded_calls,
    fun text => ?_⟩
  obtain ⟨a, ha, hsame⟩ := exists_answer_program text
  refine ⟨a, ha, fun n hn => ⟨?_, hsame n hn⟩⟩
  exact (agree_program hn (Nat.le_refl _) (.ofString text) (Nat.lt_succ_self _)).1

/-- Statements are repeated, and none is empty. -/
theorem matching_ends_statements : script.Repeats (.call .statement) ∧ ∀ m s r xs t,
    Matches script m (.call .statement) s ⟨r, some (xs, t)⟩ → t.rest.length < s.rest.length := by
  have hrepeats : script.Repeats (.call .statement) :=
    ⟨.program, .quiet, .ofString "", .quiet, .ofString "",
      .inl (.second (.start rfl) Matches.skips_quiet (.first .here))⟩
  exact ⟨hrepeats, fun m s r xs t h => matching_ends.1 _ m s r xs t hrepeats h⟩

end BranchPaint.Peg
