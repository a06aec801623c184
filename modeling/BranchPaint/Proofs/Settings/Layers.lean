import BranchPaint.Proofs.Settings.Library

/-!
# Settings by layers

With any libraries that do what their documentation says, each of the five settings takes what the
highest layer says that says anything (`Settings.load_layered`). That needs variables with usual
names. A variable that names a whole section spoils it, and then nothing can be loaded although each
setting has a good value (`Settings.load_section_variable`).

Settings that were written to a file are one layer that says everything, so they are loaded as they
were (`Settings.load_toToml`).
-/

namespace BranchPaint.Settings

open Libraries

variable {L : Libraries} {T : L.Terms}

/-! ## Layers -/

/-- Values that can all be converted make settings. -/
theorem exists_of_read? {value : Setting → T.Value} (h : ∀ k, T.read? k (value k) ≠ none) :
    ∃ s : Settings, ∀ k, T.read? k (value k) = some (s.get k) := by
  have hsome (k : Setting) : ∃ x, T.read? k (value k) = some x :=
    Option.ne_none_iff_exists'.1 (h k)
  choose f hf using hsome
  refine ⟨ofValues f, fun k => ?_⟩
  rw [hf, get_ofValues]

/-- Each setting is what the highest layer says that says anything for it. Loading fails if one of
these values cannot be converted or the width is zero, and else it does not, whatever the other
layers say. -/
theorem load_layered (hL : L.Laws T) {w : Surroundings} {o : Overrides} {file : Option L.Config}
    (hfile : T.FileReady w (T.namedPath? w o) file)
    (hnames : T.UsualNames (w.environment ++ T.variableFile w)) :
    (∀ s, L.load w o = .ok s ↔
      (∀ k, T.read? k (T.chosen w o file k) = some (s.get k)) ∧ s.width ≠ 0) ∧
    ((∃ e, L.load w o = .error e) ↔
      (∃ k, T.read? k (T.chosen w o file k) = none) ∨
        T.read? .width (T.chosen w o file .width) = some (0 : Nat)) := by
  have hok : ∀ s, L.load w o = .ok s ↔
      (∀ k, T.read? k (T.chosen w o file k) = some (s.get k)) ∧ s.width ≠ 0 := fun s =>
    hL.load_eq_ok_iff hfile hnames
  refine ⟨hok, ?_⟩
  constructor
  · rintro ⟨e, he⟩
    by_cases hnone : ∃ k, T.read? k (T.chosen w o file k) = none
    · exact .inl hnone
    · obtain ⟨s, hs⟩ := exists_of_read? (not_exists.1 hnone)
      refine .inr ((hs .width).trans (congrArg some ?_))
      by_contra hne
      rw [(hok s).2 ⟨hs, hne⟩] at he
      cases he
  · intro h
    cases hload : L.load w o with
    | error e => exact ⟨e, rfl⟩
    | ok s =>
      obtain ⟨hs, hne⟩ := (hok s).1 hload
      rcases h with ⟨k, hk⟩ | hzero
      · exact absurd (hk.symm.trans (hs k)) (by simp)
      · exact absurd (Option.some.inj ((hs .width).symm.trans hzero)) hne

/-- The settings file, which `.env` names, has the width zero, and `.env` itself a flag that is
none; but both are shadowed. -/
theorem load_layered_shadowed :
    let text := "[printer]\nindent_width = 0\n\n[render]\ntaken_color = \"blue\"\n"
      ++ "not_taken_color = \"gray\"\nescape_html = false\n\n[log]\nfilter = \"debug\"\n"
    let lines := "CODEPAINT_CONFIG_PATH=q.toml\nCODEPAINT_LOG__FILTER=info\n"
      ++ "CODEPAINT_RENDER__ESCAPE_HTML=maybe\n"
    let w : Surroundings := ⟨(Folder.ofList [("q.toml", text), (".env", lines)]).read,
      [("CODEPAINT_RENDER__ESCAPE_HTML", "true")]⟩
    let o : Overrides := { width := some 3 }
    (∃ file, ownTerms.FileReady w (ownTerms.namedPath? w o) file) ∧
      ownTerms.UsualNames (w.environment ++ ownTerms.variableFile w) ∧
      own.load w o = .ok ⟨3, ⟨"blue", "gray", true⟩, "info"⟩ := by
  intro text lines w o
  let saved : Settings := ⟨0, ⟨"blue", "gray", false⟩, "debug"⟩
  have hvariables : w.fileVariables = [("CODEPAINT_CONFIG_PATH", "q.toml"),
      ("CODEPAINT_LOG__FILTER", "info"), ("CODEPAINT_RENDER__ESCAPE_HTML", "maybe")] := by
    decide +kernel
  have hterms : ownTerms.variableFile w = w.fileVariables := rfl
  have hpath : ownTerms.namedPath? w o = some "q.toml" := by
    rw [Terms.namedPath?, hterms, hvariables]
    decide
  have hwritten : Toml.sectionsText? saved.sections = some text := by decide +kernel
  obtain ⟨text', htext', hdenotes⟩ := Toml.exists_sectionsText?
    (saved.isPlain_sections (by decide) (by decide))
  obtain rfl : text = text' := Option.some.inj (hwritten.symm.trans htext')
  obtain ⟨file, htoml, hsectioned, hget⟩ := own_laws.toml saved.tidy_sections hdenotes
  have hfile : ownTerms.FileReady w (ownTerms.namedPath? w o) (some file) := by
    rw [hpath]
    exact .present (.named (by decide +kernel) (by decide +kernel)) htoml hsectioned
  have hnames : ownTerms.UsualNames (w.environment ++ ownTerms.variableFile w) := by
    rw [hterms, hvariables]
    have husual : ∀ v ∈ [("CODEPAINT_RENDER__ESCAPE_HTML", "true"),
        ("CODEPAINT_CONFIG_PATH", "q.toml"), ("CODEPAINT_LOG__FILTER", "info"),
        ("CODEPAINT_RENDER__ESCAPE_HTML", "maybe")],
        ∀ k : Setting, k.touchedBy v.1 = true → v.1 = k.variableName := by
      decide +kernel
    exact husual
  refine ⟨⟨_, hfile⟩, hnames, ((load_layered own_laws hfile hnames).1 _).2 ⟨fun k => ?_, by decide⟩⟩
  rw [Terms.chosen, hterms, hvariables, Option.bind_some, hget]
  cases k
  all_goals rfl

/-- A variable for a whole section spoils it, although each setting has a value that can be
converted. -/
theorem load_section_variable :
    let w : Surroundings := ⟨fun _ => .error .missing, [("CODEPAINT_RENDER", "5")]⟩
    ownTerms.FileReady w (ownTerms.namedPath? w {}) none ∧
      (∀ k, ownTerms.read? k (ownTerms.chosen w {} none k) = some (({} : Settings).get k)) ∧
      own.load w {} = .error .invalid := by
  intro w
  have hfile : ownTerms.FileReady w (ownTerms.namedPath? w {}) none := by
    refine .missing ?_
    have hpath : ownTerms.namedPath? w {} = none := by decide +kernel
    rw [hpath]
    exact .unnamed ⟨rfl, fun _ _ _ => rfl⟩ rfl
  refine ⟨hfile, fun k => ?_, by decide +kernel⟩
  cases k
  all_goals rfl

/-! ## Settings that were saved -/

/-- Settings whose texts are plain can be saved, and are loaded from that file as they were, if no
variable of this program is set. -/
theorem load_toToml (hL : L.Laws T) {s : Settings} (hlow : 1 ≤ s.width) (hhigh : s.width < 2 ^ 63)
    (hplain : s.IsPlain) :
    ∃ text, L.toToml s = .ok text ∧ ∀ (w : Surroundings) (path : Option String),
      T.Selects w path (some text) → T.variableFile w = [] →
      (∀ v ∈ w.environment, Variables.isOwn v.1 = false) →
      L.load w { path := path } = .ok s := by
  obtain ⟨text, htext, hdenotes⟩ :=
    hL.write s.tidy_sections (s.isPlain_sections hhigh hplain)
  refine ⟨text, by rw [Libraries.toToml, htext], fun w path hselects hnone hown => ?_⟩
  obtain ⟨file, htoml, hsectioned, hget⟩ := hL.toml s.tidy_sections hdenotes
  have hlookup {name : String} (hname : Variables.isOwn name = true) :
      w.environment.lookup name = none := by
    refine List.lookup_eq_none_iff.2 fun v hv => bne_iff_ne.2 ?_
    rintro rfl
    rw [hown v hv] at hname
    cases hname
  have hpath : T.namedPath? w { path := path } = path := by
    rw [Terms.namedPath?, hlookup (by decide), hnone]
    exact Option.or_none
  have hfile : T.FileReady w (T.namedPath? w { path := path }) (some file) := by
    rw [hpath]
    exact .present hselects htoml hsectioned
  have hnames : T.UsualNames (w.environment ++ T.variableFile w) := by
    rw [hnone, List.append_nil]
    intro v hv k htouches
    exact absurd ((hown v hv).symm.trans (hL.isOwn_of_touches htouches)) (by decide)
  have hchosen (k : Setting) :
      T.chosen w { path := path } (some file) k = T.literal (k.literal (s.get k)) := by
    have hvariable : w.environment.lookup k.variableName = none := by
      refine hlookup ?_
      cases k
      all_goals decide
    simp only [Terms.chosen, Terms.inVariables?, hnone, hvariable, Option.bind_some, hget,
      value?_sections]
    cases k
    all_goals rfl
  refine (hL.load_eq_ok_iff hfile hnames).2 ⟨fun k => ?_, Nat.ne_of_gt hlow⟩
  rw [hchosen]
  exact hL.read?_literal (Nat.lt_trans hhigh (by decide)) k

/-- Texts that look like other things come back as texts. -/
theorem load_toToml_lookalikes :
    let s : Settings := ⟨9223372036854775807, ⟨"true", "# [log] = '7'", true⟩, ""⟩
    let text :=
      "[printer]\nindent_width = 9223372036854775807\n\n[render]\ntaken_color = \"true\"\n" ++
        "not_taken_color = \"# [log] = '7'\"\nescape_html = true\n\n[log]\nfilter = \"\"\n"
    let w : Surroundings :=
      ⟨(Folder.ofList [("conf/own.toml", text)]).read, [("CODEPAINT", "x")]⟩
    s.IsPlain ∧ own.toToml s = .ok text ∧ own.load w { path := some "conf/own.toml" } = .ok s := by
  intro s text w
  have hplain : s.IsPlain := by decide
  have hsave : own.toToml s = .ok text := by decide +kernel
  obtain ⟨text', htext, hload⟩ := load_toToml own_laws (by decide) (by decide) hplain
  obtain rfl : text = text' := Except.ok.inj (hsave.symm.trans htext)
  refine ⟨hplain, hsave, hload w (some "conf/own.toml") ?_ ?_ (by decide)⟩
  · exact .named (by decide +kernel) (by decide +kernel)
  · have hnone : w.fileVariables = [] := by decide +kernel
    exact hnone

end BranchPaint.Settings
