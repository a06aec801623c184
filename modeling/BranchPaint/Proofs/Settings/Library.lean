import BranchPaint.Proofs.Settings.Written

/-!
# The libraries of the program keep the laws

`Libraries.own` lays all that the sources say over each other as trees. For each of the five
settings this comes to a rule without trees, and with it these libraries do what is asked of all
(`Libraries.own_laws`).

What a layer says for a setting is a list, in order (`Setting.saidBy`). One entry laid over a tree
leaves the last thing it says in place of what was there, or that itself (`Setting.Holds.place`); so
does a whole layer (`Setting.Holds.addLayer`). That needs entries that treat a section as a table
(`Setting.Regular`). A table without fields says nothing, even where a value is wanted.
-/

namespace BranchPaint

/-! ## Small letters -/

/-- A small letter or an underscore stays as it is. -/
theorem Scalar.lowerChar_of_small {c : Char} (hc : (c.isLower || c = '_') = true) :
    Scalar.lowerChar c = c := by
  have hkelvin : c ≠ 'K' :=
    ne_of_class (f := fun c => c.isLower || c = '_') hc (by decide)
  have hupper : c.isUpper = false := by
    simp only [Bool.or_eq_true, decide_eq_true_eq] at hc
    rcases hc with hlower | rfl
    · simp only [Char.isLower, Char.isUpper, Bool.and_eq_true, decide_eq_true_eq, ge_iff_le,
        UInt32.le_iff_toNat_le] at hlower ⊢
      have hbound : 97 ≤ c.val.toNat := hlower.1
      have hnot : ¬ c.val.toNat ≤ 90 := by omega
      exact decide_eq_false fun h => hnot h.2
    · decide
  rw [lowerChar, if_neg hkelvin, Char.toLower_eq_of_not_isUpper (by simp [hupper])]

/-- A small name stays as it is. -/
theorem Scalar.lower_of_small {name : String} (h : IsSmallName name) :
    Scalar.lower name = name := by
  have hmap : name.toList.map Scalar.lowerChar = name.toList :=
    (List.map_congr_left fun c hc => lowerChar_of_small (h.2 c hc)).trans (List.map_id _)
  rw [lower, hmap, String.ofList_toList]

/-- A small name is a key of one step. -/
theorem Key.steps_of_small {name : String} (h : IsSmallName name) :
    Key.steps name = [.name name] := by
  have hchars : ∀ c ∈ name.toList, isNameChar c = true := by
    intro c hc
    have hsmall := h.2 c hc
    simp only [Bool.or_eq_true, decide_eq_true_eq] at hsmall
    rcases hsmall with hlower | rfl
    · simp [isNameChar, Char.isAlphanum, Char.isAlpha, hlower]
    · decide
  have htake : name.toList.takeWhile isNameChar = name.toList :=
    List.takeWhile_eq_self_iff.2 hchars
  have hdrop : name.toList.dropWhile isNameChar = [] := List.dropWhile_eq_nil_iff.2 hchars
  have hname : name.toList.isEmpty = false := by simp [h.1]
  rw [steps, marked?, htake, hdrop, hname]
  simp [marked?]

/-! ## Fields of a tree -/

namespace SettingTree

variable {t : SettingTree} {old v : Option SettingTree}

/-- What something says where it is laid: itself, unless it is a table without fields. -/
def spoken : SettingTree → List SettingTree
  | table [] => []
  | v => [v]

/-- What a tree says under a name, in order. -/
def said (t : SettingTree) (key : String) : List SettingTree :=
  t.fields.flatMap fun f => if Scalar.lower f.1 = key then f.2.spoken else []

/-- What is in a place counts as a value, if there is one. -/
def CountsAs (old v : Option SettingTree) : Prop := ∀ x ∈ v, ∃ y ∈ old, y.scalar? = x.scalar?

/-- What was put into a field is there, and the other fields are as they were. -/
theorem field?_put (t : SettingTree) (name : String) (v : SettingTree) (other : String) :
    (t.put name v).field? other =
      if Scalar.lower other = Scalar.lower name then some v else t.field? other := by
  simp only [field?, put, fields, List.lookup_cons]
  by_cases h : Scalar.lower other = Scalar.lower name
  · simp [h]
  · simp [h, beq_false_of_ne h]

/-- Names that differ in case are the same name. -/
theorem field?_eq_of_lower {a b : String} (h : Scalar.lower a = Scalar.lower b) :
    t.field? a = t.field? b := by
  rw [field?, field?, h]

/-- Fields laid over a table leave a table. -/
theorem layFields_table (fs gs : List (String × SettingTree)) :
    ∃ hs, layFields fs (.table gs) = .table hs := by
  induction fs generalizing gs with
  | nil => exact ⟨gs, rfl⟩
  | cons f fs ih => exact ih _

/-- What says something where it is laid is what counts there. -/
theorem scalar?_layOver {w : SettingTree} (hw : w.spoken = [w]) (old : Option SettingTree) :
    (w.layOver old).scalar? = w.scalar? := by
  cases w with
  | table fs =>
    cases fs with
    | nil => cases hw
    | cons f fs =>
      obtain ⟨hs, h⟩ := layFields_table fs
        ((Scalar.lower f.1, f.2.layOver ((old.getD empty).field? f.1)) :: (old.getD empty).fields)
      have hlay : (table (f :: fs)).layOver old = .table hs := h
      rw [hlay]
      rfl
  | nothing | scalar _ | list _ => rfl

/-- What is laid over a place counts there if it says something, and else what was there does. -/
theorem CountsAs.layOver (h : CountsAs old v) (w : SettingTree) :
    CountsAs (some (w.layOver old)) (w.spoken.getLast?.or v) := by
  have hcases : w.spoken = [w] ∨ w = .table [] := by
    unfold spoken
    split
    · exact .inr rfl
    · exact .inl rfl
  rcases hcases with hw | rfl
  · rw [hw]
    rintro x hx
    obtain rfl : w = x := Option.some.inj hx
    exact ⟨_, rfl, scalar?_layOver hw old⟩
  · intro x hx
    obtain ⟨y, hy, hscalar⟩ := h x hx
    obtain rfl : old = some y := hy
    exact ⟨y, rfl, hscalar⟩

/-- Fields laid over a tree leave under a name what they say for it last. -/
theorem CountsAs.layFields {key : String} (hkey : Scalar.lower key = key)
    (fs : List (String × SettingTree)) (h : CountsAs (t.field? key) v) :
    CountsAs ((layFields fs t).field? key) (((table fs).said key).getLast?.or v) := by
  induction fs generalizing t v with
  | nil => exact h
  | cons f fs ih =>
    have hput := field?_put t f.1 (f.2.layOver (t.field? f.1)) key
    rw [hkey] at hput
    have hsaid : (table (f :: fs)).said key =
        (if Scalar.lower f.1 = key then f.2.spoken else []) ++ (table fs).said key :=
      List.flatMap_cons
    rw [hsaid, List.getLast?_append, Option.or_assoc]
    refine ih ?_
    by_cases hname : Scalar.lower f.1 = key
    · rw [if_pos hname.symm] at hput
      rw [if_pos hname, hput, field?_eq_of_lower (hname.trans hkey.symm)]
      exact h.layOver f.2
    · rw [if_neg fun h => hname h.symm] at hput
      rw [if_neg hname, hput]
      exact h

end SettingTree

/-! ## Layers -/

namespace Setting

variable {k : Setting} {t : SettingTree} {v : Option SettingTree}

/-- The section of a setting is in small letters. -/
theorem lower_home (k : Setting) : Scalar.lower k.home = k.home := by
  cases k
  all_goals decide

/-- So is its key. -/
theorem lower_key (k : Setting) : Scalar.lower k.key = k.key := by
  cases k
  all_goals decide

/-- Do steps lead to the setting, or into it, or to something that holds it? -/
def Touched (k : Setting) : List Step → Prop
  | [] => False
  | .index _ :: _ => True
  | .name s :: .name n :: _ => Scalar.lower s = k.home ∧ Scalar.lower n = k.key
  | .name s :: _ => Scalar.lower s = k.home

/-- Steps that touch a setting and start with a name start with its section. -/
theorem Touched.home_eq {s : String} {steps : List Step} (h : k.Touched (.name s :: steps)) :
    Scalar.lower s = k.home := by
  cases steps with
  | nil => exact h
  | cons step steps =>
    cases step with
    | name n => exact h.1
    | index i => exact h

instance (k : Setting) (steps : List Step) : Decidable (k.Touched steps) :=
  match steps with
  | [] => inferInstanceAs (Decidable False)
  | .index _ :: _ => inferInstanceAs (Decidable True)
  | .name s :: .name n :: _ =>
    inferInstanceAs (Decidable (Scalar.lower s = k.home ∧ Scalar.lower n = k.key))
  | [.name s] | .name s :: .index _ :: _ => inferInstanceAs (Decidable (Scalar.lower s = k.home))

/-- What an entry of a layer says for the setting, in order. -/
def saidBy (k : Setting) (entry : List Step × SettingTree) : List SettingTree :=
  match entry.1 with
  | [.name s] => if Scalar.lower s = k.home then entry.2.said k.key else []
  | [.name s, .name n] =>
    if Scalar.lower s = k.home ∧ Scalar.lower n = k.key then entry.2.spoken else []
  | _ => []

/-- An entry that does not touch the setting says nothing for it. -/
theorem saidBy_of_not_touched {steps : List Step} (h : ¬ k.Touched steps) (w : SettingTree) :
    k.saidBy (steps, w) = [] := by
  unfold saidBy
  split
  · rename_i s heq
    obtain rfl : steps = [.name s] := heq
    exact if_neg h
  · rename_i s n heq
    obtain rfl : steps = [.name s, .name n] := heq
    exact if_neg h
  · rfl

/-- Does an entry give a table for a section, or something for a name in a section? -/
def isDirect : List Step × SettingTree → Bool
  | ([.name _], .table _) | ([.name _, .name _], _) => true
  | _ => false

/-- An entry that is about the setting is direct. -/
def Regular (k : Setting) (entry : List Step × SettingTree) : Prop :=
  k.Touched entry.1 → isDirect entry = true

/-- The section of the setting is a table or is not there, and what stands for the key counts as the
value. -/
def Holds (k : Setting) (t : SettingTree) (v : Option SettingTree) : Prop :=
  ∃ fs, (t.field? k.home).getD .empty = .table fs ∧
    SettingTree.CountsAs ((SettingTree.table fs).field? k.key) v

/-- A table put into the section is what the setting stands in. -/
theorem Holds.put_home {fs : List (String × SettingTree)} {s : String}
    (hs : Scalar.lower s = k.home)
    (hv : SettingTree.CountsAs ((SettingTree.table fs).field? k.key) v) :
    k.Holds (t.put s (.table fs)) v := by
  refine ⟨fs, ?_, hv⟩
  rw [SettingTree.field?_put, if_pos (k.lower_home.trans hs.symm), Option.getD_some]

/-- What is put elsewhere does not matter. -/
theorem Holds.put_other (h : k.Holds t v) {s : String} (hs : Scalar.lower s ≠ k.home)
    (x : SettingTree) : k.Holds (t.put s x) v := by
  obtain ⟨fs, hfs, hv⟩ := h
  refine ⟨fs, ?_, hv⟩
  rw [SettingTree.field?_put, if_neg fun h => hs (h.symm.trans k.lower_home)]
  exact hfs

/-- Steps that start with a name only change what is under that name. -/
theorem exists_place_name (w : SettingTree) (s : String) (steps : List Step) (t : SettingTree) :
    ∃ x, w.place (.name s :: steps) t = t.put s x := by
  cases steps with
  | nil => exact ⟨_, rfl⟩
  | cons step steps => exact ⟨_, rfl⟩

/-- Steps that start with a name go by the fields of a tree. -/
theorem place_name_congr {t u : SettingTree} (h : t.fields = u.fields) (w : SettingTree)
    (s : String) (steps : List Step) :
    w.place (.name s :: steps) t = w.place (.name s :: steps) u := by
  have hfield : t.field? s = u.field? s := by rw [SettingTree.field?, SettingTree.field?, h]
  have hput (x : SettingTree) : t.put s x = u.put s x := by
    rw [SettingTree.put, SettingTree.put, h]
  cases steps with
  | nil => rw [SettingTree.place, SettingTree.place, hfield, hput]
  | cons step steps => rw [SettingTree.place, SettingTree.place, hfield, hput] <;> simp

/-- Steps into a section are steps into its table. -/
theorem place_in_home {fs : List (String × SettingTree)} {s : String}
    (hs : Scalar.lower s = k.home) (hfs : (t.field? k.home).getD .empty = .table fs)
    (w : SettingTree) (n : String) (steps : List Step) :
    w.place (.name s :: .name n :: steps) t =
      t.put s (w.place (.name n :: steps) (.table fs)) := by
  have hfields : ((t.field? s).getD .nothing).fields = (SettingTree.table fs).fields := by
    rw [← hfs, SettingTree.field?_eq_of_lower (hs.trans k.lower_home.symm)]
    cases t.field? k.home with
    | none => rfl
    | some x => rfl
  exact congrArg (t.put s) (place_name_congr hfields w n steps)

/-- A table for the section leaves what it says last. -/
theorem Holds.place_home (h : k.Holds t v) {s : String} (hs : Scalar.lower s = k.home)
    (gs : List (String × SettingTree)) :
    k.Holds ((SettingTree.table gs).place [.name s] t)
      (((SettingTree.table gs).said k.key).getLast?.or v) := by
  obtain ⟨fs, hfs, hv⟩ := h
  obtain ⟨hs', htable⟩ := SettingTree.layFields_table gs fs
  have hplace : (SettingTree.table gs).place [.name s] t = t.put s (.table hs') := by
    rw [SettingTree.place, SettingTree.layOver,
      SettingTree.field?_eq_of_lower (hs.trans k.lower_home.symm), hfs, htable]
  rw [hplace]
  exact .put_home hs (htable ▸ hv.layFields k.lower_key gs)

/-- Something for the setting itself takes its place. -/
theorem Holds.place_key (h : k.Holds t v) {s n : String} (hs : Scalar.lower s = k.home)
    (hn : Scalar.lower n = k.key) (w : SettingTree) :
    k.Holds (w.place [.name s, .name n] t) (w.spoken.getLast?.or v) := by
  obtain ⟨fs, hfs, hv⟩ := h
  have hold : (SettingTree.table fs).field? n = (SettingTree.table fs).field? k.key :=
    SettingTree.field?_eq_of_lower (hn.trans k.lower_key.symm)
  rw [place_in_home hs hfs, SettingTree.place, hold]
  refine .put_home hs ?_
  have hput := SettingTree.field?_put (.table fs) n
    (w.layOver ((SettingTree.table fs).field? k.key)) k.key
  rw [if_pos (k.lower_key.trans hn.symm)] at hput
  exact hput ▸ hv.layOver w

/-- An entry that is not about the setting leaves it as it is. -/
theorem Holds.place_untouched (h : k.Holds t v) {steps : List Step} (hsteps : ¬ k.Touched steps)
    (w : SettingTree) : k.Holds (w.place steps t) v := by
  rcases steps with _ | ⟨s | i, rest⟩
  · exact h
  · by_cases hs : Scalar.lower s = k.home
    · obtain ⟨fs, hfs, hv⟩ := h
      rcases rest with _ | ⟨n | i, rest⟩
      · exact absurd hs hsteps
      · have hn : Scalar.lower n ≠ k.key := fun hn => hsteps ⟨hs, hn⟩
        obtain ⟨y, hy⟩ := exists_place_name w n rest (.table fs)
        rw [place_in_home hs hfs, hy]
        refine .put_home hs ?_
        have hput := SettingTree.field?_put (.table fs) n y k.key
        rw [if_neg fun h => hn (h.symm.trans k.lower_key)] at hput
        exact hput ▸ hv
      · exact absurd hs hsteps
    · obtain ⟨x, hx⟩ := exists_place_name w s rest t
      exact hx ▸ h.put_other hs x
  · exact absurd trivial hsteps

/-- An entry leaves what it says last in place of what was there. -/
theorem Holds.place (h : k.Holds t v) {entry : List Step × SettingTree}
    (hentry : k.Regular entry) :
    k.Holds (entry.2.place entry.1 t) ((k.saidBy entry).getLast?.or v) := by
  obtain ⟨steps, w⟩ := entry
  by_cases htouched : k.Touched steps
  · have hdirect := hentry htouched
    unfold isDirect at hdirect
    split at hdirect
    · rename_i s gs heq
      cases heq
      simpa [saidBy, htouched.home_eq] using h.place_home htouched.home_eq gs
    · rename_i s n w' heq
      cases heq
      simpa [saidBy, htouched.1, htouched.2] using h.place_key htouched.1 htouched.2 w
    · cases hdirect
  · rw [saidBy_of_not_touched htouched]
    exact h.place_untouched htouched w

/-- So does a layer. -/
theorem Holds.addLayer (h : k.Holds t v) {layer : Layer}
    (hlayer : ∀ entry ∈ layer, k.Regular entry) :
    k.Holds (t.addLayer layer) ((layer.flatMap k.saidBy).getLast?.or v) := by
  induction layer generalizing t v with
  | nil => exact h
  | cons entry layer ih =>
    obtain ⟨hentry, hlayer⟩ := List.forall_mem_cons.1 hlayer
    rw [List.flatMap_cons, List.getLast?_append, Option.or_assoc]
    exact ih (h.place hentry) hlayer

/-- What is read for a setting is what its value can be read as. -/
theorem Holds.get? {x : SettingTree} (h : k.Holds t (some x)) {α : Type} (n : Nat)
    (read : Scalar → Option α) (default : α) :
    t.get? k.home k.key n read default = x.scalar?.bind read := by
  obtain ⟨fs, hfs, hx⟩ := h
  obtain ⟨y, hy, hscalar⟩ := hx x rfl
  have hhome : t.field? k.home = some (.table fs) := by
    cases hcase : t.field? k.home with
    | some u => exact congrArg some (by rw [← hfs, hcase]; rfl)
    | none =>
      rw [hcase] at hfs
      cases hfs
      cases hy
  have hfield : (SettingTree.table fs).field? k.key = some y := hy
  simp only [SettingTree.get?, hhome, SettingTree.slot?, hfield, hscalar]

end Setting

/-- What a scalar is for a setting. -/
def Scalar.read? : (k : Setting) → Scalar → Option k.Kind
  | .width => Scalar.width?
  | .escapeHtml => Scalar.flag?
  | .takenColor | .notTakenColor | .filter => Scalar.text?

/-- A tree that holds values amounts to the settings that are read from these. -/
theorem Settings.ofTree?_eq_some_iff {t : SettingTree} {value : Setting → SettingTree}
    (h : ∀ k : Setting, k.Holds t (some (value k))) (s : Settings) :
    ofTree? t = some s ↔ ∀ k, (value k).scalar?.bind (Scalar.read? k) = some (s.get k) := by
  have hwidth := (h .width).get? 0 Scalar.width? 4
  have htaken := (h .takenColor).get? 0 Scalar.text? "lawngreen"
  have hother := (h .notTakenColor).get? 1 Scalar.text? "red"
  have hflag := (h .escapeHtml).get? 2 Scalar.flag? false
  have hfilter := (h .filter).get? 0 Scalar.text? "warn"
  constructor
  · intro hs
    obtain ⟨width, hw, hs⟩ := Option.bind_eq_some_iff.1 hs
    obtain ⟨taken, ht, hs⟩ := Option.bind_eq_some_iff.1 hs
    obtain ⟨other, ho, hs⟩ := Option.bind_eq_some_iff.1 hs
    obtain ⟨flag, hf, hs⟩ := Option.bind_eq_some_iff.1 hs
    obtain ⟨filter, hl, hs⟩ := Option.bind_eq_some_iff.1 hs
    obtain rfl := Option.some.inj hs
    intro k
    cases k with
    | width => exact hwidth.symm.trans hw
    | takenColor => exact htaken.symm.trans ht
    | notTakenColor => exact hother.symm.trans ho
    | escapeHtml => exact hflag.symm.trans hf
    | filter => exact hfilter.symm.trans hl
  · intro hs
    exact Option.bind_eq_some_iff.2 ⟨_, hwidth.trans (hs .width),
      Option.bind_eq_some_iff.2 ⟨_, htaken.trans (hs .takenColor),
        Option.bind_eq_some_iff.2 ⟨_, hother.trans (hs .notTakenColor),
          Option.bind_eq_some_iff.2 ⟨_, hflag.trans (hs .escapeHtml),
            Option.bind_eq_some_iff.2 ⟨_, hfilter.trans (hs .filter), rfl⟩⟩⟩⟩⟩

/-! ## Variables -/

namespace VariableFile

/-- A file of variables adds to those that are set. -/
theorem exists_addLines (ls : List (List Char)) (known : Variables) :
    ∃ added, addLines ls known = known ++ added := by
  induction ls generalizing known with
  | nil => exact ⟨[], (List.append_nil known).symm⟩
  | cons l ls ih =>
    have hsame : ∃ added, known = known ++ added := ⟨[], (List.append_nil known).symm⟩
    simp only [addLines]
    split
    · exact ih known
    · split
      · exact hsame
      · split
        · exact hsame
        · obtain ⟨added, h⟩ := ih _
          exact ⟨_, h.trans (List.append_assoc ..)⟩

end VariableFile

/-- The variables that the file `.env` sets, in order. -/
def Surroundings.fileVariables (w : Surroundings) : Variables :=
  w.allVariables.drop w.environment.length

/-- They stand behind those that are set. -/
theorem Surroundings.allVariables_eq (w : Surroundings) :
    w.allVariables = w.environment ++ w.fileVariables := by
  have hadded : ∃ added, w.allVariables = w.environment ++ added := by
    unfold allVariables
    split
    · exact VariableFile.exists_addLines _ _
    · exact ⟨[], (List.append_nil _).symm⟩
  obtain ⟨added, h⟩ := hadded
  rw [fileVariables, h, List.drop_left]

namespace Variables

variable (vs : Variables)

/-- Of the variables of a name, the first is effective. -/
theorem filter_effective (name : String) : vs.effective.filter (fun v => v.1 = name) =
    ((vs.lookup name).map fun value => (name, value)).toList := by
  unfold effective
  induction vs with
  | nil => rfl
  | cons v vs ih =>
    obtain ⟨name', value⟩ := v
    rw [List.foldr_cons, List.filter_cons, List.filter_filter, List.lookup_cons]
    by_cases h : name' = name
    · subst h
      simp
    · have hkeep : ∀ v : String × String,
          (decide (v.1 = name) && decide (v.1 ≠ name')) = decide (v.1 = name) := by
        intro v
        by_cases hv : v.1 = name
        · simp [hv, Ne.symm h]
        · simp [hv]
      simp only [hkeep, h, decide_false, beq_false_of_ne (Ne.symm h)]
      exact ih

/-- Effective variables are variables. -/
theorem mem_of_mem_effective : ∀ v ∈ vs.effective, v ∈ vs := by
  unfold effective
  induction vs with
  | nil => exact fun v hv => hv
  | cons v vs ih =>
    intro u hu
    rcases List.mem_cons.1 hu with rfl | hu
    · exact List.mem_cons_self
    · exact List.mem_cons_of_mem _ (ih u (List.mem_filter.1 hu).1)

/-- A name that starts as wanted with the sign for kelvin as a small letter does so without. -/
theorem isPrefixOf_toLower {mark : List Char} (hmark : 'k' ∉ mark) {cs : List Char}
    (h : mark.isPrefixOf (cs.map Scalar.lowerChar) = true) :
    mark.isPrefixOf (cs.map Char.toLower) = true := by
  induction mark generalizing cs with
  | nil => rfl
  | cons d mark ih =>
    cases cs with
    | nil => cases h
    | cons c cs =>
      obtain ⟨hd, hmark⟩ := not_or.1 (mt List.mem_cons.2 hmark)
      simp only [List.map_cons, List.isPrefixOf_cons_cons, Bool.and_eq_true, beq_iff_eq] at h ⊢
      refine ⟨?_, ih hmark h.2⟩
      by_cases hkelvin : c = 'K'
      · rw [Scalar.lowerChar, if_pos hkelvin] at h
        exact absurd h.1.symm hd
      · rw [Scalar.lowerChar, if_neg hkelvin] at h
        exact h.1

/-- A variable that sets a key is one of this program. -/
theorem isOwn_of_key? {name key : String} (h : key? variableStart name = some key) :
    isOwn name = true := by
  have hstart : (Scalar.lower variableStart).toList = variableStart.toList.map Char.toLower := by
    decide
  simp only [key?, hstart] at h
  split at h
  · rename_i hprefixed
    rw [Scalar.lower, String.toList_ofList] at hprefixed
    exact isPrefixOf_toLower (by decide) hprefixed
  · cases h

end Variables

namespace Setting

variable {k : Setting}

/-- A variable is about the setting, by its name. -/
def touchedBy (k : Setting) (name : String) : Bool :=
  (Variables.key? variableStart name).any fun key => decide (k.Touched (Key.steps key))

/-- The usual name of a variable spells the section and the key. -/
theorem steps_variableName (k : Setting) :
    (Variables.key? variableStart k.variableName).map Key.steps =
      some [.name k.home, .name k.key] := by
  cases k
  all_goals decide +kernel

/-- Variables with usual names make regular entries. -/
theorem regular_of_usualNames {vs : Variables}
    (hvs : ∀ v ∈ vs, k.touchedBy v.1 = true → v.1 = k.variableName) :
    ∀ entry ∈ vs.layer variableStart, k.Regular entry := by
  intro entry hentry htouched
  obtain ⟨v, hv, hmap⟩ := List.mem_filterMap.1 hentry
  obtain ⟨key, hkey, rfl⟩ := Option.map_eq_some_iff.1 hmap
  have hname : v.1 = k.variableName := by
    refine hvs v hv ?_
    simp only [touchedBy, hkey, Option.any_some, decide_eq_true_eq]
    exact htouched
  have hsteps := k.steps_variableName
  rw [← hname, hkey, Option.map_some, Option.some.injEq] at hsteps
  rw [hsteps]
  rfl

/-- Variables with usual names say their values, and nothing else. -/
theorem saidBy_of_usualNames {vs : Variables}
    (hvs : ∀ v ∈ vs, k.touchedBy v.1 = true → v.1 = k.variableName) :
    (vs.layer variableStart).flatMap k.saidBy =
      (vs.filter fun v => v.1 = k.variableName).map fun v => .scalar (.ofVariable v.2) := by
  induction vs with
  | nil => rfl
  | cons v vs ih =>
    obtain ⟨hv, hvs⟩ := List.forall_mem_cons.1 hvs
    have htail := ih hvs
    unfold Variables.layer at htail ⊢
    rw [List.filterMap_cons, List.filter_cons]
    by_cases hname : v.1 = k.variableName
    · obtain ⟨key, hkey, hsteps⟩ := Option.map_eq_some_iff.1 k.steps_variableName
      simp only [hname, hkey, Option.map_some, decide_true, if_true, List.flatMap_cons,
        List.map_cons, htail, hsteps]
      simp [saidBy, k.lower_home, k.lower_key, SettingTree.spoken]
    · simp only [hname, decide_false]
      cases hkey : Variables.key? variableStart v.1 with
      | none => exact htail
      | some key =>
        have hnot : ¬ k.Touched (Key.steps key) := fun h =>
          hname (hv (by simp only [touchedBy, hkey, Option.any_some, decide_eq_true h]))
        have hsaid := saidBy_of_not_touched hnot (.scalar (.ofVariable v.2))
        simp only [Option.map_some, List.flatMap_cons, hsaid, List.nil_append]
        exact htail

end Setting

/-! ## Sections -/

/-- Keys of a section say their values. -/
theorem SettingTree.said_table {es : List (String × Literal)} (hnodup : (es.map Prod.fst).Nodup)
    (hnames : ∀ e ∈ es, IsSmallName e.1) (key : String) :
    (table (es.map fun e => (e.1, .scalar e.2.scalar))).said key =
      ((es.lookup key).map fun v => .scalar v.scalar).toList := by
  induction es with
  | nil => rfl
  | cons e es ih =>
    obtain ⟨name, v⟩ := e
    obtain ⟨hnot, hnodup⟩ := List.nodup_cons.1 hnodup
    obtain ⟨hname, hnames⟩ := List.forall_mem_cons.1 hnames
    have htail := ih hnodup hnames
    simp only [said, fields, List.map_cons, List.flatMap_cons, Scalar.lower_of_small hname,
      List.lookup_cons] at htail ⊢
    by_cases hkey : name = key
    · have hnone : es.lookup key = none := by
        refine List.lookup_eq_none_iff.2 fun f hf => bne_iff_ne.2 fun h => hnot ?_
        exact List.mem_map.2 ⟨f, hf, (h.symm.trans hkey.symm)⟩
      rw [htail, hnone, if_pos hkey]
      simp [hkey, spoken]
    · rw [htail, if_neg hkey, beq_false_of_ne fun h => hkey h.symm]
      rfl

/-- Sections say for a setting what they have for it. -/
theorem Sections.saidBy_layer {doc : Sections} (hdoc : doc.Tidy) (k : Setting) :
    doc.layer.flatMap k.saidBy = ((doc.value? k).map fun v => .scalar v.scalar).toList := by
  obtain ⟨hnodup, hkeys, hnames⟩ := hdoc
  induction doc with
  | nil => rfl
  | cons sec doc ih =>
    obtain ⟨name, es⟩ := sec
    obtain ⟨hnot, hnodup⟩ := List.nodup_cons.1 hnodup
    obtain ⟨hkeysHere, hkeys⟩ := List.forall_mem_cons.1 hkeys
    obtain ⟨⟨hname, hnamesHere⟩, hnames⟩ := List.forall_mem_cons.1 hnames
    have htail := ih hnodup hkeys hnames
    have hentry : k.saidBy
        ([.name name], .table (es.map fun e => (e.1, .scalar e.2.scalar))) =
        if name = k.home then
          ((es.lookup k.key).map fun v => SettingTree.scalar v.scalar).toList else [] := by
      simp only [Setting.saidBy, Scalar.lower_of_small hname,
        SettingTree.said_table hkeysHere hnamesHere]
    have hlayer : Sections.layer ((name, es) :: doc) =
        ([.name name], .table (es.map fun e => (e.1, .scalar e.2.scalar))) ::
          Sections.layer doc := by
      have hsteps : Key.steps name = [.name name] := Key.steps_of_small hname
      simp only [layer, List.map_cons, hsteps]
    rw [hlayer, List.flatMap_cons, hentry, htail]
    simp only [value?, List.lookup_cons]
    by_cases hhome : name = k.home
    · have hnone : doc.lookup k.home = none := by
        refine List.lookup_eq_none_iff.2 fun f hf => bne_iff_ne.2 fun h => hnot ?_
        exact List.mem_map.2 ⟨f, hf, h.symm.trans hhome.symm⟩
      simp [hhome, hnone]
    · simp [hhome, beq_false_of_ne fun h => hhome h.symm]

/-- Sections make regular entries. -/
theorem Sections.regular_layer {doc : Sections} (hdoc : doc.Tidy) :
    ∀ entry ∈ doc.layer, ∀ k : Setting, k.Regular entry := by
  intro entry hentry k _
  obtain ⟨sec, hsec, rfl⟩ := List.mem_map.1 hentry
  rw [Key.steps_of_small (hdoc.names sec hsec).1]
  rfl

/-! ## The laws -/

namespace Layer

/-- What a layer supplies for a setting. The value of what is no scalar is nothing. -/
def get? (layer : Layer) (k : Setting) : Option (Option Scalar) :=
  (layer.flatMap k.saidBy).getLast?.map SettingTree.scalar?

/-- All entries of a layer are regular. -/
def IsRegular (layer : Layer) : Prop := ∀ entry ∈ layer, ∀ k : Setting, k.Regular entry

/-- What is said last counts. -/
theorem get?_append (a b : Layer) (k : Setting) : get? (a ++ b) k = (get? b k).or (get? a k) := by
  rw [get?, List.flatMap_append, List.getLast?_append, Option.map_or]
  rfl

/-- Layers of regular entries make one layer of regular entries. -/
theorem IsRegular.append {a b : Layer} (ha : IsRegular a) (hb : IsRegular b) :
    IsRegular (a ++ b) := by
  intro entry hentry
  rcases List.mem_append.1 hentry with h | h
  · exact ha entry h
  · exact hb entry h

/-- Tidy sections supply what they have. -/
theorem get?_sections {doc : Sections} (hdoc : doc.Tidy) (k : Setting) :
    get? doc.layer k = (doc.value? k).map fun v => some v.scalar := by
  rw [get?, Sections.saidBy_layer hdoc]
  cases doc.value? k with
  | none => rfl
  | some v => rfl

/-- Variables with usual names supply their values. -/
theorem get?_variables {vs : Variables} {k : Setting}
    (hvs : ∀ v ∈ vs.effective, k.touchedBy v.1 = true → v.1 = k.variableName) :
    get? (vs.effective.layer variableStart) k =
      (vs.lookup k.variableName).map fun text => some (.ofVariable text) := by
  rw [get?, Setting.saidBy_of_usualNames hvs, vs.filter_effective]
  cases vs.lookup k.variableName with
  | none => rfl
  | some value => rfl

/-- An override supplies the value of its key. -/
theorem get?_override (k j : Setting) (x : Literal) :
    get? [([.name k.home, .name k.key], .scalar x.scalar)] j =
      if j = k then some (some x.scalar) else none := by
  have hsame : ∀ k j : Setting,
      (Scalar.lower k.home = j.home ∧ Scalar.lower k.key = j.key) ↔ j = k := by decide +kernel
  simp only [get?, List.flatMap_cons, List.flatMap_nil, List.append_nil, Setting.saidBy, hsame]
  by_cases hj : j = k
  · simp [hj, SettingTree.spoken, SettingTree.scalar?]
  · simp [hj]

end Layer

namespace Libraries

/-- The terms for the libraries of the program. -/
def ownTerms : own.Terms where
  Value := Option Scalar
  literal v := some v.scalar
  parse text := some (.ofVariable text)
  read? k v := v.bind (Scalar.read? k)
  get? := Layer.get?
  Sectioned := Layer.IsRegular
  toml? := Toml.layer?
  endings := ["toml"]
  variableFile := Surroundings.fileVariables
  Touches name k := k.touchedBy name = true

/-- A single source makes its own layer. -/
theorem own_build?_single (w : Surroundings) (src : Source) :
    own.build? w ⟨[src], []⟩ = src.layer? w := by
  simp only [own, Recipe.layer?, Source.layers?, List.map_nil, List.append_nil]
  cases src.layer? w with
  | none => rfl
  | some layer => exact congrArg some (List.append_nil layer)

/-- Sources one behind the other make layers one behind the other. -/
theorem layers?_append {w : Surroundings} {srcs : List Source} {src : Source} {a b : Layer}
    (ha : Source.layers? w srcs = some a) (hb : src.layer? w = some b) :
    Source.layers? w (srcs ++ [src]) = some (a ++ b) := by
  induction srcs generalizing a with
  | nil =>
    obtain rfl := Option.some.inj ha
    simp [Source.layers?, hb]
  | cons first srcs ih =>
    obtain ⟨layer, hlayer, ha⟩ := Option.bind_eq_some_iff.1 ha
    obtain ⟨layers, hlayers, ha⟩ := Option.bind_eq_some_iff.1 ha
    obtain rfl := Option.some.inj ha
    simp [Source.layers?, hlayer, ih hlayers]

/-- The libraries of the program do what is asked of all. -/
theorem own_laws : own.Laws ownTerms where
  lookup_environment w name := by
    rw [← List.lookup_append]
    exact congrArg (List.lookup name) w.allVariables_eq
  given w doc hdoc :=
    ⟨doc.layer, own_build?_single w _, Sections.regular_layer hdoc, Layer.get?_sections hdoc⟩
  file w path text htext hname := by
    have hfile : w.settingsFile? path = some text := by
      rw [Surroundings.settingsFile?, htext]
      exact if_pos hname
    rw [own_build?_single, Source.layer?, hfile]
    rfl
  fileNamed w text halone htext := by
    have hfile : w.settingsFile? "codepaint" = some text := by
      rw [Surroundings.settingsFile?, halone.1]
      exact htext
    rw [own_build?_single, Source.layer?, hfile]
    rfl
  fileNamed_missing w halone hnone := by
    have hfile : w.settingsFile? "codepaint" = none := by
      rw [Surroundings.settingsFile?, halone.1]
      exact hnone
    refine ⟨([] : Layer), ?_, fun entry hentry => absurd hentry List.not_mem_nil, fun k => rfl⟩
    rw [own_build?_single, Source.layer?, hfile]
    rfl
  environment w hnames := by
    have husual (k : Setting) : ∀ v ∈ w.environment.effective,
        k.touchedBy v.1 = true → v.1 = k.variableName := fun v hv =>
      hnames v (w.environment.mem_of_mem_effective v hv) k
    refine ⟨_, own_build?_single w _, ?_, fun k => Layer.get?_variables (husual k)⟩
    exact fun entry hentry k => Setting.regular_of_usualNames (husual k) entry hentry
  isOwn_of_touches {name k} h := by
    obtain ⟨key, hkey, -⟩ := (Option.any_eq_true _ _).1 h
    exact Variables.isOwn_of_key? hkey
  source := by
    intro w srcs src (a : Layer) (b : Layer) u v ha hu hb hv
    refine ⟨(a ++ b : Layer), ?_, hu.1.append hv.1, fun k => ?_⟩
    · obtain ⟨layers, hlayers, rfl⟩ := Option.map_eq_some_iff.1 ha
      rw [own_build?_single] at hb
      simp only [own, Recipe.layer?, layers?_append hlayers hb, Option.map_some, List.map_nil,
        List.append_nil]
    · exact (Layer.get?_append a b k).trans (congrArg₂ Option.or (hv.2 k) (hu.2 k))
  override := by
    intro w srcs os (a : Layer) v ha hv k x
    have hsteps : ∀ k : Setting, Key.steps k.path = [.name k.home, .name k.key] := by
      decide +kernel
    let last : Layer := [([.name k.home, .name k.key], .scalar x.scalar)]
    have hlast : Layer.IsRegular last := by
      intro entry hentry j _
      rw [List.mem_singleton.1 hentry]
      rfl
    refine ⟨(a ++ last : Layer), ?_, hv.1.append hlast, fun j => ?_⟩
    · obtain ⟨layers, hlayers, rfl⟩ := Option.map_eq_some_iff.1 ha
      simp only [own, Recipe.layer?, hlayers, Option.map_some, List.map_append, List.map_cons,
        List.map_nil, hsteps, ← List.append_assoc]
      rfl
    · have hget := (Layer.get?_append a last j).trans
        (congrArg₂ Option.or (Layer.get?_override k j x) (hv.2 j))
      refine hget.trans ?_
      by_cases hj : j = k
      · simp only [hj, if_true]
        rfl
      · simp only [hj, if_false]
        rfl
  settings {c v} hc s := by
    have hlast (k : Setting) :
        ∃ x, (List.flatMap k.saidBy c).getLast? = some x ∧ x.scalar? = v k :=
      Option.map_eq_some_iff.1 (hc.2 k)
    choose value hvalue hscalar using hlast
    have hholds (k : Setting) : k.Holds (SettingTree.empty.addLayer c) (some (value k)) := by
      have hempty : k.Holds SettingTree.empty none := ⟨[], rfl, fun x hx => by cases hx⟩
      have hlayer := hempty.addLayer fun entry hentry => hc.1 entry hentry k
      rwa [hvalue k] at hlayer
    have hsettings := Settings.ofTree?_eq_some_iff hholds s
    simp only [hscalar] at hsettings
    exact hsettings
  read?_literal {s} _ k := by
    cases k with
    | width => exact congrArg some (Int.toNat_natCast s.width)
    | takenColor | notTakenColor | escapeHtml | filter => rfl
  write _ hplain := Toml.exists_sectionsText? hplain
  toml hdoc hdenotes :=
    ⟨_, Toml.layer?_of_denotes hdoc hdenotes, Sections.regular_layer hdoc, Layer.get?_sections hdoc⟩

end Libraries

end BranchPaint
