import Mathlib.Data.List.TakeWhile
import Stencil.Command.Arguments

/-!
# The output option

The path of `--out` is set by one option and read by nothing else: arguments that ask for a file
ask for the same without a file once this option is taken out of them.
-/

namespace Stencil.Command

/-- An option is written as its name and, after an equals sign, its value. -/
theorem Argument.eq_of_long {s name : String} {value : Option String}
    (h : ofString s = .long name value) :
    s = "--" ++ name ++ (value.map ("=" ++ ·)).getD "" := by
  unfold ofString at h
  split at h
  · cases h
  · rename_i rest _ hchars
    dsimp only at h
    apply String.toList_inj.1
    rw [hchars]
    have hrest := List.takeWhile_append_dropWhile (p := (· != '=')) (l := rest)
    split at h
    · rename_i hdrop
      cases h
      rw [hdrop, List.append_nil] at hrest
      simp [hrest]
    · rename_i c tail hdrop
      cases h
      have hc : c = '=' := by
        have hhead := List.head_dropWhile_not (fun c => c != '=') (by rw [hdrop]; simp)
        simpa [hdrop] using hhead
      rw [hdrop, hc] at hrest
      simp [hrest]
  · cases h
  · cases h

theorem Argument.eq_of_plain {s text : String} (h : ofString s = .plain text) : s = text := by
  unfold ofString at h
  split at h
  · cases h
  · dsimp only at h
    split at h <;> cases h
  · cases h
  · cases h
    rfl

/-- `args'` are the arguments `args` without the option that names the output `out`. -/
def DropsOut (args : List String) (out : String) (args' : List String) : Prop :=
  ∃ before after, args' = before ++ after ∧
    (args = before ++ "--out" :: out :: after ∨ args = before ++ ("--out=" ++ out) :: after)

namespace Scan

variable {s s' : Scan} {arg : String} {args : List String}

/-- The same arguments with another output. -/
def withOut (s : Scan) (out : Option String) : Scan := { s with out := out }

@[simp] theorem withOut_name (out : Option String) : (s.withOut out).name = s.name := rfl
@[simp] theorem withOut_held (out : Option String) : (s.withOut out).held = s.held := rfl
@[simp] theorem withOut_expecting (out : Option String) :
    (s.withOut out).expecting = s.expecting := rfl

theorem keeps_of_setPath {option : PathOption} {path : String}
    (h : s.setPath option path = .ok s') : s'.name = s.name ∧ s'.expecting = .any := by
  unfold setPath at h
  split at h
  · cases h
  · split at h
    all_goals
      split at h
      · cases h
      · cases h
        exact ⟨rfl, rfl⟩

theorem setPath_config_withOut (path : String) (out : Option String) :
    (s.withOut out).setPath .config path = (s.setPath .config path).map (·.withOut out) := by
  simp only [setPath, apply_ite (Except.map _)]
  exact ite_congr rfl (fun _ => rfl) fun _ => ite_congr rfl (fun _ => rfl) fun _ => rfl

theorem settle_withOut (out : Option String) :
    (s.withOut out).settle = s.settle.map (·.withOut out) := by
  cases hname : s.name with
  | some name =>
    simp only [settle, withOut_name, hname]
    rfl
  | none =>
    cases hheld : s.held with
    | none =>
      simp only [settle, withOut_name, withOut_held, hname, hheld]
      rfl
    | some path =>
      simp only [settle, withOut_name, withOut_held, hname, hheld]
      exact setPath_config_withOut (s := { s with name := none, held := none }) path out

/-- Behind the name of the command no path is held. -/
theorem settle_of_name {name : CommandName} (h : s.name = some name) : s.settle = .ok s := by
  simp only [settle, h]

theorem name_of_settle (h : s.settle = .ok s') : s'.name = s.name := by
  unfold settle at h
  split at h
  · exact (keeps_of_setPath h).1
  · cases h
    rfl

theorem exists_of_settle_bind {f : Scan → Except Stop Scan} (h : s.settle.bind f = .ok s') :
    ∃ s₁, s.settle = .ok s₁ ∧ f s₁ = .ok s' := by
  cases hsettle : s.settle with
  | error stop =>
    rw [hsettle] at h
    cases h
  | ok s₁ =>
    rw [hsettle] at h
    exact ⟨s₁, rfl, h⟩

/-- An option is read behind `settle` as it is by itself. -/
theorem settle_bind_withOut {f : Scan → Except Stop Scan} {out : Option String}
    (hf : ∀ s₁, s₁.name = s.name → f (s₁.withOut out) = (f s₁).map (·.withOut out)) :
    (s.withOut out).settle.bind f = (s.settle.bind f).map (·.withOut out) := by
  rw [settle_withOut]
  cases hsettle : s.settle with
  | error stop => rfl
  | ok s₁ => exact hf s₁ (name_of_settle hsettle)

theorem nextPath_config_withOut (path : String) (out : Option String) :
    (s.withOut out).nextPath .config path = (s.nextPath .config path).map (·.withOut out) := by
  cases hname : s.name with
  | none =>
    simp only [nextPath, withOut_name, hname]
    rfl
  | some name =>
    simp only [nextPath, withOut_name, hname]
    exact setPath_config_withOut path out

theorem short_withOut (letters : List Char) (out : Option String) :
    (s.withOut out).short letters = (s.short letters).map (·.withOut out) := by
  induction letters with
  | nil => rfl
  | cons c letters ih =>
    unfold short
    split
    · rfl
    · simp_all
    · rfl
    · rfl
    · -- any other letter is refused on both sides
      simp_all
      rfl

theorem value_withOut (name : CommandName) (text : String) (out : Option String) :
    (s.withOut out).value name text = (s.value name text).map (·.withOut out) := by
  simp only [value, apply_ite (Except.map _)]
  exact ite_congr rfl (fun _ => rfl) fun _ => rfl

theorem plain_withOut (text : String) (out : Option String) :
    (s.withOut out).plain text = (s.plain text).map (·.withOut out) := by
  cases hname : s.name with
  | some name =>
    simp only [plain, withOut_name, hname]
    exact value_withOut name text out
  | none =>
    have houter : (s.withOut out).settle.map (·.config) = s.settle.map (·.config) := by
      rw [settle_withOut]
      cases s.settle <;> rfl
    simp only [plain, withOut_name, hname, apply_ite (Except.map _), houter]
    refine ite_congr rfl (fun _ => rfl) fun _ => ?_
    cases CommandName.ofString? text <;> rfl

theorem long_withOut {name : String} {value : Option String}
    (h : ¬(name = "out" ∧ s.name = some .compile ∧ value.isSome = true)) (out : Option String) :
    (s.withOut out).long name value = (s.long name value).map (·.withOut out) := by
  simp only [long, apply_ite (Except.map _)]
  refine ite_congr rfl (fun _ => ?_) fun _ => ite_congr rfl (fun hout => ?_) fun _ => ?_
  · cases value with
    | none => rfl
    | some path => exact setPath_config_withOut path out
  · cases value with
    | none => rfl
    | some path => exact absurd ⟨hout.1, hout.2, rfl⟩ h
  · repeat refine ite_congr rfl (fun _ => rfl) fun _ => ?_
    rfl

/-- A step does the same whatever the output is, unless it sets the output. -/
theorem step_withOut_or_sets (s : Scan) (arg : String) :
    (∀ out, (s.withOut out).step arg = (s.step arg).map (·.withOut out)) ∨
    ∃ path, s.step arg = s.setPath .out path ∧
      (s.expecting = .any ∧ arg = "--out=" ++ path ∨ s.expecting = .path .out ∧ arg = path) := by
  cases hexpecting : s.expecting with
  | value =>
    refine .inl fun out => ?_
    simp only [step, withOut_expecting, hexpecting, apply_ite (Except.map _)]
    exact ite_congr rfl (fun _ => plain_withOut arg out) fun _ => rfl
  | topic topic =>
    refine .inl fun out => ?_
    cases topic with
    | program =>
      simp only [step, withOut_expecting, hexpecting]
      cases Topic.ofString? arg <;> rfl
    | command | help =>
      simp only [step, withOut_expecting, hexpecting]
      rfl
  | path option =>
    cases harg : Argument.ofString arg with
    | plain path =>
      cases option with
      | config =>
        refine .inl fun out => ?_
        simp only [step, withOut_expecting, hexpecting, harg]
        exact nextPath_config_withOut path out
      | out =>
        refine .inr ⟨path, ?_, .inr ⟨rfl, Argument.eq_of_plain harg⟩⟩
        simp only [step, hexpecting, harg, nextPath]
    | separator | long | short =>
      refine .inl fun out => ?_
      simp only [step, withOut_expecting, hexpecting, harg]
      rfl
  | any =>
    cases harg : Argument.ofString arg with
    | separator =>
      refine .inl fun out => ?_
      simp only [step, withOut_expecting, hexpecting, harg]
      rfl
    | long name value =>
      by_cases hout : name = "out" ∧ s.name = some .compile ∧ value.isSome = true
      · obtain ⟨rfl, hname, hvalue⟩ := hout
        obtain ⟨path, rfl⟩ := Option.isSome_iff_exists.1 hvalue
        refine .inr ⟨path, ?_, .inl ⟨rfl, ?_⟩⟩
        · simp [step, hexpecting, harg, settle_of_name hname, Except.bind, long, hname, pathOption]
        · rw [Argument.eq_of_long harg]
          exact String.toList_inj.1 (by simp)
      · refine .inl fun out => ?_
        simp only [step, withOut_expecting, hexpecting, harg]
        exact settle_bind_withOut fun s₁ hname => long_withOut (hname ▸ hout) out
    | short letters =>
      refine .inl fun out => ?_
      simp only [step, withOut_expecting, hexpecting, harg]
      exact settle_bind_withOut fun s₁ _ => short_withOut letters out
    | plain text =>
      refine .inl fun out => ?_
      simp only [step, withOut_expecting, hexpecting, harg]
      exact plain_withOut text out

theorem exists_of_setPath_out {path : String} (h : s.setPath .out path = .ok s') :
    s.out = none ∧ s' = { s with out := some path, expecting := .any } := by
  unfold setPath at h
  split at h
  · cases h
  · dsimp only at h
    split at h
    · cases h
    · rename_i hout
      cases h
      exact ⟨by simpa using hout, rfl⟩

theorem out_of_step (hsame : ∀ out, (s.withOut out).step arg = (s.step arg).map (·.withOut out))
    (h : s.step arg = .ok s') : s'.out = s.out := by
  have hkeep : s.step arg = (s.step arg).map (·.withOut s.out) := hsame s.out
  rw [h] at hkeep
  have hsets : s' = s'.withOut s.out := Except.ok.inj hkeep
  rw [hsets]
  rfl

/-- Once the output is set, the rest of the arguments is read in the same way without it. -/
theorem step_withOut_none (h : s.step arg = .ok s') (hout : s.out ≠ none) :
    (s.withOut none).step arg = .ok (s'.withOut none) ∧ s'.out = s.out := by
  rcases step_withOut_or_sets s arg with hsame | ⟨path, hset, -⟩
  · refine ⟨?_, out_of_step hsame h⟩
    rw [hsame none, h]
    rfl
  · rw [hset] at h
    exact absurd (exists_of_setPath_out h).1 hout

theorem foldlM_step_cons :
    (arg :: args).foldlM step s = .ok s' ↔
      ∃ s₁, s.step arg = .ok s₁ ∧ args.foldlM step s₁ = .ok s' := by
  rw [List.foldlM_cons]
  cases s.step arg with
  | error stop =>
    constructor
    · intro h
      cases h
    · rintro ⟨s₁, heq, -⟩
      cases heq
  | ok s₁ => exact ⟨fun h => ⟨s₁, rfl, h⟩, fun ⟨_, heq, h⟩ => Except.ok.inj heq ▸ h⟩

theorem foldlM_withOut_none (h : args.foldlM step s = .ok s') (hout : s.out ≠ none) :
    args.foldlM step (s.withOut none) = .ok (s'.withOut none) ∧ s'.out = s.out := by
  induction args generalizing s with
  | nil =>
    cases h
    exact ⟨rfl, rfl⟩
  | cons arg args ih =>
    obtain ⟨s₁, hstep, h⟩ := foldlM_step_cons.1 h
    obtain ⟨hnext, hkeep⟩ := step_withOut_none hstep hout
    obtain ⟨hrest, hlast⟩ := ih h (hkeep ▸ hout)
    exact ⟨foldlM_step_cons.2 ⟨_, hnext, hrest⟩, hlast.trans hkeep⟩

theorem eq_of_short {letters : List Char} (h : s.short letters = .ok s') : s' = s := by
  fun_induction short s letters with
  | case1 => cases h; rfl
  | case2 letters ih => exact ih h
  | case3 | case4 | case5 => cases h

theorem expecting_of_plain {text : String} (h : s.plain text = .ok s')
    (hs' : s'.expecting = .path .out) : s.expecting = .path .out := by
  unfold plain value at h
  split at h
  · split at h
    · cases h
    · cases h
      exact hs'
  · split at h
    · cases h
      cases hs'
    · split at h
      · cases h
        exact hs'
      · cases h

theorem expecting_of_nextPath {option : PathOption} {path : String}
    (h : s.nextPath option path = .ok s') : s'.expecting = .any := by
  unfold nextPath at h
  split at h
  · cases h
    rfl
  · exact (keeps_of_setPath h).2

theorem expecting_of_settle (h : s.settle = .ok s') (hs : s.expecting = .any) :
    s'.expecting = .any := by
  unfold settle at h
  split at h
  · exact (keeps_of_setPath h).2
  · cases h
    exact hs

theorem exists_of_pathOption {option : PathOption} {value : Option String}
    (h : s.pathOption option value = .ok s') (hs' : s'.expecting = .path .out) :
    option = .out ∧ value = none ∧ s' = { s with expecting := .path .out } := by
  cases value with
  | none =>
    cases h
    cases hs'
    exact ⟨rfl, rfl, rfl⟩
  | some path =>
    have hset : s.setPath option path = .ok s' := h
    rw [(keeps_of_setPath hset).2] at hs'
    cases hs'

theorem exists_of_long {name : String} {value : Option String} (h : s.long name value = .ok s')
    (hs : s.expecting = .any) (hs' : s'.expecting = .path .out) :
    (name = "out" ∧ s.name = some .compile) ∧ value = none ∧
      s' = { s with expecting := .path .out } := by
  unfold long at h
  split at h
  · cases (exists_of_pathOption h hs').1
  · split at h
    · rename_i hout
      exact ⟨hout, (exists_of_pathOption h hs').2⟩
    · -- no other option changes what is expected
      have hkeep : s'.expecting = s.expecting := by
        split at h
        · cases h
        · split at h
          · cases h
            rfl
          · split at h
            · cases h
              rfl
            · split_ifs at h
      rw [hkeep, hs] at hs'
      cases hs'

/-- The path of the output is awaited only after its option. -/
theorem exists_of_expecting_out (h : s.step arg = .ok s') (hs' : s'.expecting = .path .out) :
    s.expecting = .any ∧ arg = "--out" ∧ s' = { s with expecting := .path .out } := by
  cases hs : s.expecting with
  | value =>
    simp only [step, hs] at h
    split at h
    · cases hs.symm.trans (expecting_of_plain h hs')
    · cases h
  | topic topic =>
    cases topic with
    | program =>
      simp only [step, hs] at h
      split at h
      · cases h
        cases hs'
      · cases h
    | command | help =>
      simp only [step, hs] at h
      cases h
  | path option =>
    cases harg : Argument.ofString arg with
    | plain path =>
      simp only [step, hs, harg] at h
      rw [expecting_of_nextPath h] at hs'
      cases hs'
    | separator | long | short =>
      simp only [step, hs, harg] at h
      cases h
  | any =>
    cases harg : Argument.ofString arg with
    | separator =>
      simp only [step, hs, harg] at h
      cases h
      cases hs'
    | long name value =>
      simp only [step, hs, harg] at h
      obtain ⟨s₁, hsettle, hlong⟩ := exists_of_settle_bind h
      obtain ⟨⟨rfl, hname⟩, rfl, rfl⟩ := exists_of_long hlong (expecting_of_settle hsettle hs) hs'
      -- behind the name of the command nothing is held
      rw [settle_of_name ((name_of_settle hsettle).symm.trans hname)] at hsettle
      cases hsettle
      refine ⟨rfl, ?_, rfl⟩
      rw [Argument.eq_of_long harg]
      exact String.toList_inj.1 (by simp)
    | short letters =>
      simp only [step, hs, harg] at h
      obtain ⟨s₁, hsettle, hshort⟩ := exists_of_settle_bind h
      rw [eq_of_short hshort, expecting_of_settle hsettle hs] at hs'
      cases hs'
    | plain text =>
      simp only [step, hs, harg] at h
      cases hs.symm.trans (expecting_of_plain h hs')

theorem exists_of_step_path (hs : s.expecting = .path .out) (h : s.step arg = .ok s') :
    s.out = none ∧ s' = { s with out := some arg, expecting := .any } := by
  cases harg : Argument.ofString arg with
  | plain path =>
    simp only [step, hs, harg, nextPath] at h
    rw [Argument.eq_of_plain harg]
    exact exists_of_setPath_out h
  | separator | long | short =>
    simp only [step, hs, harg] at h
    cases h

/-- Behind the option the arguments are read as they would be right before it. -/
theorem foldlM_after_out {out : String} (hs : s.out = none) (hany : s.expecting = .any)
    (h : args.foldlM step { s with out := some out, expecting := .any } = .ok s') :
    args.foldlM step s = .ok (s'.withOut none) ∧ s'.out = some out := by
  obtain ⟨hrest, hlast⟩ := foldlM_withOut_none h (by simp)
  have hback : ({ s with out := some out, expecting := .any } : Scan).withOut none = s := by
    cases s
    cases hs
    cases hany
    rfl
  rw [hback] at hrest
  exact ⟨hrest, hlast⟩

/-- Arguments that set the output have the option somewhere, and are read without the output if it
is dropped. -/
theorem exists_dropsOut_of_foldlM {out : String} (h : args.foldlM step s = .ok s')
    (hs : s.out = none) (hpath : s.expecting ≠ .path .out) (hout : s'.out = some out) :
    ∃ args', DropsOut args out args' ∧ args'.foldlM step s = .ok (s'.withOut none) := by
  induction args generalizing s with
  | nil =>
    cases h
    cases hs.symm.trans hout
  | cons arg args ih =>
    obtain ⟨s₁, hstep, htail⟩ := foldlM_step_cons.1 h
    rcases step_withOut_or_sets s arg with hsame | ⟨path, hset, hform⟩
    · by_cases hnext : s₁.expecting = .path .out
      · -- the option, whose path has to be the next argument
        obtain ⟨hany, rfl, rfl⟩ := exists_of_expecting_out hstep hnext
        cases args with
        | nil =>
          cases htail
          cases hs.symm.trans hout
        | cons path args =>
          obtain ⟨s₂, hvalue, hafter⟩ := foldlM_step_cons.1 htail
          obtain ⟨-, rfl⟩ := exists_of_step_path rfl hvalue
          obtain ⟨hrest, hlast⟩ := foldlM_after_out hs hany hafter
          cases hlast.symm.trans hout
          exact ⟨args, ⟨[], args, rfl, .inl rfl⟩, hrest⟩
      · have hs₁ : s₁.out = none := (out_of_step hsame hstep).trans hs
        obtain ⟨args', ⟨before, after, rfl, hargs⟩, hread⟩ := ih htail hs₁ hnext
        refine ⟨arg :: (before ++ after), ⟨arg :: before, after, rfl, ?_⟩, ?_⟩
        · rcases hargs with rfl | rfl
          · exact .inl rfl
          · exact .inr rfl
        · exact foldlM_step_cons.2 ⟨s₁, hstep, hread⟩
    · -- the option with its path
      rw [hset] at hstep
      obtain ⟨-, rfl⟩ := exists_of_setPath_out hstep
      obtain ⟨hany, rfl⟩ | ⟨hexpecting, -⟩ := hform
      · obtain ⟨hrest, hlast⟩ := foldlM_after_out hs hany htail
        cases hlast.symm.trans hout
        exact ⟨args, ⟨[], args, rfl, .inr rfl⟩, hrest⟩
      · exact absurd hexpecting hpath

theorem exists_of_action? {input : String} {out : Option String}
    (h : s.action? = some (.compile input out)) :
    s.out = out ∧ (s.withOut none).action? = some (.compile input none) := by
  unfold action? at h
  split at h
  · rename_i hname hvalues
    cases h
    refine ⟨rfl, ?_⟩
    simp [action?, withOut, hname, hvalues]
  all_goals cases h

theorem exists_of_finish {config out : Option String} {input : String}
    (h : s.finish = some (.invoke ⟨config, .compile input out⟩)) :
    s.out = out ∧ (s.withOut none).finish = some (.invoke ⟨config, .compile input none⟩) := by
  have houter : (s.withOut none).outerConfig = s.outerConfig := rfl
  cases hs : s.expecting with
  | path option =>
    simp only [finish, hs] at h
    cases h
  | topic topic =>
    simp only [finish, hs] at h
    cases h
  | any | value =>
    cases hconfig : s.outerConfig with
    | error stop =>
      simp only [finish, hs, hconfig] at h
      cases h
    | ok outer =>
      simp only [finish, hs, hconfig] at h
      obtain ⟨action, haction, heq⟩ := Option.map_eq_some_iff.1 h
      cases heq
      obtain ⟨hout, hnone⟩ := exists_of_action? haction
      simp only [finish, withOut_expecting, hs, houter, hconfig, hnone]
      exact ⟨hout, rfl⟩

end Scan

/-- A reader of arguments that takes the output from an option of its own: arguments that ask for a
file ask for the same without a file if the option is dropped. -/
def SplitsOut (read : List String → Option Request) : Prop :=
  ∀ args config input out, read args = some (.invoke ⟨config, .compile input (some out)⟩) →
    ∃ args', DropsOut args out args' ∧ read args' = some (.invoke ⟨config, .compile input none⟩)

theorem splitsOut_parse : SplitsOut Request.parse := by
  intro args config input out h
  unfold Request.parse at h
  split at h
  · rename_i s hscan
    obtain ⟨hout, hfinish⟩ := Scan.exists_of_finish h
    obtain ⟨args', hdrops, hread⟩ := Scan.exists_dropsOut_of_foldlM hscan rfl (by simp) hout
    refine ⟨args', hdrops, ?_⟩
    unfold Request.parse
    rw [hread]
    exact hfinish
  · cases h
  · cases h

end Stencil.Command
