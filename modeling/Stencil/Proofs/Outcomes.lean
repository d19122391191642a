import Stencil.Command.Run
import Stencil.Proofs.OutOption
import Stencil.Proofs.Storage

/-!
# All or nothing

A command reads first, writes at most once and prints at the end. So a run that fails prints nothing
and leaves every file as it was, and a run that succeeds changes at most the file that its arguments
name, whose content is then the text that would have been printed. How the arguments are read plays
no part, as long as the file is named by an option that can be left out.
-/

namespace Stencil

/-- The path leads to a file with the text, and every other file is the one that was there
before. -/
def FileView.Wrote {σ Place : Type} [FileStore (StateM σ)] (v : FileView σ Place)
    (before : Place → Option Content) (s : σ) (path text : String) : Prop :=
  ∃ place, v.place? s path = some place ∧ v.file? s place = some (.text text) ∧
    ∀ other, other ≠ place → v.file? s other = before other

namespace Command

section Exec

variable {σ α β : Type} {x : ExceptT Failure (StateM σ) α}
  {f : α → ExceptT Failure (StateM σ) β} {s : σ}

/-- The result of a computation that may fail, and the state that it leaves. -/
def exec (x : ExceptT Failure (StateM σ) α) (s : σ) : Except Failure α × σ :=
  x.run.run s

theorem exec_bind : exec (x >>= f) s = match exec x s with
    | (.ok a, s₁) => exec (f a) s₁
    | (.error e, s₁) => (.error e, s₁) := by
  simp only [exec, ExceptT.run_bind, StateT.run_bind]
  rcases x.run.run s with ⟨_ | a, s₁⟩ <;> rfl

theorem exists_of_exec_bind {s' : σ} {b : β} (h : exec (x >>= f) s = (.ok b, s')) :
    ∃ a s₁, exec x s = (.ok a, s₁) ∧ exec (f a) s₁ = (.ok b, s') := by
  rw [exec_bind] at h
  split at h
  · rename_i a s₁ hexec
    exact ⟨a, s₁, hexec, h⟩
  · cases h

end Exec

variable {σ Place α β : Type} [FileStore (StateM σ)] {v : FileView σ Place}
  {Done : α → (Place → Option Content) → σ → Prop}
  {Then : β → (Place → Option Content) → σ → Prop}
  {x : ExceptT Failure (StateM σ) α} {f : α → ExceptT Failure (StateM σ) β}

/-- A computation that changes no file if it fails. If it succeeds, `Done` tells its result, the
files before and the state afterwards. -/
structure AllOrNothing (v : FileView σ Place) (x : ExceptT Failure (StateM σ) α)
    (Done : α → (Place → Option Content) → σ → Prop) : Prop where
  failed {s s' : σ} {e : Failure} : exec x s = (.error e, s') → v.file? s' = v.file? s
  done {s s' : σ} {a : α} : exec x s = (.ok a, s') → Done a (v.file? s) s'

/-- A computation that changes no file in any case. -/
def Keeps (v : FileView σ Place) (x : ExceptT Failure (StateM σ) α) : Prop :=
  AllOrNothing v x fun _ before s => v.file? s = before

theorem allOrNothing_throw (e : Failure) : AllOrNothing v (throw e) Done where
  failed h := by
    cases h
    rfl
  done h := by cases h

theorem keeps_pure (a : α) : Keeps v (pure a) where
  failed h := by cases h
  done h := by
    cases h
    rfl

theorem Keeps.bind (hx : Keeps v x) (hf : ∀ a, AllOrNothing v (f a) Then) :
    AllOrNothing v (x >>= f) Then where
  failed {s s' e} h := by
    rw [exec_bind] at h
    split at h
    · rename_i a s₁ hexec
      exact ((hf a).failed h).trans (hx.done hexec)
    · rename_i e' s₁ hexec
      cases h
      exact hx.failed hexec
  done {s s' b} h := by
    rw [exec_bind] at h
    split at h
    · rename_i a s₁ hexec
      rw [← hx.done hexec]
      exact (hf a).done h
    · cases h

theorem AllOrNothing.returning {b : β} (hx : AllOrNothing v x fun _ => Then b) :
    AllOrNothing v (x >>= fun _ => pure b) Then where
  failed {s s' e} h := by
    rw [exec_bind] at h
    split at h
    · cases h
    · rename_i hexec
      cases h
      exact hx.failed hexec
  done {s s' c} h := by
    obtain ⟨a, s₁, hexec, hpure⟩ := exists_of_exec_bind h
    cases hpure
    exact hx.done hexec

theorem keeps_readText? (v : FileView σ Place) (path : String) :
    Keeps v (FileStore.readText? path) where
  failed h := by cases h
  done {s s' text} h := by
    cases h
    exact v.file?_readText? path s

theorem keeps_createDirs (v : FileView σ Place) (path : String) :
    Keeps v (FileStore.createDirs path) where
  failed h := by cases h
  done {s s' done} h := by
    cases h
    exact v.file?_createDirs path s

theorem keeps_orFail {ε : Type} (cause : ε → Failure) (r : Except ε α) :
    Keeps v (orFail cause r) := by
  cases r with
  | ok a => exact keeps_pure a
  | error e => exact allOrNothing_throw _

theorem keeps_loadConfig (path : Option String) : Keeps v (loadConfig path) := by
  cases path with
  | none => exact keeps_pure _
  | some path =>
    refine (keeps_readText? v path).bind fun text => ?_
    cases text with
    | none => exact allOrNothing_throw _
    | some source =>
      dsimp only
      cases Config.read source with
      | error cause => exact allOrNothing_throw _
      | ok c => exact keeps_pure c

theorem keeps_compileFile (c : Config) (input : String) : Keeps v (compileFile c input) := by
  refine (keeps_readText? v input).bind fun text => ?_
  cases text with
  | none => exact allOrNothing_throw _
  | some source =>
    dsimp only
    cases c.compileTemplate source with
    | error cause => exact allOrNothing_throw _
    | ok nodes => exact keeps_pure _

/-- An action that names no output keeps every file. -/
theorem keeps_perform {i : Invocation} (h : ∀ input out, i.action ≠ .compile input (some out)) :
    Keeps v i.perform := by
  refine (keeps_loadConfig i.config).bind fun c => ?_
  cases haction : i.action with
  | compile input out =>
    cases out with
    | none => exact (keeps_compileFile c input).bind fun json => keeps_pure json
    | some out => exact absurd haction (h input out)
  | expr source tree => exact (keeps_orFail _ _).bind fun e => keeps_pure _
  | text source => exact keeps_pure _
  | directive name value => exact (keeps_orFail _ _).bind fun d => keeps_pure _

theorem exec_writeText {path text : String} {s s' : σ} {done : Bool}
    (h : (FileStore.writeText path text : StateM σ Bool).run s = (done, s')) :
    exec (FileStore.writeText path text) s = (.ok done, s') := by
  change ((.ok ((FileStore.writeText path text : StateM σ Bool).run s).1,
    ((FileStore.writeText path text : StateM σ Bool).run s).2) : Except Failure Bool × σ) = _
  rw [h]

/-- The write at the end of `save`. -/
theorem allOrNothing_write (path text : String) :
    AllOrNothing v (do unless ← FileStore.writeText path text do throw (.notWritten path))
      fun _ before s => v.Wrote before s path text := by
  constructor
  · intro s s' e h
    cases hwrite : (FileStore.writeText path text : StateM σ Bool).run s with
    | mk done s₁ =>
      rw [exec_bind, exec_writeText hwrite] at h
      cases done with
      | true => cases h
      | false =>
        cases h
        exact v.file?_of_failed hwrite
  · intro s s' a h
    cases hwrite : (FileStore.writeText path text : StateM σ Bool).run s with
    | mk done s₁ =>
      rw [exec_bind, exec_writeText hwrite] at h
      cases done with
      | true =>
        cases h
        exact v.exists_of_written hwrite
      | false => cases h

/-- Saving a file changes no other, and none at all if it fails. -/
theorem allOrNothing_save (path text : String) :
    AllOrNothing v (save path text) fun _ before s => v.Wrote before s path text := by
  unfold save
  dsimp only
  split
  · exact allOrNothing_write path text
  · refine (keeps_createDirs v _).bind fun created => ?_
    cases created with
    | true => exact allOrNothing_write path text
    | false => exact Keeps.bind (allOrNothing_throw _) fun _ => allOrNothing_write path text

/-- A command with an output is the command without it, and saving its text in the end. -/
theorem perform_compile_out (config : Option String) (input out : String) :
    (Invocation.perform ⟨config, .compile input (some out)⟩ : ExceptT Failure (StateM σ) String) =
      Invocation.perform ⟨config, .compile input none⟩ >>= fun json =>
        save out json >>= fun _ => pure json := by
  simp [Invocation.perform, Action.perform]

theorem allOrNothing_compile_out (v : FileView σ Place) (config : Option String)
    (input out : String) :
    AllOrNothing v (Invocation.perform ⟨config, .compile input (some out)⟩)
      fun json before s => v.Wrote before s out json := by
  rw [perform_compile_out]
  exact (keeps_perform (by simp)).bind fun json => (allOrNothing_save out json).returning

/-- The output holds the text that the command returns without it. -/
theorem exists_of_compile_out {config : Option String} {input out json : String} {s s' : σ}
    (h : exec (Invocation.perform ⟨config, .compile input (some out)⟩) s = (.ok json, s')) :
    ∃ s₁, exec (Invocation.perform ⟨config, .compile input none⟩) s = (.ok json, s₁) := by
  rw [perform_compile_out] at h
  obtain ⟨text, s₁, hfirst, hrest⟩ := exists_of_exec_bind h
  obtain ⟨_, s₂, -, hpure⟩ := exists_of_exec_bind hrest
  cases hpure
  exact ⟨s₁, hfirst⟩

/-- A command that fails keeps every file. -/
theorem file?_of_perform_error (v : FileView σ Place) {i : Invocation} {s s' : σ} {e : Failure}
    (h : exec i.perform s = (.error e, s')) : v.file? s' = v.file? s := by
  by_cases hout : ∃ input out, i.action = .compile input (some out)
  · obtain ⟨config, action⟩ := i
    obtain ⟨input, out, rfl⟩ := hout
    exact (allOrNothing_compile_out v config input out).failed h
  · simp only [not_exists] at hout
    exact (keeps_perform hout).failed h

theorem run_answer_invoke (i : Invocation) (s : σ) :
    (answer (some (.invoke i)) : StateM σ Outcome).run s = match exec i.perform s with
      | (.error failure, s') => (⟨1, "", some failure⟩, s')
      | (.ok text, s') => (⟨0, i.action.printed text, none⟩, s') := by
  change StateT.run (i.perform.run >>= _) s = _
  rw [StateT.run_bind]
  unfold exec
  rcases (i.perform : ExceptT Failure (StateM σ) String).run.run s with ⟨_ | text, s'⟩ <;> rfl

/-- The arguments of the program name an output by an option of its own. For every reader of
arguments that has this property, a run that fails prints nothing and keeps every file. A run that
succeeds keeps every file too, unless its arguments name an output: then it prints nothing and
changes the file at this path only, whose text is the one that the command returns and that the run
without the output prints. -/
theorem run_all_or_nothing (v : FileView σ Place) :
    SplitsOut Request.parse ∧
    ∀ read, SplitsOut read → ∀ args s s' o,
      (runWith read args : StateM σ Outcome).run s = (o, s') →
      (o.exitCode ≠ 0 → o.stdout = "" ∧ v.file? s' = v.file? s) ∧
      (o.exitCode = 0 →
        (∀ config input out, read args ≠ some (.invoke ⟨config, .compile input (some out)⟩)) →
        v.file? s' = v.file? s) ∧
      (o.exitCode = 0 → ∀ config input out,
        read args = some (.invoke ⟨config, .compile input (some out)⟩) →
        o.stdout = "" ∧ ∃ json, v.Wrote (v.file? s) s' out json ∧
          exec (Invocation.perform ⟨config, .compile input (some out)⟩) s = (.ok json, s') ∧
          ∃ args' s₁, DropsOut args out args' ∧
            (runWith read args' : StateM σ Outcome).run s = (⟨0, json ++ "\n", none⟩, s₁) ∧
            v.file? s₁ = v.file? s) := by
  refine ⟨splitsOut_parse, fun read hread args s s' o h => ?_⟩
  rw [runWith] at h
  cases hargs : read args with
  | none =>
    rw [hargs] at h
    cases h
    exact ⟨fun _ => ⟨rfl, rfl⟩, nofun, nofun⟩
  | some request =>
    rw [hargs] at h
    cases request with
    | notice text =>
      cases h
      exact ⟨fun hcode => absurd rfl hcode, fun _ _ => rfl, nofun⟩
    | invoke i =>
      rw [run_answer_invoke] at h
      split at h
      · rename_i failure s₁ hexec
        cases h
        exact ⟨fun _ => ⟨rfl, file?_of_perform_error v hexec⟩, nofun, nofun⟩
      · rename_i text s₁ hexec
        cases h
        refine ⟨fun hcode => absurd rfl hcode, fun _ hout => ?_, fun _ config input out hout => ?_⟩
        · refine (keeps_perform fun input out haction => ?_).done hexec
          exact hout i.config input out (by rw [← haction])
        · cases hout
          obtain ⟨s₁, hprint⟩ := exists_of_compile_out hexec
          obtain ⟨args', hdrops, hargs'⟩ := hread args config input out hargs
          refine ⟨rfl, text, (allOrNothing_compile_out v config input out).done hexec, hexec,
            args', s₁, hdrops, ?_, (keeps_perform (by simp)).done hprint⟩
          rw [runWith, hargs', run_answer_invoke, hprint]
          rfl

/-- The output may replace the template itself. A directory that cannot be created stops the run
before anything is written, and a question for help before anything is done. -/
theorem run_all_or_nothing_replaced :
    let t : FileTree := ⟨[(["a.html"], .text "<p>hi</p>")], []⟩
    let replaced := (run ["compile", "a.html", "--out=./a.html"] : StateM FileTree Outcome).run t
    let refused := (run ["compile", "--out", "a.html/b", "a.html"] : StateM FileTree Outcome).run t
    let helped := (run ["compile", "a.html", "--out", "a.html", "-vh"] :
      StateM FileTree Outcome).run t
    (replaced.1.exitCode = 0 ∧ replaced.1.stdout = "" ∧
      ∃ json, FileTree.view.Wrote t.file? replaced.2 "./a.html" json) ∧
    (refused.1.exitCode ≠ 0 ∧ refused.1.stdout = "" ∧ refused.2.file? = t.file?) ∧
    helped.1.exitCode = 0 ∧ helped.1.stdout = (Topic.command .compile).page.text ∧
      helped.2.file? = t.file? := by
  intro t replaced refused helped
  obtain ⟨hparse, hall⟩ := run_all_or_nothing FileTree.view
  have hreplaced : replaced.1.exitCode = 0 := by decide +kernel
  have hrefused : refused.1.exitCode ≠ 0 := by decide +kernel
  have hout : Request.parse ["compile", "a.html", "--out=./a.html"] =
      some (.invoke ⟨none, .compile "a.html" (some "./a.html")⟩) := by decide
  have hhelp : Request.parse ["compile", "a.html", "--out", "a.html", "-vh"] =
      some (.notice (Topic.command .compile).page.text) := by decide +kernel
  have hhelped : helped = (⟨0, (Topic.command .compile).page.text, none⟩, t) := by
    simp only [helped, run, runWith, hhelp]
    rfl
  have hrun (args : List String) := hall Request.parse hparse args t _ _ rfl
  obtain ⟨-, -, hwrote⟩ := hrun ["compile", "a.html", "--out=./a.html"]
  obtain ⟨hkept, -, -⟩ := hrun ["compile", "--out", "a.html/b", "a.html"]
  obtain ⟨-, hsame, -⟩ := hrun ["compile", "a.html", "--out", "a.html", "-vh"]
  obtain ⟨hprinted, json, hfile, -⟩ := hwrote hreplaced none "a.html" "./a.html" hout
  have hcode : helped.1.exitCode = 0 := by rw [hhelped]
  refine ⟨⟨hreplaced, hprinted, json, hfile⟩, ⟨hrefused, hkept hrefused⟩, hcode, ?_, ?_⟩
  · rw [hhelped]
  · exact hsame hcode (by simp [hhelp])

end Command
end Stencil
