import Stencil.Command.Files

/-!
# What file operations do to files

A view of a store says which file each place holds and which place a path leads to. Reading and
creating directories keep every file, and so does a write that fails; a write that succeeds changes
the file at its path and no other. The directory tree has such a view.
-/

namespace Stencil

/-- The files of a store and what the file operations do to them. -/
structure FileView (σ Place : Type) [FileStore (StateM σ)] where
  file? : σ → Place → Option Content
  /-- Where a path leads. -/
  place? : σ → String → Option Place
  file?_readText? (path : String) (s : σ) :
    file? ((FileStore.readText? path : StateM σ (Option String)).run s).2 = file? s
  file?_createDirs (path : String) (s : σ) :
    file? ((FileStore.createDirs path : StateM σ Bool).run s).2 = file? s
  file?_of_failed {path text : String} {s s' : σ} :
    (FileStore.writeText path text : StateM σ Bool).run s = (false, s') → file? s' = file? s
  exists_of_written {path text : String} {s s' : σ} :
    (FileStore.writeText path text : StateM σ Bool).run s = (true, s') →
    ∃ place, place? s' path = some place ∧ file? s' place = some (.text text) ∧
      ∀ other, other ≠ place → file? s' other = file? s other

namespace FileTree

variable {t t' : FileTree} {location dir path : List String} {content : Content}

theorem lookup_filter_ne {files : List (List String × Content)} (h : path ≠ location) :
    (files.filter (·.1 ≠ location)).lookup path = files.lookup path := by
  induction files with
  | nil => rfl
  | cons file files ih =>
    obtain ⟨place, content⟩ := file
    by_cases hplace : place = location
    · subst hplace
      rw [List.filter_cons_of_neg (by simp), List.lookup_cons, beq_false_of_ne h, ih]
    · rw [List.filter_cons_of_pos (by simpa using hplace), List.lookup_cons, List.lookup_cons, ih]

/-- Putting a file changes the file at its place and no other. -/
theorem file?_put (t : FileTree) (location : List String) (content : Content) (path : List String) :
    (t.put location content).file? path =
      if path = location then some content else t.file? path := by
  rw [file?, put, List.lookup_cons]
  by_cases h : path = location
  · simp [h]
  · rw [if_neg h, beq_false_of_ne h, lookup_filter_ne h]
    rfl

/-- Every directory stays one: the file that is replaced keeps its place. -/
theorem isDir_put (h : t.isDir path = true) : (t.put location content).isDir path = true := by
  simp only [isDir, put, Bool.or_eq_true, List.any_cons] at h ⊢
  rcases h with h | h
  · exact .inl h
  · obtain ⟨⟨file, old⟩, hmem, hfile⟩ := List.any_eq_true.1 h
    refine .inr ?_
    by_cases heq : file = location
    · exact .inl (heq ▸ hfile)
    · exact .inr (List.any_eq_true.2 ⟨(file, old), by simp [hmem, heq], hfile⟩)

theorem walk_put {parts : List String} (h : t.walk dir parts = some path) :
    (t.put location content).walk dir parts = some path := by
  fun_induction walk t dir parts with
  | case1 => exact h
  | case2 dir part parts hpart ih => rw [walk, if_pos hpart, ih h]
  | case3 => cases h
  | case4 dir parts hdir hpart ih => rw [walk, if_neg hpart, if_pos rfl, if_neg hdir, ih h]
  | case5 dir part parts hpart hup hdir ih =>
    rw [walk, if_neg hpart, if_neg hup, if_pos (isDir_put hdir), ih h]
  | case6 => cases h

theorem locate_put {name : String} (h : t.locate name = some path) :
    (t.put location content).locate name = some path := by
  unfold locate at h ⊢
  dsimp only at h ⊢
  split at h
  · cases h
  · split at h
    · cases h
    · rename_i hform hnameable
      obtain ⟨dir, hwalk, rfl⟩ := Option.map_eq_some_iff.1 h
      rw [if_neg hform, if_neg hnameable, walk_put hwalk]
      rfl

theorem files_of_makeDirs {parts : List String} (h : t.makeDirs dir parts = some t') :
    t'.files = t.files := by
  fun_induction makeDirs t dir parts with
  | case1 =>
    cases h
    rfl
  | case2 _ _ _ _ _ ih => exact ih h
  | case3 => cases h
  | case4 _ _ _ _ _ ih => exact ih h
  | case5 _ _ _ _ _ _ _ _ ih => exact ih h
  | case6 => cases h
  | case7 _ _ _ _ _ _ _ _ _ ih => exact ih h

theorem file?_of_create? {path : String} (h : t.create? path = some t') : t'.file? = t.file? := by
  unfold create? at h
  split at h
  · cases h
  · funext place
    rw [file?, file?, files_of_makeDirs h]

/-- A write changes the file that its path leads to afterwards, and no other. -/
theorem exists_of_write? {path text : String} (h : t.write? path text = some t') :
    ∃ place, t'.locate path = some place ∧ t'.file? place = some (.text text) ∧
      ∀ other, other ≠ place → t'.file? other = t.file? other := by
  unfold write? at h
  split at h
  · cases h
  · rename_i location hlocate
    split at h
    · cases h
    · cases h
      refine ⟨location, locate_put hlocate, ?_, fun other hother => ?_⟩
      · rw [file?_put, if_pos rfl]
      · rw [file?_put, if_neg hother]

theorem of_run_commit {changed : Option FileTree} {done : Bool}
    (h : (commit changed).run t = (done, t')) :
    done = true ∧ changed = some t' ∨ done = false ∧ t' = t := by
  cases changed with
  | none =>
    cases h
    exact .inr ⟨rfl, rfl⟩
  | some changed =>
    cases h
    exact .inl ⟨rfl, rfl⟩

/-- The files of a directory tree by the parts of their paths. -/
def view : FileView FileTree (List String) where
  file? := file?
  place? := locate
  file?_readText? _ _ := rfl
  file?_createDirs path t := by
    obtain ⟨-, hcreate⟩ | ⟨-, hsame⟩ := @of_run_commit t _ (t.create? path) _ rfl
    · exact file?_of_create? hcreate
    · exact congrArg file? hsame
  file?_of_failed h := by
    obtain ⟨hdone, -⟩ | ⟨-, rfl⟩ := of_run_commit h
    · cases hdone
    · rfl
  exists_of_written h := by
    obtain ⟨-, hwrite⟩ | ⟨hdone, -⟩ := of_run_commit h
    · exact exists_of_write? hwrite
    · cases hdone

end FileTree
end Stencil
