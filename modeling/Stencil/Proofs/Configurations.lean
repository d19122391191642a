import Mathlib.Data.List.Nodup
import Stencil.Config
import Stencil.Proofs.Documents

/-!
# Configuration documents

A configuration is determined by the values of its five members. A document sets the members it
names, in any order, and the others keep their defaults; a member that is not known or that is named
twice makes it unreadable. What is read is checked last, so a document never gives a configuration
that breaks a rule.
-/

namespace Stencil.Config

open Json

inductive Member where
  | directivePrefix
  | delimiters
  | rawDelimiters
  | scope
  | filterFn
deriving DecidableEq, Repr

namespace Member

def all : List Member := [directivePrefix, delimiters, rawDelimiters, scope, filterFn]

def key : Member → String
  | directivePrefix => "prefix"
  | delimiters => "delimiters"
  | rawDelimiters => "unsafeDelimiters"
  | scope => "scope"
  | filterFn => "filterFn"

theorem mem_all (m : Member) : m ∈ all := by
  cases m <;> decide

theorem key_injective : Function.Injective key := by
  intro m n h
  cases m <;> cases n <;> first | rfl | exact absurd h (by decide)

end Member

/-- The value of a member; a pair of markers is an array of two texts. -/
def value (c : Config) : Member → Json
  | .directivePrefix => .string c.directivePrefix
  | .delimiters => .array [.string c.delimiters.opener, .string c.delimiters.closer]
  | .rawDelimiters => .array [.string c.rawDelimiters.opener, .string c.rawDelimiters.closer]
  | .scope => .string c.scope
  | .filterFn => .string c.filterFn

/-- Some members of a configuration, as an object names them. -/
def entries (c : Config) (fields : List Member) : List (String × Json) :=
  fields.map fun m => (m.key, c.value m)

variable {c d : Config} {fields : List Member} {members : List (String × Json)}

theorem ofMembers?_eq (members : List (String × Json)) :
    ofMembers? members =
      if (members.map Prod.fst).Nodup then
        members.foldlM (fun c entry => c.set? entry.1 entry.2) default
      else none :=
  rfl

theorem toJson_eq (c : Config) : c.toJson = .object (c.entries Member.all) := rfl

theorem eq_of_value (h : ∀ m, c.value m = d.value m) : c = d := by
  have hprefix := h .directivePrefix
  have hdelimiters := h .delimiters
  have hraw := h .rawDelimiters
  have hscope := h .scope
  have hfilter := h .filterFn
  obtain ⟨_, ⟨_, _⟩, ⟨_, _⟩, _, _⟩ := c
  obtain ⟨_, ⟨_, _⟩, ⟨_, _⟩, _, _⟩ := d
  simp_all [value]

theorem wellFormed_value (c : Config) (m : Member) : WellFormed (c.value m) := by
  cases m with
  | directivePrefix | scope | filterFn => exact .string _
  | delimiters | rawDelimiters => exact .array (by simp [WellFormed.string])

theorem wellFormed_entries (c : Config) (fields : List Member) :
    WellFormed (.object (c.entries fields)) := by
  refine .object fun entry hentry => ?_
  obtain ⟨m, -, rfl⟩ := List.mem_map.1 hentry
  exact c.wellFormed_value m

/-- Setting a member changes its value and no other. -/
theorem exists_set? (c d : Config) (m : Member) :
    ∃ c', c.set? m.key (d.value m) = some c' ∧
      ∀ n, c'.value n = if n = m then d.value n else c.value n := by
  cases m
  all_goals
    refine ⟨_, rfl, fun n => ?_⟩
    cases n <;> rfl

theorem set?_eq_none {key : String} (h : key ∉ keys) (c : Config) (value : Json) :
    c.set? key value = none := by
  simp only [keys, List.mem_cons, List.not_mem_nil, or_false, not_or] at h
  unfold set?
  split
  · simp [h]
  · simp [h]
  · rfl

/-- By induction on the members that are set; each one keeps what the others have set. -/
theorem exists_foldlM_entries (d : Config) (fields : List Member) (c : Config) :
    ∃ c', (d.entries fields).foldlM (fun c entry => c.set? entry.1 entry.2) c = some c' ∧
      ∀ n, c'.value n = if n ∈ fields then d.value n else c.value n := by
  induction fields generalizing c with
  | nil => exact ⟨c, rfl, by simp⟩
  | cons m fields ih =>
    obtain ⟨c₁, hset, hvalue₁⟩ := c.exists_set? d m
    obtain ⟨c₂, hfold, hvalue₂⟩ := ih c₁
    refine ⟨c₂, ?_, fun n => ?_⟩
    · rw [entries, List.map_cons, List.foldlM_cons]
      simp only [hset, Option.bind_eq_bind, Option.bind_some]
      exact hfold
    · rw [hvalue₂, hvalue₁]
      by_cases hn : n ∈ fields <;> by_cases hm : n = m <;> simp [hn, hm]

theorem ofMembers?_entries (hnodup : fields.Nodup)
    (hrest : ∀ m ∉ fields, c.value m = default.value m) :
    ofMembers? (c.entries fields) = some c := by
  have hkeys : ((c.entries fields).map Prod.fst).Nodup := by
    have heq : (c.entries fields).map Prod.fst = fields.map Member.key := by simp [entries]
    rw [heq]
    exact List.Nodup.map Member.key_injective hnodup
  obtain ⟨c', hfold, hvalue⟩ := exists_foldlM_entries c fields default
  have hsame : c' = c := by
    refine eq_of_value fun m => ?_
    rw [hvalue m]
    split_ifs with hm
    · rfl
    · exact (hrest m hm).symm
  rw [ofMembers?_eq, if_pos hkeys, hfold, hsame]

theorem foldlM_set?_eq_none {entry : String × Json} (hmem : entry ∈ members)
    (hkey : entry.1 ∉ keys) (c : Config) :
    members.foldlM (fun c entry => c.set? entry.1 entry.2) c = none := by
  induction members generalizing c with
  | nil => cases hmem
  | cons first members ih =>
    rw [List.foldlM_cons]
    rcases List.mem_cons.1 hmem with rfl | hmem
    · rw [set?_eq_none hkey]
      rfl
    · cases c.set? first.1 first.2 with
      | none => rfl
      | some c' => exact ih hmem c'

theorem ofMembers?_eq_none
    (h : (∃ entry ∈ members, entry.1 ∉ keys) ∨ ¬(members.map Prod.fst).Nodup) :
    ofMembers? members = none := by
  rw [ofMembers?_eq]
  split_ifs with hnodup
  · obtain ⟨entry, hmem, hkey⟩ := h.resolve_right (not_not_intro hnodup)
    exact foldlM_set?_eq_none hmem hkey default
  · rfl

section Reading

variable {j : Json} {text : String}

theorem read_of_document (htext : Document j text.toList) (hj : ofJson? j = some c) :
    read text = c.checked := by
  rw [read, parse?_of_document htext, Option.bind_some, hj]

theorem checked_of_valid (h : c.fault? = none) : c.checked = .ok c := by
  rw [checked, h]

theorem checked_of_fault {fault : ConfigError} (h : c.fault? = some fault) :
    c.checked = .error fault := by
  rw [checked, h]

theorem fault?_of_checked (h : d.checked = .ok c) : c.fault? = none := by
  unfold checked at h
  cases hfault : d.fault? with
  | some fault => simp [hfault] at h
  | none =>
    simp only [hfault, Except.ok.injEq] at h
    rw [← h, hfault]

theorem fault?_of_read (h : read text = .ok c) : c.fault? = none := by
  unfold read at h
  cases hconfig : (parse? text).bind ofJson? with
  | none => simp [hconfig] at h
  | some d =>
    rw [hconfig] at h
    exact fault?_of_checked h

end Reading

/-- A document that names some members of a configuration, each once, where all the others have
their defaults, is read as the configuration if this breaks no rule, and as its fault otherwise; the
written forms of the configuration are such documents. An object with a key that is not known or
with a key twice is unreadable, and no document gives a configuration that breaks a rule. -/
theorem read_document (c : Config) :
    (∀ fields text, fields.Nodup → (∀ m ∉ fields, c.value m = default.value m) →
      Document (.object (c.entries fields)) text.toList →
      (c.fault? = none → read text = .ok c) ∧
        ∀ fault, c.fault? = some fault → read text = .error fault) ∧
    (c.fault? = none → read c.toJson.compact = .ok c ∧ read c.toJson.pretty = .ok c) ∧
    (∀ members text, Document (.object members) text.toList →
      (∃ entry ∈ members, entry.1 ∉ keys) ∨ ¬(members.map Prod.fst).Nodup →
      read text = .error .unreadable) ∧
    (∀ j text fault, Document j text.toList → ofJson? j = some c → c.fault? = some fault →
      read text = .error fault) ∧
    ∀ text, read text = .ok c → c.fault? = none := by
  refine ⟨fun fields text hnodup hrest htext => ?_, fun hvalid => ?_,
    fun members text htext hmembers => ?_, fun j text fault htext hj hfault => ?_,
    fun text => fault?_of_read⟩
  · have hread := read_of_document htext (ofMembers?_entries hnodup hrest)
    rw [hread]
    exact ⟨checked_of_valid, fun fault => checked_of_fault⟩
  · have hmembers : ofMembers? (c.entries Member.all) = some c :=
      ofMembers?_entries (by decide) fun m hm => absurd m.mem_all hm
    obtain ⟨hcompact, hpretty⟩ := (c.wellFormed_entries Member.all).document
    rw [toJson_eq, read_of_document hcompact hmembers, read_of_document hpretty hmembers]
    exact ⟨checked_of_valid hvalid, checked_of_valid hvalid⟩
  · rw [read, parse?_of_document htext, Option.bind_some, ofJson?, ofMembers?_eq_none hmembers]
  · rw [read_of_document htext hj]
    exact checked_of_fault hfault

/-- The configuration with a scope of its own. -/
def accented : Config := { default with scope := "é" }

/-- A document that names the scope alone, with blanks and an escape in it. -/
theorem document_accented :
    Document (.object (accented.entries [.scope])) "\x7b \"scope\" : \"\\u00E9\"\n\x7d".toList := by
  have htext : SpellsText "é".toList ['\\', 'u', '0', '0', 'E', '9'] :=
    SpellsText.cons (c := 'é') (.hex rfl) .nil
  have hspace : Blanks [' '] := by simp [Blanks, isBlank]
  have hline : Blanks ['\n'] := by simp [Blanks, isBlank]
  have hvalue := Document.padded hspace (Spells.string htext) hline
  have hmember := SpellsMember.keyed hspace (spellsText_escape "scope".toList) hspace hvalue
  exact (Spells.object (.last hmember)).document

theorem read_document_accented :
    (accented.fault? = none ∧ read "\x7b \"scope\" : \"\\u00E9\"\n\x7d" = .ok accented) ∧
    read accented.toJson.pretty = .ok accented ∧
    read (object (accented.entries [.scope, .scope])).compact = .error .unreadable ∧
    read (object (("color", null) :: accented.entries [.scope])).compact = .error .unreadable ∧
    read (object ({ accented with scope := " " }.entries [.scope])).compact
      = .error .emptyScope := by
  have hvalid : accented.fault? = none := by decide
  have hrest (s : String) : ∀ m ∉ [Member.scope],
      { accented with scope := s }.value m = default.value m := by
    intro m hm
    cases m <;> first | rfl | exact absurd (List.mem_singleton.2 rfl) hm
  refine ⟨⟨hvalid, ((read_document accented).1 [.scope] _ (by decide) (hrest "é")
    document_accented).1 hvalid⟩, ((read_document accented).2.1 hvalid).2,
    (read_document accented).2.2.1 _ _ (accented.wellFormed_entries _).document.1
      (.inr (by decide)),
    (read_document accented).2.2.1 _ _ (WellFormed.object ?_).document.1
      (.inl ⟨("color", null), by simp, by decide⟩),
    ((read_document { accented with scope := " " }).1 [.scope] _ (by decide) (hrest " ")
      (wellFormed_entries _ _).document.1).2 _ (by decide)⟩
  rintro entry hentry
  rcases List.mem_cons.1 hentry with rfl | hentry
  · exact .null
  · obtain ⟨m, -, rfl⟩ := List.mem_map.1 hentry
    exact accented.wellFormed_value m

end Stencil.Config
