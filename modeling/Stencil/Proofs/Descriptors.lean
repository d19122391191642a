import Mathlib.Data.List.TakeWhile
import Stencil.Proofs.Detection

/-!
# What a descriptor says

A descriptor is of one of two kinds, told apart by whether the value holds an interpolation. That of
a bound attribute carries the expression of the whole value and the marks of all its bindings; that
of a directive carries the kind in the name and the expression that the value is. An attribute of
both kinds is an error of its own.
-/

namespace Stencil

/-- The descriptor of a bound attribute: not a directive, with the marks of the bindings in the
value. -/
structure Descriptor.IsBound (c : Config) (name value : String) (d : Descriptor) : Prop where
  undirected : c.isDirectiveName name = false
  directive : d.directive = "bind"
  args : d.args = [name]
  tree : Segment.merge (c.scan value) = .ok d.tree
  html : d.html = true ↔ ∃ b, .binding b ∈ c.scan value ∧ b.html = true
  oneTime : d.oneTime = true ↔
    (∃ b, .binding b ∈ c.scan value) ∧ ∀ b, .binding b ∈ c.scan value → b.oneTime = true
  bindings : c.markers.isOneLine = true → ∃ b, .binding b ∈ c.scan value

/-- The descriptor of a directive. -/
structure Descriptor.IsDirective (c : Config) (name value : String) (d : Descriptor) : Prop where
  directed : c.isDirectiveName name = true
  nonempty : d.directive ≠ ""
  colon : ':' ∉ d.directive.toList
  equals : '=' ∉ d.directive.toList
  html : d.html = false
  oneTime : d.oneTime = false
  tree : Expr.read value = .ok d.tree

/-- The descriptor fits the attribute that it was made from. -/
structure Descriptor.Fits (c : Config) (name value : String) (d : Descriptor) : Prop where
  sameName : d.name = name
  sameValue : d.value = value
  code : d.expression = d.tree.code c.style
  isInterpolation : d.isInterpolation = true ↔ c.hasInterpolation value = true
  bound : d.isInterpolation = true → d.IsBound c name value
  directive : d.isInterpolation = false → d.IsDirective c name value

theorem Segment.mem_bindings_iff {segments : List Segment} {b : Binding} :
    b ∈ segments.filterMap Segment.binding? ↔ .binding b ∈ segments := by
  rw [List.mem_filterMap]
  constructor
  · rintro ⟨s, hs, hb⟩
    cases s with
    | text value => cases hb
    | binding b' =>
      cases hb
      exact hs
  · intro hb
    exact ⟨_, hb, rfl⟩

theorem splitKind_fst (kind : List Char) :
    (splitKind kind).1 = String.ofList (kind.takeWhile (· != ':')) := by
  unfold splitKind
  dsimp only
  split <;> rfl

namespace Config

variable {c : Config} {name value : String} {d : Descriptor}

theorem isBound_of_describeInterpolation (hvalue : c.hasInterpolation value = true)
    (hname : c.isDirectiveName name = false) (h : c.describeInterpolation name value = .ok d) :
    d.IsBound c name value := by
  obtain ⟨tree, hmerge, rfl⟩ := exists_of_describeInterpolation h
  refine ⟨hname, rfl, rfl, hmerge, ?_, ?_, fun hc => exists_binding_of_hasInterpolation hc hvalue⟩
  · simp only [List.any_eq_true, Segment.mem_bindings_iff]
  · simp only [Bool.and_eq_true, Bool.not_eq_true', List.isEmpty_eq_false_iff_exists_mem,
      List.all_eq_true, Segment.mem_bindings_iff]

/-- The kind is what follows the prefix and the dash, up to an equals sign. -/
theorem exists_of_kind? {kind : List Char} (h : c.kind? name = some kind) :
    ∃ rest, name.toList = c.directivePrefix.toList ++ '-' :: rest ∧
      kind = rest.takeWhile (· != '=') ∧ kind ≠ [] := by
  unfold kind? at h
  split at h
  · cases h
  · rename_i rest hrest
    split at h
    · cases h
    · rename_i hkind
      cases h
      refine ⟨rest, ?_, rfl, hkind⟩
      simpa using (Text.append_eq_of_after? hrest).symm

theorem not_mem_of_kind? {kind : List Char} (h : c.kind? name = some kind) : '=' ∉ kind := by
  obtain ⟨rest, -, rfl, -⟩ := exists_of_kind? h
  intro hmem
  simpa using List.mem_takeWhile_imp hmem

theorem isDirective_of_describeDirective (h : c.describeDirective name value = .ok d) :
    d.IsDirective c name value := by
  obtain ⟨kind, tree, hkind, hne, hread, rfl⟩ := exists_of_describeDirective h
  refine ⟨by rw [isDirectiveName, hkind]; rfl, hne, ?_, ?_, rfl, rfl, hread⟩
  · dsimp only
    rw [splitKind_fst, String.toList_ofList]
    intro hmem
    simpa using List.mem_takeWhile_imp hmem
  · dsimp only
    rw [splitKind_fst, String.toList_ofList]
    intro hmem
    exact not_mem_of_kind? hkind ((List.takeWhile_prefix _).subset hmem)

theorem fits_of_describe (h : c.describe name value = .ok d) : d.Fits c name value := by
  rcases cases_of_describe h with ⟨hvalue, hname, hbound⟩ | ⟨hvalue, hdirective⟩
  · have hfits := isBound_of_describeInterpolation hvalue hname hbound
    obtain ⟨tree, -, rfl⟩ := exists_of_describeInterpolation hbound
    exact ⟨rfl, rfl, rfl, by simp [hvalue], fun _ => hfits, nofun⟩
  · have hfits := isDirective_of_describeDirective hdirective
    obtain ⟨kind, tree, -, -, -, rfl⟩ := exists_of_describeDirective hdirective
    exact ⟨rfl, rfl, rfl, by simp [hvalue], nofun, fun _ => hfits⟩

/-- A bound attribute is refused for an expression of its value only. -/
theorem exists_of_describeInterpolation_error {e : DirectiveError}
    (h : c.describeInterpolation name value = .error e) : ∃ cause, e = .expression name cause := by
  unfold describeInterpolation at h
  dsimp only at h
  split at h
  · rename_i cause _
    cases h
    exact ⟨cause, rfl⟩
  · cases h

theorem describeDirective_ne_mixed {name' value' : String} :
    c.describeDirective name value ≠ .error (.mixed name' value') := by
  unfold describeDirective
  dsimp only
  split
  · simp
  · split_ifs
    · simp
    · split
      · simp
      · simp

/-- A descriptor fits its attribute. An attribute is refused as mixed exactly if it is a directive
whose value holds an interpolation. -/
theorem describe_fits_and_mixed_iff (c : Config) (name value : String) :
    (∀ d, c.describe name value = .ok d → d.Fits c name value) ∧
    ∀ name' value', c.describe name value = .error (.mixed name' value') ↔
      (name' = name ∧ value' = value) ∧
        c.hasInterpolation value = true ∧ c.isDirectiveName name = true := by
  refine ⟨fun d h => fits_of_describe h, fun name' value' => ?_⟩
  unfold describe
  split_ifs with hvalue hname
  · simp [hvalue, hname, eq_comm]
  · refine iff_of_false (fun h => ?_) (by simp [hname])
    obtain ⟨cause, heq⟩ := exists_of_describeInterpolation_error h
    cases heq
  · simp [hvalue, describeDirective_ne_mixed]

/-- A bound attribute with an escaped and a raw binding, and a directive with an argument. -/
theorem describe_fits_and_mixed_iff_default :
    (∃ d, default.describe "title" "\x7b\x7b*a\x7d\x7d \x7b\x7b\x7b*b\x7d\x7d\x7d" = .ok d ∧
      d.Fits default "title" "\x7b\x7b*a\x7d\x7d \x7b\x7b\x7b*b\x7d\x7d\x7d") ∧
    (∃ d, default.describe "sk-for:item" "list" = .ok d ∧ d.Fits default "sk-for:item" "list") ∧
    default.describe "sk-if" "\x7b\x7ba\x7d\x7d" = .error (.mixed "sk-if" "\x7b\x7ba\x7d\x7d") := by
  have hok {name value : String} (h : (default.describe name value).isOk = true) :
      ∃ d, default.describe name value = .ok d ∧ d.Fits default name value := by
    cases hd : default.describe name value with
    | error e =>
      rw [hd] at h
      cases h
    | ok d => exact ⟨d, rfl, (describe_fits_and_mixed_iff default name value).1 d hd⟩
  refine ⟨hok (by decide +kernel), hok (by decide +kernel), ?_⟩
  exact ((describe_fits_and_mixed_iff default _ _).2 _ _).2 (by decide +kernel)

end Config
end Stencil
