import Stencil.Proofs.Descriptors
import Stencil.Proofs.Text
import Stencil.Proofs.Trees

/-!
# The names of directives

The name of a directive is the prefix, a dash, the kind and, after a colon, the arguments between
bars; what follows an equals sign is no part of it. Writing and splitting such names undo each
other, for every prefix: each name is written from at most one kind and one list of arguments, and a
name that is written from none is refused as no directive.
-/

namespace Stencil

/-- Arguments that a name can hold: none of them has a bar, and they are not one empty argument,
which would be written as no argument is. -/
structure AreArgs (args : List String) : Prop where
  bars : ∀ a ∈ args, '|' ∉ a.toList
  notBlank : args ≠ [""]

/-- The ways to write a kind with its arguments: the kind alone if there are none, or the kind, a
colon and the arguments between bars. -/
inductive WritesKind (directive : String) : List String → String → Prop
  | alone : WritesKind directive [] directive
  | listed (args : List String) :
      WritesKind directive args (directive ++ ":" ++ "|".intercalate args)

/-- The name is written with the prefix from this kind and these arguments, up to an equals sign. -/
structure Config.Names (c : Config) (name directive : String) (args : List String) : Prop where
  nonempty : directive ≠ ""
  colon : ':' ∉ directive.toList
  areArgs : AreArgs args
  written : ∃ kind rest, name = c.directivePrefix ++ "-" ++ kind ++ rest ∧
    '=' ∉ kind.toList ∧ (∀ d ∈ rest.toList.head?, d = '=') ∧ WritesKind directive args kind

theorem not_mem_of_mem_splitOn {sep : Char} {cs part : List Char} (h : part ∈ cs.splitOn sep) :
    sep ∉ part := by
  induction cs generalizing part with
  | nil => simp_all
  | cons c cs ih =>
    rw [List.splitOn_cons_eq_if_modifyHead] at h
    split at h
    · rcases List.mem_cons.1 h with rfl | hpart
      · exact List.not_mem_nil
      · exact ih hpart
    · rename_i hc
      -- the character goes to the first part, the others are parts of the rest
      obtain ⟨first, parts, hsplit⟩ := List.exists_cons_of_ne_nil (List.splitOn_ne_nil sep cs)
      rw [hsplit, List.modifyHead_cons, List.mem_cons] at h
      rcases h with rfl | hpart
      · have hfirst : sep ∉ first := ih (by simp [hsplit])
        simpa [hfirst] using fun heq => hc (by simp [heq])
      · exact ih (by simp [hsplit, hpart])

/-- The arguments in what follows the colon. -/
def argsAfter (more : List Char) : List String :=
  if more = [] then [] else (more.splitOn '|').map String.ofList

variable {args : List String} {directive : String} {kind more : List Char}

theorem areArgs_argsAfter (more : List Char) : AreArgs (argsAfter more) := by
  unfold argsAfter
  split
  · exact ⟨by simp, by simp⟩
  · rename_i hmore
    constructor
    · intro a ha
      obtain ⟨part, hpart, rfl⟩ := List.mem_map.1 ha
      rw [String.toList_ofList]
      exact not_mem_of_mem_splitOn hpart
    · intro hblank
      obtain ⟨part, hsplit, hpart⟩ := List.map_eq_singleton_iff.1 hblank
      have hjoin : List.intercalate ['|'] (more.splitOn '|') = more := List.intercalate_splitOn '|'
      rw [hsplit, String.ofList_eq_empty_iff.1 hpart] at hjoin
      exact hmore hjoin.symm

theorem intercalate_argsAfter (more : List Char) :
    "|".intercalate (argsAfter more) = String.ofList more := by
  unfold argsAfter
  split
  · rename_i hmore
    rw [hmore]
    rfl
  · have hparts : ((more.splitOn '|').map String.ofList).map String.toList = more.splitOn '|' := by
      simp [Function.comp_def]
    refine String.ext ?_
    rw [String.toList_intercalate, hparts, String.toList_ofList (l := more)]
    exact List.intercalate_splitOn '|'

theorem AreArgs.argsAfter_eq (h : AreArgs args) :
    argsAfter ("|".intercalate args).toList = args := by
  by_cases hne : args = []
  · subst hne
    rfl
  · have hbars : ∀ l ∈ args.map String.toList, '|' ∉ l := by simpa using h.bars
    have hsplit : (("|".intercalate args).toList.splitOn '|').map String.ofList = args := by
      rw [String.toList_intercalate]
      have := List.splitOn_intercalate '|' hbars (by simpa using hne)
      simp [this, Function.comp_def]
    have hmore : ("|".intercalate args).toList ≠ [] := by
      intro hempty
      rw [hempty] at hsplit
      exact h.notBlank hsplit.symm
    rw [argsAfter, if_neg hmore, hsplit]

theorem splitKind_of_not_mem (h : ':' ∉ kind) : splitKind kind = (String.ofList kind, []) := by
  have hin := Text.bne_of_not_mem h
  rw [splitKind, List.takeWhile_eq_self_iff.2 hin, List.dropWhile_eq_nil_iff.2 hin]

/-- A kind is split at its first colon. -/
theorem splitKind_colon {front : List Char} (hfront : ':' ∉ front) (more : List Char) :
    splitKind (front ++ ':' :: more) = (String.ofList front, argsAfter more) := by
  have hin := Text.bne_of_not_mem hfront
  have hstop : ∀ d ∈ (':' :: more).head?, (d != ':') = false := by
    rintro d ⟨⟩
    rfl
  rw [splitKind, Text.takeWhile_append_of_stop hin hstop, Text.dropWhile_append_of_stop hin hstop]
  cases more with
  | nil => rfl
  | cons d more => rfl

theorem writesKind_splitKind (kind : List Char) :
    ':' ∉ (splitKind kind).1.toList ∧ AreArgs (splitKind kind).2 ∧
      WritesKind (splitKind kind).1 (splitKind kind).2 (String.ofList kind) := by
  by_cases hmem : ':' ∈ kind
  · obtain ⟨front, more, rfl, hfront⟩ := List.eq_append_cons_of_mem hmem
    have hkind : String.ofList (front ++ ':' :: more) =
        String.ofList front ++ ":" ++ "|".intercalate (argsAfter more) := by
      rw [intercalate_argsAfter]
      refine String.ext ?_
      simp
    rw [splitKind_colon hfront, String.toList_ofList, hkind]
    exact ⟨hfront, areArgs_argsAfter more, .listed _⟩
  · rw [splitKind_of_not_mem hmem, String.toList_ofList]
    exact ⟨hmem, ⟨by simp, by simp⟩, .alone⟩

/-- A kind and arguments that a text is written from are those that it is split into. -/
theorem WritesKind.splitKind_eq {text : String} (h : WritesKind directive args text)
    (hcolon : ':' ∉ directive.toList) (hargs : AreArgs args) :
    splitKind text.toList = (directive, args) := by
  cases h with
  | alone => rw [splitKind_of_not_mem hcolon, String.ofList_toList]
  | listed =>
    have htext : (directive ++ ":" ++ "|".intercalate args).toList =
        directive.toList ++ ':' :: ("|".intercalate args).toList := by
      simp only [String.toList_append, List.append_assoc]
      rfl
    rw [htext, splitKind_colon hcolon, hargs.argsAfter_eq, String.ofList_toList]

namespace Config

variable {c : Config} {name value : String}

/-- The kind of a name is what stands after the prefix and the dash, up to an equals sign. -/
theorem kind?_eq_some_iff {kind : List Char} :
    c.kind? name = some kind ↔ kind ≠ [] ∧ '=' ∉ kind ∧
      ∃ rest, name.toList = c.directivePrefix.toList ++ '-' :: (kind ++ rest) ∧
        ∀ d ∈ rest.head?, d = '=' := by
  constructor
  · intro h
    obtain ⟨tail, hname, hkind, hne⟩ := exists_of_kind? h
    refine ⟨hne, not_mem_of_kind? h, tail.dropWhile (· != '='), ?_, ?_⟩
    · rw [hname, hkind, List.takeWhile_append_dropWhile]
    · intro d hd
      simpa using Text.head?_dropWhile tail d hd
  · rintro ⟨hne, hequals, rest, hname, hrest⟩
    have hin := Text.bne_of_not_mem hequals
    have hstop : ∀ d ∈ rest.head?, (d != '=') = false := by
      intro d hd
      simpa using hrest d hd
    have hafter : Text.after? (c.directivePrefix.toList ++ ['-']) name.toList =
        some (kind ++ rest) := by
      rw [Text.after?_eq_some_iff, hname]
      simp
    rw [kind?, hafter]
    dsimp only
    rw [Text.takeWhile_append_of_stop hin hstop]
    split
    · exact absurd rfl hne
    · rfl

/-- A name is written from the kind and the arguments that it is split into, and from no others. -/
theorem names_iff {directive : String} {args : List String} :
    c.Names name directive args ↔
      directive ≠ "" ∧ (c.kind? name).map splitKind = some (directive, args) := by
  rw [Option.map_eq_some_iff]
  constructor
  · rintro ⟨hne, hcolon, hargs, kind, rest, rfl, hequals, hrest, hwrites⟩
    have hkind : kind.toList ≠ [] := by
      cases hwrites with
      | alone => simpa using hne
      | listed => simp
    refine ⟨hne, kind.toList, kind?_eq_some_iff.2 ⟨hkind, hequals, rest.toList, ?_, hrest⟩,
      hwrites.splitKind_eq hcolon hargs⟩
    simp
  · rintro ⟨hne, kind, hkind, hsplit⟩
    obtain ⟨hcolon, hargs, hwrites⟩ := writesKind_splitKind kind
    obtain ⟨-, hequals, rest, hname, hrest⟩ := kind?_eq_some_iff.1 hkind
    rw [hsplit] at hcolon hargs hwrites
    refine ⟨hne, hcolon, hargs, String.ofList kind, String.ofList rest, String.ext ?_, ?_, ?_,
      hwrites⟩
    · rw [hname]
      simp
    · rwa [String.toList_ofList]
    · rwa [String.toList_ofList]

theorem names_alone {directive : String} (hne : directive ≠ "") (hcolon : ':' ∉ directive.toList)
    (hequals : '=' ∉ directive.toList) :
    c.Names (c.directivePrefix ++ "-" ++ directive) directive [] := by
  refine ⟨hne, hcolon, ⟨by simp, by simp⟩, directive, "", ?_, hequals, by simp, .alone⟩
  rw [String.append_empty]

theorem names_listed {directive : String} {args : List String} (hne : directive ≠ "")
    (hcolon : ':' ∉ directive.toList) (hequals : '=' ∉ directive.toList) (hargs : AreArgs args)
    (hfree : ∀ a ∈ args, '=' ∉ a.toList) :
    c.Names (c.directivePrefix ++ "-" ++ directive ++ ":" ++ "|".intercalate args) directive
      args := by
  have hjoin : '=' ∉ ("|".intercalate args).toList := by
    cases args with
    | nil => simp
    | cons a args =>
      rw [List.forall_mem_cons] at hfree
      rw [toList_intercalate_cons]
      simpa [hfree.1] using hfree.2
  refine ⟨hne, hcolon, hargs, directive ++ ":" ++ "|".intercalate args, "", ?_, ?_, by simp,
    .listed args⟩
  · simp only [String.append_assoc, String.append_empty]
  · simp only [String.toList_append, List.mem_append, not_or]
    exact ⟨⟨hequals, by decide⟩, hjoin⟩

theorem describe_of_names {directive : String} {args : List String} {tree : Expr}
    (h : c.Names name directive args) (hvalue : c.hasInterpolation value = false)
    (hread : Expr.read value = .ok tree) :
    c.describe name value = .ok
      { name, value, directive, args, tree
        oneTime := false
        html := false
        expression := tree.code c.style
        isInterpolation := false } := by
  obtain ⟨hne, hkind⟩ := names_iff.1 h
  simp only [describe, hvalue, describeDirective, hkind, hne, hread, Bool.false_eq_true, if_false]

theorem names_of_describe {d : Descriptor} (h : c.describe name value = .ok d)
    (hplain : d.isInterpolation = false) : c.Names name d.directive d.args := by
  rcases cases_of_describe h with ⟨-, -, hbound⟩ | ⟨-, hdirective⟩
  · obtain ⟨tree, -, rfl⟩ := exists_of_describeInterpolation hbound
    cases hplain
  · obtain ⟨kind, tree, hkind, hne, -, rfl⟩ := exists_of_describeDirective hdirective
    exact names_iff.2 ⟨hne, by rw [hkind]; rfl⟩

/-- An attribute that is not bound is refused for its name if it is written from no kind. -/
theorem describe_eq_notDirective (hvalue : c.hasInterpolation value = false)
    (h : ∀ directive args, ¬ c.Names name directive args) :
    c.describe name value = .error (.notDirective name c.directivePrefix) := by
  simp only [describe, hvalue, describeDirective, Bool.false_eq_true, if_false]
  split
  · rfl
  · rename_i directive args hkind
    have hempty : directive = "" := by
      by_contra hne
      exact h directive args (names_iff.2 ⟨hne, hkind⟩)
    rw [if_pos hempty]

/-- Names of directives are split into what they are written from, with or without arguments. What
is split has been written so, and a name that has not is refused. -/
theorem describe_undoes_naming (c : Config) :
    (∀ value tree, c.hasInterpolation value = false → Expr.read value = .ok tree →
      ∀ directive, directive ≠ "" → ':' ∉ directive.toList → '=' ∉ directive.toList →
        (∀ args, args ≠ [] → args ≠ [""] → (∀ a ∈ args, '|' ∉ a.toList ∧ '=' ∉ a.toList) →
          ∃ d, c.describe (c.directivePrefix ++ "-" ++ directive ++ ":" ++ "|".intercalate args)
              value = .ok d ∧ d.directive = directive ∧ d.args = args) ∧
        (∃ d, c.describe (c.directivePrefix ++ "-" ++ directive) value = .ok d ∧
          d.directive = directive ∧ d.args = []) ∧
        ∃ d, c.describe (c.directivePrefix ++ "-" ++ directive ++ ":") value = .ok d ∧
          d.directive = directive ∧ d.args = []) ∧
    (∀ name value d, c.describe name value = .ok d → d.isInterpolation = false →
      c.Names name d.directive d.args) ∧
    ∀ name value, c.hasInterpolation value = false →
      (∀ directive args, ¬ c.Names name directive args) →
      c.describe name value = .error (.notDirective name c.directivePrefix) := by
  refine ⟨?_, fun name value d => names_of_describe, fun name value => describe_eq_notDirective⟩
  intro value tree hvalue hread directive hne hcolon hequals
  refine ⟨fun args _ hblank hargs => ?_, ?_, ?_⟩
  · have hnames := names_listed (c := c) hne hcolon hequals ⟨fun a ha => (hargs a ha).1, hblank⟩
      fun a ha => (hargs a ha).2
    exact ⟨_, describe_of_names hnames hvalue hread, rfl, rfl⟩
  · exact ⟨_, describe_of_names (names_alone hne hcolon hequals) hvalue hread, rfl, rfl⟩
  · have hnames : c.Names (c.directivePrefix ++ "-" ++ directive ++ ":" ++ "|".intercalate [])
        directive [] := names_listed hne hcolon hequals ⟨by simp, by simp⟩ (by simp)
    rw [String.intercalate_nil, String.append_empty] at hnames
    exact ⟨_, describe_of_names hnames hvalue hread, rfl, rfl⟩

/-- A prefix with a dot, a dash and a colon, and arguments that are empty or hold a colon. -/
def dottedConfig : Config := { default with directivePrefix := "s.-:" }

theorem describe_undoes_naming_dotted :
    (∃ d, dottedConfig.describe "s.-:-on-x:|a:b|" "x | f" = .ok d ∧
      d.directive = "on-x" ∧ d.args = ["", "a:b", ""]) ∧
    (∃ d, dottedConfig.describe "s.-:-on-x:" "x | f" = .ok d ∧
      d.directive = "on-x" ∧ d.args = []) ∧
    (∃ d, dottedConfig.describe "s.-:-if:a=:b" "x | f" = .ok d ∧
      dottedConfig.Names "s.-:-if:a=:b" d.directive d.args) ∧
    dottedConfig.describe "s.-:-:a" "x | f" = .error (.notDirective "s.-:-:a" "s.-:") := by
  obtain ⟨hwritten, hsplit, hrefused⟩ := describe_undoes_naming dottedConfig
  have hvalue : dottedConfig.hasInterpolation "x | f" = false := by decide
  have hok : (Expr.read "x | f").isOk = true := by decide +kernel
  cases hread : Expr.read "x | f" with
  | error e =>
    rw [hread] at hok
    cases hok
  | ok tree =>
    obtain ⟨hargs, -, hnone⟩ := hwritten "x | f" tree hvalue hread "on-x" (by decide) (by decide)
      (by decide)
    have hnames : dottedConfig.Names "s.-:-if:a=:b" "if" ["a"] :=
      names_iff.2 ⟨by decide, by decide⟩
    have hif := describe_of_names hnames hvalue hread
    refine ⟨hargs ["", "a:b", ""] (by decide) (by decide) (by simp), hnone,
      ⟨_, hif, hsplit _ _ _ hif rfl⟩, hrefused _ _ hvalue fun directive args hnames => ?_⟩
    obtain ⟨hne, hkind⟩ := names_iff.1 hnames
    have hempty : (dottedConfig.kind? "s.-:-:a").map splitKind = some ("", ["a"]) := by decide
    rw [hempty] at hkind
    cases hkind
    exact hne rfl

end Config
end Stencil
