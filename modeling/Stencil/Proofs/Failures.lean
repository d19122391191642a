import Stencil.Proofs.Descriptors
import Stencil.Proofs.Serialization

/-!
# The first failure in document order

What can fail in a template are its directives, its bound attributes and the bindings of its texts.
They are listed in document order, the attributes of an element before what is below it. A template
compiles if all of them do, and else fails with the error of the first one that does not, whatever
comes after it.
-/

namespace Stencil

open Markup (Attribute Node)

section Except

variable {ε α β : Type}

/-- The error of what has failed. -/
def failure? : Except ε α → Option ε
  | .error e => some e
  | .ok _ => none

theorem failure?_eq_some_iff {x : Except ε α} {e : ε} : failure? x = some e ↔ x = .error e := by
  cases x <;> simp [failure?]

theorem failure?_eq_none_iff {x : Except ε α} : failure? x = none ↔ ∃ a, x = .ok a := by
  cases x <;> simp [failure?]

theorem failure?_map (x : Except ε α) (f : α → β) : failure? (x.map f) = failure? x := by
  cases x <;> rfl

/-- A traversal fails as the first of its members that fails. -/
theorem failure?_mapM (f : α → Except ε β) (xs : List α) :
    failure? (xs.mapM f) = xs.findSome? fun x => failure? (f x) := by
  induction xs with
  | nil => rfl
  | cons x xs ih =>
    rw [List.mapM_cons, List.findSome?_cons, ← ih]
    cases f x with
    | error e => rfl
    | ok y => cases xs.mapM f <;> rfl

end Except

/-- A part of a template that is compiled on its own: an attribute of an element with this tag, or a
binding of a text. -/
inductive Item where
  | attr (tag : String) (attr : Attribute)
  | binding (text : String) (binding : Binding)
deriving DecidableEq, Repr

/-- The error that the item makes a template fail with. -/
def Item.failure? (c : Config) : Item → Option TemplateError
  | .attr tag a =>
    (Stencil.failure? (c.describe a.name (a.value.getD ""))).map (.attribute tag)
  | .binding text b => (Stencil.failure? (c.compileExpr b.value)).map (.text text)

mutual

/-- The items of a node in document order. -/
def nodeItems (c : Config) : Node → List Item
  | .text text => ((c.scan text).filterMap Segment.binding?).map (.binding text)
  | .element tag attrs _ children =>
    (attrs.filter c.isDynamic).map (.attr tag) ++ forestItems c children

def forestItems (c : Config) : List Node → List Item
  | [] => []
  | n :: ns => nodeItems c n ++ forestItems c ns

end

namespace Config

variable {c : Config}

theorem failure?_compileAttributes (tag : String) (attrs : List Attribute) :
    failure? (c.compileAttributes tag attrs) =
      ((attrs.filter c.isDynamic).map (.attr tag)).findSome? (Item.failure? c) := by
  induction attrs with
  | nil => rfl
  | cons a attrs ih =>
    rw [compileAttributes]
    split
    · rename_i hdynamic
      rw [List.filter_cons_of_pos hdynamic, List.map_cons, List.findSome?_cons, ← ih, Item.failure?]
      cases c.describe a.name (a.value.getD "") with
      | error cause => rfl
      | ok d => exact failure?_map _ _
    · rename_i hstatic
      rw [List.filter_cons_of_neg hstatic, failure?_map, ih]

theorem failure?_compileSegment (s : Segment) :
    failure? (c.compileSegment s) = s.binding?.bind fun b => failure? (c.compileExpr b.value) := by
  cases s with
  | text value => rfl
  | binding b => exact failure?_map _ _

theorem failure?_compileText (text : String) :
    failure? (c.compileText text) =
      (failure? ((c.scan text).mapM c.compileSegment)).map (.text text) := by
  unfold compileText
  cases (c.scan text).mapM c.compileSegment <;> rfl

theorem failure?_compileText_eq_findSome? (text : String) :
    failure? (c.compileText text) = (nodeItems c (.text text)).findSome? (Item.failure? c) := by
  rw [failure?_compileText, failure?_mapM, List.map_findSome?, nodeItems, List.findSome?_map,
    ← List.head?_filterMap (f := Item.failure? c ∘ Item.binding text), List.filterMap_filterMap,
    List.head?_filterMap]
  congr 1
  funext s
  rw [Function.comp_apply, failure?_compileSegment, Option.map_bind]
  rfl

theorem failure?_compileNodes {ns : List Node}
    (hns : ∀ n ∈ ns, failure? (c.compileNode n) = (nodeItems c n).findSome? (Item.failure? c)) :
    failure? (c.compileNodes ns) = (forestItems c ns).findSome? (Item.failure? c) := by
  induction ns with
  | nil => rfl
  | cons n ns ih =>
    rw [List.forall_mem_cons] at hns
    rw [compileNodes, forestItems, List.findSome?_append, ← hns.1, ← ih hns.2]
    cases c.compileNode n with
    | error e => rfl
    | ok node => exact failure?_map _ _

theorem failure?_compileNode (n : Node) :
    failure? (c.compileNode n) = (nodeItems c n).findSome? (Item.failure? c) := by
  induction n with
  | text text => exact failure?_compileText_eq_findSome? text
  | element tag attrs selfClosing children ih =>
    rw [compileNode, nodeItems, List.findSome?_append, ← failure?_compileAttributes,
      ← failure?_compileNodes ih]
    cases c.compileAttributes tag attrs with
    | error e => rfl
    | ok divided => exact failure?_map _ _

/-- A directive of no kind has a colon right after the dash. -/
theorem exists_of_splitKind_eq_empty {name : String} {kind : List Char}
    (hkind : c.kind? name = some kind) (h : (splitKind kind).1 = "") :
    ∃ rest, name = c.directivePrefix ++ "-:" ++ rest := by
  obtain ⟨rest, hname, hrest, hne⟩ := exists_of_kind? hkind
  obtain ⟨d, tail, rfl⟩ := List.exists_cons_of_ne_nil hne
  have hd : d = ':' := by
    by_contra hd
    rw [splitKind_fst, List.takeWhile_cons_of_pos (by simpa using hd)] at h
    simpa using congrArg String.toList h
  obtain ⟨more, rfl⟩ : d :: tail <+: rest := hrest ▸ List.takeWhile_prefix _
  refine ⟨String.ofList (tail ++ more), String.ext ?_⟩
  simp [hname, hd]

/-- A directive or a bound attribute is refused for its name only if the name has no kind: right
after the dash a colon stands. -/
theorem exists_of_describe_eq_notDirective {a : Attribute} {name directivePrefix : String}
    (hdynamic : c.isDynamic a = true)
    (h : c.describe a.name (a.value.getD "") = .error (.notDirective name directivePrefix)) :
    name = a.name ∧ ∃ rest, a.name = c.directivePrefix ++ "-:" ++ rest := by
  unfold describe at h
  split_ifs at h with hvalue hname
  · cases h
  · obtain ⟨cause, heq⟩ := exists_of_describeInterpolation_error h
    cases heq
  · rw [isDynamic, Bool.or_eq_true, or_iff_left hvalue, isDirectiveName,
      Option.isSome_iff_exists] at hdynamic
    obtain ⟨kind, hkind⟩ := hdynamic
    unfold describeDirective at h
    simp only [hkind, Option.map_some] at h
    split_ifs at h with hempty
    · cases h
      exact ⟨rfl, exists_of_splitKind_eq_empty hkind hempty⟩
    · split at h <;> cases h

theorem exists_of_failure?_eq_attribute {item : Item} {tag : String} {cause : DirectiveError}
    (h : item.failure? c = some (.attribute tag cause)) :
    ∃ a, item = .attr tag a ∧ c.describe a.name (a.value.getD "") = .error cause := by
  cases item with
  | attr tag' a =>
    obtain ⟨cause', hcause, heq⟩ := Option.map_eq_some_iff.1 h
    cases heq
    exact ⟨a, rfl, failure?_eq_some_iff.1 hcause⟩
  | binding text b =>
    obtain ⟨cause', -, heq⟩ := Option.map_eq_some_iff.1 h
    cases heq

theorem mem_forestItems_iff {ns : List Node} {item : Item} :
    item ∈ forestItems c ns ↔ ∃ n ∈ ns, item ∈ nodeItems c n := by
  induction ns with
  | nil => simp [forestItems]
  | cons n ns ih => rw [forestItems, List.mem_append, ih, List.exists_mem_cons_iff]

theorem isDynamic_of_mem_nodeItems {n : Node} {tag : String} {a : Attribute}
    (h : .attr tag a ∈ nodeItems c n) : c.isDynamic a = true := by
  induction n with
  | text text => simp [nodeItems] at h
  | element tag attrs selfClosing children ih =>
    rw [nodeItems, List.mem_append, mem_forestItems_iff] at h
    rcases h with hattr | ⟨n, hn, hitem⟩
    · obtain ⟨a', ha, heq⟩ := List.mem_map.1 hattr
      cases heq
      exact (List.mem_filter.1 ha).2
    · exact ih n hn hitem

/-- A template that cannot be read fails with that error. Else it compiles if every item does, and
fails with the error of the first item that does not; this error is about a name only if a colon
stands right after the dash in it. -/
theorem compileTemplate_first_failure (c : Config) (source : String) :
    (∀ e, Markup.parse source = .error e → c.compileTemplate source = .error (.markup e)) ∧
    ∀ ns, Markup.parse source = .ok ns →
      ((∃ nodes, c.compileTemplate source = .ok nodes) ↔
        ∀ item ∈ forestItems c ns, item.failure? c = none) ∧
      (∀ e, c.compileTemplate source = .error e ↔
        ∃ before item after, forestItems c ns = before ++ item :: after ∧
          item.failure? c = some e ∧ ∀ earlier ∈ before, earlier.failure? c = none) ∧
      ∀ tag name directivePrefix,
        c.compileTemplate source = .error (.attribute tag (.notDirective name directivePrefix)) →
        ∃ a rest, .attr tag a ∈ forestItems c ns ∧ a.name = name ∧
          name = c.directivePrefix ++ "-:" ++ rest := by
  refine ⟨fun e he => by rw [compileTemplate, he], fun ns hns => ?_⟩
  have hcompile : c.compileTemplate source = c.compileNodes ns := by rw [compileTemplate, hns]
  have hfailure : failure? (c.compileNodes ns) = (forestItems c ns).findSome? (Item.failure? c) :=
    failure?_compileNodes fun n _ => failure?_compileNode n
  have herror (e : TemplateError) : c.compileTemplate source = .error e ↔
      ∃ before item after, forestItems c ns = before ++ item :: after ∧
        item.failure? c = some e ∧ ∀ earlier ∈ before, earlier.failure? c = none := by
    rw [hcompile, ← failure?_eq_some_iff, hfailure, List.findSome?_eq_some_iff]
  refine ⟨?_, herror, fun tag name directivePrefix h => ?_⟩
  · rw [hcompile, ← failure?_eq_none_iff, hfailure, List.findSome?_eq_none_iff]
  · obtain ⟨before, item, after, hitems, hitem, -⟩ := (herror _).1 h
    have hmem : item ∈ forestItems c ns := by simp [hitems]
    obtain ⟨a, rfl, hdescribe⟩ := exists_of_failure?_eq_attribute hitem
    obtain ⟨n, -, hn⟩ := mem_forestItems_iff.1 hmem
    have hdynamic := isDynamic_of_mem_nodeItems hn
    obtain ⟨rfl, rest, hrest⟩ := exists_of_describe_eq_notDirective hdynamic hdescribe
    exact ⟨a, rest, hmem, rfl, hrest⟩

/-- An element inside another one whose second attribute is a directive of no kind. What stands
after it does not compile either. -/
def kindlessSource : String :=
  "<p title='\x7b\x7ba\x7d\x7d'>\x7b\x7bb\x7d\x7d<i sk-if=c sk-:d=e sk-on=''>\x7b\x7b \x7d\x7d</i></p>"

def kindlessForest : List Node :=
  [.element "p" [⟨"title", some "\x7b\x7ba\x7d\x7d"⟩] false
    [.text "\x7b\x7bb\x7d\x7d",
      .element "i" [⟨"sk-if", some "c"⟩, ⟨"sk-:d", some "e"⟩, ⟨"sk-on", some ""⟩] false
        [.text "\x7b\x7b \x7d\x7d"]]]

theorem compileTemplate_first_failure_kindless :
    Markup.parse kindlessSource = .ok kindlessForest ∧
    default.compileTemplate kindlessSource =
      .error (.attribute "i" (.notDirective "sk-:d" "sk")) ∧
    ∃ a rest, .attr "i" a ∈ forestItems default kindlessForest ∧ a.name = "sk-:d" ∧
      "sk-:d" = default.directivePrefix ++ "-:" ++ rest := by
  have hevents : Markup.readEvents kindlessSource.toList =
      .ok [.openTag "p" [⟨"title", some "\x7b\x7ba\x7d\x7d"⟩], .text "\x7b\x7bb\x7d\x7d",
        .openTag "i" [⟨"sk-if", some "c"⟩, ⟨"sk-:d", some "e"⟩, ⟨"sk-on", some ""⟩],
        .text "\x7b\x7b \x7d\x7d", .closeTag "i", .closeTag "p"] := by
    decide +kernel
  have hparse : Markup.parse kindlessSource = .ok kindlessForest := by
    rw [Markup.parse, hevents]
    rfl
  obtain ⟨-, herror, hname⟩ := (compileTemplate_first_failure default kindlessSource).2 _ hparse
  have hfirst : default.compileTemplate kindlessSource =
      .error (.attribute "i" (.notDirective "sk-:d" "sk")) := by
    refine (herror _).2 ⟨(forestItems default kindlessForest).take 3,
      .attr "i" ⟨"sk-:d", some "e"⟩, (forestItems default kindlessForest).drop 4, ?_, ?_, ?_⟩
    · decide +kernel
    · decide +kernel
    · exact List.all_iff_forall_prop.1 (by decide +kernel)
  exact ⟨hparse, hfirst, hname _ _ _ hfirst⟩

end Config
end Stencil
