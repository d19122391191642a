import Stencil.Proofs.Descriptors
import Stencil.Proofs.Serialization

/-!
# A compiled template and its source

A compiled forest has the elements of its source in the same places. The attributes of an element
are divided between those that are kept and those that are described, both in their order, and
every text is cut into segments that give it back once its line feeds are dropped.
-/

namespace Stencil

open Markup (Attribute Node)

/-- The attributes are a merge of those that are kept and of those that the descriptors are of, each
in its order. -/
inductive Divides (c : Config) : List Attribute → List Attribute → List Descriptor → Prop
  | nil : Divides c [] [] []
  | keep {a : Attribute} {attrs kept : List Attribute} {ds : List Descriptor} :
      c.isDynamic a = false → Divides c attrs kept ds → Divides c (a :: attrs) (a :: kept) ds
  | describe {a : Attribute} {d : Descriptor} {attrs kept : List Attribute}
      {ds : List Descriptor} :
      c.isDynamic a = true → d.name = a.name → d.value = a.value.getD "" →
      c.describe a.name (a.value.getD "") = .ok d → Divides c attrs kept ds →
      Divides c (a :: attrs) kept (d :: ds)

/-- A binding carries the code of its expression, and a literal text carries none. -/
def CompiledSegment.IsCompiled (c : Config) (s : CompiledSegment) : Prop :=
  match s.segment with
  | .text _ => s.expression = none
  | .binding b => ∃ code, c.compileExpr b.value = .ok code ∧ s.expression = some code

/-- The compiled node stands for the node, and so does each child for the child in its place. -/
inductive Mirrors (c : Config) : Node → CompiledNode → Prop
  | element {tag : String} {attrs kept : List Attribute} {selfClosing : Bool}
      {ds : List Descriptor} {children : List Node} {nodes : List CompiledNode} :
      Divides c attrs kept ds → List.Forall₂ (Mirrors c) children nodes →
      Mirrors c (.element tag attrs selfClosing children) (.element tag kept ds nodes)
  | text {text : String} {segments : List CompiledSegment} :
      segments.map CompiledSegment.segment = c.scan text →
      Segment.joined (segments.map CompiledSegment.segment) = text.toList.filter (· != '\n') →
      (∀ s ∈ segments, s.IsCompiled c) → Mirrors c (.text text) (.text segments)

namespace Config

variable {c : Config} {tag : String}

theorem divides_of_compileAttributes {attrs kept : List Attribute} {ds : List Descriptor}
    (h : c.compileAttributes tag attrs = .ok (kept, ds)) : Divides c attrs kept ds := by
  induction attrs generalizing kept ds with
  | nil =>
    cases h
    exact .nil
  | cons a attrs ih =>
    obtain ⟨kept', ds', hattrs, ⟨hstatic, rfl, rfl⟩ | ⟨d, hdynamic, hd, rfl, rfl⟩⟩ :=
      exists_of_compileAttributes h
    · exact .keep hstatic (ih hattrs)
    · have hfits := fits_of_describe hd
      exact .describe hdynamic hfits.sameName hfits.sameValue hd (ih hattrs)

theorem isCompiled_of_compileSegment {s : Segment} {out : CompiledSegment}
    (h : c.compileSegment s = .ok out) : out.segment = s ∧ out.IsCompiled c := by
  cases s with
  | text value =>
    cases h
    exact ⟨rfl, rfl⟩
  | binding b =>
    obtain ⟨code, hcode, rfl⟩ := exists_of_map_ok h
    exact ⟨rfl, code, hcode, rfl⟩

theorem map_segment_of_mapM {segments : List Segment} {out : List CompiledSegment}
    (h : segments.mapM c.compileSegment = .ok out) :
    out.map CompiledSegment.segment = segments := by
  have hpairs := forall₂_of_mapM h
  clear h
  induction hpairs with
  | nil => rfl
  | cons hs _ ih => rw [List.map_cons, ih, (isCompiled_of_compileSegment hs).1]

theorem mirrors_of_compileText {text : String} {out : CompiledNode}
    (h : c.compileText text = .ok out) : Mirrors c (.text text) out := by
  obtain ⟨segments, hsegments, rfl⟩ := exists_of_compileText h
  have hscan := map_segment_of_mapM hsegments
  refine .text hscan ?_ ?_
  · rw [hscan]
    exact c.markers.joined_scan text
  · exact forall_of_mapM (fun s out hs => (isCompiled_of_compileSegment hs).2) hsegments

theorem mirrors_of_compileNodes {ns : List Node} {out : List CompiledNode}
    (hns : ∀ n ∈ ns, ∀ node, c.compileNode n = .ok node → Mirrors c n node)
    (h : c.compileNodes ns = .ok out) : List.Forall₂ (Mirrors c) ns out := by
  induction ns generalizing out with
  | nil =>
    cases h
    exact .nil
  | cons n ns ih =>
    obtain ⟨first, rest, hfirst, hrest, rfl⟩ := exists_of_compileNodes h
    rw [List.forall_mem_cons] at hns
    exact .cons (hns.1 first hfirst) (ih hns.2 hrest)

theorem mirrors_of_compileNode {n : Node} {out : CompiledNode} (h : c.compileNode n = .ok out) :
    Mirrors c n out := by
  induction n generalizing out with
  | text text => exact mirrors_of_compileText h
  | element tag attrs selfClosing children ih =>
    obtain ⟨kept, ds, nodes, hattrs, hchildren, rfl⟩ := exists_of_compileNode h
    exact .element (divides_of_compileAttributes hattrs)
      (mirrors_of_compileNodes (fun n hn node => ih n hn) hchildren)

/-- The nodes of a compiled template stand for those of the template, one by one and at every
depth. -/
theorem forall₂_mirrors_of_compileTemplate (c : Config) (source : String) (ns : List Node)
    (out : List CompiledNode) (hparse : Markup.parse source = .ok ns)
    (hcompile : c.compileTemplate source = .ok out) : List.Forall₂ (Mirrors c) ns out := by
  obtain ⟨ns', hparse', hnodes⟩ := exists_of_compileTemplate hcompile
  rw [hparse] at hparse'
  cases hparse'
  exact mirrors_of_compileNodes (fun n _ node => mirrors_of_compileNode) hnodes

/-- Attributes of all kinds, and a text with a line feed and a binding. -/
def mixedSource : String :=
  "<p id=x sk-if='a' b title=\"\x7b\x7bc\x7d\x7d!\">d\n\x7b\x7b*e|f\x7d\x7d<br/></p>"

def mixedForest : List Node :=
  [.element "p" [⟨"id", some "x"⟩, ⟨"sk-if", some "a"⟩, ⟨"b", none⟩,
      ⟨"title", some "\x7b\x7bc\x7d\x7d!"⟩] false
    [.text "d\n\x7b\x7b*e|f\x7d\x7d", .element "br" [] true []]]

theorem forall₂_mirrors_of_compileTemplate_mixed :
    Markup.parse mixedSource = .ok mixedForest ∧
    ∃ out, default.compileTemplate mixedSource = .ok out ∧
      List.Forall₂ (Mirrors default) mixedForest out := by
  have hevents : Markup.readEvents mixedSource.toList =
      .ok [.openTag "p" [⟨"id", some "x"⟩, ⟨"sk-if", some "a"⟩, ⟨"b", none⟩,
          ⟨"title", some "\x7b\x7bc\x7d\x7d!"⟩],
        .text "d\n\x7b\x7b*e|f\x7d\x7d", .selfClosing "br" [], .closeTag "p"] := by
    decide +kernel
  have hparse : Markup.parse mixedSource = .ok mixedForest := by
    rw [Markup.parse, hevents]
    rfl
  have hok : (default.compileTemplate mixedSource).isOk = true := by decide +kernel
  cases hcompile : default.compileTemplate mixedSource with
  | error e =>
    rw [hcompile] at hok
    cases hok
  | ok out =>
    exact ⟨hparse, out, rfl,
      forall₂_mirrors_of_compileTemplate default mixedSource mixedForest out hparse hcompile⟩

end Config
end Stencil
