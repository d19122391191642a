import Mathlib.Order.Bounds.Basic
import Stencil.Proofs.Stretches
import Stencil.Proofs.Walks

/-!
# How elements nest

Which elements are open at a place of the text is described by the events alone, without a stack:
a tag opens an element, and a closing tag closes the latest open element with its name and all that
were opened after it. The forest that is built from the events is the only one whose nodes, met in
pre-order, are the nodes of the events in their order, each below the latest element that is open
where the node is written.
-/

namespace Stencil.Markup

namespace Event

/-- The node that an event brings; white space alone counts as one blank. -/
def label? : Event → Option Label
  | .text run => some (.text (if Text.isAllWhite run then " " else run))
  | .openTag tag attrs => some (.element tag attrs false)
  | .selfClosing tag attrs => some (.element tag attrs true)
  | .closeTag _ => none

/-- The name of the element that an event opens. -/
def opens? : Event → Option String
  | .openTag tag _ => some tag
  | _ => none

end Event

variable (events : List Event)

/-- The node that the event at a position brings. -/
def labelAt? (i : Nat) : Option Label :=
  events[i]?.bind Event.label?

def opensAt? (i : Nat) : Option String :=
  events[i]?.bind Event.opens?

/-- The number of nodes that the events before a position bring. -/
def nodesBefore (k : Nat) : Nat :=
  ((events.take k).filterMap Event.label?).length

/-- The event at position `j` opened an element that is still open before position `k`. A closing
tag closes the latest open element with its name, if there is one, and those opened after it. -/
def IsOpen : Nat → Nat → Prop
  | 0, _ => False
  | k + 1, j =>
    match events[k]? with
    | some (.openTag _ _) => j = k ∨ IsOpen k j
    | some (.closeTag tag) =>
      IsOpen k j ∧ ∀ l, IsGreatest { l | IsOpen k l ∧ opensAt? events l = some tag } l → j < l
    | _ => IsOpen k j

/-- The number of the parent of a node that is written at position `k`: the latest element that is
open there, if there is one. -/
def IsParent (k : Nat) : Option Nat → Prop
  | none => ∀ j, ¬ IsOpen events k j
  | some number => ∃ j, IsGreatest { j | IsOpen events k j } j ∧ nodesBefore events j = number

/-- The forest has the nodes of the events in their order, each in its place. -/
structure Nests (forest : List Node) : Prop where
  nodes : (entries forest).map Entry.label = events.filterMap Event.label?
  parents : ∀ i label, labelAt? events i = some label →
    ∃ parent, (entries forest)[nodesBefore events i]? = some ⟨label, parent⟩ ∧
      IsParent events i parent

variable {events}

theorem lt_of_isOpen {k j : Nat} (h : IsOpen events k j) : j < k := by
  induction k with
  | zero => cases h
  | succ k ih =>
    unfold IsOpen at h
    split at h
    · rcases h with rfl | h
      · exact Nat.lt_succ_self j
      · exact Nat.lt_succ_of_lt (ih h)
    · exact Nat.lt_succ_of_lt (ih h.1)
    · exact Nat.lt_succ_of_lt (ih h)

section

variable {k j : Nat} {tag : String}

theorem isOpen_openTag_iff {attrs : List Attribute} (hk : events[k]? = some (.openTag tag attrs)) :
    IsOpen events (k + 1) j ↔ j = k ∨ IsOpen events k j := by
  simp only [IsOpen, hk]

/-- A closing tag leaves open what was opened before the latest element with its name. -/
theorem isOpen_closeTag_iff {l : Nat} (hk : events[k]? = some (.closeTag tag))
    (hl : IsGreatest { l | IsOpen events k l ∧ opensAt? events l = some tag } l) :
    IsOpen events (k + 1) j ↔ IsOpen events k j ∧ j < l := by
  simp only [IsOpen, hk]
  refine and_congr_right fun _ => ⟨fun h => h l hl, fun hj l' hl' => ?_⟩
  rwa [hl'.unique hl]

theorem isOpen_stray_iff (hk : events[k]? = some (.closeTag tag))
    (hnone : ∀ l, IsOpen events k l → opensAt? events l ≠ some tag) :
    IsOpen events (k + 1) j ↔ IsOpen events k j := by
  simp only [IsOpen, hk, and_iff_left_iff_imp]
  exact fun _ l hl => absurd hl.1.2 (hnone l hl.1.1)

end

namespace Forest

/-- The nodes so far, as they would be if the text ended here. -/
def nodes (f : Forest) : List Node :=
  closeAll f.roots f.opened []

theorem nodes_push (f : Forest) (n : Node) : (f.push n).nodes = closeAll f.roots f.opened [n] := by
  obtain ⟨opened, roots⟩ := f
  cases opened with
  | nil => simp [push, nodes, closeAll]
  | cons e outer => simp [push, nodes, closeAll, OpenElement.close]

theorem nodes_closeThrough (tag : String) (roots : List Node) (opened : List OpenElement)
    (last : List Node) :
    (closeThrough tag roots opened last).nodes = closeAll roots opened last := by
  induction opened generalizing last with
  | nil => simp [closeThrough, nodes, closeAll]
  | cons e outer ih =>
    rw [closeThrough]
    split
    · rw [nodes_push, closeAll]
    · rw [ih, closeAll]

/-- Closing elements early changes no node. -/
theorem nodes_closeTag (f : Forest) (tag : String) : (f.step (.closeTag tag)).nodes = f.nodes := by
  rw [step]
  split
  · exact nodes_closeThrough tag f.roots f.opened []
  · rfl

mutual

/-- The walk over the finished roots and the open elements. -/
def walkOpened (roots : List Node) : List OpenElement → List Entry
  | [] => entries roots
  | e :: outer =>
    walkOpened roots outer ++
      ⟨.element e.tag e.attrs false, innermost roots outer⟩ ::
        walkForest (some (walkOpened roots outer).length) ((walkOpened roots outer).length + 1)
          e.children

/-- The number of the innermost open element on that walk. -/
def innermost (roots : List Node) : List OpenElement → Option Nat
  | [] => none
  | _ :: outer => some (walkOpened roots outer).length

end

/-- What ends the innermost open element ends the walk. -/
theorem entries_closeAll (roots : List Node) (opened : List OpenElement) (last : List Node) :
    entries (closeAll roots opened last) =
      walkOpened roots opened ++
        walkForest (innermost roots opened) (walkOpened roots opened).length last := by
  induction opened generalizing last with
  | nil =>
    rw [closeAll, entries, walkForest_append, walkOpened, innermost, entries, Nat.zero_add]
  | cons e outer ih =>
    rw [closeAll, ih, walkForest_singleton, OpenElement.close, Node.walk, walkForest_append,
      walkOpened, innermost]
    simp only [List.append_assoc, List.cons_append, List.length_append, List.length_cons,
      Nat.add_assoc, Nat.add_comm 1]

theorem entries_nodes (f : Forest) : entries f.nodes = walkOpened f.roots f.opened := by
  rw [nodes, entries_closeAll, walkForest, List.append_nil]

/-- An event adds its node at the end of the walk, below the innermost open element. -/
theorem entries_step (f : Forest) (event : Event) :
    entries (f.step event).nodes = entries f.nodes ++
      event.label?.toList.map fun label => ⟨label, innermost f.roots f.opened⟩ := by
  have hpush (n : Node) : entries (f.push n).nodes = entries f.nodes ++
      n.walk (innermost f.roots f.opened) (walkOpened f.roots f.opened).length := by
    rw [nodes_push, entries_closeAll, walkForest_singleton, entries_nodes]
  cases event with
  | text run => rw [step, hpush]; rfl
  | selfClosing tag attrs => rw [step, hpush]; rfl
  | openTag tag attrs => rw [entries_nodes, entries_nodes]; rfl
  | closeTag tag => rw [nodes_closeTag]; simp [Event.label?]

/-- The open elements, the innermost first, were opened by the events at these positions. -/
inductive OpenedAt (events : List Event) (roots : List Node) : List OpenElement → List Nat → Prop
  | nil : OpenedAt events roots [] []
  | cons {e : OpenElement} {outer : List OpenElement} {p : Nat} {ps : List Nat} :
      opensAt? events p = some e.tag → nodesBefore events p = (walkOpened roots outer).length →
      OpenedAt events roots outer ps → OpenedAt events roots (e :: outer) (p :: ps)

variable {f : Forest} {ps : List Nat} {roots : List Node} {opened : List OpenElement} {tag : String}
variable {k : Nat}

theorem OpenedAt.push (h : OpenedAt events f.roots f.opened ps) (n : Node) :
    OpenedAt events (f.push n).roots (f.push n).opened ps := by
  obtain ⟨opened, roots⟩ := f
  cases h with
  | nil => exact .nil
  | cons htag hnumber houter => exact .cons htag hnumber houter

/-- Closing an element forgets the positions up to the latest one with its name. -/
theorem OpenedAt.closeThrough (h : OpenedAt events roots opened ps)
    (hany : opened.any (·.tag = tag) = true) (last : List Node) :
    ∃ inner p outer, ps = inner ++ p :: outer ∧ opensAt? events p = some tag ∧
      (∀ l ∈ inner, opensAt? events l ≠ some tag) ∧
      OpenedAt events (closeThrough tag roots opened last).roots
        (closeThrough tag roots opened last).opened outer := by
  induction h generalizing last with
  | nil => cases hany
  | @cons e outer p ps htag hnumber houter ih =>
    rw [Forest.closeThrough]
    split
    · rename_i heq
      exact ⟨[], p, ps, rfl, heq ▸ htag, by simp, OpenedAt.push (f := ⟨outer, roots⟩) houter _⟩
    · rename_i hne
      rw [List.any_cons, decide_eq_false hne, Bool.false_or] at hany
      obtain ⟨inner, q, rest, rfl, hq, hinner, hrest⟩ := ih hany [e.close last]
      refine ⟨p :: inner, q, rest, rfl, hq, List.forall_mem_cons.2 ⟨?_, hinner⟩, hrest⟩
      rw [htag]
      simpa using hne

theorem OpenedAt.opensAt?_ne (h : OpenedAt events roots opened ps)
    (hnone : ∀ e ∈ opened, e.tag ≠ tag) : ∀ l ∈ ps, opensAt? events l ≠ some tag := by
  induction h with
  | nil => simp
  | cons htag _ _ ih =>
    rw [List.forall_mem_cons] at hnone ⊢
    refine ⟨?_, ih hnone.2⟩
    rw [htag]
    simpa using hnone.1

/-- The open elements were opened at the positions that the events leave open. -/
def Agrees (events : List Event) (k : Nat) (f : Forest) : Prop :=
  ∃ ps, OpenedAt events f.roots f.opened ps ∧ ps.Pairwise (· > ·) ∧
    ∀ j, IsOpen events k j ↔ j ∈ ps

theorem Agrees.isParent (h : Agrees events k f) :
    IsParent events k (innermost f.roots f.opened) := by
  obtain ⟨ps, hopened, hsorted, hopen⟩ := h
  cases hcases : f.opened with
  | nil =>
    rw [hcases] at hopened
    cases hopened
    intro j hj
    simpa using (hopen j).1 hj
  | cons e outer =>
    rw [hcases] at hopened
    cases hopened with
    | @cons _ _ p ps htag hnumber houter =>
      refine ⟨p, ⟨(hopen p).2 (by simp), fun j hj => ?_⟩, hnumber⟩
      rcases List.mem_cons.1 ((hopen j).1 hj) with rfl | hmem
      · exact le_rfl
      · exact le_of_lt (List.rel_of_pairwise_cons hsorted hmem)

theorem Agrees.closeTag (h : Agrees events k f) (hk : events[k]? = some (.closeTag tag)) :
    Agrees events (k + 1) (f.step (.closeTag tag)) := by
  obtain ⟨ps, hopened, hsorted, hopen⟩ := h
  rw [Forest.step]
  split
  · rename_i hany
    obtain ⟨inner, p, outer, rfl, hp, hinner, houter⟩ := hopened.closeThrough hany []
    rw [List.pairwise_append, List.pairwise_cons] at hsorted
    obtain ⟨-, ⟨hpouter, hsorted⟩, hbefore⟩ := hsorted
    -- the latest open element with the name is the first one that is found from inside
    have hlatest : IsGreatest { l | IsOpen events k l ∧ opensAt? events l = some tag } p := by
      refine ⟨⟨(hopen p).2 (by simp), hp⟩, fun l hl => ?_⟩
      rcases List.mem_append.1 ((hopen l).1 hl.1) with hmem | hmem
      · exact absurd hl.2 (hinner l hmem)
      · rcases List.mem_cons.1 hmem with rfl | hmem
        · exact le_rfl
        · exact le_of_lt (hpouter l hmem)
    refine ⟨outer, houter, hsorted, fun j => ?_⟩
    rw [isOpen_closeTag_iff hk hlatest, hopen, List.mem_append, List.mem_cons]
    constructor
    · rintro ⟨hmem | rfl | hmem, hj⟩
      · exact absurd hj (lt_asymm (hbefore j hmem p (by simp)))
      · exact absurd hj (lt_irrefl j)
      · exact hmem
    · intro hmem
      exact ⟨.inr (.inr hmem), hpouter j hmem⟩
  · rename_i hnone
    have hother : ∀ l ∈ ps, opensAt? events l ≠ some tag :=
      hopened.opensAt?_ne (by simpa using hnone)
    refine ⟨ps, hopened, hsorted, fun j => ?_⟩
    rw [isOpen_stray_iff hk fun l hl => hother l ((hopen l).1 hl), hopen]

theorem Agrees.step {event : Event} (h : Agrees events k f) (hk : events[k]? = some event)
    (hcount : (walkOpened f.roots f.opened).length = nodesBefore events k) :
    Agrees events (k + 1) (f.step event) := by
  cases event with
  | closeTag tag => exact h.closeTag hk
  | text run =>
    obtain ⟨ps, hopened, hsorted, hopen⟩ := h
    exact ⟨ps, hopened.push _, hsorted, by simpa only [IsOpen, hk] using hopen⟩
  | selfClosing tag attrs =>
    obtain ⟨ps, hopened, hsorted, hopen⟩ := h
    exact ⟨ps, hopened.push _, hsorted, by simpa only [IsOpen, hk] using hopen⟩
  | openTag tag attrs =>
    obtain ⟨ps, hopened, hsorted, hopen⟩ := h
    refine ⟨k :: ps, .cons (by simp [opensAt?, hk, Event.opens?]) hcount.symm hopened, ?_, ?_⟩
    · exact List.pairwise_cons.2 ⟨fun j hj => lt_of_isOpen ((hopen j).2 hj), hsorted⟩
    · intro j
      rw [isOpen_openTag_iff hk, hopen, List.mem_cons]

/-- The forest holds what the first `k` events brought, and its open elements are the open ones. -/
structure Tracks (events : List Event) (k : Nat) (f : Forest) : Prop where
  nodes : (entries f.nodes).map Entry.label = (events.take k).filterMap Event.label?
  parents : ∀ i < k, ∀ label, labelAt? events i = some label →
    ∃ parent, (entries f.nodes)[nodesBefore events i]? = some ⟨label, parent⟩ ∧
      IsParent events i parent
  agrees : Agrees events k f

theorem Tracks.length_entries (h : Tracks events k f) :
    (entries f.nodes).length = nodesBefore events k := by
  rw [nodesBefore, ← h.nodes, List.length_map]

theorem tracks_empty (events : List Event) : Tracks events 0 empty where
  nodes := rfl
  parents i hi := absurd hi (Nat.not_lt_zero i)
  agrees := ⟨[], .nil, .nil, fun j => by simp [IsOpen]⟩

theorem Tracks.step {event : Event} (h : Tracks events k f) (hk : events[k]? = some event) :
    Tracks events (k + 1) (f.step event) where
  nodes := by
    rw [entries_step, List.map_append, h.nodes, List.take_add_one, hk, List.filterMap_append]
    cases hlabel : event.label? <;> simp [hlabel]
  parents i hi label hlabel := by
    rw [entries_step]
    rcases Nat.lt_succ_iff_lt_or_eq.1 hi with hi | rfl
    · obtain ⟨parent, hentry, hparent⟩ := h.parents i hi label hlabel
      refine ⟨parent, ?_, hparent⟩
      rw [List.getElem?_append_left (List.getElem?_eq_some_iff.1 hentry).1, hentry]
    · refine ⟨_, ?_, h.agrees.isParent⟩
      rw [labelAt?, hk, Option.bind_some] at hlabel
      rw [← h.length_entries, hlabel]
      simp
  agrees := h.agrees.step hk (by rw [← entries_nodes, h.length_entries])

theorem tracks_foldl (hk : k ≤ events.length) :
    Tracks events k ((events.take k).foldl Forest.step empty) := by
  induction k with
  | zero => exact tracks_empty events
  | succ k ih =>
    have hevent : events[k]? = some events[k] := List.getElem?_eq_getElem hk
    rw [List.take_add_one, hevent, Option.toList_some, List.foldl_append]
    exact (ih (Nat.le_of_succ_le hk)).step hevent

theorem nests_ofEvents (events : List Event) : Nests events (ofEvents events) := by
  have h := tracks_foldl (le_refl events.length)
  rw [List.take_length] at h
  have hnodes := h.nodes
  rw [List.take_length] at hnodes
  refine ⟨hnodes, fun i label hlabel => ?_⟩
  have hi : i < events.length := by
    by_contra hi
    rw [labelAt?, List.getElem?_eq_none (Nat.le_of_not_lt hi)] at hlabel
    cases hlabel
  exact h.parents i hi label hlabel

end Forest

theorem IsParent.unique {k : Nat} {parent other : Option Nat} (h : IsParent events k parent)
    (h' : IsParent events k other) : parent = other := by
  cases parent with
  | none =>
    cases other with
    | none => rfl
    | some number =>
      obtain ⟨j, hj, -⟩ := h'
      exact absurd hj.1 (h j)
  | some number =>
    obtain ⟨j, hj, rfl⟩ := h
    cases other with
    | none => exact absurd hj.1 (h' j)
    | some number =>
      obtain ⟨l, hl, rfl⟩ := h'
      rw [hj.unique hl]

theorem exists_labelAt? {number : Nat} (h : number < (events.filterMap Event.label?).length) :
    ∃ i label, labelAt? events i = some label ∧ nodesBefore events i = number := by
  induction events generalizing number with
  | nil => cases h
  | cons event events ih =>
    cases hlabel : event.label? with
    | none =>
      rw [List.filterMap_cons_none hlabel] at h
      obtain ⟨i, label, hi, hnumber⟩ := ih h
      exact ⟨i + 1, label, hi, by simpa [nodesBefore, hlabel] using hnumber⟩
    | some label =>
      rw [List.filterMap_cons_some hlabel, List.length_cons] at h
      cases number with
      | zero => exact ⟨0, label, by simpa [labelAt?] using hlabel, rfl⟩
      | succ number =>
        obtain ⟨i, label, hi, hnumber⟩ := ih (Nat.lt_of_succ_lt_succ h)
        exact ⟨i + 1, label, hi, by simpa [nodesBefore, hlabel] using hnumber⟩

theorem Nests.unique {forest other : List Node} (h : Nests events forest)
    (h' : Nests events other) : forest = other := by
  refine entries_injective (List.ext_getElem? fun number => ?_)
  have hlength : (entries forest).length = (events.filterMap Event.label?).length := by
    rw [← h.nodes, List.length_map]
  have hlength' : (entries other).length = (events.filterMap Event.label?).length := by
    rw [← h'.nodes, List.length_map]
  by_cases hnumber : number < (events.filterMap Event.label?).length
  · obtain ⟨i, label, hi, rfl⟩ := exists_labelAt? hnumber
    obtain ⟨parent, hentry, hparent⟩ := h.parents i label hi
    obtain ⟨parent', hentry', hparent'⟩ := h'.parents i label hi
    rw [hentry, hentry', hparent.unique hparent']
  · rw [List.getElem?_eq_none (by omega), List.getElem?_eq_none (by omega)]

/-- A template is cut into stretches, of which all but the comments are events. The forest built
from the events is the only one that has their nodes in their order, each below the latest element
that is open where it is written. White space between its roots is dropped in the end. -/
theorem exists_nests_of_parse (source : String) (ns : List Node) (h : parse source = .ok ns) :
    ∃ events, readEvents source.toList = .ok events ∧ Covers source.toList events ∧
      (∀ forest, Nests events forest ↔ forest = Forest.ofEvents events) ∧
      ns = (Forest.ofEvents events).filter fun n => !n.isBlank := by
  unfold parse at h
  dsimp only at h
  split at h
  · cases h
  · rename_i events hevents
    cases h
    have hnests := Forest.nests_ofEvents events
    refine ⟨events, hevents, covers_of_readEvents hevents, fun forest => ?_, rfl⟩
    exact ⟨fun hforest => hforest.unique hnests, fun heq => heq ▸ hnests⟩

/-- Crossing tags, a stray closing tag, and elements that are never closed. -/
def crossingSource : String := " <a>1<b> <!-- - --><c/></a>2</b><a>3<d>"

def crossingForest : List Node :=
  [.text " ",
    .element "a" [] false [.text "1", .element "b" [] false [.text " ", .element "c" [] true []]],
    .text "2", .element "a" [] false [.text "3", .element "d" [] false []]]

theorem exists_nests_of_parse_crossing :
    parse crossingSource = .ok crossingForest.tail ∧
    ∃ events, readEvents crossingSource.toList = .ok events ∧ Nests events crossingForest := by
  have hevents : readEvents crossingSource.toList =
      .ok [.text " ", .openTag "a" [], .text "1", .openTag "b" [], .text " ", .selfClosing "c" [],
        .closeTag "a", .text "2", .closeTag "b", .openTag "a" [], .text "3", .openTag "d" []] := by
    decide +kernel
  have hparse : parse crossingSource = .ok crossingForest.tail := by
    rw [parse, hevents]
    rfl
  obtain ⟨events, hread, -, hnests, -⟩ := exists_nests_of_parse _ _ hparse
  refine ⟨hparse, events, hread, (hnests _).2 ?_⟩
  rw [hevents] at hread
  cases hread
  rfl

end Stencil.Markup
