import Stencil.Proofs.Serialization

/-!
# Walks over a forest

A walk meets the nodes of a forest in pre-order and numbers them from zero. It lists what each node
is and the number of its parent, and this list settles the forest.
-/

namespace Stencil.Markup

/-- A node without its children. -/
inductive Label where
  | element (tag : String) (attrs : List Attribute) (selfClosing : Bool)
  | text (value : String)
deriving DecidableEq, Repr

/-- A node as it is met on a walk: what it is, and the number that its parent has on the walk. -/
structure Entry where
  label : Label
  parent : Option Nat
deriving DecidableEq, Repr

mutual

/-- A node and all that is below it in pre-order; `number` nodes were met before. -/
def Node.walk (parent : Option Nat) (number : Nat) : Node → List Entry
  | .text value => [⟨.text value, parent⟩]
  | .element tag attrs selfClosing children =>
    ⟨.element tag attrs selfClosing, parent⟩ :: walkForest (some number) (number + 1) children

def walkForest (parent : Option Nat) (number : Nat) : List Node → List Entry
  | [] => []
  | n :: ns =>
    n.walk parent number ++ walkForest parent (number + (n.walk parent number).length) ns

end

/-- The nodes of a forest in pre-order, numbered from zero. -/
def entries (ns : List Node) : List Entry :=
  walkForest none 0 ns

theorem walkForest_append (parent : Option Nat) (number : Nat) (ns ms : List Node) :
    walkForest parent number (ns ++ ms) =
      walkForest parent number ns ++
        walkForest parent (number + (walkForest parent number ns).length) ms := by
  induction ns generalizing number with
  | nil => rfl
  | cons n ns ih =>
    rw [List.cons_append, walkForest, walkForest, ih, List.append_assoc, List.length_append,
      Nat.add_assoc]

theorem walkForest_singleton (parent : Option Nat) (number : Nat) (n : Node) :
    walkForest parent number [n] = n.walk parent number := by
  rw [walkForest, walkForest, List.append_nil]

namespace Entry

/-- The parent of the node is not met before `number` nodes. -/
def isBelow (number : Nat) (e : Entry) : Bool :=
  e.parent.any (number ≤ ·)

theorem isBelow_mono {number more : Nat} (h : number ≤ more) {e : Entry}
    (he : e.isBelow more = true) : e.isBelow number = true := by
  rw [isBelow, Option.any_eq_true] at he ⊢
  obtain ⟨q, hq, hle⟩ := he
  exact ⟨q, hq, decide_eq_true (le_trans h (of_decide_eq_true hle))⟩

end Entry

namespace Node

def label : Node → Label
  | .element tag attrs selfClosing _ => .element tag attrs selfClosing
  | .text value => .text value

theorem walkForest_below {ns : List Node} {parent : Option Nat} {number : Nat}
    (hns : ∀ n ∈ ns, ∀ parent number, ∃ tail, n.walk parent number = ⟨n.label, parent⟩ :: tail ∧
      ∀ e ∈ tail, e.isBelow number = true) :
    ∀ e ∈ walkForest parent number ns, e.parent = parent ∨ e.isBelow number = true := by
  induction ns generalizing number with
  | nil => simp [walkForest]
  | cons n ns ih =>
    rw [List.forall_mem_cons] at hns
    rw [walkForest, List.forall_mem_append]
    constructor
    · obtain ⟨tail, htail, hbelow⟩ := hns.1 parent number
      rw [htail, List.forall_mem_cons]
      exact ⟨.inl rfl, fun e he => .inr (hbelow e he)⟩
    · intro e he
      exact (ih hns.2 e he).imp_right (Entry.isBelow_mono (Nat.le_add_right number _))

/-- A node comes first on its walk, and all others are below it. -/
theorem exists_walk_cons (n : Node) (parent : Option Nat) (number : Nat) :
    ∃ tail, n.walk parent number = ⟨n.label, parent⟩ :: tail ∧
      ∀ e ∈ tail, e.isBelow number = true := by
  induction n generalizing parent number with
  | text value => exact ⟨[], by rw [walk]; rfl, by simp⟩
  | element tag attrs selfClosing children ih =>
    refine ⟨walkForest (some number) (number + 1) children, by rw [walk]; rfl, fun e he => ?_⟩
    rcases walkForest_below ih e he with hparent | hbelow
    · simp [Entry.isBelow, hparent]
    · exact Entry.isBelow_mono (Nat.le_succ number) hbelow

/-- A walk ends where a node with the parent of its first node is met. -/
theorem walk_append_inj {n m : Node} {parent : Option Nat} {number : Nat} {rest more : List Entry}
    (hparent : ∀ q ∈ parent, q < number) (hrest : ∀ e ∈ rest.head?, e.parent = parent)
    (hmore : ∀ e ∈ more.head?, e.parent = parent)
    (h : n.walk parent number ++ rest = m.walk parent number ++ more) :
    n.walk parent number = m.walk parent number ∧ rest = more := by
  have hstop (e : Entry) (he : e.parent = parent) : e.isBelow number = false := by
    rw [Entry.isBelow, he]
    cases parent with
    | none => rfl
    | some q => simpa using hparent q rfl
  obtain ⟨tail, htail, hbelow⟩ := n.exists_walk_cons parent number
  obtain ⟨tail', htail', hbelow'⟩ := m.exists_walk_cons parent number
  rw [htail, htail', List.cons_append, List.cons_append, List.cons.injEq] at h
  obtain ⟨hlabel, h⟩ := h
  have htake := Text.takeWhile_append_of_stop hbelow fun e he => hstop e (hrest e he)
  have htake' := Text.takeWhile_append_of_stop hbelow' fun e he => hstop e (hmore e he)
  obtain rfl : tail = tail' := by rw [← htake, h, htake']
  exact ⟨by rw [htail, htail', hlabel], List.append_cancel_left h⟩

theorem parent_of_head?_walkForest (ns : List Node) (parent : Option Nat) (number : Nat) :
    ∀ e ∈ (walkForest parent number ns).head?, e.parent = parent := by
  cases ns with
  | nil => simp [walkForest]
  | cons n ns =>
    obtain ⟨tail, htail, -⟩ := n.exists_walk_cons parent number
    rw [walkForest, htail]
    rintro e ⟨⟩
    rfl

theorem eq_of_walkForest {ns ms : List Node} {parent : Option Nat} {number : Nat}
    (hns : ∀ n ∈ ns, ∀ m parent number, (∀ q ∈ parent, q < number) →
      n.walk parent number = m.walk parent number → n = m)
    (hparent : ∀ q ∈ parent, q < number)
    (h : walkForest parent number ns = walkForest parent number ms) : ns = ms := by
  induction ns generalizing ms number with
  | nil =>
    cases ms with
    | nil => rfl
    | cons m ms =>
      obtain ⟨tail, htail, -⟩ := m.exists_walk_cons parent number
      simp [walkForest, htail] at h
  | cons n ns ih =>
    cases ms with
    | nil =>
      obtain ⟨tail, htail, -⟩ := n.exists_walk_cons parent number
      simp [walkForest, htail] at h
    | cons m ms =>
      rw [List.forall_mem_cons] at hns
      rw [walkForest, walkForest] at h
      obtain ⟨hwalk, hrest⟩ := walk_append_inj hparent (parent_of_head?_walkForest ns _ _)
        (parent_of_head?_walkForest ms _ _) h
      rw [← hwalk] at hrest
      rw [hns.1 m parent number hparent hwalk,
        ih hns.2 (fun q hq => Nat.lt_add_right _ (hparent q hq)) hrest]

theorem eq_of_walk {n m : Node} {parent : Option Nat} {number : Nat}
    (hparent : ∀ q ∈ parent, q < number) (h : n.walk parent number = m.walk parent number) :
    n = m := by
  induction n generalizing m parent number with
  | text value =>
    cases m with
    | text other => simpa [walk] using h
    | element tag attrs selfClosing children => simp [walk] at h
  | element tag attrs selfClosing children ih =>
    cases m with
    | text other => simp [walk] at h
    | element tag' attrs' selfClosing' children' =>
      simp only [walk, List.cons.injEq, Entry.mk.injEq, Label.element.injEq, and_true] at h
      obtain ⟨⟨rfl, rfl, rfl⟩, hchildren⟩ := h
      rw [eq_of_walkForest (fun n hn m _ _ => ih n hn) (by simp) hchildren]

end Node

/-- The nodes in pre-order and their parents settle the forest. -/
theorem entries_injective {ns ms : List Node} (h : entries ns = entries ms) : ns = ms :=
  Node.eq_of_walkForest (fun _ _ _ _ _ => Node.eq_of_walk) (by simp) h

end Stencil.Markup
