import Stencil.Proofs.Derivability

/-!
# The grouping of a chain

A chain says nothing about how its operands are joined. The trees that could be meant all have the
same in-order reading, and the tiers of the operators single one of them out: what stands left of a
binary operator does not bind less tightly, what stands right of it binds more tightly, and neither
signs nor accesses reach around a binary operator. In such a tree the operator at the root is the
last one of the loosest tier, so that the reading alone tells where the root is. The tree of a
chain is this tree. What stands in brackets plays no part: it is a primary expression or the key of
an access, as a whole.
-/

namespace Stencil

namespace BinaryOp

/-- The binary operators from the loosest to the tightest; those of one tier bind alike. -/
def tiers : List (List BinaryOp) :=
  [[.or], [.and], [.strictEq, .strictNe, .eq, .ne], [.lt, .gt, .le, .ge], [.add, .sub],
    [.mul, .div, .rem]]

/-- The operator stands in an earlier tier than the other one. -/
def Looser (op op' : BinaryOp) : Prop :=
  ∃ tier tier', List.Sublist [tier, tier'] tiers ∧ op ∈ tier ∧ op' ∈ tier'

/-- The levels follow the tiers. -/
theorem looser_iff {op op' : BinaryOp} : op.Looser op' ↔ op.level < op'.level := by
  constructor
  · rintro ⟨tier, tier', hsub, hop, hop'⟩
    have hsorted : tiers.Pairwise fun tier tier' =>
        ∀ op ∈ tier, ∀ op' ∈ tier', op.level < op'.level := by decide
    exact List.pairwise_iff_forall_sublist.1 hsorted hsub op hop op' hop'
  · intro hlt
    have hmem (op : BinaryOp) : ∃ tier ∈ tiers, op ∈ tier := by cases op <;> decide
    have htotal : ∀ tier ∈ tiers, ∀ tier' ∈ tiers, List.Sublist [tier, tier'] tiers ∨
        ∀ op ∈ tier, ∀ op' ∈ tier', op'.level ≤ op.level := by decide
    obtain ⟨tier, htier, hop⟩ := hmem op
    obtain ⟨tier', htier', hop'⟩ := hmem op'
    rcases htotal tier htier tier' htier' with hsub | hle
    · exact ⟨tier, tier', hsub, hop, hop'⟩
    · exact absurd (hle op hop op' hop') (Nat.not_le.2 hlt)

theorem not_looser_iff {op op' : BinaryOp} : ¬op'.Looser op ↔ op.level ≤ op'.level := by
  rw [looser_iff, Nat.not_lt]

end BinaryOp

/-- A tree of the operators of a chain, over its primary expressions. -/
inductive OpTree where
  | primary (value : Expr)
  | access (object : OpTree) (access : Access)
  | unary (op : UnaryOp) (operand : OpTree)
  | binary (op : BinaryOp) (left right : OpTree)

/-- What a chain is a sequence of. -/
inductive Symbol where
  | sign (op : UnaryOp)
  | primary (value : Expr)
  | access (access : Access)
  | joint (op : BinaryOp)

/-- The symbols of an operand, from the left. -/
def Operand.symbols (o : Operand) : List Symbol :=
  o.signs.map .sign ++ .primary o.primary :: o.accesses.map .access

/-- The symbols of a chain, from the left. -/
def Chain.symbols (c : Chain) : List Symbol :=
  (c.links.flatMap fun (operand, op) => operand.symbols ++ [.joint op]) ++ c.last.symbols

namespace OpTree

/-- The expression that the tree stands for. -/
def expr : OpTree → Expr
  | .primary value => value
  | .access object a => a.apply object.expr
  | .unary op operand => .unary op operand.expr
  | .binary op left right => .binary op left.expr right.expr

/-- The symbols of the tree, in order. -/
def reading : OpTree → List Symbol
  | .primary value => [.primary value]
  | .access object a => object.reading ++ [.access a]
  | .unary op operand => .sign op :: operand.reading
  | .binary op left right => left.reading ++ .joint op :: right.reading

/-- The operator at the root, if it is a binary one. -/
def joint? : OpTree → Option BinaryOp
  | .binary op .. => some op
  | _ => none

def isUnary : OpTree → Bool
  | .unary .. => true
  | _ => false

/-- Every node has only children that the tiers of the operators allow it. -/
inductive Grouped : OpTree → Prop
  | primary (value : Expr) : Grouped (.primary value)
  | access {object : OpTree} (a : Access) : object.Grouped → object.joint? = none →
      object.isUnary = false → Grouped (.access object a)
  | unary {operand : OpTree} (op : UnaryOp) : operand.Grouped → operand.joint? = none →
      Grouped (.unary op operand)
  | binary {op : BinaryOp} {left right : OpTree} : left.Grouped → right.Grouped →
      (∀ inner ∈ left.joint?, ¬inner.Looser op) →
      (∀ inner ∈ right.joint?, op.Looser inner) → Grouped (.binary op left right)

variable {t t' : OpTree}

/-- No operator of the reading binds less tightly than the root may. -/
theorem le_level_of_mem_reading (h : t.Grouped) {bound : Nat}
    (hroot : ∀ op ∈ t.joint?, bound ≤ op.level) {inner : BinaryOp}
    (hmem : .joint inner ∈ t.reading) : bound ≤ inner.level := by
  induction h generalizing bound with
  | primary value => simp [reading] at hmem
  | access a _ hobject _ ih => exact ih (by simp [hobject]) (by simpa [reading] using hmem)
  | unary sign _ hoperand ih => exact ih (by simp [hoperand]) (by simpa [reading] using hmem)
  | @binary op left right _ _ hleft hright ihleft ihright =>
    have hbound : bound ≤ op.level := hroot op rfl
    rw [reading, List.mem_append, List.mem_cons] at hmem
    rcases hmem with hmem | heq | hmem
    · refine ihleft (fun op' hop' => ?_) hmem
      exact Nat.le_trans hbound (BinaryOp.not_looser_iff.1 (hleft op' hop'))
    · cases heq
      exact hbound
    · refine ihright (fun op' hop' => ?_) hmem
      exact Nat.le_trans hbound (Nat.le_of_lt (BinaryOp.looser_iff.1 (hright op' hop')))

/-- All operators left of the root bind at least as tightly, and all right of it more tightly. -/
theorem levels_of_binary {op : BinaryOp} {left right : OpTree}
    (h : (binary op left right).Grouped) :
    (∀ inner, .joint inner ∈ left.reading → op.level ≤ inner.level) ∧
    ∀ inner, .joint inner ∈ right.reading → op.level < inner.level := by
  cases h with
  | binary hl hr hleft hright =>
    have hleft' : ∀ inner ∈ left.joint?, op.level ≤ inner.level := fun inner hinner =>
      BinaryOp.not_looser_iff.1 (hleft inner hinner)
    have hright' : ∀ inner ∈ right.joint?, op.level < inner.level := fun inner hinner =>
      BinaryOp.looser_iff.1 (hright inner hinner)
    exact ⟨fun _ => le_level_of_mem_reading hl hleft', fun _ => le_level_of_mem_reading hr hright'⟩

/-- Without a binary operator at the root there is none in the reading. -/
theorem joint_not_mem_reading (h : t.Grouped) (hjoint : t.joint? = none) (op : BinaryOp) :
    .joint op ∉ t.reading := by
  intro hmem
  have hle : op.level + 1 ≤ op.level := le_level_of_mem_reading h (by simp [hjoint]) hmem
  omega

theorem joint_mem_reading (op : BinaryOp) (left right : OpTree) :
    .joint op ∈ (binary op left right).reading := by
  simp [reading]

theorem reading_ne_nil (t : OpTree) : t.reading ≠ [] := by
  cases t <;> simp [reading]

/-- A reading starts with a sign only where a sign reaches over all of it, or over the first operand
of a binary operator. -/
theorem sign_not_head (h : t.Grouped) (hjoint : t.joint? = none) (hunary : t.isUnary = false)
    (op : UnaryOp) (rest : List Symbol) : t.reading ≠ .sign op :: rest := by
  induction h generalizing rest with
  | primary value => simp [reading]
  | access a _ hobject hsigned ih =>
    intro heq
    rw [reading] at heq
    obtain ⟨hnil, -⟩ | ⟨front, hfront, -⟩ := List.append_eq_cons_iff.1 heq
    · exact reading_ne_nil _ hnil
    · exact ih hobject hsigned front hfront
  | unary => cases hunary
  | binary => cases hjoint

/-- The last operator of the loosest level is found in one way. -/
theorem joint_append_inj {front back front' back' : List Symbol} {op op' : BinaryOp}
    (hfront : ∀ inner, .joint inner ∈ front → op.level ≤ inner.level)
    (hback : ∀ inner, .joint inner ∈ back → op.level < inner.level)
    (hfront' : ∀ inner, .joint inner ∈ front' → op'.level ≤ inner.level)
    (hback' : ∀ inner, .joint inner ∈ back' → op'.level < inner.level)
    (h : front ++ .joint op :: back = front' ++ .joint op' :: back') :
    front = front' ∧ op = op' ∧ back = back' := by
  rcases List.append_eq_append_iff.1 h with ⟨mid, hfront_eq, hback_eq⟩ | ⟨mid, hfront_eq, hback_eq⟩
  · cases mid with
    | nil => simp_all
    | cons s mid =>
      -- the second operator would stand on both sides of the first one
      obtain ⟨rfl, rfl⟩ := List.cons.inj hback_eq
      have hle := hfront' op (by simp [hfront_eq])
      have hlt := hback op' (by simp)
      omega
  · cases mid with
    | nil => simp_all
    | cons s mid =>
      obtain ⟨rfl, rfl⟩ := List.cons.inj hback_eq
      have hle := hfront op' (by simp [hfront_eq])
      have hlt := hback' op (by simp)
      omega

/-- A grouped tree is told by its reading: a binary operator in it makes one the root, else a sign
at its start does, else an access at its end. -/
theorem reading_injective (h : t.Grouped) (h' : t'.Grouped) (heq : t.reading = t'.reading) :
    t = t' := by
  induction h generalizing t' with
  | primary value =>
    cases h' with
    | primary value' => simpa [reading] using heq
    | access a => simp [reading, List.cons_eq_append_iff, reading_ne_nil] at heq
    | unary op => simp [reading] at heq
    | binary => simp [reading, List.cons_eq_append_iff] at heq
  | access a hobject hjoint hunary ih =>
    have hsign := sign_not_head (.access a hobject hjoint hunary) rfl rfl
    have hnone := joint_not_mem_reading (.access a hobject hjoint hunary) rfl
    cases h' with
    | primary value => simp [reading, List.append_eq_cons_iff, reading_ne_nil] at heq
    | access a' hobject' =>
      obtain ⟨hreading, ha⟩ := List.append_inj' heq rfl
      cases ha
      rw [ih hobject' hreading]
    | unary op => exact absurd heq (hsign _ _)
    | @binary op => exact absurd (heq ▸ joint_mem_reading op _ _) (hnone op)
  | unary op hoperand hjoint ih =>
    have hnone := joint_not_mem_reading (.unary op hoperand hjoint) rfl
    cases h' with
    | primary value => simp [reading] at heq
    | access a hobject hjoint' hunary =>
      exact absurd heq.symm (sign_not_head (.access a hobject hjoint' hunary) rfl rfl _ _)
    | unary op' hoperand' =>
      obtain ⟨hop, hreading⟩ := List.cons.inj heq
      cases hop
      rw [ih hoperand' hreading]
    | @binary op => exact absurd (heq ▸ joint_mem_reading op _ _) (hnone op)
  | @binary op left right hl hr hleft hright ihleft ihright =>
    cases hjoint : t'.joint? with
    | none => exact absurd (heq ▸ joint_mem_reading op _ _) (joint_not_mem_reading h' hjoint op)
    | some op' =>
      have hroot := levels_of_binary (.binary hl hr hleft hright)
      cases h' with
      | binary hl' hr' hleft' hright' =>
        have hroot' := levels_of_binary (.binary hl' hr' hleft' hright')
        obtain ⟨hfront, rfl, hback⟩ := joint_append_inj hroot.1 hroot.2 hroot'.1 hroot'.2 heq
        rw [ihleft hl' hfront, ihright hr' hback]
      | primary | access | unary => cases hjoint

end OpTree

/-- The tree of an operand: the accesses are nearest to the primary expression. -/
def Operand.tree (o : Operand) : OpTree :=
  o.signs.foldr OpTree.unary (o.accesses.foldl OpTree.access (.primary o.primary))

namespace Operand

theorem reading_tree (o : Operand) : o.tree.reading = o.symbols := by
  have haccesses (t : OpTree) (accesses : List Access) :
      (accesses.foldl OpTree.access t).reading = t.reading ++ accesses.map .access := by
    induction accesses generalizing t with
    | nil => simp
    | cons a accesses ih => simp [ih, OpTree.reading]
  have hsigns (signs : List UnaryOp) (t : OpTree) :
      (signs.foldr OpTree.unary t).reading = signs.map .sign ++ t.reading := by
    induction signs with
    | nil => rfl
    | cons op signs ih => simp [ih, OpTree.reading]
  rw [tree, hsigns, haccesses, symbols, OpTree.reading, List.singleton_append]

theorem expr_tree (o : Operand) : o.tree.expr = o.expr := by
  have haccesses (t : OpTree) (accesses : List Access) :
      (accesses.foldl OpTree.access t).expr = accesses.foldl Access.apply t.expr := by
    induction accesses generalizing t with
    | nil => rfl
    | cons a accesses ih => simp [ih, OpTree.expr]
  have hsigns (signs : List UnaryOp) (t : OpTree) :
      (signs.foldr OpTree.unary t).expr = signs.foldr Expr.unary t.expr := by
    induction signs with
    | nil => rfl
    | cons op signs ih => simp [ih, OpTree.expr]
  rw [tree, hsigns, haccesses, expr, OpTree.expr]

theorem grouped_tree (o : Operand) : o.tree.Grouped ∧ o.tree.joint? = none := by
  have haccesses {t : OpTree} (accesses : List Access) (ht : t.Grouped) (hjoint : t.joint? = none)
      (hunary : t.isUnary = false) : (accesses.foldl OpTree.access t).Grouped ∧
        (accesses.foldl OpTree.access t).joint? = none := by
    induction accesses generalizing t with
    | nil => exact ⟨ht, hjoint⟩
    | cons a accesses ih => exact ih (.access a ht hjoint hunary) rfl rfl
  have hsigns {t : OpTree} (signs : List UnaryOp) (ht : t.Grouped ∧ t.joint? = none) :
      (signs.foldr OpTree.unary t).Grouped ∧ (signs.foldr OpTree.unary t).joint? = none := by
    induction signs with
    | nil => exact ht
    | cons op signs ih => exact ⟨.unary op ih.1 ih.2, rfl⟩
  exact hsigns o.signs (haccesses o.accesses (.primary o.primary) rfl rfl)

end Operand

namespace Chain

/-- The symbols of links between trees. -/
def linkReading (links : List (OpTree × BinaryOp)) : List Symbol :=
  links.flatMap fun (t, op) => t.reading ++ [.joint op]

/-- Links between the expressions of trees. -/
def linkExprs (links : List (OpTree × BinaryOp)) : List (Expr × BinaryOp) :=
  links.map fun (t, op) => (t.expr, op)

/-- Left operands that wait for right ones, the latest first: each can be the left child of its
operator, and the operators bind the more tightly the later they came. -/
structure Waits (waiting : List (OpTree × BinaryOp)) : Prop where
  grouped : ∀ w ∈ waiting, w.1.Grouped
  left : ∀ w ∈ waiting, ∀ inner ∈ w.1.joint?, w.2.rank ≤ inner.rank
  sorted : waiting.Pairwise fun w w' => w'.2.rank < w.2.rank

/-- The operand that was read last can be the right child of all operators before it, and the left
child of an operator at `bound`. -/
structure Pending (bound : Nat) (waiting : List (OpTree × BinaryOp)) (operand : OpTree) : Prop where
  waits : Waits waiting
  grouped : operand.Grouped
  right : ∀ inner ∈ operand.joint?, ∀ w ∈ waiting, w.2.rank < inner.rank
  bound_le : ∀ inner ∈ operand.joint?, bound ≤ inner.rank

variable {bound : Nat} {waiting links : List (OpTree × BinaryOp)} {operand last : OpTree}
  {op : BinaryOp}

/-- An operand without a binary operator can follow whatever waits. -/
theorem Waits.pending (h : Waits waiting) (hoperand : operand.Grouped)
    (hjoint : operand.joint? = none) (bound : Nat) : Pending bound waiting operand where
  waits := h
  grouped := hoperand
  right := by simp [hjoint]
  bound_le := by simp [hjoint]

/-- The operand waits, before an operator that binds more tightly than those before it. -/
theorem Pending.push (h : Pending op.rank waiting operand)
    (hrank : ∀ w ∈ waiting, w.2.rank < op.rank) : Waits ((operand, op) :: waiting) where
  grouped := List.forall_mem_cons.2 ⟨h.grouped, h.waits.grouped⟩
  left := List.forall_mem_cons.2 ⟨h.bound_le, h.waits.left⟩
  sorted := List.pairwise_cons.2 ⟨hrank, h.waits.sorted⟩

/-- The operand joined with the latest one that waits. -/
theorem Pending.join {left : OpTree} (h : Pending bound ((left, op) :: waiting) operand)
    (hop : bound ≤ op.rank) : Pending bound waiting (.binary op left operand) := by
  obtain ⟨⟨hgrouped, hleft, hsorted⟩, hoperand, hright, -⟩ := h
  rw [List.forall_mem_cons] at hgrouped hleft
  rw [List.pairwise_cons] at hsorted
  have hjoin : (OpTree.binary op left operand).Grouped := by
    refine .binary hgrouped.1 hoperand (fun inner hinner => ?_) fun inner hinner => ?_
    · exact BinaryOp.not_looser_iff.2 (BinaryOp.rank_le_rank_iff.1 (hleft.1 inner hinner))
    · have hlt := hright inner hinner _ List.mem_cons_self
      exact BinaryOp.looser_iff.2 (BinaryOp.rank_lt_rank_iff.1 hlt)
  refine ⟨⟨hgrouped.2, hleft.2, hsorted.2⟩, hjoin, ?_, ?_⟩
  · rintro _ ⟨⟩
    exact hsorted.1
  · rintro _ ⟨⟩
    exact hop

/-- Joining operands that wait keeps the reading, and leaves those before looser operators. -/
theorem Pending.exists_reduce (h : Pending bound waiting operand) :
    ∃ (waiting' : List (OpTree × BinaryOp)) (operand' : OpTree),
      reduce bound (linkExprs waiting) operand.expr = (linkExprs waiting', operand'.expr) ∧
      Pending bound waiting' operand' ∧ (∀ w ∈ waiting', w.2.rank < bound) ∧
      linkReading waiting'.reverse ++ operand'.reading
        = linkReading waiting.reverse ++ operand.reading := by
  induction waiting generalizing operand with
  | nil => exact ⟨[], operand, rfl, h, by simp, rfl⟩
  | cons w waiting ih =>
    obtain ⟨left, op⟩ := w
    rw [linkExprs, List.map_cons, reduce]
    by_cases hop : bound ≤ op.rank
    · obtain ⟨waiting', operand', heq, hpending, hbound, hreading⟩ := ih (h.join hop)
      rw [if_pos hop]
      refine ⟨waiting', operand', heq, hpending, hbound, ?_⟩
      rw [hreading]
      simp [linkReading, OpTree.reading]
    · rw [if_neg hop]
      have hlt : op.rank < bound := Nat.lt_of_not_le hop
      have hsorted := (List.pairwise_cons.1 h.waits.sorted).1
      refine ⟨(left, op) :: waiting, operand, rfl, h, ?_, rfl⟩
      exact List.forall_mem_cons.2 ⟨hlt, fun w hw => Nat.lt_trans (hsorted w hw) hlt⟩

/-- The links are grouped into a tree that reads as what waited and the links do. By induction on
the links: between two of them the operands that wait are in order. -/
theorem Waits.exists_group (h : Waits waiting)
    (hlinks : ∀ l ∈ links, l.1.Grouped ∧ l.1.joint? = none)
    (hlast : last.Grouped ∧ last.joint? = none) :
    ∃ t : OpTree, t.Grouped ∧ t.expr = group (linkExprs waiting) (linkExprs links) last.expr ∧
      t.reading = linkReading waiting.reverse ++ (linkReading links ++ last.reading) := by
  induction links generalizing waiting with
  | nil =>
    obtain ⟨waiting', t, heq, ht, hrank, hreading⟩ :=
      (h.pending hlast.1 hlast.2 0).exists_reduce
    have hnil : waiting' = [] := List.eq_nil_iff_forall_not_mem.2 fun w hw => by
      exact absurd (hrank w hw) (Nat.not_lt_zero _)
    rw [hnil] at hreading
    refine ⟨t, ht.grouped, ?_, hreading⟩
    have hend : group (linkExprs waiting) (linkExprs []) last.expr
        = (reduce 0 (linkExprs waiting) last.expr).2 := rfl
    rw [hend, heq]
  | cons link links ih =>
    obtain ⟨operand, op⟩ := link
    rw [List.forall_mem_cons] at hlinks
    obtain ⟨waiting', operand', heq, hpending, hrank, hreading⟩ :=
      (h.pending hlinks.1.1 hlinks.1.2 op.rank).exists_reduce
    obtain ⟨t, ht, hexpr, htree⟩ := ih (hpending.push hrank) hlinks.2
    refine ⟨t, ht, ?_, ?_⟩
    · have hlink : linkExprs ((operand, op) :: links) = (operand.expr, op) :: linkExprs links := rfl
      rw [hexpr, hlink, group, heq]
      rfl
    · rw [htree]
      have hread := congrArg (· ++ (.joint op :: (linkReading links ++ last.reading))) hreading
      simpa [linkReading] using hread

/-- The tree of a chain is grouped, and its reading is the chain. -/
theorem exists_grouped (c : Chain) :
    ∃ t : OpTree, t.reading = c.symbols ∧ t.Grouped ∧ t.expr = c.expr := by
  let links := c.links.map fun (operand, op) => (operand.tree, op)
  have hnone : Waits [] := ⟨by simp, by simp, .nil⟩
  have hlinks : ∀ l ∈ links, l.1.Grouped ∧ l.1.joint? = none := by
    intro l hl
    obtain ⟨⟨operand, op⟩, -, rfl⟩ := List.mem_map.1 hl
    exact operand.grouped_tree
  have hexprs : linkExprs links = c.links.map fun (operand, op) => (operand.expr, op) := by
    simp [links, linkExprs, Operand.expr_tree]
  have hreading : linkReading links
      = c.links.flatMap fun (operand, op) => operand.symbols ++ [.joint op] := by
    simp [links, linkReading, List.flatMap_map, Operand.reading_tree]
  obtain ⟨t, ht, hexpr, hsymbols⟩ := hnone.exists_group hlinks c.last.grouped_tree
  refine ⟨t, ?_, ht, ?_⟩
  · rw [hsymbols, hreading, Operand.reading_tree]
    rfl
  · rw [hexpr, hexprs, Operand.expr_tree]
    rfl

end Chain

/-- What the rule of binary operators derives has the tokens of a chain. -/
theorem Grammar.exists_isChain_of_derives {source : List Char} {height last : Nat}
    (h : Rule.Derives height .loose .binary ⟨0, source⟩ ⟨last, []⟩) :
    ∃ ts c, Token.lex source = some ts ∧ Parser.IsChain ts c := by
  cases height with
  | zero => cases h
  | succ height =>
    have hchunk := chunk_binary (fun _ _ _ _ => chunk_expression) h
    obtain ⟨-, ts, ⟨c, hc⟩, hlexes⟩ := hchunk ⟨nofun, rfl⟩
    have hempty : Token.lex [] = some [] := by
      rw [Token.lex_eq]
      rfl
    exact ⟨ts, c, by simpa using hlexes [] hempty, hc⟩

/-- The expression of a chain is that of its only grouped tree: of all trees whose reading is the
chain, one alone is such that left of a binary operator no looser one stands, right of it only
tighter ones, and no sign or access reaches around a binary operator. A text that the rule of
binary operators derives is read as the expression of its chain. -/
theorem Chain.expr_unique_grouping :
    (∀ c : Chain, ∃ t : OpTree, t.expr = c.expr ∧
      ∀ t' : OpTree, t'.reading = c.symbols ∧ t'.Grouped ↔ t' = t) ∧
    ∀ source height last, Grammar.Rule.Derives height .loose .binary ⟨0, source⟩ ⟨last, []⟩ →
      ∃ ts c, Token.lex source = some ts ∧ Parser.IsChain ts c ∧ Parser.parse ts = some c.expr := by
  constructor
  · intro c
    obtain ⟨t, hreading, hgrouped, hexpr⟩ := c.exists_grouped
    refine ⟨t, hexpr, fun t' => ⟨?_, ?_⟩⟩
    · rintro ⟨hreading', hgrouped'⟩
      exact OpTree.reading_injective hgrouped' hgrouped (hreading'.trans hreading.symm)
    · rintro rfl
      exact ⟨hreading, hgrouped⟩
  · intro source height last h
    obtain ⟨ts, c, hlex, hc⟩ := Grammar.exists_isChain_of_derives h
    exact ⟨ts, c, hlex, hc, Parser.IsExpr.parse_eq (.chain hc)⟩

/-- Operators of all six tiers, first to ever looser ones, and then to tighter ones again. -/
theorem Chain.expr_unique_grouping_mixed :
    (∃ t : OpTree,
      t.expr = .binary .or
        (.binary .and
          (.binary .eq
            (.binary .lt
              (.binary .sub (.binary .sub (.binary .mul (.scope "a") (.scope "b")) (.scope "c"))
                (.scope "d"))
              (.scope "e"))
            (.scope "f"))
          (.scope "g"))
        (.binary .sub (.binary .mul (.unary .not (.member (.scope "h") "i")) (.scope "j"))
          (.scope "k")) ∧
      ∀ t' : OpTree, t'.reading = [.primary (.scope "a"), .joint .mul, .primary (.scope "b"),
        .joint .sub, .primary (.scope "c"), .joint .sub, .primary (.scope "d"), .joint .lt,
        .primary (.scope "e"), .joint .eq, .primary (.scope "f"), .joint .and,
        .primary (.scope "g"), .joint .or, .sign .not, .primary (.scope "h"),
        .access (.member "i"), .joint .mul, .primary (.scope "j"), .joint .sub,
        .primary (.scope "k")] ∧ t'.Grouped ↔ t' = t) ∧
    Grammar.Rule.Derives 8 .loose .binary ⟨0, "a*b-c - d<e==f&&g||!h.i*j-k".toList⟩ ⟨27, []⟩ ∧
    ∃ ts c, Token.lex "a*b-c - d<e==f&&g||!h.i*j-k".toList = some ts ∧ Parser.IsChain ts c ∧
      Parser.parse ts = some c.expr := by
  have hderives :
      Grammar.Rule.Derives 8 .loose .binary ⟨0, "a*b-c - d<e==f&&g||!h.i*j-k".toList⟩ ⟨27, []⟩ :=
    Grammar.Rule.derives_of_run (t := ⟨0, []⟩) (by decide +kernel)
  let name (s : String) : Operand := ⟨[], .scope s, []⟩
  let c : Chain := ⟨[(name "a", .mul), (name "b", .sub), (name "c", .sub), (name "d", .lt),
    (name "e", .eq), (name "f", .and), (name "g", .or),
    (⟨[.not], .scope "h", [.member "i"]⟩, .mul), (name "j", .sub)], name "k"⟩
  exact ⟨Chain.expr_unique_grouping.1 c, hderives, Chain.expr_unique_grouping.2 _ _ _ hderives⟩

end Stencil
