import Stencil.Expr.Parser
import Stencil.Proofs.Trees

/-!
# Derivations of the token grammar

The grammar of tokens as relations between tokens and what they stand for, one relation for each
rule. The machine reads every derivable sequence: it goes from a state that is due an operand to one
that got it, whatever stands on the stack and whatever follows. How a chain groups is stated apart
from the machine, through the chains that it can be a part of.
-/

namespace Stencil

namespace Chain

/-- Two chains joined by an operator. -/
def append (c : Chain) (op : BinaryOp) (d : Chain) : Chain :=
  ⟨c.links ++ (c.last, op) :: d.links, d.last⟩

/-- The links with the trees of their operands. -/
def pairs (c : Chain) : List (Expr × BinaryOp) :=
  c.links.map fun (operand, op) => (operand.expr, op)

theorem pairs_append (c : Chain) (op : BinaryOp) (d : Chain) :
    (c.append op d).pairs = c.pairs ++ (c.last.expr, op) :: d.pairs := by
  simp [append, pairs]

/-- In a longer chain, `c` groups as the single operand `e` would, provided that the operators
around it bind no more tightly than `level`, and those before it less tightly. -/
def Groups (c : Chain) (level : Nat) (e : Expr) : Prop :=
  ∀ waiting, (∀ w ∈ waiting, w.2.level < level) →
    (∀ op more last, op.level ≤ level →
      group waiting (c.pairs ++ (c.last.expr, op) :: more) last =
        group waiting ((e, op) :: more) last) ∧
    group waiting c.pairs c.last.expr = group waiting [] e

theorem Groups.expr_eq {c : Chain} {level : Nat} {e : Expr} (h : c.Groups level e) : c.expr = e :=
  (h [] (by simp)).2

theorem Groups.mono {c : Chain} {level level' : Nat} {e : Expr} (h : c.Groups level e)
    (hle : level' ≤ level) : c.Groups level' e := by
  intro waiting hwaiting
  obtain ⟨hlink, hend⟩ := h waiting fun w hw => Nat.lt_of_lt_of_le (hwaiting w hw) hle
  exact ⟨fun op more last hop => hlink op more last (Nat.le_trans hop hle), hend⟩

theorem groups_single (o : Operand) (level : Nat) : Groups ⟨[], o⟩ level o.expr :=
  fun _ _ => ⟨fun _ _ _ _ => rfl, rfl⟩

theorem reduce_of_lt {rank : Nat} {waiting : List (Expr × BinaryOp)}
    (h : ∀ w ∈ waiting, w.2.rank < rank) (right : Expr) :
    reduce rank waiting right = (waiting, right) := by
  cases waiting with
  | nil => rfl
  | cons w waiting => rw [reduce, if_neg (Nat.not_le.2 (h w (by simp)))]

/-- A binary operator joins a left side that binds at least as tightly with a right side that binds
more tightly. -/
theorem Groups.binary {c d : Chain} {op : BinaryOp} {left right : Expr}
    (hc : c.Groups op.level left) (hd : d.Groups (op.level + 1) right) :
    (c.append op d).Groups op.level (.binary op left right) := by
  intro waiting hwaiting
  have hleft := (hc waiting hwaiting).1
  have hranks : ∀ w ∈ waiting, w.2.rank < op.rank := fun w hw =>
    BinaryOp.rank_lt_rank_iff.2 (hwaiting w hw)
  have hpush : ∀ w ∈ (left, op) :: waiting, w.2.level < op.level + 1 := by
    rw [List.forall_mem_cons]
    exact ⟨Nat.lt_succ_self _, fun w hw => Nat.lt_succ_of_lt (hwaiting w hw)⟩
  obtain ⟨hlink, hend⟩ := hd _ hpush
  rw [pairs_append]
  constructor
  · intro op' more last hop'
    change group waiting (_ ++ (d.last.expr, op') :: more) last = _
    rw [List.append_assoc, List.cons_append, hleft op _ last (Nat.le_refl _), group,
      reduce_of_lt hranks]
    dsimp only
    rw [hlink op' more last (by omega), group, group, reduce,
      if_pos (BinaryOp.rank_le_rank_iff.2 hop')]
  · have hlast : (c.append op d).last = d.last := rfl
    rw [hlast, hleft op _ _ (Nat.le_refl _), group.eq_2, reduce_of_lt hranks]
    dsimp only
    rw [hend, group, group, reduce, if_pos (Nat.zero_le _)]

end Chain

namespace Parser

mutual

/-- A primary expression with signs before it and accesses after it. -/
inductive IsOperand : List Token → Operand → Prop
  | atom {t : Token} {value : Expr} : sign? t = none → atom? t = some value →
      IsOperand [t] ⟨[], value, []⟩
  | paren {ts : List Token} {e : Expr} : IsExpr ts e →
      IsOperand (.leftParen :: (ts ++ [.rightParen])) ⟨[], e, []⟩
  | member {ts : List Token} {o : Operand} (name : String) : IsOperand ts o →
      IsOperand (ts ++ [.dot, .word name]) { o with accesses := o.accesses ++ [.member name] }
  | index {ts us : List Token} {o : Operand} {key : Expr} : IsOperand ts o → IsExpr us key →
      IsOperand (ts ++ .leftBracket :: (us ++ [.rightBracket]))
        { o with accesses := o.accesses ++ [.index key] }
  | sign {t : Token} {op : UnaryOp} {ts : List Token} {o : Operand} : sign? t = some op →
      IsOperand ts o → IsOperand (t :: ts) { o with signs := op :: o.signs }

/-- Operands joined by binary operators. -/
inductive IsChain : List Token → Chain → Prop
  | single {ts : List Token} {o : Operand} : IsOperand ts o → IsChain ts ⟨[], o⟩
  | join {ts us : List Token} {c d : Chain} (op : BinaryOp) : IsChain ts c → IsChain us d →
      IsChain (ts ++ .op op :: us) (c.append op d)

/-- A chain, or a conditional whose test is one. -/
inductive IsExpr : List Token → Expr → Prop
  | chain {ts : List Token} {c : Chain} : IsChain ts c → IsExpr ts c.expr
  | conditional {ts us vs : List Token} {c : Chain} {consequent alternate : Expr} :
      IsChain ts c → IsExpr us consequent → IsExpr vs alternate →
      IsExpr (ts ++ .question :: (us ++ .colon :: vs)) (.conditional c.expr consequent alternate)

end

/-- Reading `ts` in the first state leads to the second. -/
def Reads (ts : List Token) (s s' : State) : Prop :=
  ts.foldlM step s = some s'

theorem Reads.append {ts us : List Token} {s s' s'' : State} (hts : Reads ts s s')
    (hus : Reads us s' s'') : Reads (ts ++ us) s s'' := by
  rw [Reads, List.foldlM_append, hts]
  exact hus

theorem Reads.cons {t : Token} {ts : List Token} {s s' s'' : State} (ht : step s t = some s')
    (hts : Reads ts s' s'') : Reads (t :: ts) s s'' := by
  rw [Reads, List.foldlM_cons, ht]
  exact hts

theorem reads_nil (s : State) : Reads [] s s := rfl

/-- Where an operand is due, the machine reads `ts` as `o`; the signs that were read before it and
its own ones end up together. -/
def ReadsOperand (ts : List Token) (o : Operand) : Prop :=
  ∀ stack chain, Reads ts (.need stack chain)
    (.got stack { chain with signs := o.signs.reverse ++ chain.signs }
      { o with signs := chain.signs.reverse ++ o.signs })

def ReadsChain (ts : List Token) (c : Chain) : Prop :=
  ∀ stack links, Reads ts (.need stack ⟨links, []⟩)
    (.got stack ⟨c.links.reverse ++ links, c.last.signs.reverse⟩ c.last)

/-- After the expression, what has ended settles as the expression would. -/
def ReadsExpr (ts : List Token) (e : Expr) : Prop :=
  ∀ stack, ∃ stack' chain o, Reads ts (.need stack .empty) (.got stack' chain o) ∧
    settle stack' (chain.close o) = settle stack e

variable {t : Token} {ts us vs : List Token} {o : Operand} {c d : Chain} {e : Expr}

theorem readsOperand_atom {value : Expr} (hsign : sign? t = none) (hatom : atom? t = some value) :
    ReadsOperand [t] ⟨[], value, []⟩ := by
  intro stack chain
  have hstep : step (.need stack chain) t = some (.got stack chain (chain.operand value)) := by
    simp only [step, stepNeed, hsign, hatom]
  simpa [OpenChain.operand] using Reads.cons hstep (reads_nil _)

theorem readsOperand_paren (he : ReadsExpr ts e) :
    ReadsOperand (.leftParen :: (ts ++ [.rightParen])) ⟨[], e, []⟩ := by
  intro stack chain
  obtain ⟨stack', inner, o, hread, hsettle⟩ := he (.paren chain :: stack)
  have hopen : step (.need stack chain) .leftParen = some (.need (.paren chain :: stack) .empty) :=
    rfl
  have hclose : step (.got stack' inner o) .rightParen
      = some (.got stack chain (chain.operand e)) := by
    rw [step, stepGot, hsettle, settle]
    exact fun _ _ _ h => nomatch h
  simpa [OpenChain.operand] using
    Reads.cons hopen (hread.append (Reads.cons hclose (reads_nil _)))

theorem readsOperand_member (ho : ReadsOperand ts o) (name : String) :
    ReadsOperand (ts ++ [.dot, .word name])
      { o with accesses := o.accesses ++ [.member name] } := by
  intro stack chain
  exact (ho stack chain).append (Reads.cons rfl (Reads.cons rfl (reads_nil _)))

theorem readsOperand_index {key : Expr} (ho : ReadsOperand ts o) (hkey : ReadsExpr us key) :
    ReadsOperand (ts ++ .leftBracket :: (us ++ [.rightBracket]))
      { o with accesses := o.accesses ++ [.index key] } := by
  intro stack chain
  refine (ho stack chain).append ?_
  obtain ⟨stack', inner, o', hread, hsettle⟩ := hkey
    (.index { chain with signs := o.signs.reverse ++ chain.signs }
      { o with signs := chain.signs.reverse ++ o.signs } :: stack)
  refine Reads.cons rfl (hread.append (Reads.cons ?_ (reads_nil _)))
  rw [step, stepGot, hsettle, settle]
  exact fun _ _ _ h => nomatch h

theorem readsOperand_sign {op : UnaryOp} (hsign : sign? t = some op) (ho : ReadsOperand ts o) :
    ReadsOperand (t :: ts) { o with signs := op :: o.signs } := by
  intro stack chain
  have hstep : step (.need stack chain) t
      = some (.need stack { chain with signs := op :: chain.signs }) := by
    simp only [step, stepNeed, hsign]
  simpa using Reads.cons hstep (ho stack _)

theorem readsChain_single (ho : ReadsOperand ts o) : ReadsChain ts ⟨[], o⟩ := by
  intro stack links
  simpa using ho stack ⟨links, []⟩

theorem readsChain_join (op : BinaryOp) (hc : ReadsChain ts c) (hd : ReadsChain us d) :
    ReadsChain (ts ++ .op op :: us) (c.append op d) := by
  intro stack links
  have hop (chain : OpenChain) : step (.got stack chain c.last) (.op op)
      = some (.need stack ⟨(c.last, op) :: chain.links, []⟩) := rfl
  have hright := hd stack ((c.last, op) :: (c.links.reverse ++ links))
  simpa [Chain.append] using (hc stack links).append (Reads.cons (hop _) hright)

theorem readsExpr_chain (hc : ReadsChain ts c) : ReadsExpr ts c.expr := by
  intro stack
  exact ⟨stack, _, c.last, hc stack [], by simp [OpenChain.close]⟩

theorem readsExpr_conditional {consequent alternate : Expr} (hc : ReadsChain ts c)
    (hus : ReadsExpr us consequent) (hvs : ReadsExpr vs alternate) :
    ReadsExpr (ts ++ .question :: (us ++ .colon :: vs))
      (.conditional c.expr consequent alternate) := by
  intro stack
  obtain ⟨stack₁, chain₁, o₁, hus, hsettle₁⟩ := hus (.consequent c.expr :: stack)
  obtain ⟨stack₂, chain₂, o₂, hvs, hsettle₂⟩ := hvs (.alternate c.expr consequent :: stack)
  -- the test waits in the first frame, and with the first branch in the second
  have hquestion : step (.got stack ⟨c.links.reverse ++ [], c.last.signs.reverse⟩ c.last) .question
      = some (.need (.consequent c.expr :: stack) .empty) := by
    simp [step, stepGot, OpenChain.close]
  have hcolon : step (.got stack₁ chain₁ o₁) .colon
      = some (.need (.alternate c.expr consequent :: stack) .empty) := by
    rw [step, stepGot, hsettle₁, settle]
    exact fun _ _ _ h => nomatch h
  refine ⟨stack₂, chain₂, o₂, ?_, hsettle₂⟩
  exact (hc stack []).append (Reads.cons hquestion (hus.append (Reads.cons hcolon hvs)))

theorem IsExpr.reads (h : IsExpr ts e) : ReadsExpr ts e :=
  @IsExpr.rec (fun ts o _ => ReadsOperand ts o) (fun ts c _ => ReadsChain ts c)
    (fun ts e _ => ReadsExpr ts e) readsOperand_atom (fun _ => readsOperand_paren)
    (fun name _ ho => readsOperand_member ho name) (fun _ _ => readsOperand_index)
    (fun hsign _ => readsOperand_sign hsign) (fun _ => readsChain_single)
    (fun op _ _ => readsChain_join op) (fun _ => readsExpr_chain)
    (fun _ _ _ => readsExpr_conditional) ts e h

/-- The machine reads every derivable sequence of tokens. -/
theorem IsExpr.parse_eq (h : IsExpr ts e) : parse ts = some e := by
  obtain ⟨stack, chain, o, hread, hsettle⟩ := h.reads []
  rw [parse, start, hread, Option.bind_some, finish, hsettle]
  rfl

/-- The tokens are the tree `e`, and they can stand where something that binds as tightly as `level`
is due without being bracketed. -/
inductive Stands : Nat → List Token → Expr → Prop
  | whole {ts : List Token} {e : Expr} {level : Nat} : IsExpr ts e → level ≤ 1 → Stands level ts e
  | chain {ts : List Token} {c : Chain} {e : Expr} {level : Nat} : IsChain ts c →
      c.Groups level e → level ≤ 7 → Stands level ts e
  | signed {ts : List Token} {o : Operand} {level : Nat} : IsOperand ts o → level ≤ 8 →
      Stands level ts o.expr
  | unsigned {ts : List Token} {o : Operand} {level : Nat} : IsOperand ts o → o.signs = [] →
      level ≤ 9 → Stands level ts o.expr

namespace Stands

variable {level : Nat}

theorem mono {level' : Nat} (h : Stands level ts e) (hle : level' ≤ level) :
    Stands level' ts e := by
  cases h with
  | whole he hlevel => exact .whole he (Nat.le_trans hle hlevel)
  | chain hc hgroups hlevel => exact .chain hc (hgroups.mono hle) (Nat.le_trans hle hlevel)
  | signed ho hlevel => exact .signed ho (Nat.le_trans hle hlevel)
  | unsigned ho hsigns hlevel => exact .unsigned ho hsigns (Nat.le_trans hle hlevel)

theorem exists_unsigned (h : Stands 9 ts e) : ∃ o, IsOperand ts o ∧ o.signs = [] ∧ o.expr = e := by
  cases h with
  | unsigned ho hsigns _ => exact ⟨_, ho, hsigns, rfl⟩
  | whole _ hlevel | chain _ _ hlevel | signed _ hlevel => omega

theorem exists_operand (h : Stands 8 ts e) : ∃ o, IsOperand ts o ∧ o.expr = e := by
  cases h with
  | signed ho _ | unsigned ho _ _ => exact ⟨_, ho, rfl⟩
  | whole _ hlevel | chain _ _ hlevel => omega

theorem exists_chain (h : Stands level ts e) (hlevel : 2 ≤ level) :
    ∃ c, IsChain ts c ∧ c.Groups level e := by
  cases h with
  | whole _ hle => omega
  | chain hc hgroups _ => exact ⟨_, hc, hgroups⟩
  | signed ho _ | unsigned ho _ _ => exact ⟨_, .single ho, Chain.groups_single _ _⟩

theorem isExpr (h : Stands level ts e) : IsExpr ts e := by
  cases h with
  | whole he _ => exact he
  | chain hc hgroups _ => exact hgroups.expr_eq ▸ .chain hc
  | signed ho _ | unsigned ho _ _ => exact .chain (.single ho)

theorem atom {value : Expr} (hsign : sign? t = none) (hatom : atom? t = some value) :
    Stands 9 [t] value :=
  .unsigned (.atom hsign hatom) rfl (Nat.le_refl 9)

theorem paren (h : Stands level ts e) : Stands 9 (.leftParen :: (ts ++ [.rightParen])) e :=
  .unsigned (.paren h.isExpr) rfl (Nat.le_refl 9)

theorem member (h : Stands 9 ts e) (name : String) :
    Stands 9 (ts ++ [.dot, .word name]) (.member e name) := by
  obtain ⟨o, ho, hsigns, rfl⟩ := h.exists_unsigned
  have hexpr : Expr.member o.expr name
      = Operand.expr { o with accesses := o.accesses ++ [.member name] } := by
    simp [Operand.expr, hsigns, Access.apply]
  rw [hexpr]
  exact .unsigned (.member name ho) hsigns (Nat.le_refl 9)

theorem index {key : Expr} (h : Stands 9 ts e) (hkey : Stands level us key) :
    Stands 9 (ts ++ .leftBracket :: (us ++ [.rightBracket])) (.index e key) := by
  obtain ⟨o, ho, hsigns, rfl⟩ := h.exists_unsigned
  have hexpr : Expr.index o.expr key
      = Operand.expr { o with accesses := o.accesses ++ [.index key] } := by
    simp [Operand.expr, hsigns, Access.apply]
  rw [hexpr]
  exact .unsigned (.index ho hkey.isExpr) hsigns (Nat.le_refl 9)

theorem unary {op : UnaryOp} (hsign : sign? t = some op) (h : Stands 8 ts e) :
    Stands 8 (t :: ts) (.unary op e) := by
  obtain ⟨o, ho, rfl⟩ := h.exists_operand
  exact .signed (.sign hsign ho) (Nat.le_refl 8)

theorem binary {op : BinaryOp} {left right : Expr} (hleft : Stands op.level ts left)
    (hright : Stands (op.level + 1) us right) :
    Stands op.level (ts ++ .op op :: us) (.binary op left right) := by
  have hlevel := op.level_bounds
  obtain ⟨c, hc, hgroups⟩ := hleft.exists_chain hlevel.1
  obtain ⟨d, hd, hgroups'⟩ := hright.exists_chain (Nat.le_succ_of_le hlevel.1)
  exact .chain (.join op hc hd) (hgroups.binary hgroups') hlevel.2

theorem conditional {test consequent alternate : Expr} (htest : Stands 2 ts test)
    (hconsequent : Stands 1 us consequent) (halternate : Stands 1 vs alternate) :
    Stands 1 (ts ++ .question :: (us ++ .colon :: vs))
      (.conditional test consequent alternate) := by
  obtain ⟨c, hc, hgroups⟩ := htest.exists_chain (Nat.le_refl 2)
  obtain rfl := hgroups.expr_eq
  exact .whole (.conditional hc hconsequent.isExpr halternate.isExpr) (Nat.le_refl 1)

end Stands

end Parser
end Stencil
