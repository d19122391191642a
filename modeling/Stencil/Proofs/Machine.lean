import Stencil.Proofs.Derivation
import Stencil.Proofs.Range

/-!
# What the machine has read

In every state that the machine reaches, the tokens read so far are put together from what waits on
its stack and in its open chain. Each step keeps this, so that the machine ends with a tree only
where the tokens are derivable; together with its converse, it reads exactly the token grammar.
-/

namespace Stencil.Parser

variable {t : Token} {ts us vs : List Token} {stack : List Frame} {o : Operand} {e : Expr}

/-- An expression, or an expression with one filter after it. -/
inductive IsInput : List Token → Expr → Prop
  | plain {ts : List Token} {e : Expr} : IsExpr ts e → IsInput ts e
  | filter {ts : List Token} {e : Expr} (name : String) : IsExpr ts e →
      IsInput (ts ++ [.pipe, .word name]) (.filter e name)

/-- The machine reads every expression with or without a filter. -/
theorem IsInput.parse_eq (h : IsInput ts e) : parse ts = some e := by
  cases h with
  | plain he => exact he.parse_eq
  | @filter ts e name he =>
    obtain ⟨stack, chain, o, hread, hsettle⟩ := he.reads []
    have hpipe : step (.got stack chain o) .pipe = some (.filter e) := by
      rw [step, stepGot, hsettle, settle]
      intro _ _ _ h
      cases h
    have hrun : Reads (ts ++ [.pipe, .word name]) start (.filtered e name) :=
      hread.append (.cons hpipe (.cons rfl (reads_nil _)))
    rw [parse, hrun, Option.bind_some, finish]

/-- The links of an open chain, the latest first, and their tokens. -/
inductive Linked : List (Operand × BinaryOp) → List Token → Prop
  | nil : Linked [] []
  | cons {links : List (Operand × BinaryOp)} {us vs : List Token} {o : Operand} (op : BinaryOp) :
      Linked links us → IsOperand vs o → Linked ((o, op) :: links) (us ++ (vs ++ [.op op]))

/-- Signs, the latest first, and their tokens. -/
inductive Signed : List UnaryOp → List Token → Prop
  | nil : Signed [] []
  | cons {signs : List UnaryOp} {us : List Token} {t : Token} {op : UnaryOp} :
      sign? t = some op → Signed signs us → Signed (op :: signs) (us ++ [t])

/-- The frames of a stack, the innermost first, and the tokens that opened them. -/
inductive Opened : List Frame → List Token → Prop
  | nil : Opened [] []
  | paren {stack : List Frame} {outer : OpenChain} {ts us vs : List Token} : Opened stack ts →
      Linked outer.links us → Signed outer.signs vs →
      Opened (.paren outer :: stack) (ts ++ (us ++ (vs ++ [.leftParen])))
  | index {stack : List Frame} {outer : OpenChain} {object : Operand} {ts us vs : List Token} :
      Opened stack ts → Linked outer.links us → IsOperand vs object →
      Opened (.index outer object :: stack) (ts ++ (us ++ (vs ++ [.leftBracket])))
  | consequent {stack : List Frame} {c : Chain} {ts us : List Token} : Opened stack ts →
      IsChain us c → Opened (.consequent c.expr :: stack) (ts ++ (us ++ [.question]))
  | alternate {stack : List Frame} {c : Chain} {branch : Expr} {ts us vs : List Token} :
      Opened stack ts → IsChain us c → IsExpr vs branch →
      Opened (.alternate c.expr branch :: stack) (ts ++ (us ++ .question :: (vs ++ [.colon])))

/-- A state and the tokens that it stands for. -/
inductive Reached : State → List Token → Prop
  | need {stack : List Frame} {links : List (Operand × BinaryOp)} {signs : List UnaryOp}
      {ts us vs : List Token} : Opened stack ts → Linked links us → Signed signs vs →
      Reached (.need stack ⟨links, signs⟩) (ts ++ (us ++ vs))
  | got {stack : List Frame} {chain : OpenChain} {o : Operand} {ts us vs : List Token} :
      Opened stack ts → Linked chain.links us → IsOperand vs o →
      Reached (.got stack chain o) (ts ++ (us ++ vs))
  | access {stack : List Frame} {chain : OpenChain} {o : Operand} {ts us vs : List Token} :
      Opened stack ts → Linked chain.links us → IsOperand vs o →
      Reached (.access stack chain o) (ts ++ (us ++ (vs ++ [.dot])))
  | filter {ts : List Token} {e : Expr} : IsExpr ts e → Reached (.filter e) (ts ++ [.pipe])
  | filtered {ts : List Token} {e : Expr} (name : String) : IsExpr ts e →
      Reached (.filtered e name) (ts ++ [.pipe, .word name])

/-- An expression may start after a frame was opened. -/
theorem Opened.reached (h : Opened stack ts) : Reached (.need stack .empty) ts := by
  simpa [OpenChain.empty] using Reached.need h .nil .nil

/-- Signs that were read before an operand belong to it. -/
theorem Signed.operand {signs : List UnaryOp} (h : Signed signs us) (ho : IsOperand vs o) :
    IsOperand (us ++ vs) { o with signs := signs.reverse ++ o.signs } := by
  induction h generalizing vs o with
  | nil => exact ho
  | cons hsign _ ih => simpa using ih (.sign hsign ho)

/-- An open chain that gets its last operand is a chain. -/
theorem Linked.chain {links : List (Operand × BinaryOp)} (h : Linked links us)
    (ho : IsOperand vs o) : IsChain (us ++ vs) ⟨links.reverse, o⟩ := by
  induction h generalizing vs o with
  | nil => exact .single ho
  | cons op _ hlink ih => simpa [Chain.append] using IsChain.join op (ih hlink) (.single ho)

theorem Linked.close {chain : OpenChain} (h : Linked chain.links us) (ho : IsOperand vs o) :
    IsExpr (us ++ vs) (chain.close o) :=
  .chain (h.chain ho)

/-- An expression that has ended takes the conditionals that wait for it along. -/
theorem Opened.settle (h : Opened stack ts) (he : IsExpr us e) :
    ∃ ts' us', Opened (settle stack e).1 ts' ∧ IsExpr us' (settle stack e).2 ∧
      ts ++ us = ts' ++ us' := by
  fun_induction Parser.settle stack e generalizing ts us with
  | case1 test consequent stack value ih =>
    cases h with
    | alternate hstack hc hbranch =>
      obtain ⟨ts', us', hopened, hexpr, heq⟩ := ih hstack (.conditional hc hbranch he)
      exact ⟨ts', us', hopened, hexpr, by simpa using heq⟩
  | case2 stack value => exact ⟨ts, us, h, he, rfl⟩

theorem Reached.stepNeed {chain : OpenChain} {s : State} (h : Reached (.need stack chain) ts)
    (hstep : stepNeed stack chain t = some s) : Reached s (ts ++ [t]) := by
  cases h with
  | @need _ links signs ts us vs hstack hlinks hsigns =>
    unfold Parser.stepNeed at hstep
    split at hstep
    · rename_i hsign
      cases hstep
      simpa using Reached.need hstack hlinks (.cons hsign hsigns)
    · rename_i hsign hatom
      cases hstep
      have ho := hsigns.operand (.atom hsign hatom)
      have hgot : Reached (.got stack ⟨links, signs⟩ _) _ := .got hstack hlinks ho
      simpa [OpenChain.operand] using hgot
    · cases hstep
      have hparen : Opened (.paren ⟨links, signs⟩ :: stack) _ := .paren hstack hlinks hsigns
      simpa using hparen.reached
    · cases hstep

/-- The expression that a token ends is handed to the frame below the settled ones. -/
theorem Reached.settled {chain : OpenChain} (h : Reached (.got stack chain o) ts) :
    ∃ us vs, Opened (settle stack (chain.close o)).1 us ∧
      IsExpr vs (settle stack (chain.close o)).2 ∧ ts = us ++ vs := by
  cases h with
  | got hstack hlinks ho => exact hstack.settle (hlinks.close ho)

theorem Reached.stepGot {chain : OpenChain} {s : State} (h : Reached (.got stack chain o) ts)
    (hstep : stepGot stack chain o t = some s) : Reached s (ts ++ [t]) := by
  obtain ⟨before, inner, hopened, hexpr, heq⟩ := h.settled
  obtain _ | @⟨_, _, _, ts, us, vs, hstack, hlinks, ho⟩ := h
  cases t with
  | dot =>
    cases hstep
    simpa using Reached.access hstack hlinks ho
  | leftBracket =>
    cases hstep
    simpa using (Opened.index hstack hlinks ho).reached
  | op operator =>
    cases hstep
    simpa [OpenChain.link] using Reached.need hstack (.cons operator hlinks ho) .nil
  | question =>
    cases hstep
    simpa [OpenChain.close] using (Opened.consequent hstack (hlinks.chain ho)).reached
  -- the tokens that end an expression
  | colon =>
    dsimp only [Parser.stepGot] at hstep
    split at hstep
    · rename_i hsettle
      cases hstep
      rw [hsettle] at hopened hexpr
      cases hopened with
      | consequent hstack hc =>
        rw [heq]
        simpa using (Opened.alternate hstack hc hexpr).reached
    · cases hstep
  | rightParen =>
    dsimp only [Parser.stepGot] at hstep
    split at hstep
    · rename_i hsettle
      cases hstep
      rw [hsettle] at hopened hexpr
      cases hopened with
      | paren hstack hlinks hsigns =>
        rw [heq]
        have ho := hsigns.operand (.paren hexpr)
        simpa [OpenChain.operand] using Reached.got hstack hlinks ho
    · cases hstep
  | rightBracket =>
    dsimp only [Parser.stepGot] at hstep
    split at hstep
    · rename_i hsettle
      cases hstep
      rw [hsettle] at hopened hexpr
      cases hopened with
      | index hstack hlinks ho =>
        rw [heq]
        simpa using Reached.got hstack hlinks (.index ho hexpr)
    · cases hstep
  | pipe =>
    dsimp only [Parser.stepGot] at hstep
    split at hstep
    · rename_i hsettle
      cases hstep
      rw [hsettle] at hopened hexpr
      cases hopened with
      | nil =>
        rw [heq]
        exact Reached.filter hexpr
    · cases hstep
  | word | number | string | bang | leftParen => cases hstep

theorem Reached.step {s s' : State} (h : Reached s ts) (hstep : step s t = some s') :
    Reached s' (ts ++ [t]) := by
  unfold Parser.step at hstep
  split at hstep
  · exact h.stepNeed hstep
  · exact h.stepGot hstep
  · cases hstep
    obtain _ | _ | @⟨_, _, _, ts, us, vs, hstack, hlinks, ho⟩ := h
    simpa using Reached.got hstack hlinks (.member _ ho)
  · cases hstep
    obtain _ | _ | _ | @⟨ts, _, he⟩ := h
    simpa using Reached.filtered _ he
  · cases hstep

theorem Reached.run {s s' : State} (h : Reached s ts) (hrun : Reads us s s') :
    Reached s' (ts ++ us) := by
  induction us generalizing s ts with
  | nil =>
    cases hrun
    simpa using h
  | cons t us ih =>
    rw [Reads, List.foldlM_cons] at hrun
    obtain ⟨mid, hstep, hrest⟩ := Option.bind_eq_some_iff.1 hrun
    simpa using ih (h.step hstep) hrest

theorem Reached.isInput {s : State} (h : Reached s ts) (hfinish : finish s = some e) :
    IsInput ts e := by
  cases s with
  | got stack chain o =>
    obtain ⟨us, vs, hopened, hexpr, rfl⟩ := h.settled
    rw [finish] at hfinish
    split at hfinish
    · rename_i hsettle
      cases hfinish
      rw [hsettle] at hopened hexpr
      cases hopened with
      | nil => exact .plain hexpr
    · cases hfinish
  | filtered value name =>
    cases hfinish
    cases h with
    | filtered _ he => exact .filter name he
  | need | access | filter => cases hfinish

/-- The machine gives a tree exactly for the tokens that the grammar derives as this tree. -/
theorem parse_eq_some_iff : parse ts = some e ↔ IsInput ts e := by
  constructor
  · intro h
    obtain ⟨s, hrun, hfinish⟩ := Option.bind_eq_some_iff.1 h
    have hstart : Reached start [] := Opened.nil.reached
    exact (hstart.run hrun).isInput hfinish
  · exact IsInput.parse_eq

end Stencil.Parser
