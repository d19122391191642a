import Stencil.Config
import Stencil.Proofs.Composition
import Stencil.Proofs.Expressible
import Stencil.Proofs.Grouping

/-!
# Brackets that are needed

The code of a part that binds less tightly than its place asks stands in brackets. Without them its
loosest operator lies open, and whatever stands around it, the whole text binds no more tightly than
this operator does. So the text is the code of another tree. Two places need more than levels: on
the right of an operator of the same level the grouping goes the other way, and a conditional at
the place of a test takes over the branches that follow.
-/

namespace Stencil

/-- A primary expression of a tree is smaller than the tree, unless it is all of it. -/
theorem OpTree.sizeOf_lt_or_eq (t : OpTree) {value : Expr} (h : .primary value ∈ t.reading) :
    sizeOf value < sizeOf t.expr ∨ t = .primary value := by
  have hle {t : OpTree} (ht : sizeOf value < sizeOf t.expr ∨ t = .primary value) :
      sizeOf value ≤ sizeOf t.expr := by
    rcases ht with hlt | rfl
    · exact hlt.le
    · exact le_rfl
  induction t with
  | primary value' =>
    cases List.mem_singleton.1 h
    exact .inr rfl
  | access object a ih =>
    have hobject := hle (ih (by simpa [reading] using h))
    left
    cases a <;> simp only [expr, Access.apply, Expr.member.sizeOf_spec, Expr.index.sizeOf_spec] <;>
      omega
  | unary op operand ih =>
    have hoperand := hle (ih (by simpa [reading] using h))
    left
    simp only [expr, Expr.unary.sizeOf_spec]
    omega
  | binary op left right ihleft ihright =>
    left
    simp only [expr, Expr.binary.sizeOf_spec]
    rw [reading, List.mem_append, List.mem_cons] at h
    rcases h with h | heq | h
    · have hleft := hle (ihleft h)
      omega
    · cases heq
    · have hright := hle (ihright h)
      omega

namespace Chain

variable {c d : Chain} {op : BinaryOp}

theorem symbols_append (c : Chain) (op : BinaryOp) (d : Chain) :
    (c.append op d).symbols = c.symbols ++ .joint op :: d.symbols := by
  simp [append, symbols]

theorem symbols_ne_nil (c : Chain) : c.symbols ≠ [] := by
  obtain ⟨t, hreading, -⟩ := c.exists_grouped
  rw [← hreading]
  exact t.reading_ne_nil

/-- A chain binds no more tightly than any of its binary operators. -/
theorem level_le_of_joint (h : .joint op ∈ c.symbols) : c.expr.level ≤ op.level := by
  obtain ⟨t, hreading, hgrouped, hexpr⟩ := c.exists_grouped
  rw [← hreading] at h
  rw [← hexpr]
  cases hjoint : t.joint? with
  | none => exact absurd h (OpTree.joint_not_mem_reading hgrouped hjoint op)
  | some root =>
    cases t with
    | binary root' left right =>
      exact OpTree.le_level_of_mem_reading hgrouped (by rintro _ ⟨⟩; exact le_rfl) h
    | primary | access | unary => cases hjoint

/-- A chain that starts with a sign binds no more tightly than a sign does. -/
theorem level_le_of_sign {sign : UnaryOp} {rest : List Symbol}
    (h : c.symbols = .sign sign :: rest) : c.expr.level ≤ 8 := by
  obtain ⟨t, hreading, hgrouped, hexpr⟩ := c.exists_grouped
  rw [← hreading] at h
  rw [← hexpr]
  cases t with
  | binary root left right =>
    have hbounds := root.level_bounds
    change root.level ≤ 8
    omega
  | unary => exact le_rfl
  | primary | access => exact absurd h (OpTree.sign_not_head hgrouped rfl rfl sign rest)

/-- On the right of an operator, a chain with an operator that binds no more tightly does not stay
together. -/
theorem append_expr_ne {inner : BinaryOp} (hmem : .joint inner ∈ d.symbols)
    (hlevel : inner.level ≤ op.level) (c : Chain) (left : Expr) :
    (c.append op d).expr ≠ .binary op left d.expr := by
  have hbounds := op.level_bounds
  have hloose := level_le_of_joint hmem
  obtain ⟨t, hreading, hgrouped, hexpr⟩ := (c.append op d).exists_grouped
  rw [symbols_append] at hreading
  rw [← hexpr]
  intro heq
  cases hgrouped with
  | primary value =>
    have hjoint : Symbol.joint op ∈ (OpTree.primary value).reading := by simp [hreading]
    simp [OpTree.reading] at hjoint
  | access a => cases a <;> cases heq
  | unary => cases heq
  | @binary op' front back _ hback _ hright =>
    simp only [OpTree.expr, Expr.binary.injEq] at heq
    obtain ⟨rfl, -, heq⟩ := heq
    rw [← heq] at hloose
    -- by its level the right child can only be in brackets, and then it is a part of itself
    cases back with
    | binary root =>
      have htight : op'.level < root.level := BinaryOp.looser_iff.1 (hright root rfl)
      have hroot : root.level ≤ inner.level := hloose
      omega
    | unary => exact absurd hloose (by change ¬8 ≤ _; omega)
    | access object a => cases a <;> exact absurd hloose (by change ¬9 ≤ _; omega)
    | primary value =>
      have hlast : Symbol.primary value ∈ d.symbols := by
        obtain ⟨init, last, hsplit⟩ :=
          (List.eq_nil_or_concat d.symbols).resolve_left d.symbols_ne_nil
        have hend : (front.reading ++ [.joint op']) ++ [.primary value]
            = (c.symbols ++ .joint op' :: init) ++ [last] := by
          simpa [OpTree.reading, hsplit] using hreading
        cases (List.append_inj' hend rfl).2
        simp [hsplit]
      obtain ⟨t', hreading', -, hexpr'⟩ := d.exists_grouped
      rw [← hreading'] at hlast hmem
      rcases t'.sizeOf_lt_or_eq hlast with hlt | rfl
      · rw [hexpr', ← heq] at hlt
        exact lt_irrefl _ hlt
      · simp [OpTree.reading] at hmem

end Chain

namespace Parser

variable {t : Token} {ts us vs : List Token} {o : Operand} {c d : Chain} {e e' : Expr} {level : Nat}

theorem IsExpr.unique (h : IsExpr ts e) (h' : IsExpr ts e') : e = e' :=
  Option.some.inj (h.parse_eq.symm.trans h'.parse_eq)

theorem IsChain.inductionOn {motive : List Token → Chain → Prop}
    (single : ∀ {ts o}, IsOperand ts o → motive ts ⟨[], o⟩)
    (join : ∀ {ts us c d} (op : BinaryOp), IsChain ts c → IsChain us d → motive ts c → motive us d →
      motive (ts ++ .op op :: us) (c.append op d)) (h : IsChain ts c) : motive ts c :=
  @IsChain.rec (fun _ _ _ => True) (fun ts c _ => motive ts c) (fun _ _ _ => True)
    (fun _ _ => trivial) (fun _ _ => trivial) (fun _ _ _ => trivial) (fun _ _ _ _ => trivial)
    (fun _ _ _ => trivial) (fun ho _ => single ho) (fun op hc hd => join op hc hd)
    (fun _ _ => trivial) (fun _ _ _ _ _ _ => trivial) ts c h

theorem IsExpr.inductionOn {motive : List Token → Prop}
    (chain : ∀ {ts c}, IsChain ts c → motive ts)
    (conditional : ∀ {ts us vs c consequent}, IsChain ts c → IsExpr us consequent → motive vs →
      motive (ts ++ .question :: (us ++ .colon :: vs))) (h : IsExpr ts e) : motive ts :=
  @IsExpr.rec (fun _ _ _ => True) (fun _ _ _ => True) (fun ts _ _ => motive ts)
    (fun _ _ => trivial) (fun _ _ => trivial) (fun _ _ _ => trivial) (fun _ _ _ _ => trivial)
    (fun _ _ _ => trivial) (fun _ _ => trivial) (fun _ _ _ _ _ => trivial)
    (fun hc _ => chain hc) (fun hc hus _ _ _ hvs => conditional hc hus hvs) ts e h

/-- The tokens of an access, which may follow any operand. -/
def IsAccess (ts : List Token) (a : Access) : Prop :=
  ∀ {us : List Token} {o : Operand}, IsOperand us o →
    IsOperand (us ++ ts) { o with accesses := o.accesses ++ [a] }

theorem isAccess_member (name : String) : IsAccess [.dot, .word name] (.member name) :=
  fun ho => .member name ho

theorem isAccess_index {key : Expr} (hkey : IsExpr ts key) :
    IsAccess (.leftBracket :: (ts ++ [.rightBracket])) (.index key) :=
  fun ho => .index ho hkey

/-- An access at the end of a chain belongs to its last operand. -/
theorem IsChain.exists_access {a : Access} (ha : IsAccess us a) (h : IsChain ts c) :
    ∃ c', IsChain (ts ++ us) c' ∧ c'.symbols = c.symbols ++ [.access a] := by
  refine h.inductionOn (motive := fun ts c => ∃ c', IsChain (ts ++ us) c' ∧
    c'.symbols = c.symbols ++ [.access a]) (fun ho => ⟨_, .single (ha ho), ?_⟩)
    fun {ts us' c d} op hc _ _ ih => ?_
  · simp [Chain.symbols, Operand.symbols]
  · obtain ⟨d', hd', hsymbols⟩ := ih
    refine ⟨c.append op d', ?_, ?_⟩
    · simpa using IsChain.join op hc hd'
    · simp [Chain.symbols_append, hsymbols]

/-- A sign at the start of a chain belongs to its first operand. -/
theorem IsChain.exists_sign {op : UnaryOp} (hsign : sign? t = some op) (h : IsChain ts c) :
    ∃ c', IsChain (t :: ts) c' ∧ c'.symbols = .sign op :: c.symbols := by
  refine h.inductionOn (motive := fun ts c => ∃ c', IsChain (t :: ts) c' ∧
    c'.symbols = .sign op :: c.symbols) (fun ho => ⟨_, .single (.sign hsign ho), ?_⟩)
    fun {ts us c d} op' _ hd ih _ => ?_
  · simp [Chain.symbols, Operand.symbols]
  · obtain ⟨c', hc', hsymbols⟩ := ih
    refine ⟨c'.append op' d, ?_, ?_⟩
    · simpa using IsChain.join op' hc' hd
    · simp [Chain.symbols_append, hsymbols]

/-- What can follow every chain can follow every expression: it belongs to the last branch. -/
theorem IsExpr.exists_append (htail : ∀ {ts c}, IsChain ts c → ∃ e, IsExpr (ts ++ us) e)
    (h : IsExpr ts e) : ∃ e', IsExpr (ts ++ us) e' := by
  refine h.inductionOn htail fun hc hconsequent ih => ?_
  obtain ⟨alternate, halternate⟩ := ih
  exact ⟨_, by simpa using IsExpr.conditional hc hconsequent halternate⟩

/-- Outside brackets the tokens have an operator that binds as tightly as `level`. -/
inductive Exposes : Nat → List Token → Prop
  | joint {ts : List Token} {c : Chain} {op : BinaryOp} : IsChain ts c → .joint op ∈ c.symbols →
      Exposes op.level ts
  | sign {ts : List Token} {c : Chain} {op : UnaryOp} {rest : List Symbol} : IsChain ts c →
      c.symbols = .sign op :: rest → Exposes 8 ts
  | conditional {ts us vs : List Token} {c : Chain} {consequent alternate : Expr} : IsChain ts c →
      IsExpr us consequent → IsExpr vs alternate →
      Exposes 1 (ts ++ .question :: (us ++ .colon :: vs))

namespace Exposes

/-- An operator in the open decides how tightly the whole binds. -/
theorem exists_isExpr (h : Exposes level ts) : ∃ e, IsExpr ts e ∧ e.level ≤ level := by
  cases h with
  | joint hc hjoint => exact ⟨_, .chain hc, Chain.level_le_of_joint hjoint⟩
  | sign hc hsign => exact ⟨_, .chain hc, Chain.level_le_of_sign hsign⟩
  | conditional hc hus hvs => exact ⟨_, .conditional hc hus hvs, le_rfl⟩

/-- In a conditional, what follows belongs to the last branch. -/
theorem conditional_append {consequent alternate : Expr} {ws : List Token} (hc : IsChain ts c)
    (hus : IsExpr us consequent) (hvs : IsExpr vs alternate)
    (htail : ∀ {ts c}, IsChain ts c → ∃ e, IsExpr (ts ++ ws) e) :
    Exposes 1 (ts ++ .question :: (us ++ .colon :: vs) ++ ws) := by
  obtain ⟨alternate', halternate⟩ := hvs.exists_append htail
  simpa using Exposes.conditional hc hus halternate

theorem access {a : Access} (ha : IsAccess us a) (h : Exposes level ts) :
    Exposes level (ts ++ us) := by
  cases h with
  | joint hc hjoint =>
    obtain ⟨c', hc', hsymbols⟩ := hc.exists_access ha
    exact .joint hc' (by simp [hsymbols, hjoint])
  | sign hc hsign =>
    obtain ⟨c', hc', hsymbols⟩ := hc.exists_access ha
    exact .sign hc' (by rw [hsymbols, hsign]; rfl)
  | conditional hc hus hvs =>
    refine conditional_append hc hus hvs fun hc => ?_
    obtain ⟨c', hc', -⟩ := hc.exists_access ha
    exact ⟨_, .chain hc'⟩

theorem unary {op : UnaryOp} (hsign : sign? t = some op) (h : Exposes level ts) :
    Exposes level (t :: ts) := by
  cases h with
  | joint hc hjoint =>
    obtain ⟨c', hc', hsymbols⟩ := hc.exists_sign hsign
    exact .joint hc' (by simp [hsymbols, hjoint])
  | sign hc =>
    obtain ⟨c', hc', hsymbols⟩ := hc.exists_sign hsign
    exact .sign hc' hsymbols
  | conditional hc hus hvs =>
    obtain ⟨c', hc', -⟩ := hc.exists_sign hsign
    exact .conditional hc' hus hvs

theorem left (op : BinaryOp) (h : Exposes level ts) (hd : IsChain us d) :
    Exposes level (ts ++ .op op :: us) := by
  cases h with
  | @joint _ c _ hc hjoint => exact .joint (.join op hc hd) (by simp [Chain.symbols_append, hjoint])
  | sign hc hsign =>
    exact .sign (.join op hc hd) (by rw [Chain.symbols_append, hsign]; rfl)
  | conditional hc hus hvs =>
    exact conditional_append hc hus hvs fun hc => ⟨_, .chain (.join op hc hd)⟩

/-- On the right of an operator, the operand does not stay together. -/
theorem exists_ne_right (op : BinaryOp) (hc : IsChain us c) (h : Exposes level ts)
    (he : IsExpr ts e) (hlevel : level ≤ op.level) (left : Expr) :
    ∃ e', IsExpr (us ++ .op op :: ts) e' ∧ e' ≠ .binary op left e := by
  have hbounds := op.level_bounds
  cases h with
  | joint hd hjoint =>
    obtain rfl := (IsExpr.chain hd).unique he
    exact ⟨_, .chain (.join op hc hd), Chain.append_expr_ne hjoint hlevel c left⟩
  | sign => omega
  | conditional hd hus hvs =>
    -- what stands on its left becomes a part of the test
    exact ⟨_, by simpa using IsExpr.conditional (.join op hc hd) hus hvs, by simp⟩

/-- A conditional at the place of a test keeps its own test. -/
theorem exists_ne_test {f g consequent alternate : Expr} (h : Exposes level ts) (he : IsExpr ts e)
    (hlevel : level < 2) (hus : IsExpr us f) (hvs : IsExpr vs g) :
    ∃ e', IsExpr (ts ++ .question :: (us ++ .colon :: vs)) e' ∧
      e' ≠ .conditional e consequent alternate := by
  cases h with
  | @joint _ _ op =>
    have hbounds := op.level_bounds
    omega
  | sign => omega
  | @conditional ts' us' vs' c first second hc hfirst hsecond =>
    obtain rfl := (IsExpr.conditional hc hfirst hsecond).unique he
    obtain ⟨last, hlast⟩ := hsecond.exists_append fun hc => ⟨_, .conditional hc hus hvs⟩
    refine ⟨_, by simpa using IsExpr.conditional hc hfirst hlast, fun heq => ?_⟩
    have hsize := congrArg sizeOf (Expr.conditional.inj heq).1
    simp only [Expr.conditional.sizeOf_spec] at hsize
    omega

end Exposes
end Parser

namespace Expr

/-- A place in a node for one of its children, with all else that the node has. -/
inductive Place where
  | objectOf (property : String)
  | indexedBy (key : Expr)
  | keyOf (object : Expr)
  | operandOf (op : UnaryOp)
  | leftOf (op : BinaryOp) (right : Expr)
  | rightOf (op : BinaryOp) (left : Expr)
  | testOf (consequent alternate : Expr)
  | consequentOf (test alternate : Expr)
  | alternateOf (test consequent : Expr)

namespace Place

/-- The node with a child at the place. -/
def fill : Place → Expr → Expr
  | .objectOf property, child => .member child property
  | .indexedBy key, child => .index child key
  | .keyOf object, child => .index object child
  | .operandOf op, child => .unary op child
  | .leftOf op right, child => .binary op child right
  | .rightOf op left, child => .binary op left child
  | .testOf consequent alternate, child => .conditional child consequent alternate
  | .consequentOf test alternate, child => .conditional test child alternate
  | .alternateOf test consequent, child => .conditional test consequent child

/-- The code of the node with some text at the place. -/
def around (style : CodeStyle) : Place → String → String
  | .objectOf property, text => text ++ "." ++ property
  | .indexedBy key, text => text ++ "[" ++ key.code style ++ "]"
  | .keyOf object, text => bracket (object.level < 9) (object.code style) ++ "[" ++ text ++ "]"
  | .operandOf op, text => op.symbol ++ text
  | .leftOf op right, text =>
    text ++ " " ++ op.symbol ++ " " ++ bracket (right.level < op.level + 1) (right.code style)
  | .rightOf op left, text =>
    bracket (left.level < op.level) (left.code style) ++ " " ++ op.symbol ++ " " ++ text
  | .testOf consequent alternate, text =>
    text ++ " ? " ++ bracket (consequent.level < 1) (consequent.code style) ++ " : "
      ++ bracket (alternate.level < 1) (alternate.code style)
  | .consequentOf test alternate, text =>
    bracket (test.level < 2) (test.code style) ++ " ? " ++ text ++ " : "
      ++ bracket (alternate.level < 1) (alternate.code style)
  | .alternateOf test consequent, text =>
    bracket (test.level < 2) (test.code style) ++ " ? "
      ++ bracket (consequent.level < 1) (consequent.code style) ++ " : " ++ text

/-- How tightly a child must bind to stand at the place as it is. -/
def level : Place → Nat
  | .objectOf _ | .indexedBy _ => 9
  | .keyOf _ => 0
  | .operandOf _ => 8
  | .leftOf op _ => op.level
  | .rightOf op _ => op.level + 1
  | .testOf .. => 2
  | .consequentOf .. | .alternateOf .. => 1

/-- A number before the point of an access, or a sign after another unary operator. -/
def isDelicate : Place → Expr → Bool
  | .objectOf _, child => child.isNumber
  | .operandOf _, child => child.isSigned
  | _, _ => false

theorem code_fill (style : CodeStyle) (p : Place) (child : Expr) :
    (p.fill child).code style = p.around style
      (bracket (p.isDelicate child || child.level < p.level) (child.code style)) := by
  cases p with
  | keyOf object => simp [fill, code, around, isDelicate, level, bracket]
  | _ =>
    simp only [fill, code]
    rfl

theorem length_around (style : CodeStyle) (p : Place) (text : String) :
    (p.around style text).length = (p.around style "").length + text.length := by
  cases p <;> simp [around] <;> omega

/-- Brackets are written for the level of the child, or at a delicate place. -/
theorem lt_level_of_code {style : CodeStyle} {p : Place} {child : Expr}
    (hcode : (p.fill child).code style = p.around style ("(" ++ child.code style ++ ")"))
    (hdelicate : p.isDelicate child = false) : child.level < p.level := by
  by_contra hlevel
  rw [code_fill, hdelicate, Bool.false_or, decide_eq_false hlevel] at hcode
  have hlength := congrArg String.length hcode
  have hparens : ("(" ++ child.code style ++ ")").length = (child.code style).length + 2 := by
    rw [String.length_append, String.length_append]
    change 1 + _ + 1 = _
    omega
  rw [length_around, length_around style p ("(" ++ _ ++ ")"), hparens] at hlength
  simp [bracket] at hlength

end Place

/-- The nodes of a tree. -/
inductive IsNode (e : Expr) : Expr → Prop
  | root : IsNode e e
  | child (p : Place) {child : Expr} : IsNode e (p.fill child) → IsNode e child

/-- A tree without filters and concatenations that can be read back from its code. -/
structure Printable (e : Expr) : Prop where
  plain : e.Plain
  readable : e.all isReadable = true

variable {style : CodeStyle} {e child : Expr} {p : Place}

theorem Printable.of_fill (h : (p.fill child).Printable) : child.Printable := by
  obtain ⟨hplain, hreadable⟩ := h
  cases p <;> simp only [Place.fill, Plain, all, Bool.and_eq_true] at hplain hreadable
  all_goals first
    | exact ⟨hplain.2, hreadable.2⟩
    | exact ⟨hplain.1.2, hreadable.1.2⟩
    | exact ⟨hplain.1.1.2, hreadable.1.1.2⟩

theorem Printable.node (h : e.Printable) (hnode : IsNode e child) : child.Printable := by
  induction hnode with
  | root => exact h
  | child p _ ih => exact ih.of_fill

/-- The code of a part that does not bind tightest shows its loosest operator. -/
theorem Printable.exists_exposes (hscope : Token.isLookup style.scope = true) (h : e.Printable)
    (hlevel : e.level < 9) : ∃ ts, Codes e.level false true (e.code style).toList
      (e.rooted style.scope) ts ∧ Parser.Exposes e.level ts := by
  cases e with
  | literal | scope | member | index | filter => exact absurd hlevel (lt_irrefl 9)
  | concat parts =>
    have hplain := h.plain
    rw [Plain, all, Bool.and_eq_true] at hplain
    cases hplain.1
  | unary op operand =>
    have hoperand := faithful hscope (h.of_fill (p := .operandOf op)).readable
    obtain ⟨us, hcodes⟩ := hoperand.signless
    obtain ⟨t, hsign, hunary⟩ := hcodes.unary op
    obtain ⟨o, ho, -⟩ := hcodes.stands.exists_operand
    have hcode : ((Expr.unary op operand).code style).toList = op.symbol.toList ++
        (bracket (operand.isSigned || operand.level < 8) (operand.code style)).toList := by
      simp [code]
    rw [hcode]
    exact ⟨t :: us, hunary.relax le_rfl id (by simp), .sign (.single (.sign hsign ho)) rfl⟩
  | binary op left right =>
    have hbounds := op.level_bounds
    have hleft := faithful hscope (h.of_fill (p := .leftOf op right)).readable
    have hright := faithful hscope (h.of_fill (p := .rightOf op left)).readable
    obtain ⟨ts, hleft⟩ := hleft.slot op.level (by omega)
    obtain ⟨us, hright⟩ := hright.slot (op.level + 1) (by omega)
    obtain ⟨c, hc, -⟩ := hleft.stands.exists_chain hbounds.1
    obtain ⟨d, hd, -⟩ := hright.stands.exists_chain (by omega)
    have hcodes := Codes.binary op hleft hright
    refine ⟨_, by simpa [code, rooted, level] using hcodes, .joint (.join op hc hd) ?_⟩
    simp [Chain.symbols_append]
  | conditional test consequent alternate =>
    have htest := faithful hscope (h.of_fill (p := .testOf consequent alternate)).readable
    have hconsequent := faithful hscope (h.of_fill (p := .consequentOf test alternate)).readable
    have halternate := faithful hscope (h.of_fill (p := .alternateOf test consequent)).readable
    obtain ⟨ts, htest⟩ := htest.slot 2 (by decide)
    obtain ⟨us, hconsequent⟩ := hconsequent.slot 1 (by decide)
    obtain ⟨vs, halternate⟩ := halternate.slot 1 (by decide)
    obtain ⟨c, hc, -⟩ := htest.stands.exists_chain le_rfl
    have hcodes := htest.conditional hconsequent halternate
    exact ⟨_, by simpa [code, rooted, level] using hcodes,
      .conditional hc hconsequent.stands.isExpr halternate.stands.isExpr⟩

/-- The text splits into tokens of an expression, which is not `e`. -/
def Misread (cs : List Char) (e : Expr) : Prop :=
  Text.Trimmed cs ∧ ∃ ts e', Token.lex cs = some ts ∧ Parser.IsExpr ts e' ∧ e' ≠ e

theorem Misread.read_ne {text : String} (h : Misread text.toList e) : read text ≠ .ok e := by
  obtain ⟨htrimmed, ts, e', hlex, he', hne⟩ := h
  intro hread
  rw [read, htrimmed.trimChars_eq] at hread
  obtain ⟨-, us, hlex', hparse, -⟩ := exists_of_readChars hread
  cases hlex.symm.trans hlex'
  exact hne (Option.some.inj (he'.parse_eq.symm.trans hparse))

theorem misread_of_prints {dotted : Bool} {cs : List Char} {ts : List Token} {e' : Expr}
    (h : Prints dotted cs ts) (he' : Parser.IsExpr ts e') (hne : e' ≠ e) : Misread cs e :=
  ⟨h.trimmed, ts, e', Token.lex_of_written h.whole, he', hne⟩

theorem one_le_level (e : Expr) : 1 ≤ e.level := by
  cases e with
  | binary op =>
    have hbounds := op.level_bounds
    change 1 ≤ op.level
    omega
  | _ => simp [level]

theorem ne_of_level {e' : Expr} {level : Nat} (h : e'.level ≤ level) (hlt : level < e.level) :
    e' ≠ e := by
  rintro rfl
  omega

section Misreadings

variable {cs ds es : List Char} {ts us vs : List Token} {level level' : Nat}
  {dotted dotted' dotted'' signed signed' signed'' : Bool} {f g : Expr}
  (h : Codes level dotted signed cs e ts) (hexposes : Parser.Exposes level ts)

include h hexposes

/-- A point in a numeral stands before a digit, so the access is split off also after a number. -/
theorem misread_member {property : String} (hname : Token.isName property.toList = true)
    (hlevel : level < 9) (object : Expr) :
    Misread (cs ++ '.' :: property.toList) (.member object property) := by
  obtain ⟨e', he', hloose⟩ := (hexposes.access (Parser.isAccess_member property)).exists_isExpr
  have htrimmed := h.prints.trimmed.append ['.'] (Token.trimmed_of_isName hname)
  refine ⟨by simpa using htrimmed, _, e', ?_, he', ne_of_level hloose hlevel⟩
  refine Token.lex_append (Token.lex_of_written h.prints.whole)
    (Token.severs_access (Token.isDigit_of_isName hname)) (fun u hu => ?_)
    (Token.lex_of_written (Prints.access hname).whole)
  obtain ⟨t, ht, hcloses⟩ := h.stands.isExpr.edged.last
  cases ht.symm.trans hu
  exact Token.isJoinedBy_of_closes hcloses '.'

theorem misread_index (hkey : Codes level' dotted' signed' ds f us) (hlevel : level < 9)
    (object key : Expr) : Misread (cs ++ '[' :: (ds ++ [']'])) (.index object key) := by
  obtain ⟨e', he', hloose⟩ :=
    (hexposes.access (Parser.isAccess_index hkey.stands.isExpr)).exists_isExpr
  exact misread_of_prints (h.prints.append hkey.prints.indexed (by simp [mayFollow])) he'
    (ne_of_level hloose hlevel)

/-- A second sign is a token of its own, even where the two of them are refused. -/
theorem misread_unary (op : UnaryOp) (hlevel : level < 8) (operand : Expr) :
    Misread (op.symbol.toList ++ cs) (.unary op operand) := by
  obtain ⟨t, hfixed, hsign, hjoined⟩ : ∃ t : Token, t.fixed? = some op.symbol ∧
      Parser.sign? t = some op ∧ ∀ c, c ≠ '=' → t.isJoinedBy c = false := by
    cases op with
    | not => exact ⟨.bang, rfl, rfl, fun c hc => by simpa [Token.isJoinedBy] using hc⟩
    | neg => exact ⟨.op .sub, rfl, rfl, fun _ _ => rfl⟩
    | plus => exact ⟨.op .add, rfl, rfl, fun _ _ => rfl⟩
  obtain ⟨e', he', hloose⟩ := (hexposes.unary hsign).exists_isExpr
  have htrimmed := (Token.trimmed_fixed hfixed).append [] h.prints.trimmed
  refine ⟨by simpa using htrimmed, _, e', ?_, he', ne_of_level hloose hlevel⟩
  refine Token.lex_cons (List.forall_mem_nil _) (.fixed hfixed) ?_
    (Token.lex_of_written h.prints.whole)
  exact (Token.endsBefore_fixed hfixed).2 fun c hc => hjoined c (h.head c hc).1

theorem misread_left (op : BinaryOp) (hright : Codes level' dotted' signed' ds f us)
    (hlevel' : 2 ≤ level') (hlevel : level < op.level) (left right : Expr) :
    Misread (cs ++ ' ' :: (op.symbol.toList ++ ' ' :: ds)) (.binary op left right) := by
  obtain ⟨d, hd, -⟩ := hright.stands.exists_chain hlevel'
  obtain ⟨e', he', hloose⟩ := (hexposes.left op hd).exists_isExpr
  exact misread_of_prints (h.prints.joined op hright.prints) he' (ne_of_level hloose hlevel)

theorem misread_right (op : BinaryOp) (hleft : Codes level' dotted' signed' ds f us)
    (hlevel' : 2 ≤ level') (hlevel : level ≤ op.level) (left : Expr) :
    Misread (ds ++ ' ' :: (op.symbol.toList ++ ' ' :: cs)) (.binary op left e) := by
  obtain ⟨c, hc, -⟩ := hleft.stands.exists_chain hlevel'
  obtain ⟨e', he', hne⟩ := hexposes.exists_ne_right op hc h.stands.isExpr hlevel left
  exact misread_of_prints (hleft.prints.joined op h.prints) he' hne

theorem misread_test (hconsequent : Codes 1 dotted' signed' ds f us)
    (halternate : Codes 1 dotted'' signed'' es g vs) (hlevel : level < 2)
    (consequent alternate : Expr) :
    Misread (cs ++ ' ' :: '?' :: ' ' :: (ds ++ ' ' :: ':' :: ' ' :: es))
      (.conditional e consequent alternate) := by
  obtain ⟨e', he', hne⟩ := hexposes.exists_ne_test h.stands.isExpr hlevel hconsequent.stands.isExpr
    halternate.stands.isExpr
  exact misread_of_prints (h.prints.chosen hconsequent.prints halternate.prints) he' hne

end Misreadings

/-- Without the brackets that its level asks for, a child makes its node another tree. -/
theorem misread_around (hscope : Token.isLookup style.scope = true) (h : (p.fill child).Printable)
    (hlevel : child.level < p.level) : Misread (p.around style (child.code style)).toList
      ((p.fill child).rooted style.scope) := by
  have hmax : child.level < 9 := by
    have hbounds (op : BinaryOp) := op.level_bounds
    cases p <;> simp only [Place.level] at hlevel <;> grind
  have sibling (q : Place) {other : Expr} (heq : p.fill child = q.fill other) :
      Faithful style other :=
    faithful hscope (Printable.of_fill (heq ▸ h)).readable
  obtain ⟨ts, hchild, hexposes⟩ := h.of_fill.exists_exposes hscope hmax
  cases p with
  | objectOf property =>
    have hname : Token.isName property.toList = true := by
      have hreadable := h.readable
      rw [Place.fill, all, Bool.and_eq_true] at hreadable
      exact hreadable.1
    simpa [Place.around, Place.fill, rooted] using misread_member hchild hexposes hname hmax _
  | indexedBy key =>
    obtain ⟨us, hkey⟩ := sibling (.keyOf child) rfl
    simpa [Place.around, Place.fill, rooted] using misread_index hchild hexposes hkey hmax _ _
  | keyOf object => cases hlevel
  | operandOf op =>
    simpa [Place.around, Place.fill, rooted] using misread_unary hchild hexposes op hlevel _
  | leftOf op right =>
    have hbounds := op.level_bounds
    obtain ⟨us, hright⟩ := (sibling (.rightOf op child) rfl).slot (op.level + 1) (by omega)
    simpa [Place.around, Place.fill, rooted] using
      misread_left hchild hexposes op hright (by omega) hlevel _ _
  | rightOf op left =>
    have hbounds := op.level_bounds
    obtain ⟨us, hleft⟩ := (sibling (.leftOf op child) rfl).slot op.level (by omega)
    simpa [Place.around, Place.fill, rooted] using
      misread_right hchild hexposes op hleft hbounds.1 (Nat.le_of_lt_succ hlevel) _
  | testOf consequent alternate =>
    obtain ⟨us, hconsequent⟩ := (sibling (.consequentOf child alternate) rfl).slot 1 (by decide)
    obtain ⟨vs, halternate⟩ := (sibling (.alternateOf child consequent) rfl).slot 1 (by decide)
    simpa [Place.around, Place.fill, rooted] using
      misread_test hchild hexposes hconsequent halternate hlevel _ _
  | consequentOf | alternateOf => exact absurd hlevel (Nat.not_lt.2 child.one_le_level)

/-- No filter, no concatenation, and no text that is written with an escape of four digits. -/
def isDirect : Expr → Bool
  | .literal (.string value) => value.toList.all fun c => !Text.Quoted.isHexEscaped c
  | .filter .. | .concat _ => false
  | _ => true

theorem printable_of_read {source : String} (hread : read source = .ok e)
    (he : e.all isDirect = true) : e.Printable := by
  cases readable_of_read hread with
  | plain hplain =>
    refine ⟨hplain, all_mono₂ (fun e hplain hdirect => ?_) hplain he⟩
    cases e with
    | literal value =>
      cases value with
      | string value => exact hdirect
      | _ => exact hplain
    | filter => cases hdirect
    | concat => cases hdirect
    | _ => exact hplain
  | filter =>
    rw [all, Bool.and_eq_true] at he
    cases he.1

/-- In the code of a node of a tree that was read, each child stands as its own code, with or
without brackets. Where it has brackets, other than a sign after a unary operator or a number before
the point of an access, the code without them is not read as the same tree. -/
theorem brackets_needed (style : CodeStyle) (hscope : Token.isLookup style.scope = true)
    (source : String) (e : Expr) (hread : read source = .ok e) (he : e.all isDirect = true)
    (p : Place) (child : Expr) (hnode : IsNode e (p.fill child)) :
    ((p.fill child).code style = p.around style (child.code style) ∨
      (p.fill child).code style = p.around style ("(" ++ child.code style ++ ")")) ∧
    ((p.fill child).code style = p.around style ("(" ++ child.code style ++ ")") →
      p.isDelicate child = false →
      ∃ tree, read ((p.fill child).code style) = .ok tree ∧
        read (p.around style (child.code style)) ≠ .ok tree) := by
  have hprintable := (printable_of_read hread he).node hnode
  refine ⟨?_, fun hcode hdelicate => ⟨(p.fill child).rooted style.scope, ?_, ?_⟩⟩
  · rw [Place.code_fill]
    cases p.isDelicate child || decide (child.level < p.level) with
    | false => exact .inl rfl
    | true => exact .inr rfl
  · obtain ⟨ts, hcodes⟩ := faithful hscope hprintable.readable
    simpa using read_of_prints hcodes.prints (.plain hcodes.stands.isExpr)
  · exact (misread_around hscope hprintable (Place.lt_level_of_code hcode hdelicate)).read_ne

/-- The brackets on the right of an operator of the same level. -/
theorem brackets_needed_sub :
    (Expr.binary .sub (.scope "a") (.binary .sub (.scope "b") (.scope "c"))).code
        Config.default.style = "_scope.a - (_scope.b - _scope.c)" ∧
      ∃ tree, read "_scope.a - (_scope.b - _scope.c)" = .ok tree ∧
        read "_scope.a - _scope.b - _scope.c" ≠ .ok tree := by
  have hread : read "a - (b - c)"
      = .ok (.binary .sub (.scope "a") (.binary .sub (.scope "b") (.scope "c"))) := by
    with_unfolding_all rfl
  exact ⟨rfl, (brackets_needed Config.default.style (by decide) "a - (b - c)" _ hread (by decide)
    (.rightOf .sub (.scope "a")) (.binary .sub (.scope "b") (.scope "c")) .root).2 rfl rfl⟩

end Expr
end Stencil
