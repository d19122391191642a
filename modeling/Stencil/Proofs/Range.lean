import Stencil.Expr.Reader
import Stencil.Proofs.Lexing

/-!
# The trees that reading gives

Every part of a state of the machine is a plain tree: its names are names, its numbers are finite
and unsigned, and it holds neither a filter nor a concatenation. Each step keeps this, so that what
is read is a plain tree, or a filter applied to one.
-/

namespace Stencil

namespace Expr

def isPlain : Expr → Bool
  | .filter .. | .concat _ => false
  | e => e.isWellNamed

/-- Plain at every node. -/
def Plain (e : Expr) : Prop := e.all isPlain = true

theorem plain_ofWord {name : String} (h : Token.isName name.toList = true) :
    (ofWord name).Plain := by
  unfold ofWord
  split_ifs with h1 h2 h3 h4
  · rfl
  · rfl
  · rfl
  · rfl
  · change Token.isLookup name = true
    simp [Token.isLookup, Token.literalWords, h, h1, h2, h3, h4]

theorem plain_number {n : Numeral} (h : n.value.isFinite = true) :
    (literal (.number n.value)).Plain := by
  obtain ⟨m, hm⟩ := Decimal.exists_magnitude_of_isFinite h
  change n.value.isUnsigned = true
  rw [Numeral.value, hm]
  rfl

theorem Plain.unary {operand : Expr} (op : UnaryOp) (h : operand.Plain) :
    (Expr.unary op operand).Plain := by
  simpa [Plain, all, isPlain, isWellNamed] using h

theorem Plain.binary {left right : Expr} (op : BinaryOp) (hleft : left.Plain)
    (hright : right.Plain) : (Expr.binary op left right).Plain := by
  simpa [Plain, all, isPlain, isWellNamed] using And.intro hleft hright

theorem Plain.conditional {test consequent alternate : Expr} (htest : test.Plain)
    (hconsequent : consequent.Plain) (halternate : alternate.Plain) :
    (Expr.conditional test consequent alternate).Plain := by
  simpa [Plain, all, isPlain, isWellNamed, and_assoc] using
    And.intro htest (And.intro hconsequent halternate)

end Expr

def Access.Plain : Access → Prop
  | .member property => Token.isName property.toList = true
  | .index key => key.Plain

structure Operand.Plain (o : Operand) : Prop where
  primary : o.primary.Plain
  accesses : ∀ a ∈ o.accesses, a.Plain

theorem Access.Plain.apply {object : Expr} {a : Access} (ha : a.Plain) (h : object.Plain) :
    (a.apply object).Plain := by
  cases a with
  | member property => exact Bool.and_eq_true_iff.2 ⟨ha, h⟩
  | index key => exact Bool.and_eq_true_iff.2 ⟨h, ha⟩

theorem Operand.Plain.access {o : Operand} {a : Access} (h : o.Plain) (ha : a.Plain) :
    Operand.Plain { o with accesses := o.accesses ++ [a] } :=
  ⟨h.primary, List.forall_mem_append.2 ⟨h.accesses, by simpa using ha⟩⟩

theorem Operand.Plain.expr {o : Operand} (h : o.Plain) : o.expr.Plain := by
  have haccesses : (o.accesses.foldl Access.apply o.primary).Plain :=
    List.foldlRecOn _ _ h.primary fun _ he a ha => (h.accesses a ha).apply he
  exact List.foldrRecOn _ _ haccesses fun _ he op _ => he.unary op

namespace Chain

theorem plain_reduce {waiting : List (Expr × BinaryOp)} {right : Expr}
    (hwaiting : ∀ w ∈ waiting, w.1.Plain) (hright : right.Plain) (rank : Nat) :
    (∀ w ∈ (reduce rank waiting right).1, w.1.Plain) ∧ (reduce rank waiting right).2.Plain := by
  induction waiting generalizing right with
  | nil => exact ⟨by simp [reduce], hright⟩
  | cons w waiting ih =>
    rw [List.forall_mem_cons] at hwaiting
    rw [reduce]
    split
    · exact ih hwaiting.2 (hwaiting.1.binary _ hright)
    · exact ⟨List.forall_mem_cons.2 hwaiting, hright⟩

theorem plain_group {waiting links : List (Expr × BinaryOp)} {last : Expr}
    (hwaiting : ∀ w ∈ waiting, w.1.Plain) (hlinks : ∀ l ∈ links, l.1.Plain) (hlast : last.Plain) :
    (group waiting links last).Plain := by
  induction links generalizing waiting with
  | nil => exact (plain_reduce hwaiting hlast 0).2
  | cons l links ih =>
    rw [List.forall_mem_cons] at hlinks
    have hreduce := plain_reduce hwaiting hlinks.1 l.2.rank
    exact ih (List.forall_mem_cons.2 ⟨hreduce.2, hreduce.1⟩) hlinks.2

end Chain

namespace Parser

def OpenChain.Plain (c : OpenChain) : Prop := ∀ l ∈ c.links, l.1.Plain

theorem OpenChain.Plain.close {c : OpenChain} {o : Operand} (hc : c.Plain) (ho : o.Plain) :
    (c.close o).Plain := by
  refine Chain.plain_group (by simp) ?_ ho.expr
  rw [List.forall_mem_map]
  exact fun l hl => (hc l (List.mem_reverse.1 hl)).expr

def Frame.Plain : Frame → Prop
  | .paren outer => outer.Plain
  | .index outer object => outer.Plain ∧ object.Plain
  | .consequent test => test.Plain
  | .alternate test branch => test.Plain ∧ branch.Plain

def State.Plain : State → Prop
  | .need stack chain => (∀ f ∈ stack, f.Plain) ∧ chain.Plain
  | .got stack chain o | .access stack chain o => (∀ f ∈ stack, f.Plain) ∧ chain.Plain ∧ o.Plain
  | .filter value => value.Plain
  | .filtered value name => value.Plain ∧ Token.isName name.toList = true

theorem plain_settle {stack : List Frame} {value : Expr} (hstack : ∀ f ∈ stack, f.Plain)
    (hvalue : value.Plain) :
    (∀ f ∈ (settle stack value).1, f.Plain) ∧ (settle stack value).2.Plain := by
  fun_induction settle stack value with
  | case1 test consequent stack value ih =>
    rw [List.forall_mem_cons] at hstack
    exact ih hstack.2 (hstack.1.1.conditional hstack.1.2 hvalue)
  | case2 stack value => exact ⟨hstack, hvalue⟩

/-- A word that is a name, or any other token whose number is in range. -/
def IsSound (t : Token) : Prop :=
  (∀ name, t = .word name → Token.isName name.toList = true) ∧ Expr.overflow? t = none

theorem plain_atom {t : Token} {value : Expr} (ht : IsSound t) (h : atom? t = some value) :
    value.Plain := by
  cases t with
  | number n =>
    cases h
    refine Expr.plain_number ?_
    simpa [Expr.overflow?] using ht.2
  | string text => cases h; rfl
  | word name => cases h; exact Expr.plain_ofWord (ht.1 name rfl)
  | _ => cases h

theorem plain_stepNeed {stack : List Frame} {chain : OpenChain} {t : Token} {s : State}
    (hstack : ∀ f ∈ stack, f.Plain) (hchain : chain.Plain) (ht : IsSound t)
    (h : stepNeed stack chain t = some s) : s.Plain := by
  unfold stepNeed at h
  split at h
  · cases h
    exact ⟨hstack, hchain⟩
  · rename_i hatom
    cases h
    exact ⟨hstack, hchain, plain_atom ht hatom, by simp [OpenChain.operand]⟩
  · cases h
    exact ⟨List.forall_mem_cons.2 ⟨hchain, hstack⟩, by simp [OpenChain.Plain, OpenChain.empty]⟩
  · cases h

theorem plain_stepGot {stack : List Frame} {chain : OpenChain} {o : Operand} {t : Token}
    {s : State} (hstack : ∀ f ∈ stack, f.Plain) (hchain : chain.Plain) (ho : o.Plain)
    (h : stepGot stack chain o t = some s) : s.Plain := by
  have hclose := hchain.close ho
  have hsettle := plain_settle hstack hclose
  have hempty : OpenChain.empty.Plain := by simp [OpenChain.Plain, OpenChain.empty]
  cases t with
  | dot =>
    cases h
    exact ⟨hstack, hchain, ho⟩
  | leftBracket =>
    cases h
    exact ⟨List.forall_mem_cons.2 ⟨⟨hchain, ho⟩, hstack⟩, hempty⟩
  | op operator =>
    cases h
    exact ⟨hstack, List.forall_mem_cons.2 ⟨ho, hchain⟩⟩
  | question =>
    cases h
    exact ⟨List.forall_mem_cons.2 ⟨hclose, hstack⟩, hempty⟩
  -- the tokens that end an expression: the frame below the settled ones gets its value
  | colon =>
    dsimp only [stepGot] at h
    split at h
    · rename_i heq
      cases h
      rw [heq, List.forall_mem_cons] at hsettle
      exact ⟨List.forall_mem_cons.2 ⟨⟨hsettle.1.1, hsettle.2⟩, hsettle.1.2⟩, hempty⟩
    · cases h
  | rightParen =>
    dsimp only [stepGot] at h
    split at h
    · rename_i heq
      cases h
      rw [heq, List.forall_mem_cons] at hsettle
      exact ⟨hsettle.1.2, hsettle.1.1, hsettle.2, by simp [OpenChain.operand]⟩
    · cases h
  | rightBracket =>
    dsimp only [stepGot] at h
    split at h
    · rename_i heq
      cases h
      rw [heq, List.forall_mem_cons] at hsettle
      exact ⟨hsettle.1.2, hsettle.1.1.1, hsettle.1.1.2.access hsettle.2⟩
    · cases h
  | pipe =>
    dsimp only [stepGot] at h
    split at h
    · rename_i heq
      cases h
      rw [heq] at hsettle
      exact hsettle.2
    · cases h
  | word | number | string | bang | leftParen => cases h

theorem plain_step {s s' : State} {t : Token} (hs : s.Plain) (ht : IsSound t)
    (h : step s t = some s') : s'.Plain := by
  unfold step at h
  split at h
  · exact plain_stepNeed hs.1 hs.2 ht h
  · exact plain_stepGot hs.1 hs.2.1 hs.2.2 h
  · cases h
    exact ⟨hs.1, hs.2.1, hs.2.2.access (ht.1 _ rfl)⟩
  · cases h
    exact ⟨hs, ht.1 _ rfl⟩
  · cases h

theorem plain_run {s s' : State} {ts : List Token} (hs : s.Plain) (hts : ∀ t ∈ ts, IsSound t)
    (h : ts.foldlM step s = some s') : s'.Plain := by
  induction ts generalizing s with
  | nil => cases h; exact hs
  | cons t ts ih =>
    rw [List.forall_mem_cons] at hts
    rw [List.foldlM_cons] at h
    obtain ⟨mid, hstep, hrun⟩ := Option.bind_eq_some_iff.1 h
    exact ih (plain_step hs hts.1 hstep) hts.2 hrun

end Parser

namespace Expr

/-- A plain tree, or one filter applied to a plain tree. -/
inductive Readable : Expr → Prop
  | plain {e : Expr} : e.Plain → Readable e
  | filter {e : Expr} {name : String} : e.Plain → Token.isName name.toList = true →
      Readable (.filter e name)

end Expr

theorem Parser.readable_of_parse {ts : List Token} {e : Expr} (hts : ∀ t ∈ ts, IsSound t)
    (h : parse ts = some e) : e.Readable := by
  obtain ⟨s, hrun, hfinish⟩ := Option.bind_eq_some_iff.1 h
  have hstart : start.Plain := ⟨by simp, by simp [OpenChain.Plain, OpenChain.empty]⟩
  have hs := plain_run hstart hts hrun
  unfold finish at hfinish
  split at hfinish
  · rename_i stack chain o
    have hsettle := plain_settle hs.1 (hs.2.1.close hs.2.2)
    split at hfinish
    · rename_i heq
      cases hfinish
      rw [heq] at hsettle
      exact .plain hsettle.2
    · cases hfinish
  · cases hfinish
    exact .filter hs.1 hs.2
  · cases hfinish

namespace Token

theorem isName_of_next? {cs rest : List Char} {name : String}
    (h : next? cs = some (.word name, rest)) : isName name.toList = true := by
  unfold next? at h
  split at h
  · cases h
  · rename_i c tail
    split at h
    · rename_i hstart
      cases h
      rw [String.toList_ofList, isName, hstart, Bool.true_and]
      exact List.all_takeWhile
    · split at h
      · obtain ⟨_, -, he⟩ := Option.map_eq_some_iff.1 h
        cases he
      · split at h
        · cases h
        · unfold symbol? at h
          split at h <;> cases h

theorem isName_of_lex {cs : List Char} {ts : List Token} (h : lex cs = some ts) {name : String}
    (hmem : .word name ∈ ts) : isName name.toList = true := by
  induction hn : cs.length using Nat.strongRecOn generalizing cs ts with
  | ind n ih =>
    rw [lex_eq] at h
    split at h
    · cases h
      cases hmem
    · rename_i c rest hdrop
      obtain ⟨⟨t, after⟩, hnext, hmap⟩ := Option.bind_eq_some_iff.1 h
      obtain ⟨us, hafter, rfl⟩ := Option.map_eq_some_iff.1 hmap
      rcases List.mem_cons.1 hmem with rfl | hmem
      · exact isName_of_next? hnext
      · have hle : (cs.dropWhile Text.isGap).length ≤ cs.length :=
          (List.dropWhile_sublist _).length_le
        have hlt := length_next?_lt hnext
        rw [hdrop] at hle
        exact ih _ (by omega) hafter hmem rfl

end Token

/-- What is read has no forbidden operator, and tokens that make a tree with numbers in range. -/
theorem Expr.exists_of_readChars {source : List Char} {e : Expr} (h : readChars source = .ok e) :
    ForbiddenOp.find? source = none ∧ ∃ ts, Token.lex source = some ts ∧
      Parser.parse ts = some e ∧ ts.findSome? overflow? = none := by
  unfold readChars at h
  split at h
  · cases h
  · split at h
    · cases h
    · rename_i hfind
      split at h
      · cases h
      · rename_i ts hlex
        split at h
        · cases h
        · cases h
        · rename_i e' hparse hrange
          cases h
          exact ⟨hfind, ts, hlex, hparse, hrange⟩

/-- Reading gives a plain tree, or one filter applied to a plain tree. -/
theorem Expr.readable_of_read {text : String} {e : Expr} (h : Expr.read text = .ok e) :
    e.Readable := by
  obtain ⟨-, ts, hlex, hparse, hrange⟩ := exists_of_readChars h
  refine Parser.readable_of_parse (fun t ht => ⟨?_, ?_⟩) hparse
  · rintro name rfl
    exact Token.isName_of_lex hlex ht
  · exact List.findSome?_eq_none_iff.1 hrange t ht

end Stencil
