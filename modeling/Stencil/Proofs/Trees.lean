import Mathlib.Tactic.Tauto
import Stencil.Expr.Code
import Stencil.Expr.Token

/-!
# Trees, node by node

An induction principle for trees whose concatenations hold lists of trees, and conditions that are
checked at every node: names are names of the grammar, and numbers are finite and not negative.
-/

namespace Stencil

theorem BinaryOp.level_bounds (op : BinaryOp) : 2 ≤ op.level ∧ op.level ≤ 7 := by
  cases op <;> decide

namespace Token

/-- A name of the grammar. -/
def isName : List Char → Bool
  | [] => false
  | c :: cs => isNameStart c && cs.all isNameChar

/-- The words that stand for a literal and not for a name of the scope. -/
def literalWords : List String := ["true", "false", "null", "undefined"]

/-- A name that is looked up in the scope when it stands alone. -/
def isLookup (name : String) : Bool :=
  isName name.toList && !literalWords.contains name

theorem isNameChar_of_isNameStart {c : Char} (h : isNameStart c = true) : isNameChar c = true := by
  simp only [isNameStart, isNameChar, Char.isAlphanum, Bool.or_eq_true] at h ⊢
  tauto

theorem exists_cons_of_isName {cs : List Char} (h : isName cs = true) :
    ∃ c tail, cs = c :: tail ∧ isNameStart c = true ∧ ∀ d ∈ cs, isNameChar d = true := by
  cases cs with
  | nil => cases h
  | cons c tail =>
    rw [isName, Bool.and_eq_true, List.all_eq_true] at h
    exact ⟨c, tail, rfl, h.1, List.forall_mem_cons.2 ⟨isNameChar_of_isNameStart h.1, h.2⟩⟩

end Token

/-- Finite and not negative; the zero with a sign counts as negative. -/
def Binary64.isUnsigned : Binary64 → Bool
  | .finite false _ => true
  | _ => false

namespace Expr

/-- Induction over trees; the parts of a concatenation come with one hypothesis each. -/
@[induction_eliminator]
theorem inductionOn {motive : Expr → Prop} (literal : ∀ value, motive (.literal value))
    (scope : ∀ name, motive (.scope name))
    (member : ∀ object property, motive object → motive (.member object property))
    (index : ∀ object key, motive object → motive key → motive (.index object key))
    (unary : ∀ op operand, motive operand → motive (.unary op operand))
    (binary : ∀ op left right, motive left → motive right → motive (.binary op left right))
    (conditional : ∀ test consequent alternate, motive test → motive consequent →
      motive alternate → motive (.conditional test consequent alternate))
    (filter : ∀ expression name, motive expression → motive (.filter expression name))
    (concat : ∀ parts, (∀ part ∈ parts, motive part) → motive (.concat parts))
    (e : Expr) : motive e :=
  @Expr.rec motive (fun parts => ∀ part ∈ parts, motive part) literal scope member index unary
    binary conditional filter concat (by simp)
    (fun _ _ hpart hparts => List.forall_mem_cons.2 ⟨hpart, hparts⟩) e

mutual

/-- A condition holds at every node. -/
def all (p : Expr → Bool) : Expr → Bool
  | .literal value => p (.literal value)
  | .scope name => p (.scope name)
  | .member object property => p (.member object property) && all p object
  | .index object key => p (.index object key) && all p object && all p key
  | .unary op operand => p (.unary op operand) && all p operand
  | .binary op left right => p (.binary op left right) && all p left && all p right
  | .conditional test consequent alternate =>
    p (.conditional test consequent alternate) && all p test && all p consequent
      && all p alternate
  | .filter expression name => p (.filter expression name) && all p expression
  | .concat parts => p (.concat parts) && allParts p parts

def allParts (p : Expr → Bool) : List Expr → Bool
  | [] => true
  | part :: parts => all p part && allParts p parts

end

theorem allParts_eq_all (p : Expr → Bool) (parts : List Expr) :
    allParts p parts = parts.all (all p) := by
  induction parts with
  | nil => rfl
  | cons part parts ih => rw [allParts, ih, List.all_cons]

theorem all_mono₂ {p q r : Expr → Bool}
    (hpqr : ∀ e, p e = true → q e = true → r e = true) {e : Expr}
    (hp : e.all p = true) (hq : e.all q = true) : e.all r = true := by
  induction e with
  | literal value => exact hpqr _ hp hq
  | scope name => exact hpqr _ hp hq
  | member object property ih =>
    rw [all, Bool.and_eq_true] at hp hq ⊢
    exact ⟨hpqr _ hp.1 hq.1, ih hp.2 hq.2⟩
  | index object key ihobject ihkey =>
    simp only [all, Bool.and_eq_true] at hp hq ⊢
    exact ⟨⟨hpqr _ hp.1.1 hq.1.1, ihobject hp.1.2 hq.1.2⟩, ihkey hp.2 hq.2⟩
  | unary op operand ih =>
    rw [all, Bool.and_eq_true] at hp hq ⊢
    exact ⟨hpqr _ hp.1 hq.1, ih hp.2 hq.2⟩
  | binary op left right ihleft ihright =>
    simp only [all, Bool.and_eq_true] at hp hq ⊢
    exact ⟨⟨hpqr _ hp.1.1 hq.1.1, ihleft hp.1.2 hq.1.2⟩, ihright hp.2 hq.2⟩
  | conditional test consequent alternate ihtest ihconsequent ihalternate =>
    simp only [all, Bool.and_eq_true] at hp hq ⊢
    exact ⟨⟨⟨hpqr _ hp.1.1.1 hq.1.1.1, ihtest hp.1.1.2 hq.1.1.2⟩, ihconsequent hp.1.2 hq.1.2⟩,
      ihalternate hp.2 hq.2⟩
  | filter expression name ih =>
    rw [all, Bool.and_eq_true] at hp hq ⊢
    exact ⟨hpqr _ hp.1 hq.1, ih hp.2 hq.2⟩
  | concat parts ih =>
    rw [all, allParts_eq_all, Bool.and_eq_true, List.all_eq_true] at hp hq ⊢
    exact ⟨hpqr _ hp.1 hq.1, fun part hpart => ih part hpart (hp.2 part hpart) (hq.2 part hpart)⟩

theorem all_mono {p q : Expr → Bool} (hpq : ∀ e, p e = true → q e = true) {e : Expr}
    (h : e.all p = true) : e.all q = true :=
  all_mono₂ (fun e he _ => hpq e he) h h

/-- The names and the number of a node are ones that a text can give it. -/
def isWellNamed : Expr → Bool
  | .literal (.number value) => value.isUnsigned
  | .scope name => Token.isLookup name
  | .member _ property => Token.isName property.toList
  | _ => true

/-- What is joined with the parts so that a text stands first. -/
def seed : List Expr → List Expr
  | [] => [.literal (.string "")]
  | first :: _ => if first.isString then [] else [.literal (.string "")]

theorem forall_mem_seed {P : Expr → Prop} (h : P (.literal (.string ""))) (parts : List Expr) :
    ∀ part ∈ seed parts, P part := by
  cases parts with
  | nil => simpa [seed] using h
  | cons first parts =>
    rw [seed]
    split
    · simp
    · simpa using h

theorem exists_seed_append (parts : List Expr) :
    ∃ first rest, seed parts ++ parts = first :: rest := by
  cases parts with
  | nil => exact ⟨_, _, rfl⟩
  | cons first parts =>
    simp only [seed]
    split
    · exact ⟨_, _, rfl⟩
    · exact ⟨_, _, rfl⟩

theorem partCodes_eq_map (style : CodeStyle) (parts : List Expr) :
    partCodes style parts = parts.map fun part => bracket (part.level < 7) (part.code style) := by
  induction parts with
  | nil => rfl
  | cons part parts ih => rw [partCodes, ih, List.map_cons]

theorem code_concat (style : CodeStyle) (parts : List Expr) :
    (concat parts).code style = " + ".intercalate
      ((seed parts ++ parts).map fun part => bracket (part.level < 7) (part.code style)) := by
  have hseed : concatSeed parts
      = (seed parts).map fun part => bracket (part.level < 7) (part.code style) := by
    cases parts with
    | nil => rfl
    | cons first parts => simp only [concatSeed, seed]; split <;> rfl
  rw [code, hseed, partCodes_eq_map, List.map_append]

theorem level_le (e : Expr) : e.level ≤ 9 := by
  cases e with
  | binary op left right => exact Nat.le_trans op.level_bounds.2 (by decide)
  | _ => simp [Expr.level]

theorem isSigned_of_level {e : Expr} (h : 9 ≤ e.level) : e.isSigned = false := by
  cases e with
  | unary op operand => exact absurd h (by simp [Expr.level])
  | _ => rfl

end Expr

/-- The characters that follow the code of an operand. A dot follows only where it cannot be taken
for a decimal point. -/
def mayFollow (dotted : Bool) (c : Char) : Bool :=
  c == ' ' || c == ')' || c == ']' || c == '[' || dotted && c == '.'

theorem mayFollow_relax {dotted dotted' : Bool} {c : Char} (hdot : dotted' = true → dotted = true)
    (h : mayFollow dotted' c = true) : mayFollow dotted c = true := by
  simp only [mayFollow, Bool.or_eq_true, Bool.and_eq_true] at h ⊢
  tauto

theorem mayFollow_cases {dotted : Bool} {c : Char} (h : mayFollow dotted c = true) :
    c ∈ [' ', ')', ']', '['] ∨ dotted = true ∧ c = '.' := by
  simpa [mayFollow, or_assoc] using h

theorem mem_of_mayFollow {dotted : Bool} {c : Char} (h : mayFollow dotted c = true) :
    c ∈ [' ', ')', ']', '[', '.'] := by
  rcases mayFollow_cases h with h | ⟨-, rfl⟩
  · exact List.mem_append_left ['.'] h
  · decide

theorem intercalate_cons_eq (sep first : List Char) (rest : List (List Char)) :
    sep.intercalate (first :: rest) = first ++ rest.flatMap (sep ++ ·) := by
  induction rest generalizing first with
  | nil => simp
  | cons second rest ih => simp [List.intercalate_cons_cons, ih]

theorem toList_intercalate_cons (sep first : String) (rest : List String) :
    (sep.intercalate (first :: rest)).toList
      = first.toList ++ rest.flatMap fun s => sep.toList ++ s.toList := by
  rw [String.toList_intercalate, List.map_cons, intercalate_cons_eq, List.flatMap_map]

end Stencil
