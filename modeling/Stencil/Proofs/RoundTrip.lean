import Stencil.Expr.Reader
import Stencil.Proofs.Derivation
import Stencil.Proofs.Lexing

/-!
# The code of a tree reads as the tree

The code of a tree is itself an expression. `Codes level dotted signed cs e ts` collects what the
code `cs` of a part must satisfy for the parts around it: it is the tokens `ts`, these stand for `e`
where `level` is due, and neither end of it can run into its neighbours. Each construct of the
language keeps this, so that one induction gives the law for all trees.
-/

namespace Stencil

open Token (Spells Written)

/-- The characters are the tokens, also when something follows that may follow an operand. -/
structure Prints (dotted : Bool) (cs : List Char) (ts : List Token) : Prop where
  trimmed : Text.Trimmed cs
  inRange : ∀ t ∈ ts, Expr.overflow? t = none
  written : ∀ {rest us}, Written rest us → (∀ c ∈ rest.head?, mayFollow dotted c = true) →
    Written (cs ++ rest) (ts ++ us)

namespace Prints

variable {dotted dotted' : Bool} {cs ds s : List Char} {t : Token} {ts us : List Token}

theorem relax (h : Prints dotted cs ts) (hdot : dotted' = true → dotted = true) :
    Prints dotted' cs ts := by
  refine ⟨h.trimmed, h.inRange, fun hrest hhead => h.written hrest fun c hc => ?_⟩
  exact mayFollow_relax hdot (hhead c hc)

theorem whole (h : Prints dotted cs ts) : Written cs ts := by
  simpa using h.written .nil (by simp)

theorem token (hs : Spells t s) (htrim : Text.Trimmed s) (hrange : Expr.overflow? t = none)
    (hstop : ∀ c, mayFollow dotted c = true → t.isExtendedBy c = false) : Prints dotted s [t] := by
  refine ⟨htrim, by simpa using hrange, fun hrest hhead => ?_⟩
  exact .token hs (fun c hc => hstop c (hhead c hc)) hrest

theorem append (hcs : Prints dotted cs ts) (hds : Prints dotted' ds us)
    (hhead : ∀ c ∈ ds.head?, mayFollow dotted c = true) :
    Prints dotted' (cs ++ ds) (ts ++ us) := by
  refine ⟨by simpa using hcs.trimmed.append [] hds.trimmed, ?_, ?_⟩
  · exact List.forall_mem_append.2 ⟨hcs.inRange, hds.inRange⟩
  · intro rest vs hrest hstop
    rw [List.append_assoc, List.append_assoc]
    refine hcs.written (hds.written hrest hstop) fun c hc => hhead c ?_
    rwa [List.head?_append_of_ne_nil _ hds.trimmed.ne_nil] at hc

theorem spaced (hcs : Prints dotted cs ts) (hds : Prints dotted' ds us) :
    Prints dotted' (cs ++ ' ' :: ds) (ts ++ us) := by
  refine ⟨by simpa using hcs.trimmed.append [' '] hds.trimmed, ?_, ?_⟩
  · exact List.forall_mem_append.2 ⟨hcs.inRange, hds.inRange⟩
  · intro rest vs hrest hstop
    rw [List.append_assoc, List.append_assoc]
    refine hcs.written (.blank rfl (hds.written hrest hstop)) ?_
    rintro c ⟨⟩
    rfl

/-- A token may stand right before what does not extend it. -/
theorem cons (hs : Spells t s) (htrim : Text.Trimmed s) (hrange : Expr.overflow? t = none)
    (hstop : ∀ c ∈ ds.head?, t.isExtendedBy c = false) (hds : Prints dotted ds us) :
    Prints dotted (s ++ ds) (t :: us) := by
  refine ⟨by simpa using htrim.append [] hds.trimmed, ?_, ?_⟩
  · exact List.forall_mem_cons.2 ⟨hrange, hds.inRange⟩
  · intro rest vs hrest hnext
    rw [List.append_assoc]
    refine .token hs (fun c hc => hstop c ?_) (hds.written hrest hnext)
    rwa [List.head?_append_of_ne_nil _ hds.trimmed.ne_nil] at hc

end Prints

namespace Token

theorem isExtendedBy_fixed {t : Token} {s : String} (ht : t.fixed? = some s) {c : Char}
    (hc : c ∈ [' ', ')', ']', '[', '.']) : t.isExtendedBy c = false := by
  have hall : [' ', ')', ']', '[', '.'].all fun d => t.isExtendedBy d = false := by
    cases t with
    | op operator => cases operator <;> decide
    | word | number | string => cases ht
    | _ => decide
  exact List.all_iff_forall_prop.1 hall c hc

theorem trimmed_fixed {t : Token} {s : String} (ht : t.fixed? = some s) :
    Text.Trimmed s.toList := by
  cases t with
  | op operator =>
    cases ht
    cases operator <;> exact .of_forall (by decide) (List.all_iff_forall_prop.1 (by decide))
  | word | number | string => cases ht
  | _ => cases ht; exact .of_forall (by decide) (List.all_iff_forall_prop.1 (by decide))

theorem overflow?_fixed {t : Token} {s : String} (ht : t.fixed? = some s) :
    Expr.overflow? t = none := by
  cases t with
  | number => cases ht
  | _ => rfl

theorem trimmed_of_isName {cs : List Char} (h : isName cs = true) : Text.Trimmed cs := by
  obtain ⟨c, tail, rfl, -, hall⟩ := exists_cons_of_isName h
  exact .of_forall (by simp) fun d hd => isWhite_of_isNameChar (hall d hd)

end Token

namespace Prints

variable {dotted dotted' dotted'' : Bool} {cs ds es : List Char} {t : Token}
  {ts us vs : List Token} {s : String}

theorem fixed (ht : t.fixed? = some s) : Prints dotted s.toList [t] :=
  token (.fixed ht) (Token.trimmed_fixed ht) (Token.overflow?_fixed ht) fun _ hc =>
    Token.isExtendedBy_fixed ht (mem_of_mayFollow hc)

theorem fixed_cons (ht : t.fixed? = some s) (hstop : ∀ c ∈ ds.head?, t.isExtendedBy c = false)
    (hds : Prints dotted ds us) : Prints dotted (s.toList ++ ds) (t :: us) :=
  cons (.fixed ht) (Token.trimmed_fixed ht) (Token.overflow?_fixed ht) hstop hds

theorem word (hs : Token.isName s.toList = true) : Prints dotted s.toList [.word s] := by
  refine token (.word hs) (Token.trimmed_of_isName hs) rfl fun c hc => ?_
  have hstop : ∀ d ∈ [' ', ')', ']', '[', '.'], Token.isNameChar d = false :=
    List.all_iff_forall_prop.1 (by decide)
  exact hstop c (mem_of_mayFollow hc)

theorem access {property : String} (hname : Token.isName property.toList = true) :
    Prints true ('.' :: property.toList) [.dot, .word property] :=
  Prints.fixed_cons (s := ".") rfl (Token.isDigit_of_isName hname) (Prints.word hname)

theorem indexed (hds : Prints dotted ds us) :
    Prints true ('[' :: (ds ++ [']'])) (.leftBracket :: (us ++ [.rightBracket])) := by
  have hclose : Prints true (ds ++ [']']) (us ++ [.rightBracket]) :=
    hds.append (Prints.fixed (s := "]") rfl) (by simp [mayFollow])
  exact Prints.fixed_cons (s := "[") rfl (fun _ _ => rfl) hclose

theorem joined (op : BinaryOp) (hcs : Prints dotted cs ts) (hds : Prints dotted' ds us) :
    Prints dotted' (cs ++ ' ' :: (op.symbol.toList ++ ' ' :: ds)) (ts ++ .op op :: us) := by
  have hop : Prints false op.symbol.toList [.op op] := Prints.fixed rfl
  exact hcs.spaced (hop.spaced hds)

theorem chosen (hcs : Prints dotted cs ts) (hds : Prints dotted' ds us)
    (hes : Prints dotted'' es vs) :
    Prints dotted'' (cs ++ ' ' :: '?' :: ' ' :: (ds ++ ' ' :: ':' :: ' ' :: es))
      (ts ++ .question :: (us ++ .colon :: vs)) := by
  have hquestion : Prints false "?".toList [.question] := Prints.fixed rfl
  have hcolon : Prints false ":".toList [.colon] := Prints.fixed rfl
  exact hcs.spaced (hquestion.spaced (hds.spaced (hcolon.spaced hes)))

end Prints

/-- The code `cs` of a part: it is the tokens `ts`, which stand for `e` where `level` is due, and it
starts with a sign only if it is `signed`. -/
structure Codes (level : Nat) (dotted signed : Bool) (cs : List Char) (e : Expr)
    (ts : List Token) : Prop where
  prints : Prints dotted cs ts
  stands : Parser.Stands level ts e
  head : ∀ c ∈ cs.head?, c ≠ '=' ∧ (signed = false → c ≠ '+' ∧ c ≠ '-')

namespace Codes

variable {level level' : Nat} {dotted dotted' signed signed' : Bool} {cs ds : List Char}
  {e e' : Expr} {ts us vs : List Token}

theorem relax (h : Codes level dotted signed cs e ts) (hlevel : level' ≤ level)
    (hdot : dotted' = true → dotted = true) (hsign : signed' = false → signed = false) :
    Codes level' dotted' signed' cs e ts :=
  ⟨h.prints.relax hdot, h.stands.mono hlevel,
    fun c hc => ⟨(h.head c hc).1, fun hs => (h.head c hc).2 (hsign hs)⟩⟩

theorem paren (h : Codes level dotted signed cs e ts) :
    Codes 9 true false ('(' :: (cs ++ [')'])) e (.leftParen :: (ts ++ [.rightParen])) := by
  have hclose : Prints true (cs ++ [')']) (ts ++ [.rightParen]) :=
    h.prints.append (Prints.fixed (s := ")") rfl) (by simp [mayFollow])
  refine ⟨?_, h.stands.paren, by simp⟩
  exact Prints.fixed_cons (s := "(") rfl (fun _ _ => rfl) hclose

/-- Brackets let a part stand anywhere; without them it must fit its place by itself. -/
theorem bracket {needed : Bool} {code : String} (h : Codes level dotted signed code.toList e ts)
    (hmax : level' ≤ 9) (hlevel : needed = false → level' ≤ level)
    (hdot : needed = false → dotted' = true → dotted = true)
    (hsign : needed = false → signed' = false → signed = false) :
    ∃ us, Codes level' dotted' signed' (Expr.bracket needed code).toList e us := by
  cases needed with
  | true =>
    have hparen : Codes level' dotted' signed' _ e _ :=
      h.paren.relax hmax (fun _ => rfl) (fun _ => rfl)
    exact ⟨_, by simpa [Expr.bracket] using hparen⟩
  | false => exact ⟨ts, h.relax (hlevel rfl) (hdot rfl) (hsign rfl)⟩

theorem word (name : String) (h : Token.isName name.toList = true) :
    Codes 9 true false name.toList (.ofWord name) [.word name] := by
  refine ⟨Prints.word h, .atom rfl rfl, ?_⟩
  obtain ⟨c, tail, hc, hstart, -⟩ := Token.exists_cons_of_isName h
  rw [hc]
  rintro d ⟨⟩
  refine ⟨?_, fun _ => ⟨?_, ?_⟩⟩ <;> rintro rfl <;> revert hstart <;> decide

theorem member {property : String} (h : Codes 9 true false cs e ts)
    (hname : Token.isName property.toList = true) :
    Codes 9 true false (cs ++ '.' :: property.toList) (.member e property)
      (ts ++ [.dot, .word property]) := by
  refine ⟨h.prints.append (.access hname) (by simp [mayFollow]), h.stands.member property, ?_⟩
  rw [List.head?_append_of_ne_nil _ h.prints.trimmed.ne_nil]
  exact h.head

theorem index {key : Expr} (h : Codes 9 dotted false cs e ts)
    (hkey : Codes level dotted' signed ds key us) :
    Codes 9 true false (cs ++ '[' :: (ds ++ [']'])) (.index e key)
      (ts ++ .leftBracket :: (us ++ [.rightBracket])) := by
  refine ⟨h.prints.append hkey.prints.indexed (by simp [mayFollow]), h.stands.index hkey.stands, ?_⟩
  rw [List.head?_append_of_ne_nil _ h.prints.trimmed.ne_nil]
  exact h.head

theorem binary (op : BinaryOp) {left right : Expr}
    (hleft : Codes op.level dotted signed cs left ts)
    (hright : Codes (op.level + 1) dotted' signed' ds right us) :
    Codes op.level dotted' true (cs ++ ' ' :: (op.symbol.toList ++ ' ' :: ds))
      (.binary op left right) (ts ++ .op op :: us) := by
  refine ⟨hleft.prints.joined op hright.prints, hleft.stands.binary hright.stands, ?_⟩
  rw [List.head?_append_of_ne_nil _ hleft.prints.trimmed.ne_nil]
  exact fun c hc => ⟨(hleft.head c hc).1, by simp⟩

theorem unary (op : UnaryOp) (h : Codes 8 dotted false cs e ts) :
    ∃ t, Parser.sign? t = some op ∧
      Codes 8 dotted (op != .not) (op.symbol.toList ++ cs) (.unary op e) (t :: ts) := by
  cases op with
  | not =>
    refine ⟨.bang, rfl, Prints.fixed_cons (t := .bang) rfl ?_ h.prints, h.stands.unary rfl, ?_⟩
    · intro c hc
      simpa [Token.isExtendedBy] using (h.head c hc).1
    · simp [UnaryOp.symbol]
  | neg =>
    refine ⟨.op .sub, rfl, Prints.fixed_cons (t := .op .sub) rfl ?_ h.prints, h.stands.unary rfl,
      ?_⟩
    · intro c hc
      simpa [Token.isExtendedBy] using ((h.head c hc).2 rfl).2
    · simp [UnaryOp.symbol]
  | plus =>
    refine ⟨.op .add, rfl, Prints.fixed_cons (t := .op .add) rfl ?_ h.prints, h.stands.unary rfl,
      ?_⟩
    · intro c hc
      simpa [Token.isExtendedBy] using ((h.head c hc).2 rfl).1
    · simp [UnaryOp.symbol]

theorem conditional {test consequent alternate : Expr} {dotted₁ dotted₂ dotted₃ : Bool}
    {signed₁ signed₂ signed₃ : Bool} {cs₁ cs₂ cs₃ : List Char}
    (htest : Codes 2 dotted₁ signed₁ cs₁ test ts)
    (hconsequent : Codes 1 dotted₂ signed₂ cs₂ consequent us)
    (halternate : Codes 1 dotted₃ signed₃ cs₃ alternate vs) :
    Codes 1 dotted₃ true (cs₁ ++ ' ' :: '?' :: ' ' :: (cs₂ ++ ' ' :: ':' :: ' ' :: cs₃))
      (.conditional test consequent alternate) (ts ++ .question :: (us ++ .colon :: vs)) := by
  refine ⟨htest.prints.chosen hconsequent.prints halternate.prints,
    htest.stands.conditional hconsequent.stands halternate.stands, ?_⟩
  rw [List.head?_append_of_ne_nil _ htest.prints.trimmed.ne_nil]
  exact fun c hc => ⟨(htest.head c hc).1, by simp⟩

theorem number (m : Fin Binary64.finiteCount) :
    ∃ ts, Codes 9 false false (Literal.number (.finite false m)).code.toList
      (.literal (.number (.finite false m))) ts := by
  obtain ⟨n, hwf, hwhole, hexponent, htext, hvalue⟩ := Binary64.exists_numeral m
  obtain ⟨d, ds, hd⟩ := List.exists_cons_of_ne_nil hwhole
  have hmem := hwf.mem_chars hexponent
  have hcons : ∃ tail, n.chars = d :: tail := by
    rw [Numeral.chars_eq, hd]
    exact ⟨_, rfl⟩
  obtain ⟨tail, htail⟩ := hcons
  have htrim : Text.Trimmed n.chars := by
    refine .of_forall (by simp [htail]) fun c hc => ?_
    rcases hmem c hc with hdigit | rfl
    · exact Text.isWhite_of_isAlphanum (by simp [Char.isAlphanum, hdigit])
    · decide
  have hstop : ∀ c, mayFollow false c = true → Token.isExtendedBy (.number n) c = false := by
    intro c hc
    have hends : ∀ d ∈ [' ', ')', ']', '['], Numeral.isContinuation d = false :=
      List.all_iff_forall_prop.1 (by decide)
    rcases mayFollow_cases hc with hc | ⟨⟨⟩, -⟩
    exact hends c hc
  have hrange : Expr.overflow? (.number n) = none := by
    rw [Expr.overflow?, hvalue]
    rfl
  have hatom : Parser.atom? (.number n) = some (.literal (.number (.finite false m))) := by
    rw [Parser.atom?, hvalue]
  have hcode : (Literal.number (.finite false m)).code.toList = n.chars := by
    rw [Literal.code, htext]
  rw [hcode]
  refine ⟨[.number n], Prints.token (.number hwf) htrim hrange hstop, .atom rfl hatom, ?_⟩
  have hdigit : d.isDigit = true := hwf.whole d (by simp [hd])
  rw [htail]
  rintro c ⟨⟩
  refine ⟨?_, fun _ => ⟨?_, ?_⟩⟩ <;> rintro rfl <;> revert hdigit <;> decide

/-- A text between quotes of either kind that is read up to the closing one. -/
theorem quotation {quote : Char} {body text : List Char} (hquote : quote = '"' ∨ quote = '\'')
    (hbody : Text.Quoted.readBody quote (body ++ [quote]) = some (text, [])) :
    Codes 9 true false (quote :: (body ++ [quote])) (.literal (.string (String.ofList text)))
      [.string (String.ofList text)] := by
  have hedge : Text.Trimmed [quote] := .singleton (by rcases hquote with rfl | rfl <;> decide)
  have hprints : Prints true (quote :: (body ++ [quote])) [.string (String.ofList text)] :=
    Prints.token (.string hquote hbody) (hedge.append _ hedge) rfl fun _ _ => rfl
  refine ⟨hprints, .atom rfl rfl, ?_⟩
  rintro c ⟨⟩
  rcases hquote with rfl | rfl <;> decide

theorem string {value : String}
    (h : value.toList.all (fun c => !Text.Quoted.isHexEscaped c) = true) :
    Codes 9 true false (Literal.string value).code.toList (.literal (.string value))
      [.string value] := by
  have hbody := Text.Quoted.readBody_encode value.toList []
  rw [Text.Quoted.flatMap_readBack h] at hbody
  have hcode : (Literal.string value).code.toList
      = '"' :: (value.toList.flatMap Text.Quoted.escape ++ ['"']) := by
    rw [Literal.code, Text.Quoted.encode, String.toList_ofList]
  have hcodes := quotation (.inl rfl) hbody
  rw [String.ofList_toList] at hcodes
  rwa [hcode]

/-- The parts of a sum after the first one are joined from the left. -/
theorem sum {parts : List (String × Expr)}
    (hparts : ∀ p ∈ parts, ∃ us, Codes 7 false true p.1.toList p.2 us)
    (h : Codes 6 false true cs e ts) :
    ∃ us, Codes 6 false true (cs ++ parts.flatMap fun p => ' ' :: '+' :: ' ' :: p.1.toList)
      (parts.foldl (fun acc p => .binary .add acc p.2) e) us := by
  induction parts generalizing cs e ts with
  | nil => exact ⟨ts, by simpa using h⟩
  | cons p parts ih =>
    obtain ⟨us, hp⟩ := hparts p (by simp)
    have hstep : Codes 6 false true _ (.binary .add e p.2) _ := Codes.binary .add h hp
    simpa [BinaryOp.symbol] using ih (fun q hq => hparts q (by simp [hq])) hstep

end Codes

namespace Expr

/-- A sum that groups from the left. -/
def sum : List Expr → Expr
  | [] => .literal (.string "")
  | first :: rest => rest.foldl (.binary .add) first

mutual

/-- The tree as its code has it: names are looked up in the scope object, and texts are joined by
adding them up. -/
def rooted (scope : String) : Expr → Expr
  | .literal value => .literal value
  | .scope name => .member (.scope scope) name
  | .member object property => .member (rooted scope object) property
  | .index object key => .index (rooted scope object) (rooted scope key)
  | .unary op operand => .unary op (rooted scope operand)
  | .binary op left right => .binary op (rooted scope left) (rooted scope right)
  | .conditional test consequent alternate =>
    .conditional (rooted scope test) (rooted scope consequent) (rooted scope alternate)
  | .filter expression name => .filter (rooted scope expression) name
  | .concat parts => sum (seed parts ++ rootedParts scope parts)

def rootedParts (scope : String) : List Expr → List Expr
  | [] => []
  | part :: parts => rooted scope part :: rootedParts scope parts

end

/-- A node without a filter whose names, number or text can be read back from its code. -/
def isReadable : Expr → Bool
  | .literal (.string value) => value.toList.all fun c => !Text.Quoted.isHexEscaped c
  | .filter .. => false
  | e => e.isWellNamed

variable {style : CodeStyle} {e : Expr}

theorem rootedParts_eq_map (scope : String) (parts : List Expr) :
    rootedParts scope parts = parts.map (rooted scope) := by
  induction parts with
  | nil => rfl
  | cons part parts ih => rw [rootedParts, ih, List.map_cons]

theorem rooted_concat (scope : String) (parts : List Expr) :
    (concat parts).rooted scope = sum ((seed parts ++ parts).map (rooted scope)) := by
  have hseed : (seed parts).map (rooted scope) = seed parts := by
    cases parts with
    | nil => rfl
    | cons first parts => simp only [seed]; split <;> rfl
  rw [rooted, rootedParts_eq_map, List.map_append, hseed]

theorem ofWord_eq_scope {name : String} (h : Token.isLookup name = true) :
    ofWord name = .scope name := by
  simp only [Token.isLookup, Token.literalWords, Bool.and_eq_true, Bool.not_eq_true'] at h
  simp_all [ofWord]

/-- The code of the tree can be a part of any larger code, and is read as the rooted tree. -/
def Faithful (style : CodeStyle) (e : Expr) : Prop :=
  ∃ ts, Codes e.level (e.level == 9 && !e.isNumber) (e.level < 8 || e.isSigned)
    (e.code style).toList (e.rooted style.scope) ts

theorem faithful_of_codes {level : Nat} {dotted signed : Bool} {cs : List Char} {ts : List Token}
    (h : Codes level dotted signed cs (e.rooted style.scope) ts)
    (hcode : (e.code style).toList = cs) (hlevel : e.level = level)
    (hdot : (e.level == 9 && !e.isNumber) = dotted)
    (hsign : (decide (e.level < 8) || e.isSigned) = signed) : Faithful style e := by
  subst hlevel hdot hsign hcode
  exact ⟨ts, h⟩

theorem Faithful.slot (h : Faithful style e) (level : Nat) (hlevel : level ≤ 9) :
    ∃ ts, Codes level false true (bracket (e.level < level) (e.code style)).toList
      (e.rooted style.scope) ts := by
  obtain ⟨ts, h⟩ := h
  exact h.bracket hlevel (by simp) (by simp) (by simp)

theorem faithful_literal {value : Literal} (h : (literal value).isReadable = true) :
    Faithful style (.literal value) := by
  cases value with
  | number value =>
    cases value with
    | finite negative m =>
      cases negative with
      | false => exact Codes.number m
      | true => cases h
    | nan | infinite => cases h
  | string value => exact ⟨_, Codes.string h⟩
  | bool value =>
    cases value with
    | false => exact ⟨_, Codes.word "false" (by decide)⟩
    | true => exact ⟨_, Codes.word "true" (by decide)⟩
  | null => exact ⟨_, Codes.word "null" (by decide)⟩
  | undefined => exact ⟨_, Codes.word "undefined" (by decide)⟩

theorem faithful_scope {name : String} (hscope : Token.isLookup style.scope = true)
    (hname : Token.isLookup name = true) : Faithful style (.scope name) := by
  have hobject := Codes.word style.scope (Bool.and_eq_true_iff.1 hscope).1
  have hmember := hobject.member (Bool.and_eq_true_iff.1 hname).1
  rw [ofWord_eq_scope hscope] at hmember
  exact faithful_of_codes hmember (by simp [code]) rfl rfl rfl

theorem faithful_member {object : Expr} {property : String} (h : Faithful style object)
    (hname : Token.isName property.toList = true) : Faithful style (.member object property) := by
  obtain ⟨ts, h⟩ := h
  have hslot : ∃ us, Codes 9 true false
      (bracket (object.isNumber || object.level < 9) (object.code style)).toList
      (object.rooted style.scope) us := by
    have hfits (hneeded : (object.isNumber || decide (object.level < 9)) = false) :
        object.isNumber = false ∧ object.level = 9 := by
      simp only [Bool.or_eq_false_iff, decide_eq_false_iff_not] at hneeded
      exact ⟨hneeded.1, Nat.le_antisymm object.level_le (Nat.not_lt.1 hneeded.2)⟩
    refine h.bracket (Nat.le_refl 9) (fun hn => ?_) (fun hn _ => ?_) (fun hn _ => ?_)
    · rw [(hfits hn).2]
    · simp [hfits hn]
    · simp [hfits hn, isSigned_of_level]
  obtain ⟨us, hslot⟩ := hslot
  exact faithful_of_codes (hslot.member hname) (by simp [code]) rfl rfl rfl

theorem faithful_index {object key : Expr} (h : Faithful style object)
    (hkey : Faithful style key) : Faithful style (.index object key) := by
  obtain ⟨ts, h⟩ := h
  obtain ⟨us, hkey⟩ := hkey
  have hslot : ∃ us, Codes 9 false false
      (bracket (object.level < 9) (object.code style)).toList (object.rooted style.scope) us := by
    refine h.bracket (Nat.le_refl 9) (fun hn => ?_) (by simp) (fun hn _ => ?_)
    · simpa using hn
    · have hlevel : 9 ≤ object.level := by simpa using hn
      simp only [isSigned_of_level hlevel, Bool.or_false, decide_eq_false_iff_not]
      omega
  obtain ⟨vs, hslot⟩ := hslot
  exact faithful_of_codes (hslot.index hkey) (by simp [code]) rfl rfl rfl

/-- An operand of a unary operator fits, in brackets or without. -/
theorem Faithful.signless (h : Faithful style e) :
    ∃ ts, Codes 8 false false (bracket (e.isSigned || e.level < 8) (e.code style)).toList
      (e.rooted style.scope) ts := by
  obtain ⟨ts, h⟩ := h
  refine h.bracket (by decide) (fun hn => ?_) (by simp) (fun hn _ => ?_)
  · simp at hn
    exact hn.2
  · rwa [Bool.or_comm]

theorem faithful_unary {operand : Expr} (op : UnaryOp) (h : Faithful style operand) :
    Faithful style (.unary op operand) := by
  obtain ⟨us, hslot⟩ := h.signless
  obtain ⟨t, -, hunary⟩ := hslot.unary op
  exact faithful_of_codes hunary (by simp [code]) rfl rfl (by cases op <;> rfl)

theorem faithful_binary {left right : Expr} (op : BinaryOp) (hleft : Faithful style left)
    (hright : Faithful style right) : Faithful style (.binary op left right) := by
  have hbounds := op.level_bounds
  obtain ⟨ts, hleft⟩ := hleft.slot op.level (by omega)
  obtain ⟨us, hright⟩ := hright.slot (op.level + 1) (by omega)
  refine faithful_of_codes (Codes.binary op hleft hright) (by simp [code]) rfl ?_ ?_
  · cases op <;> rfl
  · cases op <;> rfl

theorem faithful_conditional {test consequent alternate : Expr} (htest : Faithful style test)
    (hconsequent : Faithful style consequent) (halternate : Faithful style alternate) :
    Faithful style (.conditional test consequent alternate) := by
  obtain ⟨ts, htest⟩ := htest.slot 2 (by decide)
  obtain ⟨us, hconsequent⟩ := hconsequent.slot 1 (by decide)
  obtain ⟨vs, halternate⟩ := halternate.slot 1 (by decide)
  exact faithful_of_codes (htest.conditional hconsequent halternate) (by simp [code]) rfl rfl rfl

theorem faithful_concat {parts : List Expr} (h : ∀ part ∈ parts, Faithful style part) :
    Faithful style (.concat parts) := by
  have hall : ∀ part ∈ seed parts ++ parts, Faithful style part :=
    List.forall_mem_append.2 ⟨forall_mem_seed (faithful_literal rfl) parts, h⟩
  obtain ⟨first, rest, hparts⟩ := exists_seed_append parts
  rw [hparts, List.forall_mem_cons] at hall
  obtain ⟨ts, hfirst⟩ := hall.1.slot 7 (by decide)
  have hrest : ∀ p ∈ rest.map fun part =>
      (bracket (part.level < 7) (part.code style), part.rooted style.scope),
      ∃ us, Codes 7 false true p.1.toList p.2 us := by
    rw [List.forall_mem_map]
    exact fun part hpart => (hall.2 part hpart).slot 7 (by decide)
  obtain ⟨us, hsum⟩ := Codes.sum hrest (hfirst.relax (by decide) id id)
  have htree : sum ((first :: rest).map (rooted style.scope)) = (rest.map fun part =>
      (bracket (part.level < 7) (part.code style), part.rooted style.scope)).foldl
        (fun acc p => .binary .add acc p.2) (first.rooted style.scope) := by
    rw [List.map_cons, sum, List.foldl_map, List.foldl_map]
  rw [← htree, ← hparts, ← rooted_concat] at hsum
  refine faithful_of_codes hsum ?_ rfl rfl rfl
  rw [code_concat, hparts, List.map_cons, toList_intercalate_cons, List.flatMap_map,
    List.flatMap_map]
  rfl

theorem faithful (hscope : Token.isLookup style.scope = true)
    (he : e.all isReadable = true) : Faithful style e := by
  induction e with
  | literal value => exact faithful_literal he
  | scope name => exact faithful_scope hscope he
  | member object property ih =>
    rw [all, Bool.and_eq_true] at he
    exact faithful_member (ih he.2) he.1
  | index object key ihobject ihkey =>
    simp only [all, Bool.and_eq_true] at he
    exact faithful_index (ihobject he.1.2) (ihkey he.2)
  | unary op operand ih =>
    rw [all, Bool.and_eq_true] at he
    exact faithful_unary op (ih he.2)
  | binary op left right ihleft ihright =>
    simp only [all, Bool.and_eq_true] at he
    exact faithful_binary op (ihleft he.1.2) (ihright he.2)
  | conditional test consequent alternate ihtest ihconsequent ihalternate =>
    simp only [all, Bool.and_eq_true] at he
    exact faithful_conditional (ihtest he.1.1.2) (ihconsequent he.1.2) (ihalternate he.2)
  | filter expression name ih =>
    rw [all, Bool.and_eq_true] at he
    cases he.1
  | concat parts ih =>
    rw [all, allParts_eq_all, Bool.and_eq_true, List.all_eq_true] at he
    exact faithful_concat fun part hpart => ih part hpart (he.2 part hpart)

/-- The code of a tree without filters is an expression again, and it reads as the same tree with
its names looked up in the scope object and its joined texts added up. -/
theorem read_code (style : CodeStyle) (e : Expr) (hscope : Token.isLookup style.scope = true)
    (he : e.all isReadable = true) : read (e.code style) = .ok (e.rooted style.scope) := by
  obtain ⟨ts, h⟩ := faithful hscope he
  have hwritten : Written (e.code style).toList ts := by
    simpa using h.prints.written .nil (by simp)
  have hoverflow : ts.findSome? overflow? = none := List.findSome?_eq_none_iff.2 h.prints.inRange
  rw [read, h.prints.trimmed.trimChars_eq, readChars,
    if_neg (by simpa using h.prints.trimmed.ne_nil), ForbiddenOp.find?_of_written hwritten,
    Token.lex_of_written hwritten]
  simp only [h.stands.isExpr.parse_eq, hoverflow]

theorem read_code_concat :
    (concat [.unary .neg (.unary .neg (.scope "a")),
      .conditional (.scope "b") (.literal (.string "\"x\"")) (.literal .null)]).all isReadable =
        true ∧
    read "\"\" + -(-_scope.a) + (_scope.b ? \"\\\"x\\\"\" : null)" = .ok
      (.binary .add
        (.binary .add (.literal (.string ""))
          (.unary .neg (.unary .neg (.member (.scope "_scope") "a"))))
        (.conditional (.member (.scope "_scope") "b") (.literal (.string "\"x\""))
          (.literal .null))) :=
  ⟨by decide, read_code ⟨"_scope", "_filter"⟩
    (.concat [.unary .neg (.unary .neg (.scope "a")),
      .conditional (.scope "b") (.literal (.string "\"x\"")) (.literal .null)])
    (by decide) (by decide)⟩

end Expr

end Stencil
