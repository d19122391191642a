import Mathlib.Data.Set.Operations
import Mathlib.Logic.Function.Basic
import Stencil.Proofs.Confinement
import Stencil.Proofs.Expressible

/-!
# Different trees have different code

Code with rare control characters in its texts cannot be read back, since reading does not know
their escapes. But code can be changed so that the escapes become part of the texts: every escape is
escaped once more. What results is the code of a tree with the same shape, whose texts tell those of
the first one, and which can be read back. A filter is told from all other code by the call that it
starts with.
-/

namespace Stencil

/-- The characters of names joined by dots. -/
def isPathChar (c : Char) : Bool :=
  Token.isNameChar c || c == '.'

theorem isPathChar_of_isName {cs : List Char} (h : Token.isName cs = true) :
    ∀ c ∈ cs, isPathChar c = true := by
  obtain ⟨-, -, -, -, hall⟩ := Token.exists_cons_of_isName h
  intro c hc
  simp [isPathChar, hall c hc]

theorem isPathChar_of_mem_dotted {cs : List Char} (h : Token.isName cs = true) :
    ∀ c ∈ '.' :: cs, isPathChar c = true :=
  List.forall_mem_cons.2 ⟨rfl, isPathChar_of_isName h⟩

theorem isPathChar_of_isPath {text : String} (h : isPath text = true) :
    ∀ c ∈ text.toList, isPathChar c = true := by
  rw [isPath, List.all_eq_true] at h
  have hjoin : _ = text.toList := List.intercalate_splitOn '.'
  cases hnames : text.toList.splitOn '.' with
  | nil => exact absurd hnames (List.splitOn_ne_nil _ _)
  | cons first rest =>
    rw [hnames, List.forall_mem_cons] at h
    rw [← hjoin, hnames, intercalate_cons_eq, List.forall_mem_append, List.forall_mem_flatMap]
    exact ⟨isPathChar_of_isName h.1, fun name hname => isPathChar_of_mem_dotted (h.2 name hname)⟩

/-- A literal is a text, or it is written with the characters of a path. -/
theorem isPathChar_of_mem_code {value : Literal} (h : (Expr.literal value).Plain) :
    (∃ text, value = .string text) ∨ ∀ c ∈ value.code.toList, isPathChar c = true := by
  cases value with
  | string text => exact .inl ⟨text, rfl⟩
  | number value =>
    right
    cases value with
    | finite negative m =>
      cases negative with
      | false =>
        obtain ⟨n, hwf, -, hexponent, htext, -⟩ := Binary64.exists_numeral m
        intro c hc
        rw [Literal.code, ← htext] at hc
        rcases hwf.mem_chars hexponent c hc with hdigit | rfl
        · simp [isPathChar, Token.isNameChar, Char.isAlphanum, hdigit]
        · rfl
      | true => cases h
    | nan | infinite => cases h
  | bool value => cases value <;> exact .inr (List.all_eq_true.1 (by decide))
  | null | undefined => exact .inr (List.all_eq_true.1 (by decide))

namespace Text.Quoted

/-- The text as it stands between double quotes. -/
def escaped (s : String) : String :=
  String.ofList (s.toList.flatMap escape)

/-- Code in which every escape is escaped once more. -/
def requote : List Char → List Char
  | [] => []
  | '\\' :: c :: rest => escape '\\' ++ escape c ++ requote rest
  | c :: rest => c :: requote rest

theorem toList_encode (s : String) :
    (encode s).toList = '"' :: (s.toList.flatMap escape ++ ['"']) := by
  rw [encode, String.toList_ofList]

/-- Quoted texts end where their closing quote stands. -/
theorem encode_append_inj {s t : String} {rest more : List Char}
    (h : (encode s).toList ++ rest = (encode t).toList ++ more) : s = t ∧ rest = more := by
  simp only [toList_encode, List.cons_append, List.append_assoc, List.nil_append, List.cons.injEq,
    true_and] at h
  have hread := Lexeme.readText_encode s.toList rest
  rw [h, Lexeme.readText_encode, Option.some.injEq, Prod.mk.injEq] at hread
  exact ⟨String.ext hread.1.symm, hread.2.symm⟩

theorem escaped_injective : Function.Injective escaped := by
  intro s t h
  have hflat : s.toList.flatMap escape = t.toList.flatMap escape := by
    simpa [escaped] using congrArg String.toList h
  have hencode : (encode s).toList ++ [] = (encode t).toList ++ [] := by
    rw [toList_encode, toList_encode, hflat]
  exact (encode_append_inj hencode).1

/-- The four digits of an escape need none themselves. -/
theorem of_mem_hexFour {c d : Char} (hc : isHexEscaped c = true) (hd : d ∈ hexFour c.toNat) :
    escape d = [d] ∧ d ≠ '\\' ∧ isHexEscaped d = false := by
  have hall := hexFour_of_isHexEscaped
    (P := fun _ ds => ds.all fun d => escape d = [d] ∧ d ≠ '\\' ∧ isHexEscaped d = false)
    (by decide) (by decide) (by decide) hc
  exact List.all_iff_forall_prop.1 hall d hd

/-- What is written for a character can be read back. -/
theorem isHexEscaped_of_mem_escape {c d : Char} (h : d ∈ escape c) : isHexEscaped d = false := by
  rcases escape_cases c with ⟨hhex, he⟩ | ⟨-, d', hd', he, -⟩ | ⟨hhex, he, -⟩
  · rw [he, List.mem_cons, List.mem_cons] at h
    rcases h with rfl | rfl | h
    · rfl
    · rfl
    · exact (of_mem_hexFour hhex h).2.2
  · have hall : ∀ d ∈ ['\\', '"', 'n', 'r', 't'], isHexEscaped d = false :=
      List.all_iff_forall_prop.1 (by decide)
    rw [he, List.mem_cons, List.mem_singleton] at h
    rcases h with rfl | rfl
    · rfl
    · exact hall d hd'
  · rw [he, List.mem_singleton] at h
    rwa [h]

theorem requote_cons {c : Char} (hc : c ≠ '\\') (rest : List Char) :
    requote (c :: rest) = c :: requote rest := by
  rw [requote]
  exact fun _ _ h _ => hc h

/-- The code `cs` becomes `ds` once its escapes are escaped, whatever follows it. -/
def Requotes (cs ds : List Char) : Prop :=
  ∀ rest, requote (cs ++ rest) = ds ++ requote rest

namespace Requotes

variable {cs ds cs' ds' : List Char}

theorem append (h : Requotes cs ds) (h' : Requotes cs' ds') :
    Requotes (cs ++ cs') (ds ++ ds') := by
  intro rest
  rw [List.append_assoc, h, h', List.append_assoc]

theorem verbatim (h : ∀ c ∈ cs, c ≠ '\\') : Requotes cs cs := by
  intro rest
  induction cs with
  | nil => rfl
  | cons c cs ih =>
    rw [List.forall_mem_cons] at h
    rw [List.cons_append, requote_cons h.1, ih h.2, List.cons_append]

theorem escape (c : Char) : Requotes (escape c) ((escape c).flatMap Quoted.escape) := by
  rcases escape_cases c with ⟨hhex, he⟩ | ⟨-, d, -, he, -⟩ | ⟨-, he, hslash, -⟩
  · have hdigits := fun d hd => of_mem_hexFour (d := d) hhex hd
    have hverbatim : Requotes (hexFour c.toNat) (hexFour c.toNat) :=
      verbatim fun d hd => (hdigits d hd).2.1
    have hflat : (hexFour c.toNat).flatMap Quoted.escape = hexFour c.toNat :=
      (List.flatMap_congr fun d hd => (hdigits d hd).1).trans (List.flatMap_singleton' _)
    intro rest
    rw [he, List.flatMap_cons, List.flatMap_cons, hflat, List.cons_append, List.cons_append,
      requote, hverbatim]
    simp
  · intro rest
    rw [he]
    simp [requote]
  · rw [he, List.flatMap_singleton, he]
    exact verbatim (by simpa using hslash)

theorem flatMap_escape (cs : List Char) :
    Requotes (cs.flatMap Quoted.escape) ((cs.flatMap Quoted.escape).flatMap Quoted.escape) := by
  induction cs with
  | nil => exact fun rest => rfl
  | cons c cs ih =>
    rw [List.flatMap_cons, List.flatMap_append]
    exact (escape c).append ih

theorem encode (s : String) : Requotes (encode s).toList (Quoted.encode (escaped s)).toList := by
  rw [toList_encode, toList_encode, escaped, String.toList_ofList]
  have hquote : Requotes ['"'] ['"'] := verbatim (by simp)
  exact hquote.append ((flatMap_escape s.toList).append hquote)

theorem mark (symbol : String) (h : symbol.toList.all (· != '\\') = true) :
    Requotes symbol.toList symbol.toList := by
  refine verbatim fun c hc => ?_
  simpa using List.all_eq_true.1 h c hc

theorem path (h : ∀ c ∈ cs, isPathChar c = true) : Requotes cs cs := by
  refine verbatim fun c hc => ?_
  rintro rfl
  cases h _ hc

theorem bracket {needed : Bool} {code code' : String} (h : Requotes code.toList code'.toList) :
    Requotes (Expr.bracket needed code).toList (Expr.bracket needed code').toList := by
  cases needed with
  | true =>
    have hopen : Requotes ['('] ['('] := verbatim (by simp)
    have hclose : Requotes [')'] [')'] := verbatim (by simp)
    simpa [Expr.bracket] using hopen.append (h.append hclose)
  | false => exact h

end Requotes

end Text.Quoted

/-- The literal with its text changed, if it is one. -/
def Literal.mapText (f : String → String) : Literal → Literal
  | .string value => .string (f value)
  | value => value

namespace Expr

mutual

/-- The tree with all its texts changed. -/
def mapTexts (f : String → String) : Expr → Expr
  | .literal value => .literal (value.mapText f)
  | .scope name => .scope name
  | .member object property => .member (mapTexts f object) property
  | .index object key => .index (mapTexts f object) (mapTexts f key)
  | .unary op operand => .unary op (mapTexts f operand)
  | .binary op left right => .binary op (mapTexts f left) (mapTexts f right)
  | .conditional test consequent alternate =>
    .conditional (mapTexts f test) (mapTexts f consequent) (mapTexts f alternate)
  | .filter expression name => .filter (mapTexts f expression) name
  | .concat parts => .concat (mapPartTexts f parts)

def mapPartTexts (f : String → String) : List Expr → List Expr
  | [] => []
  | part :: parts => mapTexts f part :: mapPartTexts f parts

end

section Texts

variable {f g : String → String}

theorem mapPartTexts_eq_map (f : String → String) (parts : List Expr) :
    mapPartTexts f parts = parts.map (mapTexts f) := by
  induction parts with
  | nil => rfl
  | cons part parts ih => rw [mapPartTexts, ih, List.map_cons]

theorem mapTexts_leftInverse (h : Function.LeftInverse g f) :
    Function.LeftInverse (mapTexts g) (mapTexts f) := by
  intro e
  induction e with
  | literal value => cases value <;> simp [mapTexts, Literal.mapText, h _]
  | concat parts ih =>
    rw [mapTexts, mapTexts, mapPartTexts_eq_map, mapPartTexts_eq_map, List.map_map]
    exact congrArg concat ((List.map_congr_left ih).trans (List.map_id parts))
  | _ => simp_all [mapTexts]

theorem mapTexts_injective (h : Function.Injective f) : Function.Injective (mapTexts f) := by
  obtain ⟨g, hg⟩ := h.hasLeftInverse
  exact (mapTexts_leftInverse hg).injective

theorem level_mapTexts (f : String → String) (e : Expr) : (e.mapTexts f).level = e.level := by
  cases e <;> rfl

theorem isNumber_mapTexts (f : String → String) (e : Expr) :
    (e.mapTexts f).isNumber = e.isNumber := by
  cases e with
  | literal value => cases value <;> rfl
  | _ => rfl

theorem isSigned_mapTexts (f : String → String) (e : Expr) :
    (e.mapTexts f).isSigned = e.isSigned := by
  cases e with
  | unary op operand => cases op <;> rfl
  | _ => rfl

theorem all_mapTexts (p : Expr → Bool) (e : Expr) :
    (e.mapTexts f).all p = e.all fun e => p (e.mapTexts f) := by
  induction e with
  | concat parts ih =>
    have hparts : (parts.map (mapTexts f)).all (all p) =
        parts.all (all fun e => p (e.mapTexts f)) := by
      rw [Bool.eq_iff_iff, List.all_eq_true, List.all_eq_true, List.forall_mem_map]
      exact forall₂_congr fun part hpart => by rw [ih part hpart]
    rw [mapTexts, all, all, allParts_eq_all, allParts_eq_all, mapPartTexts_eq_map, hparts,
      mapTexts, mapPartTexts_eq_map]
  | _ => simp_all [mapTexts, all]

/-- Texts do not matter for a plain tree. -/
theorem Plain.mapTexts {e : Expr} (h : e.Plain) : (e.mapTexts f).Plain := by
  rw [Plain, all_mapTexts]
  refine all_mono (fun e he => ?_) h
  cases e with
  | literal value => cases value <;> exact he
  | _ => exact he

/-- Escaped texts can be read back. -/
theorem Plain.isReadable_mapTexts {e : Expr} (h : e.Plain) :
    (e.mapTexts Text.Quoted.escaped).all isReadable = true := by
  rw [all_mapTexts]
  refine all_mono (fun e he => ?_) h
  cases e with
  | literal value =>
    cases value with
    | string value =>
      simp only [Expr.mapTexts, Literal.mapText, isReadable, Text.Quoted.escaped,
        String.toList_ofList, List.all_eq_true, Bool.not_eq_true', List.mem_flatMap]
      rintro d ⟨c, -, hd⟩
      exact Text.Quoted.isHexEscaped_of_mem_escape hd
    | _ => exact he
  | filter | concat => cases he
  | _ => exact he

end Texts

section

open Text.Quoted (escaped Requotes requote)

variable {style : CodeStyle} {e e' : Expr}

theorem requotes_literal {value : Literal} (h : (literal value).Plain) :
    Requotes value.code.toList (value.mapText escaped).code.toList := by
  cases value with
  | string text => exact .encode text
  | _ => exact .path ((isPathChar_of_mem_code h).resolve_left (by simp))

/-- Code with its escapes escaped is the code of the tree with escaped texts. -/
theorem requotes_code (hscope : Token.isName style.scope.toList = true) (h : e.Plain) :
    Requotes (e.code style).toList ((e.mapTexts escaped).code style).toList := by
  induction e with
  | literal value => exact requotes_literal h
  | scope name =>
    have hscope := Requotes.path (isPathChar_of_isName hscope)
    have hname := Requotes.path (isPathChar_of_mem_dotted (Bool.and_eq_true_iff.1 h).1)
    simpa [code, mapTexts] using hscope.append hname
  | member object property ih =>
    rw [Plain, all, Bool.and_eq_true] at h
    simp only [code, mapTexts, isNumber_mapTexts, level_mapTexts, String.toList_append]
    exact ((ih h.2).bracket.append (.mark "." rfl)).append (.path (isPathChar_of_isName h.1))
  | index object key ihobject ihkey =>
    simp only [Plain, all, Bool.and_eq_true] at h
    simp only [code, mapTexts, level_mapTexts, String.toList_append]
    exact (((ihobject h.1.2).bracket.append (.mark "[" rfl)).append (ihkey h.2)).append
      (.mark "]" rfl)
  | unary op operand ih =>
    rw [Plain, all, Bool.and_eq_true] at h
    simp only [code, mapTexts, isSigned_mapTexts, level_mapTexts, String.toList_append]
    have hop := Requotes.mark op.symbol (by cases op <;> rfl)
    exact hop.append (ih h.2).bracket
  | binary op left right ihleft ihright =>
    simp only [Plain, all, Bool.and_eq_true] at h
    simp only [code, mapTexts, level_mapTexts, String.toList_append]
    have hop := Requotes.mark op.symbol (by cases op <;> rfl)
    exact ((((ihleft h.1.2).bracket.append (.mark " " rfl)).append hop).append
      (.mark " " rfl)).append (ihright h.2).bracket
  | conditional test consequent alternate ihtest ihconsequent ihalternate =>
    simp only [Plain, all, Bool.and_eq_true] at h
    simp only [code, mapTexts, level_mapTexts, String.toList_append]
    exact ((((ihtest h.1.1.2).bracket.append (.mark " ? " rfl)).append
      (ihconsequent h.1.2).bracket).append (.mark " : " rfl)).append (ihalternate h.2).bracket
  | filter expression name ih => cases (Bool.and_eq_true_iff.1 h).1
  | concat parts ih => cases (Bool.and_eq_true_iff.1 h).1

theorem rooted_ne_scope {scope name : String} (h : e.Plain) :
    e.rooted scope ≠ .scope name := by
  cases e with
  | concat parts => cases (Bool.and_eq_true_iff.1 h).1
  | _ => simp [rooted]

/-- Undoes the look-up of names in the scope object. -/
def unrooted : Expr → Expr
  | .member (.scope _) name => .scope name
  | .member object property => .member (unrooted object) property
  | .index object key => .index (unrooted object) (unrooted key)
  | .unary op operand => .unary op (unrooted operand)
  | .binary op left right => .binary op (unrooted left) (unrooted right)
  | .conditional test consequent alternate =>
    .conditional (unrooted test) (unrooted consequent) (unrooted alternate)
  | e => e

/-- Only a name that is looked up has the scope itself as the object of an access. -/
theorem unrooted_rooted {scope : String} (h : e.Plain) : (e.rooted scope).unrooted = e := by
  induction e with
  | literal value => rfl
  | scope name => rfl
  | member object property ih =>
    rw [Plain, all, Bool.and_eq_true] at h
    rw [rooted, unrooted, ih h.2]
    exact fun name => rooted_ne_scope h.2
  | index object key ihobject ihkey =>
    simp only [Plain, all, Bool.and_eq_true] at h
    rw [rooted, unrooted, ihobject h.1.2, ihkey h.2]
  | unary op operand ih =>
    rw [Plain, all, Bool.and_eq_true] at h
    rw [rooted, unrooted, ih h.2]
  | binary op left right ihleft ihright =>
    simp only [Plain, all, Bool.and_eq_true] at h
    rw [rooted, unrooted, ihleft h.1.2, ihright h.2]
  | conditional test consequent alternate ihtest ihconsequent ihalternate =>
    simp only [Plain, all, Bool.and_eq_true] at h
    rw [rooted, unrooted, ihtest h.1.1.2, ihconsequent h.1.2, ihalternate h.2]
  | filter expression name ih => cases (Bool.and_eq_true_iff.1 h).1
  | concat parts ih => cases (Bool.and_eq_true_iff.1 h).1

/-- Both codes are changed in the same way, and then they are read back. -/
theorem eq_of_code_of_plain (hscope : Token.isLookup style.scope = true) (he : e.Plain)
    (he' : e'.Plain) (h : e.code style = e'.code style) : e = e' := by
  have hread (e : Expr) (he : e.Plain) :
      read (String.ofList (requote (e.code style).toList)) =
        .ok ((e.mapTexts escaped).rooted style.scope) := by
    have hcode := requotes_code (Bool.and_eq_true_iff.1 hscope).1 he []
    obtain ⟨ts, hcodes⟩ := faithful hscope he.isReadable_mapTexts
    rw [List.append_nil, requote, List.append_nil] at hcode
    rw [hcode]
    exact read_of_prints hcodes.prints (.plain hcodes.stands.isExpr)
  have hrooted := hread e he
  rw [h, hread e' he', Except.ok.injEq] at hrooted
  have htexts := congrArg unrooted hrooted
  rw [unrooted_rooted he'.mapTexts, unrooted_rooted he.mapTexts] at htexts
  exact mapTexts_injective Text.Quoted.escaped_injective htexts.symm

end
end Expr

/-- An opening bracket follows what can be a path. -/
def opensCall (cs : List Char) : Bool :=
  (cs.dropWhile isPathChar).head? == some '('

/-- Code that is no call, unless it starts with a bracket: a path in front of it is not followed by
an opening one. -/
def Uncalled (cs : List Char) : Prop :=
  ∀ rest, opensCall rest = false → (cs ++ rest).head? = some '(' ∨ opensCall (cs ++ rest) = false

section Calls

variable {c : Char} {cs ds : List Char}

theorem opensCall_append (h : ∀ c ∈ cs, isPathChar c = true) (rest : List Char) :
    opensCall (cs ++ rest) = opensCall rest := by
  rw [opensCall, List.dropWhile_append_of_pos h, opensCall]

theorem opensCall_cons (hc : isPathChar c = false ∧ c ≠ '(') (cs : List Char) :
    opensCall (c :: cs) = false := by
  rw [opensCall, List.dropWhile_cons_of_neg (by simp [hc.1])]
  simpa using hc.2

namespace Uncalled

theorem path (h : ∀ c ∈ cs, isPathChar c = true) : Uncalled cs := by
  intro rest hrest
  exact .inr ((opensCall_append h rest).trans hrest)

theorem mark (hc : isPathChar c = false ∧ c ≠ '(') (cs : List Char) : Uncalled (c :: cs) :=
  fun rest _ => .inr (opensCall_cons hc (cs ++ rest))

/-- A path may go on with names. -/
theorem append_path (h : Uncalled cs) (hds : ∀ c ∈ ds, isPathChar c = true) :
    Uncalled (cs ++ ds) := by
  intro rest hrest
  rw [List.append_assoc]
  exact h _ ((opensCall_append hds rest).trans hrest)

theorem append_mark (h : Uncalled cs) (hc : isPathChar c = false ∧ c ≠ '(') (ds : List Char) :
    Uncalled (cs ++ c :: ds) := by
  intro rest _
  rw [List.append_assoc]
  exact h _ (opensCall_cons hc (ds ++ rest))

theorem bracket {needed : Bool} {code : String} (h : Uncalled code.toList) :
    Uncalled (Expr.bracket needed code).toList := by
  cases needed with
  | true => exact fun rest _ => .inl (by simp [Expr.bracket])
  | false => exact h

end Uncalled
end Calls

namespace Expr

variable {style : CodeStyle} {e : Expr}

/-- The code of a plain tree is no call. -/
theorem uncalled_code (hscope : Token.isName style.scope.toList = true) (h : e.Plain) :
    Uncalled (e.code style).toList := by
  induction e with
  | literal value =>
    rcases isPathChar_of_mem_code h with ⟨text, rfl⟩ | hpath
    · rw [code, Literal.code, Text.Quoted.toList_encode]
      exact .mark (by decide) _
    · exact .path hpath
  | scope name =>
    have hname := isPathChar_of_mem_dotted (Bool.and_eq_true_iff.1 h).1
    simpa [code] using (Uncalled.path (isPathChar_of_isName hscope)).append_path hname
  | member object property ih =>
    rw [Plain, all, Bool.and_eq_true] at h
    simpa [code] using (ih h.2).bracket.append_path (isPathChar_of_mem_dotted h.1)
  | index object key ihobject _ =>
    simp only [Plain, all, Bool.and_eq_true] at h
    simpa [code] using (ihobject h.1.2).bracket.append_mark (c := '[') (by decide) _
  | unary op operand _ =>
    cases op <;> simpa [code, UnaryOp.symbol] using Uncalled.mark (by decide) _
  | binary op left right ihleft _ =>
    simp only [Plain, all, Bool.and_eq_true] at h
    simpa [code] using (ihleft h.1.2).bracket.append_mark (c := ' ') (by decide) _
  | conditional test consequent alternate ihtest _ _ =>
    simp only [Plain, all, Bool.and_eq_true] at h
    simpa [code] using (ihtest h.1.1.2).bracket.append_mark (c := ' ') (by decide) _
  | filter expression name _ => cases (Bool.and_eq_true_iff.1 h).1
  | concat parts _ => cases (Bool.and_eq_true_iff.1 h).1

/-- The code of a filter is a call, and a path stands in front of its bracket. -/
theorem opensCall_code_filter (hfn : isPath style.filterFn = true) (e : Expr) (name : String) :
    ((filter e name).code style).toList.head? ≠ some '(' ∧
      opensCall ((filter e name).code style).toList = true := by
  have hpath := isPathChar_of_isPath hfn
  simp only [code, String.toList_append, List.append_assoc]
  constructor
  · cases hcs : style.filterFn.toList with
    | nil => simp [isPath, hcs, Token.isName] at hfn
    | cons c cs =>
      rw [hcs, List.forall_mem_cons] at hpath
      rintro ⟨⟩
      cases hpath.1
  · rw [opensCall_append hpath]
    rfl

theorem code_ne_code_filter (hscope : Token.isName style.scope.toList = true)
    (hfn : isPath style.filterFn = true) (h : e.Plain) (e' : Expr) (name : String) :
    e.code style ≠ (filter e' name).code style := by
  intro hcode
  obtain ⟨hhead, hcall⟩ := opensCall_code_filter hfn e' name
  have huncalled := uncalled_code hscope h [] rfl
  rw [List.append_nil, hcode, hcall] at huncalled
  rcases huncalled with hbracket | hopens
  · exact hhead hbracket
  · cases hopens

/-- The arguments of the call are two quoted texts. -/
theorem code_filter_inj {e e' : Expr} {name name' : String}
    (h : (filter e name).code style = (filter e' name').code style) :
    e.code style = e'.code style ∧ name = name' := by
  have hlist := congrArg String.toList h
  simp only [code, String.toList_append, List.append_assoc] at hlist
  obtain ⟨hcode, hrest⟩ :=
    Text.Quoted.encode_append_inj (List.append_cancel_left (List.append_cancel_left hlist))
  exact ⟨hcode, (Text.Quoted.encode_append_inj (List.append_cancel_left hrest)).1⟩

/-- Different expressions have different code. -/
theorem injOn_code (style : CodeStyle) (hscope : Token.isLookup style.scope = true)
    (hfn : isPath style.filterFn = true) :
    Set.InjOn (code style) {e | ∃ text, read text = .ok e} := by
  have hname := (Bool.and_eq_true_iff.1 hscope).1
  rintro e ⟨text, hread⟩ e' ⟨text', hread'⟩ h
  cases readable_of_read hread with
  | plain he =>
    cases readable_of_read hread' with
    | plain he' => exact eq_of_code_of_plain hscope he he' h
    | filter he' _ => exact absurd h (code_ne_code_filter hname hfn he _ _)
  | filter he _ =>
    cases readable_of_read hread' with
    | plain he' => exact absurd h.symm (code_ne_code_filter hname hfn he' _ _)
    | filter he' _ =>
      obtain ⟨hcode, rfl⟩ := code_filter_inj h
      rw [eq_of_code_of_plain hscope he he' hcode]

/-- A control character is told from the text of its escape, under a filter too. -/
theorem injOn_code_control :
    Token.isLookup "_scope" = true ∧ isPath "_that.applyFilter" = true ∧
      read "'\x01' | f" = .ok (.filter (.literal (.string "\x01")) "f") ∧
      read "'\\\\u0001' | f" = .ok (.filter (.literal (.string "\\u0001")) "f") ∧
      code ⟨"_scope", "_that.applyFilter"⟩ (.filter (.literal (.string "\x01")) "f") ≠
        code ⟨"_scope", "_that.applyFilter"⟩ (.filter (.literal (.string "\\u0001")) "f") := by
  have hread : read "'\x01' | f" = .ok (.filter (.literal (.string "\x01")) "f") := by
    with_unfolding_all rfl
  have hread' : read "'\\\\u0001' | f" = .ok (.filter (.literal (.string "\\u0001")) "f") := by
    with_unfolding_all rfl
  refine ⟨by decide, by decide, hread, hread', fun h => ?_⟩
  have htrees := injOn_code ⟨"_scope", "_that.applyFilter"⟩ (by decide) (by decide)
    ⟨_, hread⟩ ⟨_, hread'⟩ h
  simp at htrees

end Expr
end Stencil
