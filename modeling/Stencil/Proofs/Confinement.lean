import Stencil.Proofs.Compilation
import Stencil.Proofs.Lexemes
import Stencil.Proofs.Range

/-!
# Code stays inside the scope object

Confined code splits into lexemes in which every name is reached through the scope object: it
follows a dot, or it is the scope followed by a dot, a literal word, or the start of the path of the
filter function at a call of it. The text that such a call gets first is confined code again. The
code of every tree that reading can give is confined, whatever texts the tree holds.
-/

namespace Stencil

/-- Names joined by dots. -/
def isPath (text : String) : Bool :=
  (text.toList.splitOn '.').all Token.isName

namespace Lexeme

/-- The lexemes of names joined by dots. -/
def path : List (List Char) → List Lexeme
  | [] => []
  | first :: rest => .name first :: rest.flatMap fun name => [.mark '.', .name name]

/-- The lexemes up to the bracket that opens a call of the filter function. -/
def call (style : CodeStyle) : List Lexeme :=
  path (style.filterFn.toList.splitOn '.') ++ [.mark '(']

/-- A name, given by the lexemes before it and from it on, is not looked up outside the scope. -/
inductive IsReached (style : CodeStyle) : List Lexeme → List Char → List Lexeme → Prop
  | member {before after : List Lexeme} {name : List Char} :
      before.getLast? = some (.mark '.') → IsReached style before name after
  | scope {before after : List Lexeme} :
      IsReached style before style.scope.toList (.mark '.' :: after)
  | literal {before after : List Lexeme} {word : String} :
      word ∈ Token.literalWords → IsReached style before word.toList after
  | call {before after : List Lexeme} {name : List Char} :
      call style <+: .name name :: after → IsReached style before name after

def Rooted (style : CodeStyle) (ls : List Lexeme) : Prop :=
  ∀ before name after, ls = before ++ .name name :: after → IsReached style before name after

end Lexeme

/-- Code in which every name is reached through the scope object, also in the code that is quoted as
the first argument of a call of the filter function. -/
inductive Confined (style : CodeStyle) : List Char → Prop
  | intro {cs : List Char} {ls : List Lexeme} : Lexeme.split cs = some ls →
      Lexeme.Rooted style ls →
      (∀ before after, ls = before ++ Lexeme.call style ++ after →
        ∃ text rest, after = .quoted text :: rest) →
      (∀ before text after, ls = before ++ Lexeme.call style ++ .quoted text :: after →
        Confined style text) →
      Confined style cs

namespace Lexeme

variable {style : CodeStyle} {l : Lexeme} {ls ms : List Lexeme}

theorem IsReached.append {before after : List Lexeme} {name : List Char}
    (h : IsReached style before name after) (ls ms : List Lexeme) :
    IsReached style (ls ++ before) name (after ++ ms) := by
  cases h with
  | member hdot => exact .member (by simp [hdot])
  | scope => exact .scope
  | literal hword => exact .literal hword
  | call hcall => exact .call (hcall.trans (List.prefix_append (.name name :: after) ms))

theorem Rooted.append (hls : Rooted style ls) (hms : Rooted style ms) :
    Rooted style (ls ++ ms) := by
  intro before name after heq
  rcases List.append_eq_append_iff.1 heq with ⟨mid, rfl, hmid⟩ | ⟨mid, hmid, hafter⟩
  · simpa using (hms mid name after hmid).append ls []
  · cases mid with
    | nil =>
      rw [List.nil_append] at hafter
      simpa [hmid] using (hms [] name after hafter.symm).append ls []
    | cons l mid =>
      rw [List.cons_append, List.cons.injEq] at hafter
      obtain ⟨rfl, rfl⟩ := hafter
      simpa using (hls before name mid hmid).append [] ms

theorem Rooted.cons (hms : Rooted style ms)
    (hl : ∀ name, l = .name name → IsReached style [] name ms) : Rooted style (l :: ms) := by
  intro before name after heq
  cases before with
  | nil =>
    obtain ⟨rfl, rfl⟩ := List.cons.inj heq
    exact hl name rfl
  | cons b before =>
    obtain ⟨rfl, htail⟩ := List.cons.inj heq
    simpa using (hms before name after htail).append [l] []

theorem rooted_of_forall (h : ∀ l ∈ ls, ∀ name, l ≠ .name name) : Rooted style ls := by
  rintro before name after rfl
  exact absurd rfl (h (.name name) (by simp) name)

/-- Every name that is called gets confined code as its first argument. -/
def Calls (style : CodeStyle) (ls : List Lexeme) : Prop :=
  ∀ before name after, ls = before ++ .name name :: .mark '(' :: after →
    ∃ text rest, after = .quoted text :: rest ∧ Confined style text

theorem calls_of_forall (h : ∀ l ∈ ls, l ≠ .mark '(') : Calls style ls := by
  rintro before name after rfl
  exact absurd rfl (h (.mark '(') (by simp))

theorem Calls.cons (hms : Calls style ms)
    (hl : ∀ name after, l = .name name → ms = .mark '(' :: after →
      ∃ text rest, after = .quoted text :: rest ∧ Confined style text) :
    Calls style (l :: ms) := by
  intro before name after heq
  cases before with
  | nil =>
    obtain ⟨rfl, rfl⟩ := List.cons.inj heq
    exact hl name after rfl rfl
  | cons b before =>
    obtain ⟨rfl, htail⟩ := List.cons.inj heq
    exact hms before name after htail

theorem Calls.append (hls : Calls style ls) (hms : Calls style ms)
    (hseam : ms.head? ≠ some (.mark '(')) : Calls style (ls ++ ms) := by
  induction ls with
  | nil => exact hms
  | cons l ls ih =>
    have htail : Calls style ls := fun before name after heq =>
      hls (l :: before) name after (by simp [heq])
    refine (ih htail).cons fun name after hl heq => ?_
    cases ls with
    | nil => exact absurd (by rw [← List.nil_append ms, heq]; rfl) hseam
    | cons l' ls =>
      obtain ⟨rfl, rfl⟩ := List.cons.inj heq
      obtain ⟨text, rest, rfl, htext⟩ := hls [] name ls (by simp [hl])
      exact ⟨text, rest ++ ms, rfl, htext⟩

theorem exists_call_eq (style : CodeStyle) :
    ∃ init name, call style = init ++ [.name name, .mark '('] := by
  rw [call]
  cases hnames : style.filterFn.toList.splitOn '.' with
  | nil => exact absurd hnames (List.splitOn_ne_nil _ _)
  | cons first rest =>
    rcases List.eq_nil_or_concat rest with rfl | ⟨init, last, rfl⟩
    · exact ⟨[], first, rfl⟩
    · exact ⟨path (first :: init) ++ [.mark '.'], last, by simp [path]⟩

end Lexeme

namespace Confined

open Lexeme (Rooted Calls)

theorem of_lexemes {style : CodeStyle} {cs : List Char} {ls : List Lexeme}
    (hsplit : Lexeme.split cs = some ls) (hrooted : Rooted style ls) (hcalls : Calls style ls) :
    Confined style cs := by
  obtain ⟨init, name, hcall⟩ := Lexeme.exists_call_eq style
  refine .intro hsplit hrooted (fun before after heq => ?_) (fun before text after heq => ?_)
  · obtain ⟨text, rest, rfl, -⟩ := hcalls (before ++ init) name after (by simp [heq, hcall])
    exact ⟨text, rest, rfl⟩
  · obtain ⟨text', rest, heq', htext⟩ :=
      hcalls (before ++ init) name (.quoted text :: after) (by simp [heq, hcall])
    cases heq'
    exact htext

end Confined

open Lexeme (Splits Spells Rooted Calls IsReached marks)

/-- The code of a part, `ls` its lexemes, that keeps confined code confined. -/
structure Confines (style : CodeStyle) (dotted : Bool) (cs : List Char) (ls : List Lexeme) :
    Prop where
  nonempty : cs ≠ []
  splits : Splits dotted cs ls
  rooted : Rooted style ls
  calls : Calls style ls

namespace Confines

variable {style : CodeStyle} {dotted dotted' : Bool} {cs ds : List Char} {ls ms : List Lexeme}

theorem confined (h : Confines style dotted cs ls) : Confined style cs :=
  .of_lexemes h.splits.split_eq h.rooted h.calls

theorem relax (h : Confines style dotted cs ls) (hdot : dotted' = true → dotted = true) :
    Confines style dotted' cs ls :=
  { h with splits := h.splits.relax hdot }

theorem append (hcs : Confines style dotted cs ls) (hds : Confines style dotted' ds ms)
    (hhead : ∀ c ∈ ds.head?, mayFollow dotted c = true) (hseam : ms.head? ≠ some (.mark '(')) :
    Confines style dotted' (cs ++ ds) (ls ++ ms) :=
  ⟨by simp [hcs.nonempty], hcs.splits.append hds.splits hhead hds.nonempty,
    hcs.rooted.append hds.rooted, hcs.calls.append hds.calls hseam⟩

theorem mark_cons {c : Char} (hc : c ∈ marks ∧ c ≠ '.') (h : Confines style dotted cs ls) :
    Confines style dotted (c :: cs) (.mark c :: ls) := by
  have hstop : ∀ d ∈ cs.head?, Lexeme.isExtendedBy (.mark c) d = false := by
    intro d _
    unfold Lexeme.isExtendedBy
    split <;> simp_all
  exact ⟨by simp, h.splits.cons (.mark hc.1) hstop h.nonempty, h.rooted.cons (by simp),
    h.calls.cons (by simp)⟩

theorem blank_cons (h : Confines style dotted cs ls) :
    Confines style dotted (' ' :: cs) (.blank :: ls) :=
  ⟨by simp, h.splits.cons .blank (fun _ _ => rfl) h.nonempty, h.rooted.cons (by simp),
    h.calls.cons (by simp)⟩

theorem quoted (text : String) :
    Confines style true (Text.Quoted.encode text).toList [.quoted text.toList] := by
  have hsplits : Splits true (Text.Quoted.encode text).toList [.quoted text.toList] := by
    rw [Text.Quoted.encode, String.toList_ofList]
    exact .lexeme (.quoted text.toList) fun _ _ => rfl
  exact ⟨by simp [Text.Quoted.encode], hsplits, Lexeme.rooted_of_forall (by simp),
    Lexeme.calls_of_forall (by simp)⟩

theorem quoted_cons (text : String) (h : Confines style dotted cs ls) :
    Confines style dotted ((Text.Quoted.encode text).toList ++ cs) (.quoted text.toList :: ls) := by
  have hsplits :
      Splits dotted ((Text.Quoted.encode text).toList ++ cs) (.quoted text.toList :: ls) := by
    rw [Text.Quoted.encode, String.toList_ofList]
    exact h.splits.cons (.quoted text.toList) (fun _ _ => rfl) h.nonempty
  exact ⟨by simp [h.nonempty], hsplits, h.rooted.cons (by simp), h.calls.cons (by simp)⟩

theorem close {c : Char} (hc : c = ')' ∨ c = ']') : Confines style true [c] [.mark c] := by
  have hmark : c ∈ marks ∧ c ≠ '(' := by rcases hc with rfl | rfl <;> decide
  have hsplits : Splits true [c] [.mark c] := by
    refine .lexeme (.mark hmark.1) fun d hd => ?_
    rcases hc with rfl | rfl <;> rfl
  exact ⟨by simp, hsplits, Lexeme.rooted_of_forall (by simp),
    Lexeme.calls_of_forall (by simpa using hmark.2)⟩

theorem paren (h : Confines style dotted cs ls) :
    Confines style true ('(' :: (cs ++ [')'])) (.mark '(' :: (ls ++ [.mark ')'])) :=
  (h.append (close (.inl rfl)) (by simp [mayFollow]) (by simp)).mark_cons (by decide)

theorem bracket {needed : Bool} {code : String} (h : Confines style dotted code.toList ls)
    (hdot : needed = false → dotted' = true → dotted = true) :
    ∃ ms, Confines style dotted' (Expr.bracket needed code).toList ms := by
  cases needed with
  | true => exact ⟨_, by simpa [Expr.bracket] using h.paren.relax (fun _ => rfl)⟩
  | false => exact ⟨ls, h.relax (hdot rfl)⟩

theorem splits_name {name : List Char} (hname : Token.isName name = true) :
    Splits true name [.name name] := by
  refine .lexeme (.name hname) fun c hc => ?_
  have hstop : ∀ d ∈ [' ', ')', ']', '[', '.'], Token.isNameChar d = false :=
    List.all_iff_forall_prop.1 (by decide)
  exact hstop c (mem_of_mayFollow hc)

theorem word {w : String} (hw : w ∈ Token.literalWords) :
    Confines style true w.toList [.name w.toList] := by
  have hname : ∀ v ∈ Token.literalWords, Token.isName v.toList = true := by decide
  obtain ⟨c, tail, hc, -⟩ := Token.exists_cons_of_isName (hname w hw)
  refine ⟨by simp [hc], splits_name (hname w hw), ?_, Lexeme.calls_of_forall (by simp)⟩
  refine (Lexeme.rooted_of_forall (by simp)).cons ?_
  rintro _ ⟨⟩
  exact .literal hw

theorem number (m : Fin Binary64.finiteCount) :
    ∃ ls, Confines style false (Literal.number (.finite false m)).code.toList ls := by
  obtain ⟨n, hwf, -, -, htext, -⟩ := Binary64.exists_numeral m
  obtain ⟨c, tail, hc, -⟩ := hwf.exists_chars_cons
  have hcode : (Literal.number (.finite false m)).code.toList = n.chars := by
    rw [Literal.code, htext]
  have hsplits : Splits false n.chars [.number n] := by
    refine .lexeme (.number hwf) fun d hd => ?_
    have hstop : ∀ c ∈ [' ', ')', ']', '['], Numeral.isContinuation c = false :=
      List.all_iff_forall_prop.1 (by decide)
    rcases mayFollow_cases hd with hd | ⟨⟨⟩, -⟩
    exact hstop d hd
  rw [hcode]
  exact ⟨[.number n], by simp [hc], hsplits, Lexeme.rooted_of_forall (by simp),
    Lexeme.calls_of_forall (by simp)⟩

theorem rooted_member (hms : Rooted style ms) (name : List Char) :
    Rooted style (.mark '.' :: .name name :: ms) := by
  have haccess : Rooted style [.mark '.', .name name] := by
    intro before name' after heq
    rcases before with _ | ⟨b, _ | ⟨b', before⟩⟩
    · cases heq
    · cases heq
      exact .member rfl
    · simp at heq
  exact haccess.append hms

theorem property {name : List Char} (hname : Token.isName name = true) :
    Confines style true ('.' :: name) [.mark '.', .name name] := by
  obtain ⟨c, tail, hc, -⟩ := Token.exists_cons_of_isName hname
  have hsplits : Splits true (['.'] ++ name) [.mark '.', .name name] :=
    (splits_name hname).cons (.mark (by decide)) (Token.isDigit_of_isName hname) (by simp [hc])
  exact ⟨by simp, hsplits, rooted_member (Lexeme.rooted_of_forall (by simp)) name,
    Lexeme.calls_of_forall (by simp)⟩

theorem scope {name : List Char} (hscope : Token.isName style.scope.toList = true)
    (hname : Token.isName name = true) :
    Confines style true (style.scope.toList ++ '.' :: name)
      [.name style.scope.toList, .mark '.', .name name] := by
  have h : Confines style true _ _ := property hname
  refine ⟨by simp, ?_, h.rooted.cons ?_, Lexeme.calls_of_forall (by simp)⟩
  · exact h.splits.cons (.name hscope) (by rintro c ⟨⟩; rfl) h.nonempty
  · rintro _ ⟨⟩
    exact .scope

/-- The arguments of a call of the filter function, with its brackets. -/
structure Arguments (style : CodeStyle) (cs : List Char) (ls : List Lexeme) : Prop
    extends Confines style true cs ls where
  bracket : cs.head? = some '('
  code : ∃ text rest, ls = .mark '(' :: .quoted text :: rest ∧ Confined style text

namespace Arguments

variable {names : List (List Char)}

theorem head (h : Arguments style cs ls) (names : List (List Char)) :
    ∀ c ∈ (names.flatMap ('.' :: ·) ++ cs).head?, Token.isNameChar c = false := by
  cases names with
  | nil =>
    rw [List.flatMap_nil, List.nil_append, h.bracket]
    rintro c ⟨⟩
    rfl
  | cons name names =>
    rintro c ⟨⟩
    rfl

theorem called (h : Arguments style cs ls) (names : List (List Char)) {after : List Lexeme}
    (heq : (names.flatMap fun name => [.mark '.', .name name]) ++ ls = .mark '(' :: after) :
    ∃ text rest, after = .quoted text :: rest ∧ Confined style text := by
  obtain ⟨text, rest, hls, htext⟩ := h.code
  cases names with
  | nil =>
    rw [List.flatMap_nil, List.nil_append, hls] at heq
    exact ⟨text, rest, (List.cons.inj heq).2.symm, htext⟩
  | cons name names => simp at heq

theorem path (h : Arguments style cs ls) (hnames : ∀ name ∈ names, Token.isName name = true) :
    Confines style true (names.flatMap ('.' :: ·) ++ cs)
      ((names.flatMap fun name => [.mark '.', .name name]) ++ ls) := by
  induction names with
  | nil => exact h.toConfines
  | cons name names ih =>
    rw [List.forall_mem_cons] at hnames
    have htail := ih hnames.2
    obtain ⟨c, tail, hc, -⟩ := Token.exists_cons_of_isName hnames.1
    have hdigit : ∀ d ∈ name.head?, Lexeme.isExtendedBy (.mark '.') d = false :=
      Token.isDigit_of_isName hnames.1
    have hname := htail.splits.cons (.name hnames.1) (h.head names) htail.nonempty
    have hsplits := hname.cons (l := .mark '.') (.mark (by decide))
      (by simpa [hc] using hdigit) (by simp [hc])
    refine ⟨by simp, by simpa using hsplits, rooted_member htail.rooted name, ?_⟩
    refine (htail.calls.cons ?_).cons (by simp)
    rintro _ after ⟨⟩ heq
    exact h.called names heq

theorem call (h : Arguments style cs ls) (hfn : isPath style.filterFn = true) :
    ∃ ms, Confines style true (style.filterFn.toList ++ cs) ms := by
  rw [isPath, List.all_eq_true] at hfn
  have hjoin : _ = style.filterFn.toList := List.intercalate_splitOn '.'
  cases hnames : style.filterFn.toList.splitOn '.' with
  | nil => exact absurd hnames (List.splitOn_ne_nil _ _)
  | cons first rest =>
    rw [hnames, List.forall_mem_cons] at hfn
    rw [hnames, intercalate_cons_eq] at hjoin
    have hrest := h.path hfn.2
    have hcall : Lexeme.call style <+: .name first ::
        ((rest.flatMap fun name => [.mark '.', .name name]) ++ ls) := by
      obtain ⟨text, args, hls, -⟩ := h.code
      exact ⟨.quoted text :: args, by simp [Lexeme.call, hnames, Lexeme.path, hls]⟩
    refine ⟨_, by simp [h.nonempty], ?_, hrest.rooted.cons (l := .name first) ?_,
      hrest.calls.cons ?_⟩
    · rw [← hjoin, List.append_assoc]
      exact hrest.splits.cons (.name hfn.1) (h.head rest) hrest.nonempty
    · rintro _ ⟨⟩
      exact .call hcall
    · rintro _ after ⟨⟩ heq
      exact h.called rest heq

end Arguments

theorem filter (hfn : isPath style.filterFn = true) {code : String}
    (hcode : Confined style code.toList) (name : String) :
    ∃ ls, Confines style true (style.filterFn ++ "(" ++ Text.Quoted.encode code ++ ", "
      ++ Text.Quoted.encode name ++ ")").toList ls := by
  have hname : Confines style true _ _ := quoted_cons name (close (.inl rfl))
  have hlist := quoted_cons code (hname.blank_cons.mark_cons (c := ',') (by decide))
  have hargs : Arguments style _ _ :=
    { hlist.mark_cons (c := '(') (by decide) with
      bracket := rfl
      code := ⟨code.toList, _, rfl, hcode⟩ }
  simpa using hargs.call hfn

theorem marks_cons {symbol : List Char} (hsymbol : ∀ c ∈ symbol, c ∈ marks ∧ c ≠ '.')
    (h : Confines style dotted cs ls) :
    Confines style dotted (symbol ++ cs) (symbol.map .mark ++ ls) := by
  induction symbol with
  | nil => exact h
  | cons c symbol ih =>
    rw [List.forall_mem_cons] at hsymbol
    exact (ih hsymbol.2).mark_cons hsymbol.1

/-- Two parts with a symbol between them. -/
theorem infixed (symbol : List Char) (hcs : Confines style dotted cs ls)
    (hsymbol : ∀ c ∈ symbol, c ∈ marks ∧ c ≠ '.') (hds : Confines style dotted' ds ms) :
    Confines style dotted' (cs ++ ' ' :: (symbol ++ ' ' :: ds))
      (ls ++ .blank :: (symbol.map .mark ++ .blank :: ms)) :=
  hcs.append (hds.blank_cons.marks_cons hsymbol).blank_cons (by simp [mayFollow]) (by simp)

theorem member {name : List Char} (h : Confines style true cs ls)
    (hname : Token.isName name = true) :
    Confines style true (cs ++ '.' :: name) (ls ++ [.mark '.', .name name]) :=
  h.append (property hname) (by simp [mayFollow]) (by simp)

theorem index (h : Confines style dotted cs ls) (hkey : Confines style dotted' ds ms) :
    Confines style true (cs ++ '[' :: (ds ++ [']'])) (ls ++ .mark '[' :: (ms ++ [.mark ']'])) := by
  have hclose := hkey.append (close (.inr rfl)) (by simp [mayFollow]) (by simp)
  exact h.append (hclose.mark_cons (by decide)) (by simp [mayFollow]) (by simp)

theorem sum {parts : List String}
    (hparts : ∀ part ∈ parts, ∃ ms, Confines style false part.toList ms)
    (h : Confines style false cs ls) :
    ∃ ms, Confines style false (cs ++ parts.flatMap fun part => ' ' :: '+' :: ' ' :: part.toList)
      ms := by
  induction parts generalizing cs ls with
  | nil => exact ⟨ls, by simpa using h⟩
  | cons part parts ih =>
    rw [List.forall_mem_cons] at hparts
    obtain ⟨ms, hpart⟩ := hparts.1
    simpa using ih hparts.2 (h.infixed ['+'] (List.all_iff_forall_prop.1 (by decide)) hpart)

end Confines

namespace Expr

variable {style : CodeStyle} {e : Expr}

/-- The code of the tree keeps confined code confined wherever it stands. -/
def Confining (style : CodeStyle) (e : Expr) : Prop :=
  ∃ ls, Confines style (e.level == 9 && !e.isNumber) (e.code style).toList ls

theorem Confining.slot (h : Confining style e) (needed : Bool) :
    ∃ ls, Confines style false (bracket needed (e.code style)).toList ls := by
  obtain ⟨ls, h⟩ := h
  exact h.bracket (by simp)

theorem confining_of_confines {cs : List Char} {ls : List Lexeme} {dotted : Bool}
    (h : Confines style dotted cs ls) (hcode : (e.code style).toList = cs)
    (hdot : (e.level == 9 && !e.isNumber) = dotted) : Confining style e := by
  subst hcode hdot
  exact ⟨ls, h⟩

theorem confining_literal {value : Literal} (h : (literal value).isWellNamed = true) :
    Confining style (.literal value) := by
  cases value with
  | number value =>
    cases value with
    | finite negative m =>
      cases negative with
      | false => exact Confines.number m
      | true => cases h
    | nan | infinite => cases h
  | string value => exact ⟨_, Confines.quoted value⟩
  | bool value =>
    cases value with
    | false => exact ⟨_, Confines.word (w := "false") (by decide)⟩
    | true => exact ⟨_, Confines.word (w := "true") (by decide)⟩
  | null => exact ⟨_, Confines.word (w := "null") (by decide)⟩
  | undefined => exact ⟨_, Confines.word (w := "undefined") (by decide)⟩

theorem confining_member {object : Expr} {property : String} (h : Confining style object)
    (hname : Token.isName property.toList = true) : Confining style (.member object property) := by
  obtain ⟨ls, h⟩ := h
  have hslot : ∃ ms, Confines style true
      (bracket (object.isNumber || object.level < 9) (object.code style)).toList ms := by
    refine h.bracket fun hneeded _ => ?_
    simp only [Bool.or_eq_false_iff, decide_eq_false_iff_not] at hneeded
    have hlevel := Nat.le_antisymm object.level_le (Nat.not_lt.1 hneeded.2)
    simp [hlevel, hneeded.1]
  obtain ⟨ms, hslot⟩ := hslot
  exact confining_of_confines (hslot.member hname) (by simp [code]) rfl

theorem confining_binary {left right : Expr} (op : BinaryOp) (hleft : Confining style left)
    (hright : Confining style right) : Confining style (.binary op left right) := by
  obtain ⟨ls, hleft⟩ := hleft.slot (left.level < op.level)
  obtain ⟨ms, hright⟩ := hright.slot (right.level < op.level + 1)
  have hsymbol : ∀ c ∈ op.symbol.toList, c ∈ marks ∧ c ≠ '.' := by
    cases op <;> exact List.all_iff_forall_prop.1 (by decide)
  refine confining_of_confines (hleft.infixed _ hsymbol hright) (by simp [code]) ?_
  cases op <;> rfl

theorem confining_conditional {test consequent alternate : Expr} (htest : Confining style test)
    (hconsequent : Confining style consequent) (halternate : Confining style alternate) :
    Confining style (.conditional test consequent alternate) := by
  obtain ⟨ls, htest⟩ := htest.slot (test.level < 2)
  obtain ⟨ms, hconsequent⟩ := hconsequent.slot (consequent.level < 1)
  obtain ⟨ns, halternate⟩ := halternate.slot (alternate.level < 1)
  have hbranches := hconsequent.infixed [':'] (List.all_iff_forall_prop.1 (by decide)) halternate
  have hcode := htest.infixed ['?'] (List.all_iff_forall_prop.1 (by decide)) hbranches
  exact confining_of_confines hcode (by simp [code]) rfl

theorem confining_concat {parts : List Expr} (h : ∀ part ∈ parts, Confining style part) :
    Confining style (.concat parts) := by
  have hall : ∀ part ∈ seed parts ++ parts, Confining style part :=
    List.forall_mem_append.2 ⟨forall_mem_seed (confining_literal rfl) parts, h⟩
  obtain ⟨first, rest, hparts⟩ := exists_seed_append parts
  rw [hparts, List.forall_mem_cons] at hall
  obtain ⟨ls, hfirst⟩ := hall.1.slot (first.level < 7)
  have hrest : ∀ part ∈ rest.map fun part => bracket (part.level < 7) (part.code style),
      ∃ ms, Confines style false part.toList ms := by
    rw [List.forall_mem_map]
    exact fun part hpart => (hall.2 part hpart).slot _
  obtain ⟨ms, hsum⟩ := Confines.sum hrest hfirst
  refine confining_of_confines hsum ?_ rfl
  rw [code_concat, hparts, List.map_cons, toList_intercalate_cons]
  rfl

theorem confining (hscope : Token.isName style.scope.toList = true)
    (hfn : isPath style.filterFn = true) (he : e.all isWellNamed = true) : Confining style e := by
  induction e with
  | literal value => exact confining_literal he
  | scope name =>
    exact confining_of_confines (Confines.scope hscope (Bool.and_eq_true_iff.1 he).1)
      (by simp [code]) rfl
  | member object property ih =>
    rw [all, Bool.and_eq_true] at he
    exact confining_member (ih he.2) he.1
  | index object key ihobject ihkey =>
    simp only [all, Bool.and_eq_true] at he
    obtain ⟨ls, hobject⟩ := (ihobject he.1.2).slot (object.level < 9)
    obtain ⟨ms, hkey⟩ := ihkey he.2
    exact confining_of_confines (hobject.index hkey) (by simp [code]) rfl
  | unary op operand ih =>
    rw [all, Bool.and_eq_true] at he
    obtain ⟨ls, hoperand⟩ := (ih he.2).slot (operand.isSigned || operand.level < 8)
    have hsymbol : ∀ c ∈ op.symbol.toList, c ∈ marks ∧ c ≠ '.' := by
      cases op <;> exact List.all_iff_forall_prop.1 (by decide)
    exact confining_of_confines (hoperand.marks_cons hsymbol) (by simp [code]) rfl
  | binary op left right ihleft ihright =>
    simp only [all, Bool.and_eq_true] at he
    exact confining_binary op (ihleft he.1.2) (ihright he.2)
  | conditional test consequent alternate ihtest ihconsequent ihalternate =>
    simp only [all, Bool.and_eq_true] at he
    exact confining_conditional (ihtest he.1.1.2) (ihconsequent he.1.2) (ihalternate he.2)
  | filter expression name ih =>
    rw [all, Bool.and_eq_true] at he
    -- the code of the operand stands in quotes, so that its own confinement is what is asked for
    obtain ⟨ls, hexpression⟩ := ih he.2
    obtain ⟨ms, hfilter⟩ := Confines.filter hfn hexpression.confined name
    exact confining_of_confines hfilter (by simp [code]) rfl
  | concat parts ih =>
    rw [all, allParts_eq_all, Bool.and_eq_true, List.all_eq_true] at he
    exact confining_concat fun part hpart => ih part hpart (he.2 part hpart)

theorem Readable.isWellNamed (h : e.Readable) : e.all isWellNamed = true := by
  have hplain : ∀ e : Expr, e.isPlain = true → e.isWellNamed = true := by
    intro e he
    cases e with
    | filter | concat => cases he
    | _ => exact he
  cases h with
  | plain he => exact all_mono hplain he
  | filter he _ => exact Bool.and_eq_true_iff.2 ⟨rfl, all_mono hplain he⟩

end Expr

theorem Segment.isWellNamed_of_merge {segments : List Segment} {tree : Expr}
    (h : Segment.merge segments = .ok tree) : tree.all Expr.isWellNamed = true := by
  obtain ⟨parts, hparts, rfl⟩ := exists_of_map_ok h
  have hall : ∀ part ∈ parts, part.all Expr.isWellNamed = true := by
    refine forall_of_mapM (fun s part hs => ?_) hparts
    cases s with
    | text value => cases hs; rfl
    | binding b => exact (Expr.readable_of_read hs).isWellNamed
  split
  · rename_i part
    exact hall part (by simp)
  · rw [Expr.all, Expr.allParts_eq_all, Bool.and_eq_true, List.all_eq_true]
    exact ⟨rfl, hall⟩

mutual

/-- All code in a compiled node: that of its directives and bound attributes, and that of its
texts. -/
def CompiledNode.codes : CompiledNode → List String
  | .element _ _ directives children => directives.map Descriptor.expression ++ forestCodes children
  | .text segments => segments.filterMap CompiledSegment.expression

def forestCodes : List CompiledNode → List String
  | [] => []
  | node :: nodes => node.codes ++ forestCodes nodes

end

namespace Config

section

variable {c : Config} (hscope : Token.isLookup c.scope = true) (hfn : isPath c.filterFn = true)

include hscope hfn

theorem confined_code {e : Expr} (he : e.all Expr.isWellNamed = true) :
    Confined c.style (e.code c.style).toList := by
  have hconfining : Expr.Confining c.style e :=
    Expr.confining (Bool.and_eq_true_iff.1 hscope).1 hfn he
  obtain ⟨ls, h⟩ := hconfining
  exact h.confined

theorem confined_of_describe {name value : String} {d : Descriptor}
    (h : c.describe name value = .ok d) : Confined c.style d.expression.toList := by
  rcases cases_of_describe h with ⟨-, -, hbound⟩ | ⟨-, hdirective⟩
  · obtain ⟨tree, hmerge, rfl⟩ := exists_of_describeInterpolation hbound
    exact confined_code hscope hfn (Segment.isWellNamed_of_merge hmerge)
  · obtain ⟨kind, tree, -, -, hread, rfl⟩ := exists_of_describeDirective hdirective
    exact confined_code hscope hfn (Expr.readable_of_read hread).isWellNamed

theorem confined_of_compileAttributes {tag : String} {attrs rest : List Markup.Attribute}
    {ds : List Descriptor} (h : c.compileAttributes tag attrs = .ok (rest, ds)) :
    ∀ d ∈ ds, Confined c.style d.expression.toList := by
  induction attrs generalizing rest ds with
  | nil => cases h; simp
  | cons a attrs ih =>
    obtain ⟨rest', ds', hattrs, ⟨-, -, rfl⟩ | ⟨d, -, hd, -, rfl⟩⟩ := exists_of_compileAttributes h
    · exact ih hattrs
    · exact List.forall_mem_cons.2 ⟨confined_of_describe hscope hfn hd, ih hattrs⟩

theorem confined_of_compileSegment {s : Segment} {out : CompiledSegment}
    (h : c.compileSegment s = .ok out) :
    ∀ code, out.expression = some code → Confined c.style code.toList := by
  intro code hcode
  cases s with
  | text value => cases h; cases hcode
  | binding b =>
    obtain ⟨code', hcompile, rfl⟩ := exists_of_map_ok h
    obtain ⟨e, hread, rfl⟩ := exists_of_compileExpr hcompile
    cases hcode
    exact confined_code hscope hfn (Expr.readable_of_read hread).isWellNamed

theorem confined_of_compileText {text : String} {node : CompiledNode}
    (h : c.compileText text = .ok node) :
    ∀ code ∈ node.codes, Confined c.style code.toList := by
  obtain ⟨segments, hsegments, rfl⟩ := exists_of_compileText h
  intro code hcode
  rw [CompiledNode.codes, List.mem_filterMap] at hcode
  obtain ⟨s, hs, hcode⟩ := hcode
  have hall : ∀ s ∈ segments, ∀ code, s.expression = some code → Confined c.style code.toList := by
    refine forall_of_mapM (fun s out hs => ?_) hsegments
    exact confined_of_compileSegment hscope hfn hs
  exact hall s hs code hcode

end

mutual

theorem confined_of_compileNode {c : Config} (hscope : Token.isLookup c.scope = true)
    (hfn : isPath c.filterFn = true) : (n : Markup.Node) → {out : CompiledNode} →
    c.compileNode n = .ok out → ∀ code ∈ out.codes, Confined c.style code.toList
  | .text text, out, h => confined_of_compileText hscope hfn h
  | .element tag attrs selfClosing children, out, h => by
    obtain ⟨rest, ds, nodes, hattrs, hchildren, rfl⟩ := exists_of_compileNode h
    rw [CompiledNode.codes, List.forall_mem_append, List.forall_mem_map]
    exact ⟨confined_of_compileAttributes hscope hfn hattrs,
      confined_of_compileNodes hscope hfn children hchildren⟩

theorem confined_of_compileNodes {c : Config} (hscope : Token.isLookup c.scope = true)
    (hfn : isPath c.filterFn = true) : (ns : List Markup.Node) → {out : List CompiledNode} →
    c.compileNodes ns = .ok out → ∀ code ∈ forestCodes out, Confined c.style code.toList
  | [], out, h => by
    cases h
    simp [forestCodes]
  | n :: ns, out, h => by
    obtain ⟨first, rest, hn, hns, rfl⟩ := exists_of_compileNodes h
    rw [forestCodes, List.forall_mem_append]
    exact ⟨confined_of_compileNode hscope hfn n hn, confined_of_compileNodes hscope hfn ns hns⟩

end

/-- Code that is compiled for an attribute or a template reaches nothing but the scope object and
the filter function. -/
theorem confined_of_compile (c : Config) (hscope : Token.isLookup c.scope = true)
    (hfn : isPath c.filterFn = true) :
    (∀ name value d, c.describe name value = .ok d → Confined c.style d.expression.toList) ∧
    (∀ source nodes, c.compileTemplate source = .ok nodes →
      ∀ code ∈ forestCodes nodes, Confined c.style code.toList) := by
  refine ⟨fun name value d h => confined_of_describe hscope hfn h, fun source nodes h => ?_⟩
  obtain ⟨ns, -, hns⟩ := exists_of_compileTemplate h
  exact confined_of_compileNodes hscope hfn ns hns

theorem confined_of_compile_filter :
    ∃ d, default.describe "sk-text" "a['\"'] | upper" = .ok d ∧
      d.expression = "_that.applyFilter(\"_scope.a[\\\"\\\\\\\"\\\"]\", \"upper\")" ∧
      Confined default.style d.expression.toList := by
  have hcode : (default.describe "sk-text" "a['\"'] | upper").toOption.map Descriptor.expression =
      some "_that.applyFilter(\"_scope.a[\\\"\\\\\\\"\\\"]\", \"upper\")" := by
    decide +kernel
  cases hd : default.describe "sk-text" "a['\"'] | upper" with
  | error e => rw [hd] at hcode; cases hcode
  | ok d =>
    rw [hd] at hcode
    exact ⟨d, rfl, Option.some.inj hcode,
      (confined_of_compile default (by decide) (by decide)).1 _ _ d hd⟩

end Config

end Stencil
