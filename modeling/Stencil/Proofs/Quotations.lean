import Stencil.Proofs.DistinctCode
import Stencil.Text.Front

/-!
# Quoted texts in code

Code quotes a text so that all of it can be told again: the quotation ends where its closing quote
stands, no control character stands in it, and its escapes give the text back. An evaluator that
knows these escapes therefore gets the arguments of a filter whole, however often code is quoted
inside code. Reading an expression knows fewer escapes. It drops the backslash before four
hexadecimal digits, so that a text is read back exactly if it needs no such escape.
-/

namespace Stencil

namespace Text.Quoted

/-- The characters of a quotation that belong to no escape; a backslash takes the next character. -/
def unescaped : List Char → List Char
  | [] => []
  | '\\' :: _ :: rest => unescaped rest
  | c :: rest => c :: unescaped rest

/-- The quotation at the front with its escapes resolved, and what follows it. -/
def quoted? : List Char → Option (String × List Char)
  | '"' :: rest => (Lexeme.readText rest).map fun (text, after) => (String.ofList text, after)
  | _ => none

/-- The text that a quotation stands for. -/
def decode? (code : String) : Option String :=
  match quoted? code.toList with
  | some (text, []) => some text
  | _ => none

/-- The text that an expression reads a quotation of `s` as. -/
def readAs (s : String) : String :=
  String.ofList (s.toList.flatMap readBack)

variable {c : Char}

theorem unescaped_cons (hc : c ≠ '\\') (rest : List Char) :
    unescaped (c :: rest) = c :: unescaped rest := by
  rw [unescaped]
  exact fun _ _ h _ => hc h

theorem unescaped_append {cs : List Char} (hcs : ∀ c ∈ cs, c ≠ '\\') (rest : List Char) :
    unescaped (cs ++ rest) = cs ++ unescaped rest := by
  induction cs with
  | nil => rfl
  | cons c cs ih =>
    rw [List.forall_mem_cons] at hcs
    rw [List.cons_append, unescaped_cons hcs.1, ih hcs.2, List.cons_append]

/-- What a character is written as leaves neither a quote nor a backslash outside its escape. -/
theorem exists_unescaped_escape (c : Char) (rest : List Char) :
    ∃ cs, unescaped (escape c ++ rest) = cs ++ unescaped rest ∧ ∀ d ∈ cs, d ≠ '"' ∧ d ≠ '\\' := by
  rcases escape_cases c with ⟨hhex, he⟩ | ⟨-, d, -, he, -⟩ | ⟨-, he, hslash, hquote⟩
  · have hdigits : ∀ d ∈ hexFour c.toNat, d ≠ '"' ∧ d ≠ '\\' := by
      intro d hd
      obtain ⟨hescape, hslash, -⟩ := of_mem_hexFour hhex hd
      refine ⟨?_, hslash⟩
      rintro rfl
      cases hescape
    refine ⟨hexFour c.toNat, ?_, hdigits⟩
    rw [he, List.cons_append, List.cons_append, unescaped]
    exact unescaped_append (fun d hd => (hdigits d hd).2) rest
  · refine ⟨[], ?_, by simp⟩
    rw [he]
    rfl
  · refine ⟨[c], ?_, by simp [hslash, hquote]⟩
    rw [he]
    exact unescaped_cons hslash rest

theorem unescaped_flatMap_escape (cs : List Char) :
    ∀ d ∈ unescaped (cs.flatMap escape), d ≠ '"' ∧ d ≠ '\\' := by
  induction cs with
  | nil => simp [unescaped]
  | cons c cs ih =>
    obtain ⟨front, hfront, hplain⟩ := exists_unescaped_escape c (cs.flatMap escape)
    rw [List.flatMap_cons, hfront]
    exact List.forall_mem_append.2 ⟨hplain, ih⟩

/-- No control character and no line or paragraph separator is written as it is. -/
theorem toNat_of_mem_escape {d : Char} (h : d ∈ escape c) :
    0x20 ≤ d.toNat ∧ d.toNat ≠ 0x2028 ∧ d.toNat ≠ 0x2029 := by
  rcases escape_cases c with ⟨hhex, he⟩ | ⟨-, e, hletter, he, -⟩ | ⟨hhex, he, -⟩
  · have hdigits := hexFour_of_isHexEscaped
      (P := fun _ ds => ds.all fun d => 0x20 ≤ d.toNat ∧ d.toNat ≠ 0x2028 ∧ d.toNat ≠ 0x2029)
      (by decide) (by decide) (by decide) hhex
    rw [he, List.mem_cons, List.mem_cons] at h
    rcases h with rfl | rfl | h
    · decide
    · decide
    · exact List.all_iff_forall_prop.1 hdigits d h
  · have hletters : ∀ e ∈ ['\\', '"', 'n', 'r', 't'],
        0x20 ≤ e.toNat ∧ e.toNat ≠ 0x2028 ∧ e.toNat ≠ 0x2029 :=
      List.all_iff_forall_prop.1 (by decide)
    rw [he, List.mem_cons, List.mem_singleton] at h
    rcases h with rfl | rfl
    · decide
    · exact hletters d hletter
  · have hbreak : c ≠ '\n' ∧ c ≠ '\r' ∧ c ≠ '\t' := by
      refine ⟨?_, ?_, ?_⟩ <;> rintro rfl <;> revert he <;> decide
    rw [he, List.mem_singleton] at h
    subst h
    simp_all [isHexEscaped]

theorem quoted?_encode (s : String) (rest : List Char) :
    quoted? ((encode s).toList ++ rest) = some (s, rest) := by
  rw [toList_encode, List.cons_append, List.append_assoc, List.singleton_append, quoted?,
    Lexeme.readText_encode]
  simp

theorem decode?_encode (s : String) : decode? (encode s) = some s := by
  have hquoted := quoted?_encode s []
  rw [List.append_nil] at hquoted
  rw [decode?, hquoted]

/-- Every escape of four digits is read as four characters more than it stands for. -/
theorem length_flatMap_readBack (cs : List Char) :
    (cs.flatMap readBack).length = cs.length + 4 * cs.countP isHexEscaped := by
  induction cs with
  | nil => rfl
  | cons c cs ih =>
    rw [List.flatMap_cons, List.length_append, ih, List.countP_cons, List.length_cons]
    cases hc : isHexEscaped c with
    | true =>
      have hfour : (hexFour c.toNat).length = 4 :=
        hexFour_of_isHexEscaped (P := fun _ ds => ds.length = 4) (by decide) (by decide)
          (by decide) hc
      simp only [readBack, hc, if_true, List.length_cons, hfour]
      omega
    | false =>
      simp only [readBack, hc, Bool.false_eq_true, if_false, List.length_singleton]
      omega

theorem readAs_eq_iff (s : String) : readAs s = s ↔ ∀ c ∈ s.toList, isHexEscaped c = false := by
  constructor
  · intro h c hc
    have hlength := length_flatMap_readBack s.toList
    have hsame : s.toList.flatMap readBack = s.toList := by
      simpa [readAs] using congrArg String.toList h
    rw [hsame] at hlength
    have hnone : s.toList.countP isHexEscaped = 0 := by omega
    simpa using List.countP_eq_zero.1 hnone c hc
  · intro h
    have hall : s.toList.all (fun c => !isHexEscaped c) = true := by simpa using h
    rw [readAs, flatMap_readBack hall, String.ofList_toList]

end Text.Quoted

namespace Expr

open Text.Quoted

/-- The two arguments in the code of a filter, as the call of the filter function gets them. -/
def filterArguments? (style : CodeStyle) (code : String) : Option (String × String) := do
  let rest ← Text.after? (style.filterFn ++ "(").toList code.toList
  let (expression, rest) ← quoted? rest
  let rest ← Text.after? ", ".toList rest
  let (name, rest) ← quoted? rest
  if rest = [')'] then some (expression, name) else none

theorem filterArguments?_code (style : CodeStyle) (e : Expr) (name : String) :
    filterArguments? style ((filter e name).code style) = some (e.code style, name) := by
  have hcode : ((filter e name).code style).toList = (style.filterFn ++ "(").toList ++
      ((encode (e.code style)).toList ++ (", ".toList ++ ((encode name).toList ++ [')']))) := by
    simp [code]
  rw [filterArguments?, hcode, Text.after?_append]
  simp only [bind, Option.bind, quoted?_encode, Text.after?_append, if_true]

theorem read_encode (s : String) :
    read (encode s) = .ok (.literal (.string (readAs s))) := by
  have hcodes := Codes.quotation (.inl rfl) (readBody_encode s.toList [])
  exact read_of_prints hcodes.prints (.plain hcodes.stands.isExpr)

/-- A text is quoted faithfully: its quotation holds no bare quote, no control character and no
separator of lines or paragraphs, and its escapes give back the text, also where it is an argument
of a filter. An expression reads the quotation as a text in which the escapes of four digits have
lost their backslash, so as the same text exactly if there is no such escape. -/
theorem encode_faithful (s : String) :
    (∃ body, (encode s).toList = '"' :: (body ++ ['"']) ∧
      (∀ c ∈ unescaped body, c ≠ '"' ∧ c ≠ '\\') ∧
      ∀ c ∈ body, 0x20 ≤ c.toNat ∧ c.toNat ≠ 0x2028 ∧ c.toNat ≠ 0x2029) ∧
    decode? (encode s) = some s ∧
    (∀ style e, filterArguments? style ((filter e s).code style) = some (e.code style, s)) ∧
    read (encode s) = .ok (.literal (.string (readAs s))) ∧
    (read (encode s) = .ok (.literal (.string s)) ↔
      ∀ c ∈ s.toList, isHexEscaped c = false) := by
  refine ⟨⟨s.toList.flatMap escape, toList_encode s, unescaped_flatMap_escape _, ?_⟩,
    decode?_encode s, fun style e => filterArguments?_code style e s, read_encode s, ?_⟩
  · intro d hd
    obtain ⟨c, -, hmem⟩ := List.mem_flatMap.1 hd
    exact toNat_of_mem_escape hmem
  · rw [read_encode, ← readAs_eq_iff]
    simp

end Expr
end Stencil
