import Stencil.Json.Reader
import Stencil.Proofs.Text
import Stencil.Proofs.Trees

/-!
# JSON documents

The texts of a JSON value, described apart from the reader: blanks may stand between any two parts,
and a character of a string may be written as it is or by an escape. Every such text is read as its
value. The bound on nested calls never stops the reader, since each bracket that is opened takes a
character and two calls. The compact and the indented form of a value are two of its texts.
-/

namespace Stencil.Json

/-- A run of blanks, which may be empty. -/
def Blanks (cs : List Char) : Prop := ∀ c ∈ cs, isBlank c = true

/-- The texts of a character between the quotes of a string. -/
inductive SpellsChar : Char → List Char → Prop
  | verbatim {c : Char} : 0x20 ≤ c.toNat → c ≠ '"' → c ≠ '\\' → SpellsChar c [c]
  | short {c d : Char} : unescape? d = some c → SpellsChar c ['\\', d]
  | hex {c d₁ d₂ d₃ d₄ : Char} : hexFour? d₁ d₂ d₃ d₄ = some c.toNat →
      SpellsChar c ['\\', 'u', d₁, d₂, d₃, d₄]
  | pair {c d₁ d₂ d₃ d₄ e₁ e₂ e₃ e₄ : Char} {high low : Nat} :
      hexFour? d₁ d₂ d₃ d₄ = some high → isHighSurrogate high = true →
      hexFour? e₁ e₂ e₃ e₄ = some low → isLowSurrogate low = true →
      c.toNat = 0x10000 + (high - 0xD800) * 0x400 + (low - 0xDC00) →
      SpellsChar c ['\\', 'u', d₁, d₂, d₃, d₄, '\\', 'u', e₁, e₂, e₃, e₄]

/-- The texts of a string, between its quotes. -/
inductive SpellsText : List Char → List Char → Prop
  | nil : SpellsText [] []
  | cons {c : Char} {text cs ds : List Char} : SpellsChar c cs → SpellsText text ds →
      SpellsText (c :: text) (cs ++ ds)

/-- At least one digit. -/
def Digits (cs : List Char) : Prop := cs ≠ [] ∧ ∀ c ∈ cs, c.isDigit = true

inductive IsWhole : List Char → Prop
  | zero : IsWhole ['0']
  | digits {cs : List Char} : Digits cs → cs.head? ≠ some '0' → IsWhole cs

inductive IsFraction : List Char → Prop
  | absent : IsFraction []
  | point {ds : List Char} : Digits ds → IsFraction ('.' :: ds)

inductive IsExponent : List Char → Prop
  | absent : IsExponent []
  | mark {mark : Char} {sign ds : List Char} : mark = 'e' ∨ mark = 'E' →
      sign = [] ∨ sign = ['+'] ∨ sign = ['-'] → Digits ds → IsExponent (mark :: (sign ++ ds))

inductive IsNumber : List Char → Prop
  | mk {sign whole fraction exponent : List Char} : sign = [] ∨ sign = ['-'] → IsWhole whole →
      IsFraction fraction → IsExponent exponent →
      IsNumber (sign ++ (whole ++ (fraction ++ exponent)))

/-- One or more texts with commas between them. -/
inductive Separated {α : Type} (P : α → List Char → Prop) : List α → List Char → Prop
  | last {a : α} {cs : List Char} : P a cs → Separated P [a] cs
  | cons {a : α} {as : List α} {cs ds : List Char} : P a cs → Separated P as ds →
      Separated P (a :: as) (cs ++ ',' :: ds)

mutual

/-- The texts of a value without blanks around it. -/
inductive Spells : Json → List Char → Prop
  | null : Spells .null ['n', 'u', 'l', 'l']
  | bool (value : Bool) : Spells (.bool value) (if value then "true" else "false").toList
  | number {numeral : String} : IsNumber numeral.toList → Spells (.number numeral) numeral.toList
  | string {value : String} {body : List Char} : SpellsText value.toList body →
      Spells (.string value) ('"' :: (body ++ ['"']))
  | emptyArray {blanks : List Char} : Blanks blanks → Spells (.array []) ('[' :: (blanks ++ [']']))
  | array {items : List Json} {cs : List Char} : Separated Document items cs →
      Spells (.array items) ('[' :: (cs ++ [']']))
  | emptyObject {blanks : List Char} : Blanks blanks →
      Spells (.object []) ('\x7b' :: (blanks ++ ['\x7d']))
  | object {members : List (String × Json)} {cs : List Char} : Separated SpellsMember members cs →
      Spells (.object members) ('\x7b' :: (cs ++ ['\x7d']))

/-- The texts of a value with blanks around it. -/
inductive Document : Json → List Char → Prop
  | padded {j : Json} {before cs after : List Char} : Blanks before → Spells j cs → Blanks after →
      Document j (before ++ (cs ++ after))

/-- The texts of a member of an object. -/
inductive SpellsMember : String × Json → List Char → Prop
  | keyed {key : String} {value : Json} {before body mid cs : List Char} : Blanks before →
      SpellsText key.toList body → Blanks mid → Document value cs →
      SpellsMember (key, value) (before ++ '"' :: (body ++ '"' :: (mid ++ ':' :: cs)))

end

variable {cs ds rest : List Char} {limit : Nat}

section Strings

theorem isSurrogate_toNat (c : Char) :
    isLowSurrogate c.toNat = false ∧ isHighSurrogate c.toNat = false := by
  have hvalid : c.toNat < 0xD800 ∨ 0xDFFF < c.toNat ∧ c.toNat < 0x110000 := c.valid
  simp only [isLowSurrogate, isHighSurrogate, Bool.and_eq_false_iff, decide_eq_false_iff_not]
  omega

theorem unescape?_u : unescape? 'u' = none := rfl

theorem readChar?_of_spellsChar {c : Char} (h : SpellsChar c cs) (rest : List Char) :
    readChar? (cs ++ rest) = some (c, rest) := by
  cases h with
  | verbatim hlow hquote hslash =>
    have hplain : ¬(c.toNat < 0x20 ∨ c = '\\') := by
      rintro (h | h)
      · omega
      · exact hslash h
    rw [List.singleton_append, readChar?, if_neg hplain]
    · exact fun _ h => absurd h hslash
    · exact fun _ _ h => absurd h hslash
  | @short d hd =>
    have hu : d ≠ 'u' := by
      rintro rfl
      rw [unescape?_u] at hd
      cases hd
    rw [List.cons_append, List.singleton_append, readChar?, hd]
    · rfl
    · exact hu
  | hex hfour =>
    obtain ⟨hlow, hhigh⟩ := isSurrogate_toNat c
    simp only [List.cons_append, List.nil_append, readChar?, readHex?, hfour]
    simp [hlow, hhigh, Char.ofNat_toNat]
  | pair hfour hhigh hfour' hlow heq =>
    have hnotLow : ∀ n, isHighSurrogate n = true → isLowSurrogate n = false := by
      intro n hn
      simp only [isHighSurrogate, isLowSurrogate, Bool.and_eq_true, Bool.and_eq_false_iff,
        decide_eq_true_eq, decide_eq_false_iff_not] at hn ⊢
      omega
    simp only [List.cons_append, List.nil_append, readChar?, readHex?, hfour]
    simp [hnotLow _ hhigh, hhigh, hfour', hlow, ← heq, Char.ofNat_toNat]

theorem SpellsChar.exists_cons {c : Char} (h : SpellsChar c cs) :
    ∃ d tail, cs = d :: tail ∧ d ≠ '"' := by
  cases h with
  | verbatim _ hquote _ => exact ⟨c, [], rfl, hquote⟩
  | short | hex | pair => exact ⟨'\\', _, rfl, by decide⟩

theorem readString_of_spellsText {text : List Char} (h : SpellsText text cs)
    (hlimit : cs.length < limit) (rest : List Char) :
    readString limit (cs ++ '"' :: rest) = some (text, rest) := by
  induction h generalizing limit with
  | nil =>
    cases limit with
    | zero => cases hlimit
    | succ limit => rfl
  | @cons c text cs ds hc _ ih =>
    obtain ⟨d, tail, rfl, hd⟩ := hc.exists_cons
    have hread := readChar?_of_spellsChar hc (ds ++ '"' :: rest)
    cases limit with
    | zero => cases hlimit
    | succ limit =>
      simp only [List.cons_append, List.length_cons, List.length_append] at hlimit hread ⊢
      have htail := @ih limit (by omega)
      rw [List.append_assoc, readString]
      · simp [hread, htail]
      · exact fun _ h => hd (List.cons.inj h).1

end Strings

section Numbers

theorem readDigits_append {ds : List Char} (hds : Digits ds)
    (hrest : ∀ c ∈ rest.head?, c.isDigit = false) : readDigits (ds ++ rest) = (ds, rest) := by
  rw [readDigits, Text.takeWhile_append_of_stop hds.2 hrest,
    Text.dropWhile_append_of_stop hds.2 hrest]

theorem readWhole?_append {whole : List Char} (h : IsWhole whole)
    (hrest : ∀ c ∈ rest.head?, c.isDigit = false) :
    readWhole? (whole ++ rest) = some (whole, rest) := by
  cases h with
  | zero => rfl
  | digits hdigits hhead =>
    have hread := readDigits_append hdigits hrest
    obtain ⟨d, tail, rfl⟩ := List.exists_cons_of_ne_nil hdigits.1
    have hd : d ≠ '0' := fun h => hhead (congrArg some h)
    unfold readWhole?
    split
    · rename_i heq
      exact absurd (List.cons.inj heq).1 hd
    · rw [hread]

theorem readFraction?_append {fraction : List Char} (h : IsFraction fraction)
    (hrest : ∀ c ∈ rest.head?, c.isDigit = false ∧ c ≠ '.') :
    readFraction? (fraction ++ rest) = some (fraction, rest) := by
  cases h with
  | absent =>
    unfold readFraction?
    split
    · rename_i heq
      exact absurd rfl (hrest '.' (by rw [← List.nil_append rest, heq]; rfl)).2
    · rfl
  | point hdigits =>
    have hread := readDigits_append hdigits fun c hc => (hrest c hc).1
    obtain ⟨d, tail, rfl⟩ := List.exists_cons_of_ne_nil hdigits.1
    rw [List.cons_append, readFraction?, hread]

/-- The characters that go on with a number. -/
def goesOn (c : Char) : Bool :=
  c.isDigit || c == '.' || c == 'e' || c == 'E'

theorem readExponent?_append {exponent : List Char} (h : IsExponent exponent)
    (hrest : ∀ c ∈ rest.head?, goesOn c = false) :
    readExponent? (exponent ++ rest) = some (exponent, rest) := by
  have hstop : ∀ c ∈ rest.head?, ((c.isDigit = false ∧ c ≠ '.') ∧ c ≠ 'e') ∧ c ≠ 'E' := by
    intro c hc
    simpa only [goesOn, Bool.or_eq_false_iff, beq_eq_false_iff_ne] using hrest c hc
  cases h with
  | absent =>
    cases rest with
    | nil => rfl
    | cons c rest => simp [readExponent?, hstop c rfl]
  | @mark mark sign ds hmark hsign hdigits =>
    have hread := readDigits_append hdigits fun c hc => (hstop c hc).1.1.1
    obtain ⟨d, tail, rfl⟩ := List.exists_cons_of_ne_nil hdigits.1
    have hdigit := hdigits.2 d (by simp)
    have hplus : d ≠ '+' := by rintro rfl; cases hdigit
    have hminus : d ≠ '-' := by rintro rfl; cases hdigit
    rw [List.cons_append] at hread
    rcases hsign with rfl | rfl | rfl
    all_goals simp [readExponent?, hmark, hplus, hminus, hread]

theorem IsExponent.head {exponent : List Char} (h : IsExponent exponent)
    (hrest : ∀ c ∈ rest.head?, goesOn c = false) :
    ∀ c ∈ (exponent ++ rest).head?, c.isDigit = false ∧ c ≠ '.' := by
  cases h with
  | absent =>
    intro c hc
    have hstop := hrest c hc
    simp only [goesOn, Bool.or_eq_false_iff, beq_eq_false_iff_ne] at hstop
    exact hstop.1.1
  | mark hmark =>
    rintro c ⟨⟩
    rcases hmark with rfl | rfl <;> decide

theorem IsFraction.head {fraction : List Char} (h : IsFraction fraction)
    (hrest : ∀ c ∈ rest.head?, c.isDigit = false) :
    ∀ c ∈ (fraction ++ rest).head?, c.isDigit = false := by
  cases h with
  | absent => exact hrest
  | point =>
    rintro c ⟨⟩
    decide

theorem IsWhole.exists_cons {whole : List Char} (h : IsWhole whole) :
    ∃ d tail, whole = d :: tail ∧ d.isDigit = true := by
  cases h with
  | zero => exact ⟨'0', [], rfl, rfl⟩
  | digits hdigits =>
    obtain ⟨d, tail, rfl⟩ := List.exists_cons_of_ne_nil hdigits.1
    exact ⟨d, tail, rfl, hdigits.2 d (by simp)⟩

theorem IsNumber.exists_cons (h : IsNumber cs) :
    ∃ d tail, cs = d :: tail ∧ (d.isDigit = true ∨ d = '-') := by
  cases h with
  | mk hsign hwhole =>
    rcases hsign with rfl | rfl
    · obtain ⟨d, tail, rfl, hd⟩ := hwhole.exists_cons
      exact ⟨d, _, rfl, .inl hd⟩
    · exact ⟨'-', _, rfl, .inr rfl⟩

theorem isBlank_of_isDigit {d : Char} (hd : d.isDigit = true ∨ d = '-') : isBlank d = false := by
  rw [← Bool.not_eq_true]
  simp only [isBlank, Bool.or_eq_true, beq_iff_eq]
  rintro (((rfl | rfl) | rfl) | rfl) <;> simp at hd

/-- A number is read where it does not go on. -/
theorem readNumber?_of_isNumber (h : IsNumber cs) (hrest : ∀ c ∈ rest.head?, goesOn c = false) :
    readNumber? (cs ++ rest) = some (.number (String.ofList cs), rest) := by
  cases h with
  | @mk sign whole fraction exponent hsign hwhole hfraction hexponent =>
    have hend := hexponent.head hrest
    have hmid := hfraction.head fun c hc => (hend c hc).1
    have hread := readWhole?_append hwhole hmid
    have hread' := readFraction?_append hfraction hend
    have hread'' := readExponent?_append hexponent hrest
    obtain ⟨d, tail, rfl, hd⟩ := hwhole.exists_cons
    have hminus : d ≠ '-' := by rintro rfl; cases hd
    rw [List.cons_append] at hread
    rcases hsign with rfl | rfl
    all_goals simp [readNumber?, hminus, hread, hread', hread'', String.append_assoc]

end Numbers

section Blanks

theorem Blanks.append (hcs : Blanks cs) (hds : Blanks ds) : Blanks (cs ++ ds) :=
  List.forall_mem_append.2 ⟨hcs, hds⟩

theorem blanks_nil : Blanks [] := by
  simp [Blanks]

theorem skip_append (h : Blanks cs) (rest : List Char) : skip (cs ++ rest) = skip rest :=
  List.dropWhile_append_of_pos h

theorem skip_cons {c : Char} (hc : isBlank c = false) (rest : List Char) :
    skip (c :: rest) = c :: rest := by
  simp [skip, hc]

theorem skip_eq_nil (h : Blanks cs) : skip cs = [] :=
  List.dropWhile_eq_nil_iff.2 h

theorem readValue_skip {cs ds : List Char} (h : skip cs = skip ds) :
    readValue limit cs = readValue limit ds := by
  cases limit with
  | zero => rw [readValue, readValue]
  | succ limit => rw [readValue, readValue, h]

end Blanks

/-- What may come after a value: the end, a blank, or a mark of an enclosing value. -/
def Follows (rest : List Char) : Prop :=
  ∀ c ∈ rest.head?, isBlank c = true ∨ c ∈ [',', ']', '\x7d']

theorem Follows.goesOn (h : Follows rest) : ∀ c ∈ rest.head?, goesOn c = false := by
  have hmarks : ∀ c ∈ [',', ']', '\x7d'], Json.goesOn c = false :=
    List.all_iff_forall_prop.1 (by decide)
  intro c hc
  rcases h c hc with hblank | hmark
  · simp only [isBlank, Bool.or_eq_true, beq_iff_eq] at hblank
    rcases hblank with ((rfl | rfl) | rfl) | rfl <;> decide
  · exact hmarks c hmark

theorem follows_mark {c : Char} (hc : c ∈ [',', ']', '\x7d']) (rest : List Char) :
    Follows (c :: rest) := by
  rintro d ⟨⟩
  exact .inr hc

theorem Follows.blanks_append (h : Follows rest) (hcs : Blanks cs) : Follows (cs ++ rest) := by
  cases cs with
  | nil => exact h
  | cons c cs =>
    rintro d ⟨⟩
    exact .inl (hcs c (by simp))

/-- A value starts with a character that is neither a blank nor the end of an array. -/
theorem Spells.exists_cons {j : Json} (h : Spells j cs) :
    ∃ c tail, cs = c :: tail ∧ isBlank c = false ∧ c ≠ ']' := by
  cases h with
  | bool value => cases value <;> exact ⟨_, _, rfl, by decide⟩
  | number hnumber =>
    obtain ⟨d, tail, hcs, hd⟩ := hnumber.exists_cons
    refine ⟨d, tail, hcs, isBlank_of_isDigit hd, ?_⟩
    rintro rfl
    simp at hd
  | null | string | emptyArray | array | emptyObject | object => exact ⟨_, _, rfl, by decide⟩

theorem Document.exists_skip {j : Json} (h : Document j cs) (rest : List Char) :
    ∃ c tail, skip (cs ++ rest) = c :: tail ∧ c ≠ ']' := by
  cases h with
  | padded hbefore hvalue =>
    obtain ⟨c, tail, rfl, hc, hend⟩ := hvalue.exists_cons
    rw [List.append_assoc, skip_append hbefore]
    exact ⟨c, _, skip_cons hc _, hend⟩

theorem Separated.exists_skip_item {items : List Json} (h : Separated Document items cs)
    (rest : List Char) : ∃ c tail, skip (cs ++ rest) = c :: tail ∧ c ≠ ']' := by
  cases h with
  | last hitem => exact hitem.exists_skip rest
  | cons hitem =>
    rw [List.append_assoc]
    exact hitem.exists_skip _

theorem SpellsMember.exists_skip {m : String × Json} (h : SpellsMember m cs) (rest : List Char) :
    ∃ tail, skip (cs ++ rest) = '"' :: tail := by
  cases h with
  | keyed hbefore =>
    rw [List.append_assoc, skip_append hbefore]
    exact ⟨_, skip_cons (by decide) _⟩

theorem Separated.exists_skip_member {members : List (String × Json)}
    (h : Separated SpellsMember members cs) (rest : List Char) :
    ∃ tail, skip (cs ++ rest) = '"' :: tail := by
  cases h with
  | last hmember => exact hmember.exists_skip rest
  | cons hmember =>
    rw [List.append_assoc]
    exact hmember.exists_skip _

/-- The text is read as the value, up to what may follow. -/
def ReadsValue (j : Json) (cs : List Char) : Prop :=
  ∀ limit rest, 2 * cs.length ≤ limit → Follows rest →
    readValue limit (cs ++ rest) = some (j, rest)

/-- The text is read as the value; blanks at its end are left. -/
def ReadsDocument (j : Json) (cs : List Char) : Prop :=
  ∀ limit rest, 2 * cs.length ≤ limit → Follows rest →
    ∃ blanks, Blanks blanks ∧ readValue limit (cs ++ rest) = some (j, blanks ++ rest)

def ReadsItems (items : List Json) (cs : List Char) : Prop :=
  ∀ limit rest, 2 * cs.length < limit → readItems limit (cs ++ ']' :: rest) = some (items, rest)

/-- The text is read as a member, be it the last one or not. -/
def ReadsMember (m : String × Json) (cs : List Char) : Prop :=
  ∀ limit rest, 2 * cs.length ≤ limit →
    readMembers (limit + 1) (cs ++ '\x7d' :: rest) = some ([m], rest) ∧
    readMembers (limit + 1) (cs ++ ',' :: rest) =
      (readMembers limit rest).map fun (members, after) => (m :: members, after)

def ReadsMembers (members : List (String × Json)) (cs : List Char) : Prop :=
  ∀ limit rest, 2 * cs.length < limit →
    readMembers limit (cs ++ '\x7d' :: rest) = some (members, rest)

/-- A value that needs no inner call is read with any limit but zero. -/
theorem readsValue_of_succ {j : Json} (hne : cs ≠ [])
    (h : ∀ limit rest, Follows rest → readValue (limit + 1) (cs ++ rest) = some (j, rest)) :
    ReadsValue j cs := by
  intro limit rest hlimit hrest
  have hpos := List.length_pos_iff.2 hne
  obtain ⟨limit, rfl⟩ : ∃ k, limit = k + 1 := ⟨limit - 1, by omega⟩
  exact h limit rest hrest

theorem readsValue_null : ReadsValue .null ['n', 'u', 'l', 'l'] :=
  readsValue_of_succ (by simp) fun _ _ _ => rfl

theorem readsValue_bool (value : Bool) :
    ReadsValue (.bool value) (if value then "true" else "false").toList := by
  cases value with
  | false => exact readsValue_of_succ (by decide) fun _ _ _ => rfl
  | true => exact readsValue_of_succ (by decide) fun _ _ _ => rfl

theorem readsValue_number {numeral : String} (h : IsNumber numeral.toList) :
    ReadsValue (.number numeral) numeral.toList := by
  obtain ⟨d, tail, hcs, hd⟩ := h.exists_cons
  refine readsValue_of_succ (by simp [hcs]) fun limit rest hrest => ?_
  have hread := readNumber?_of_isNumber h hrest.goesOn
  rw [String.ofList_toList] at hread
  rw [hcs, List.cons_append] at hread ⊢
  rw [readValue, skip_cons (isBlank_of_isDigit hd)]
  -- a digit or a minus sign starts no other value
  split
  all_goals
    rename_i heq
    first
    | exact hread
    | (obtain ⟨rfl, -⟩ := List.cons.inj heq
       simp at hd)

theorem readsValue_string {value : String} {body : List Char} (h : SpellsText value.toList body) :
    ReadsValue (.string value) ('"' :: (body ++ ['"'])) := by
  refine readsValue_of_succ (by simp) fun limit rest _ => ?_
  have hread : readString ((body ++ '"' :: rest).length + 1) (body ++ '"' :: rest)
      = some (value.toList, rest) :=
    readString_of_spellsText h (by simp only [List.length_append]; omega) rest
  rw [List.cons_append, List.append_assoc, List.singleton_append, readValue, skip_cons (by decide)]
  simp only [hread, Option.map_some, String.ofList_toList]

theorem readsValue_emptyArray {blanks : List Char} (h : Blanks blanks) :
    ReadsValue (.array []) ('[' :: (blanks ++ [']'])) := by
  refine readsValue_of_succ (by simp) fun limit rest _ => ?_
  have hskip : skip (blanks ++ ']' :: rest) = ']' :: rest := by
    rw [skip_append h, skip_cons (by decide)]
  rw [List.cons_append, List.append_assoc, List.singleton_append, readValue, skip_cons (by decide)]
  simp only [hskip]

theorem readsValue_emptyObject {blanks : List Char} (h : Blanks blanks) :
    ReadsValue (.object []) ('\x7b' :: (blanks ++ ['\x7d'])) := by
  refine readsValue_of_succ (by simp) fun limit rest _ => ?_
  have hskip : skip (blanks ++ '\x7d' :: rest) = '\x7d' :: rest := by
    rw [skip_append h, skip_cons (by decide)]
  rw [List.cons_append, List.append_assoc, List.singleton_append, readValue, skip_cons (by decide)]
  simp only [hskip]

theorem readsValue_array {items : List Json} (hitems : Separated Document items cs)
    (h : ReadsItems items cs) : ReadsValue (.array items) ('[' :: (cs ++ [']'])) := by
  intro limit rest hlimit _
  simp only [List.length_cons, List.length_append, List.length_nil] at hlimit
  obtain ⟨limit, rfl⟩ : ∃ k, limit = k + 1 := ⟨limit - 1, by omega⟩
  obtain ⟨c, tail, hskip, hc⟩ := hitems.exists_skip_item (']' :: rest)
  rw [List.cons_append, List.append_assoc, List.singleton_append, readValue, skip_cons (by decide)]
  simp only [hskip]
  split
  · rename_i heq
    exact absurd (List.cons.inj heq).1 hc
  · rw [h limit rest (by omega), Option.map_some]

theorem readsValue_object {members : List (String × Json)}
    (hmembers : Separated SpellsMember members cs) (h : ReadsMembers members cs) :
    ReadsValue (.object members) ('\x7b' :: (cs ++ ['\x7d'])) := by
  intro limit rest hlimit _
  simp only [List.length_cons, List.length_append, List.length_nil] at hlimit
  obtain ⟨limit, rfl⟩ : ∃ k, limit = k + 1 := ⟨limit - 1, by omega⟩
  obtain ⟨tail, hskip⟩ := hmembers.exists_skip_member ('\x7d' :: rest)
  rw [List.cons_append, List.append_assoc, List.singleton_append, readValue, skip_cons (by decide)]
  simp only [hskip]
  split
  · rename_i heq
    exact absurd (List.cons.inj heq).1 (by decide)
  · rw [h limit rest (by omega), Option.map_some]

theorem readsDocument_padded {j : Json} {before after : List Char} (hbefore : Blanks before)
    (hafter : Blanks after) (h : ReadsValue j cs) :
    ReadsDocument j (before ++ (cs ++ after)) := by
  intro limit rest hlimit hrest
  simp only [List.length_append] at hlimit
  refine ⟨after, hafter, ?_⟩
  rw [List.append_assoc, readValue_skip (skip_append hbefore _), List.append_assoc]
  exact h limit _ (by omega) (hrest.blanks_append hafter)

theorem readsItems_last {item : Json} (h : ReadsDocument item cs) : ReadsItems [item] cs := by
  intro limit rest hlimit
  obtain ⟨limit, rfl⟩ : ∃ k, limit = k + 1 := ⟨limit - 1, by omega⟩
  obtain ⟨blanks, hblanks, hread⟩ := h limit (']' :: rest) (by omega) (follows_mark (by decide) _)
  have hskip : skip (blanks ++ ']' :: rest) = ']' :: rest := by
    rw [skip_append hblanks, skip_cons (by decide)]
  rw [readItems, hread]
  simp only [hskip]

theorem readsItems_cons {item : Json} {items : List Json} (h : ReadsDocument item cs)
    (hitems : ReadsItems items ds) : ReadsItems (item :: items) (cs ++ ',' :: ds) := by
  intro limit rest hlimit
  simp only [List.length_append, List.length_cons] at hlimit
  obtain ⟨limit, rfl⟩ : ∃ k, limit = k + 1 := ⟨limit - 1, by omega⟩
  obtain ⟨blanks, hblanks, hread⟩ := h limit (',' :: (ds ++ ']' :: rest)) (by omega)
    (follows_mark (by decide) _)
  have hskip : skip (blanks ++ ',' :: (ds ++ ']' :: rest)) = ',' :: (ds ++ ']' :: rest) := by
    rw [skip_append hblanks, skip_cons (by decide)]
  rw [List.append_assoc, List.cons_append, readItems, hread]
  simp only [hskip, hitems limit rest (by omega), Option.map_some]

theorem readsMember_keyed {key : String} {value : Json} {before body mid : List Char}
    (hbefore : Blanks before) (hkey : SpellsText key.toList body) (hmid : Blanks mid)
    (h : ReadsDocument value cs) :
    ReadsMember (key, value) (before ++ '"' :: (body ++ '"' :: (mid ++ ':' :: cs))) := by
  intro limit rest hlimit
  simp only [List.length_append, List.length_cons] at hlimit
  -- both marks end the value, and what comes after them is decided by the mark alone
  have hmember (mark : Char) (hmark : mark ∈ [',', ']', '\x7d']) (hblank : isBlank mark = false) :
      ∃ blanks, skip (blanks ++ mark :: rest) = mark :: rest ∧
        skip (before ++ '"' :: (body ++ '"' :: (mid ++ ':' :: cs)) ++ mark :: rest)
          = '"' :: (body ++ '"' :: (mid ++ ':' :: (cs ++ mark :: rest))) ∧
        readString ((body ++ '"' :: (mid ++ ':' :: (cs ++ mark :: rest))).length + 1)
          (body ++ '"' :: (mid ++ ':' :: (cs ++ mark :: rest)))
            = some (key.toList, mid ++ ':' :: (cs ++ mark :: rest)) ∧
        skip (mid ++ ':' :: (cs ++ mark :: rest)) = ':' :: (cs ++ mark :: rest) ∧
        readValue limit (cs ++ mark :: rest) = some (value, blanks ++ mark :: rest) := by
    obtain ⟨blanks, hblanks, hread⟩ := h limit (mark :: rest) (by omega) (follows_mark hmark rest)
    refine ⟨blanks, ?_, ?_, ?_, ?_, hread⟩
    · rw [skip_append hblanks, skip_cons hblank]
    · simp only [List.append_assoc, List.cons_append]
      rw [skip_append hbefore, skip_cons (by decide)]
    · exact readString_of_spellsText hkey (by simp only [List.length_append]; omega) _
    · rw [skip_append hmid, skip_cons (by decide)]
  constructor
  · obtain ⟨blanks, hend, hstart, hstring, hcolon, hread⟩ := hmember '\x7d'
      (by decide) (by decide)
    rw [readMembers, hstart]
    simp only [hstring, hcolon, hread, hend, String.ofList_toList]
  · obtain ⟨blanks, hend, hstart, hstring, hcolon, hread⟩ := hmember ','
      (by decide) (by decide)
    rw [readMembers, hstart]
    simp only [hstring, hcolon, hread, hend, String.ofList_toList]

theorem readsMembers_last {m : String × Json} (h : ReadsMember m cs) : ReadsMembers [m] cs := by
  intro limit rest hlimit
  obtain ⟨limit, rfl⟩ : ∃ k, limit = k + 1 := ⟨limit - 1, by omega⟩
  exact (h limit rest (by omega)).1

theorem readsMembers_cons {m : String × Json} {members : List (String × Json)}
    (h : ReadsMember m cs) (hmembers : ReadsMembers members ds) :
    ReadsMembers (m :: members) (cs ++ ',' :: ds) := by
  intro limit rest hlimit
  simp only [List.length_append, List.length_cons] at hlimit
  obtain ⟨limit, rfl⟩ : ∃ k, limit = k + 1 := ⟨limit - 1, by omega⟩
  rw [List.append_assoc, List.cons_append, (h limit _ (by omega)).2,
    hmembers limit rest (by omega), Option.map_some]

/-- By induction on how the text is put together; one lemma for each rule. -/
theorem Document.reads {j : Json} (h : Document j cs) : ReadsDocument j cs :=
  @Document.rec (fun j cs _ => ReadsValue j cs) (fun j cs _ => ReadsDocument j cs)
    (fun m cs _ => ReadsMember m cs) (fun items cs _ => ReadsItems items cs)
    (fun members cs _ => ReadsMembers members cs) readsValue_null readsValue_bool
    readsValue_number readsValue_string readsValue_emptyArray readsValue_array
    readsValue_emptyObject readsValue_object
    (fun hbefore _ hafter => readsDocument_padded hbefore hafter)
    (fun hbefore hkey hmid _ => readsMember_keyed hbefore hkey hmid) (fun _ => readsItems_last)
    (fun _ _ => readsItems_cons) (fun _ => readsMembers_last) (fun _ _ => readsMembers_cons) j cs h

/-- Every text of a value is read as the value. -/
theorem parse?_of_document {j : Json} {text : String} (h : Document j text.toList) :
    parse? text = some j := by
  obtain ⟨blanks, hblanks, hread⟩ := h.reads (2 * text.toList.length + 2) [] (by omega)
    (by rintro c ⟨⟩)
  rw [List.append_nil, List.append_nil] at hread
  simp [parse?, hread, skip_eq_nil hblanks]

section Written

/-- All numbers are written as numbers. -/
inductive WellFormed : Json → Prop
  | null : WellFormed .null
  | bool (value : Bool) : WellFormed (.bool value)
  | number {numeral : String} : IsNumber numeral.toList → WellFormed (.number numeral)
  | string (value : String) : WellFormed (.string value)
  | array {items : List Json} : (∀ item ∈ items, WellFormed item) → WellFormed (.array items)
  | object {members : List (String × Json)} : (∀ m ∈ members, WellFormed m.2) →
      WellFormed (.object members)

theorem spellsChar_escape (c : Char) : SpellsChar c (escape c) := by
  have hfour : ∀ n < 0x20,
      hexFour? '0' '0' (Nat.digitChar (n / 16)) (Nat.digitChar (n % 16)) = some n := by
    decide
  unfold escape
  split_ifs with h₁ h₂ h₃ h₄ h₅ h₆ h₇ h₈
  · exact .short (by rw [h₁]; rfl)
  · exact .short (by rw [h₂]; rfl)
  · exact .short (by rw [h₃]; rfl)
  · exact .short (by rw [h₄]; rfl)
  · exact .short (by rw [h₅]; rfl)
  · exact .short (by rw [h₆]; rfl)
  · exact .short (by rw [h₇]; rfl)
  · exact .hex (hfour c.toNat h₈)
  · exact .verbatim (not_lt.1 h₈) h₁ h₂

theorem spellsText_escape (text : List Char) : SpellsText text (text.flatMap escape) := by
  induction text with
  | nil => exact .nil
  | cons c text ih => exact .cons (spellsChar_escape c) ih

theorem spells_quote (value : String) : Spells (.string value) (quote value).toList := by
  rw [quote, String.toList_ofList]
  exact .string (spellsText_escape value.toList)

theorem Document.pad {j : Json} {before after : List Char} (hbefore : Blanks before)
    (h : Document j cs) (hafter : Blanks after) : Document j (before ++ (cs ++ after)) := by
  cases h with
  | padded hb hvalue ha =>
    have hpadded := Document.padded (hbefore.append hb) hvalue (ha.append hafter)
    simpa only [List.append_assoc] using hpadded

theorem SpellsMember.pad {m : String × Json} {before after : List Char} (hbefore : Blanks before)
    (h : SpellsMember m cs) (hafter : Blanks after) :
    SpellsMember m (before ++ (cs ++ after)) := by
  cases h with
  | keyed hb hkey hmid hvalue =>
    have hkeyed := SpellsMember.keyed (hbefore.append hb) hkey hmid (hvalue.pad blanks_nil hafter)
    simpa only [List.append_assoc, List.cons_append, List.nil_append] using hkeyed

theorem Spells.document {j : Json} (h : Spells j cs) : Document j cs := by
  simpa using Document.padded blanks_nil h blanks_nil

/-- A member with some blanks after its colon. -/
theorem spellsMember_quote {value : Json} {gap : List Char} (key : String) (hgap : Blanks gap)
    (h : Spells value cs) :
    SpellsMember (key, value) ((quote key).toList ++ ':' :: (gap ++ cs)) := by
  have hvalue : Document value (gap ++ cs) := by
    simpa using Document.padded hgap h blanks_nil
  have hkeyed := SpellsMember.keyed blanks_nil (spellsText_escape key.toList) blanks_nil hvalue
  simpa [quote] using hkeyed

/-- Texts written one after the other, with a comma and blanks between any two of them. -/
theorem separated_of_forall {α : Type} {P : α → List Char → Prop} {write : α → List Char}
    {lead gap tail : List Char}
    (hpad : ∀ {a cs before after}, Blanks before → P a cs → Blanks after →
      P a (before ++ (cs ++ after)))
    (hgap : Blanks gap) (htail : Blanks tail) (hlead : Blanks lead) (a : α) (as : List α)
    (h : ∀ b ∈ a :: as, P b (write b)) :
    Separated P (a :: as)
      (lead ++ (write a ++ (as.flatMap (fun b => ',' :: (gap ++ write b)) ++ tail))) := by
  induction as generalizing a lead with
  | nil => exact .last (hpad hlead (h a (by simp)) htail)
  | cons b as ih =>
    have hfirst := hpad hlead (h a (by simp)) blanks_nil
    have hrest := ih hgap b fun c hc => h c (List.mem_cons_of_mem a hc)
    simpa only [List.append_nil, List.flatMap_cons, List.append_assoc, List.cons_append]
      using Separated.cons hfirst hrest

theorem compactItems_eq (items : List Json) : compactItems items = items.map compact := by
  induction items with
  | nil => rfl
  | cons item items ih => rw [compactItems, ih, List.map_cons]

theorem compactMembers_eq (members : List (String × Json)) :
    compactMembers members = members.map fun m => quote m.1 ++ ":" ++ compact m.2 := by
  induction members with
  | nil => rfl
  | cons m members ih => rw [compactMembers, ih, List.map_cons]

theorem prettyItems_eq (depth : Nat) (items : List Json) :
    prettyItems depth items = items.map (prettyAt depth) := by
  induction items with
  | nil => rfl
  | cons item items ih => rw [prettyItems, ih, List.map_cons]

theorem prettyMembers_eq (depth : Nat) (members : List (String × Json)) :
    prettyMembers depth members
      = members.map fun m => quote m.1 ++ ": " ++ prettyAt depth m.2 := by
  induction members with
  | nil => rfl
  | cons m members ih => rw [prettyMembers, ih, List.map_cons]

theorem blanks_indent (depth : Nat) : Blanks (indent depth).toList := by
  rw [indent, String.toList_ofList]
  intro c hc
  rw [List.eq_of_mem_replicate hc]
  rfl

theorem blanks_line (depth : Nat) : Blanks ('\n' :: (indent depth).toList) :=
  List.forall_mem_cons.2 ⟨rfl, blanks_indent depth⟩

section Lists

variable {α : Type} {P : α → List Char → Prop} (write : α → String)
  (hpad : ∀ {a cs before after}, Blanks before → P a cs → Blanks after →
    P a (before ++ (cs ++ after)))

include hpad

theorem separated_intercalate (a : α) (as : List α) (h : ∀ b ∈ a :: as, P b (write b).toList) :
    Separated P (a :: as) (String.intercalate "," ((a :: as).map write)).toList := by
  have hseparated := separated_of_forall hpad blanks_nil blanks_nil blanks_nil a as h
  rw [List.map_cons, toList_intercalate_cons]
  simpa [List.flatMap_map] using hseparated

/-- The lines of a block stand between its brackets. -/
theorem exists_block (opener closer : String) (depth : Nat) (a : α) (as : List α)
    (h : ∀ b ∈ a :: as, P b (write b).toList) :
    ∃ cs, (block opener closer depth ((a :: as).map write)).toList
        = opener.toList ++ (cs ++ closer.toList) ∧ Separated P (a :: as) cs := by
  have hseparated := separated_of_forall hpad (blanks_line (depth + 1)) (blanks_line depth)
    (blanks_line (depth + 1)) a as h
  refine ⟨_, ?_, hseparated⟩
  rw [List.map_cons, block, List.map_cons]
  · simp only [String.toList_append, toList_intercalate_cons, List.flatMap_map]
    simp
  · simp

end Lists

/-- By induction on the value: the items of an array and the members of an object are written by
the same rule. -/
theorem WellFormed.spells_compact {j : Json} (h : WellFormed j) : Spells j j.compact.toList := by
  induction h with
  | null => exact .null
  | bool value => exact .bool value
  | number hnumber => exact .number hnumber
  | string value => exact spells_quote value
  | @array items _ ih =>
    cases items with
    | nil => exact .emptyArray blanks_nil
    | cons item items =>
      have hitems := separated_intercalate compact Document.pad item items
        fun b hb => (ih b hb).document
      simpa [compact, compactItems_eq] using Spells.array hitems
  | @object members _ ih =>
    cases members with
    | nil => exact .emptyObject blanks_nil
    | cons m members =>
      have hmembers := separated_intercalate (fun m => quote m.1 ++ ":" ++ compact m.2)
        SpellsMember.pad m members fun b hb => by
          simpa using spellsMember_quote b.1 blanks_nil (ih b hb)
      simpa [compact, compactMembers_eq] using Spells.object hmembers

theorem WellFormed.spells_prettyAt {j : Json} (h : WellFormed j) (depth : Nat) :
    Spells j (prettyAt depth j).toList := by
  induction h generalizing depth with
  | null =>
    rw [prettyAt]
    exact .null
  | bool value => exact .bool value
  | number hnumber => exact .number hnumber
  | string value => exact spells_quote value
  | @array items _ ih =>
    cases items with
    | nil =>
      rw [prettyAt, prettyItems, block]
      exact .emptyArray blanks_nil
    | cons item items =>
      obtain ⟨cs, hcs, hitems⟩ := exists_block (prettyAt (depth + 1)) Document.pad "[" "]" depth
        item items fun b hb => (ih b hb (depth + 1)).document
      rw [prettyAt, prettyItems_eq, hcs]
      exact .array hitems
  | @object members _ ih =>
    cases members with
    | nil =>
      rw [prettyAt, prettyMembers, block]
      exact .emptyObject blanks_nil
    | cons m members =>
      have hgap : Blanks [' '] := by simp [Blanks, isBlank]
      obtain ⟨cs, hcs, hmembers⟩ := exists_block
        (fun m => quote m.1 ++ ": " ++ prettyAt (depth + 1) m.2) SpellsMember.pad "\x7b" "\x7d"
        depth m members fun b hb => by
          simpa using spellsMember_quote b.1 hgap (ih b hb (depth + 1))
      rw [prettyAt, prettyMembers_eq, hcs]
      exact .object hmembers

/-- The written forms of a value are texts of it. -/
theorem WellFormed.document {j : Json} (h : WellFormed j) :
    Document j j.compact.toList ∧ Document j j.pretty.toList :=
  ⟨h.spells_compact.document, (h.spells_prettyAt 0).document⟩

end Written

end Stencil.Json
