import Mathlib.Data.Bool.AllAny
import Mathlib.Data.List.DropRight
import Stencil.Text.Blank
import Stencil.Text.Quoted

/-!
# Scanning and trimming

What a scan takes off the front of a text that is known to stop it, what trimming leaves alone, and
how quoted text is read back.
-/

namespace Stencil.Text

section Scan
variable {α : Type} {p : α → Bool} {xs ys : List α}

theorem takeWhile_of_stop (hy : ∀ y ∈ ys.head?, p y = false) : ys.takeWhile p = [] := by
  cases ys with
  | nil => rfl
  | cons y ys => simp [hy y rfl]

theorem dropWhile_of_stop (hy : ∀ y ∈ ys.head?, p y = false) : ys.dropWhile p = ys := by
  cases ys with
  | nil => rfl
  | cons y ys => simp [hy y rfl]

theorem takeWhile_append_of_stop (hx : ∀ x ∈ xs, p x = true) (hy : ∀ y ∈ ys.head?, p y = false) :
    (xs ++ ys).takeWhile p = xs := by
  rw [List.takeWhile_append_of_pos hx, takeWhile_of_stop hy, List.append_nil]

theorem dropWhile_append_of_stop (hx : ∀ x ∈ xs, p x = true) (hy : ∀ y ∈ ys.head?, p y = false) :
    (xs ++ ys).dropWhile p = ys := by
  rw [List.dropWhile_append_of_pos hx, dropWhile_of_stop hy]

theorem head?_dropWhile (xs : List α) : ∀ x ∈ (xs.dropWhile p).head?, p x = false := by
  intro x hx
  have := List.head?_dropWhile_not p xs
  rw [Option.mem_def.1 hx] at this
  simpa using this

/-- A scan stops at the rest that it left, or else at what is added. -/
theorem head?_dropWhile_append (h : xs.dropWhile p = [] → ∀ y ∈ ys.head?, p y = false) :
    ∀ y ∈ (xs.dropWhile p ++ ys).head?, p y = false := by
  by_cases hrest : xs.dropWhile p = []
  · rw [hrest]
    exact h hrest
  · rw [List.head?_append_of_ne_nil _ hrest]
    exact head?_dropWhile xs

theorem takeWhile_append_of_rest (h : xs.dropWhile p = [] → ∀ y ∈ ys.head?, p y = false) :
    (xs ++ ys).takeWhile p = xs.takeWhile p := by
  have hin : ∀ x ∈ xs.takeWhile p, p x = true := fun x hx => List.mem_takeWhile_imp hx
  have hscan := takeWhile_append_of_stop hin (head?_dropWhile_append h)
  rwa [← List.append_assoc, List.takeWhile_append_dropWhile] at hscan

theorem dropWhile_append_of_rest (h : xs.dropWhile p = [] → ∀ y ∈ ys.head?, p y = false) :
    (xs ++ ys).dropWhile p = xs.dropWhile p ++ ys := by
  have hin : ∀ x ∈ xs.takeWhile p, p x = true := fun x hx => List.mem_takeWhile_imp hx
  have hscan := dropWhile_append_of_stop hin (head?_dropWhile_append h)
  rwa [← List.append_assoc, List.takeWhile_append_dropWhile] at hscan

end Scan

theorem bne_of_not_mem {c : Char} {cs : List Char} (h : c ∉ cs) : ∀ d ∈ cs, (d != c) = true := by
  intro d hd
  rw [bne_iff_ne]
  rintro rfl
  exact h hd

/-- A text that trimming leaves alone: it is not empty and neither end of it is white. -/
structure Trimmed (cs : List Char) : Prop where
  head : ∃ c ∈ cs.head?, isWhite c = false
  last : ∃ c ∈ cs.getLast?, isWhite c = false

namespace Trimmed

theorem singleton {c : Char} (hc : isWhite c = false) : Trimmed [c] :=
  ⟨⟨c, rfl, hc⟩, ⟨c, rfl, hc⟩⟩

theorem ne_nil {cs : List Char} (h : Trimmed cs) : cs ≠ [] := by
  rintro rfl
  simpa using h.head

theorem of_forall {cs : List Char} (hne : cs ≠ []) (h : ∀ c ∈ cs, isWhite c = false) :
    Trimmed cs :=
  ⟨⟨cs.head hne, List.head?_eq_some_head hne, h _ (List.head_mem hne)⟩,
    ⟨cs.getLast hne, List.getLast?_eq_some_getLast hne, h _ (List.getLast_mem hne)⟩⟩

theorem append {cs ds : List Char} (mid : List Char) (hc : Trimmed cs) (hd : Trimmed ds) :
    Trimmed (cs ++ mid ++ ds) := by
  obtain ⟨c, hc, hw⟩ := hc.head
  obtain ⟨d, hd, hv⟩ := hd.last
  constructor
  · exact ⟨c, by simp_all, hw⟩
  · exact ⟨d, by simp_all, hv⟩

theorem trimChars_eq {cs : List Char} (h : Trimmed cs) : trimChars cs = cs := by
  obtain ⟨c, hc, hw⟩ := h.head
  obtain ⟨d, hd, hv⟩ := h.last
  have hfront : cs.dropWhile isWhite = cs := dropWhile_of_stop (by simp_all)
  have hback : cs.reverse.dropWhile isWhite = cs.reverse := dropWhile_of_stop (by simp_all)
  rw [trimChars, hfront, hback, List.reverse_reverse]

end Trimmed

/-- What trimming leaves is trimmed. -/
theorem trimmed_trimChars {cs : List Char} (h : trimChars cs ≠ []) : Trimmed (trimChars cs) := by
  constructor
  · obtain ⟨rest, hrest⟩ : trimChars cs <+: cs.dropWhile isWhite := List.rdropWhile_prefix isWhite _
    obtain ⟨c, tail, hcons⟩ := List.exists_cons_of_ne_nil h
    refine ⟨c, by rw [hcons]; rfl, ?_⟩
    apply head?_dropWhile cs
    rw [← hrest, hcons]
    rfl
  · have hne : (cs.dropWhile isWhite).reverse.dropWhile isWhite ≠ [] := by
      intro h0
      exact h (by rw [trimChars, h0]; rfl)
    obtain ⟨c, tail, hcons⟩ := List.exists_cons_of_ne_nil hne
    refine ⟨c, by rw [trimChars, hcons]; simp, ?_⟩
    apply head?_dropWhile (cs.dropWhile isWhite).reverse
    rw [hcons]
    rfl

theorem trimChars_trimChars (cs : List Char) : trimChars (trimChars cs) = trimChars cs := by
  by_cases h : trimChars cs = []
  · rw [h]; rfl
  · exact (trimmed_trimChars h).trimChars_eq

section Ascii
variable {c : Char}

theorem isDigit_iff : c.isDigit = true ↔ 48 ≤ c.toNat ∧ c.toNat ≤ 57 := by
  simp only [Char.isDigit, Bool.and_eq_true, decide_eq_true_eq, UInt32.le_iff_toNat_le, ge_iff_le]
  rfl

theorem isAlpha_iff :
    c.isAlpha = true ↔ (65 ≤ c.toNat ∧ c.toNat ≤ 90) ∨ (97 ≤ c.toNat ∧ c.toNat ≤ 122) := by
  have hranges : c.isAlpha = (decide ('A'.val ≤ c.val ∧ c.val ≤ 'Z'.val) ||
      (decide ('a'.val ≤ c.val) && decide (c.val ≤ 'z'.val))) := rfl
  simp only [hranges, Bool.or_eq_true, Bool.and_eq_true, decide_eq_true_eq,
    UInt32.le_iff_toNat_le]
  rfl

theorem isAlpha_of_isDigit (h : c.isDigit = true) : c.isAlpha = false := by
  rw [isDigit_iff] at h
  rw [← Bool.not_eq_true, isAlpha_iff]
  omega

theorem isWhite_of_isAlphanum (h : c.isAlphanum = true) : isWhite c = false := by
  rw [Char.isAlphanum, Bool.or_eq_true, isAlpha_iff, isDigit_iff] at h
  simp only [isWhite, Bool.or_eq_false_iff, Bool.and_eq_false_iff, decide_eq_false_iff_not,
    beq_eq_false_iff_ne]
  omega

theorem isGap_of_isWhite (h : isWhite c = false) : isGap c = false := by
  simp only [isGap, Bool.or_eq_false_iff, beq_eq_false_iff_ne]
  refine ⟨⟨⟨?_, ?_⟩, ?_⟩, ?_⟩ <;> rintro rfl <;> simp [isWhite] at h

end Ascii

namespace Quoted

theorem readBody_cons {quote c : Char} (hc : c ≠ '\\') (rest : List Char) :
    readBody quote (c :: rest) = if c = quote then some ([], rest)
      else (readBody quote rest).map fun (text, after) => (c :: text, after) := by
  rw [readBody]
  · exact fun h _ => hc h
  · exact fun _ _ h _ => hc h

theorem ne_backslash {c : Char} {tail : List Char} (hnil : c = '\\' → tail = [] → False)
    (hcons : ∀ d rest, c = '\\' → tail = d :: rest → False) : c ≠ '\\' := by
  intro h
  cases tail with
  | nil => exact hnil h rfl
  | cons d rest => exact hcons d rest h rfl

/-- What follows a closed quotation plays no part in how it is read. -/
theorem readBody_append {quote : Char} {cs text : List Char} (rest : List Char)
    (h : readBody quote cs = some (text, [])) :
    readBody quote (cs ++ rest) = some (text, rest) := by
  fun_induction readBody quote cs generalizing text with
  | case1 => cases h
  | case2 => cases h
  | case3 c tail ih =>
    obtain ⟨⟨t, a⟩, hr, he⟩ := Option.map_eq_some_iff.1 h
    cases he
    rw [List.cons_append, List.cons_append, readBody, ih hr]
    rfl
  | case4 tail hnil hcons =>
    cases h
    rw [List.cons_append, readBody_cons (ne_backslash hnil hcons), if_pos rfl, List.nil_append]
  | case5 c tail hnil hcons hc ih =>
    obtain ⟨⟨t, a⟩, hr, he⟩ := Option.map_eq_some_iff.1 h
    cases he
    rw [List.cons_append, readBody_cons (ne_backslash hnil hcons), if_neg hc, ih hr]
    rfl

/-- Characters that are neither a quote nor a backslash stand for themselves. -/
theorem readBody_verbatim {quote : Char} {cs : List Char} (rest : List Char)
    (h : ∀ c ∈ cs, c ≠ '\\' ∧ c ≠ quote) :
    readBody quote (cs ++ rest) =
      (readBody quote rest).map fun (text, after) => (cs ++ text, after) := by
  induction cs with
  | nil => simp
  | cons c cs ih =>
    obtain ⟨hc, hq⟩ := h c (by simp)
    rw [List.cons_append, readBody_cons hc, if_neg hq, ih fun d hd => h d (by simp [hd]),
      Option.map_map]
    rfl

/-- How a character is read from its written form: an escape of four digits is read as the letter
`u` and those digits. -/
def readBack (c : Char) : List Char :=
  if isHexEscaped c then 'u' :: hexFour c.toNat else [c]

theorem toNat_of_isHexEscaped {c : Char} (h : isHexEscaped c = true) :
    c.toNat < 0x20 ∨ c.toNat = 0x2028 ∨ c.toNat = 0x2029 := by
  simp only [isHexEscaped, Bool.or_eq_true, Bool.and_eq_true, decide_eq_true_eq, beq_iff_eq] at h
  omega

/-- A property of the four digits of an escape holds if it holds for the few escaped characters. -/
theorem hexFour_of_isHexEscaped {P : Nat → List Char → Prop} (hlow : ∀ n < 0x20, P n (hexFour n))
    (hline : P 0x2028 (hexFour 0x2028)) (hparagraph : P 0x2029 (hexFour 0x2029)) {c : Char}
    (h : isHexEscaped c = true) : P c.toNat (hexFour c.toNat) := by
  rcases toNat_of_isHexEscaped h with hc | hc | hc
  · exact hlow _ hc
  · rwa [hc]
  · rwa [hc]

/-- The three written forms of a character. -/
theorem escape_cases (c : Char) :
    (isHexEscaped c = true ∧ escape c = '\\' :: 'u' :: hexFour c.toNat) ∨
    (isHexEscaped c = false ∧ ∃ d ∈ ['\\', '"', 'n', 'r', 't'],
      escape c = ['\\', d] ∧ unescape d = c) ∨
    (isHexEscaped c = false ∧ escape c = [c] ∧ c ≠ '\\' ∧ c ≠ '"') := by
  by_cases hspecial : c ∈ ['\\', '"', '\n', '\r', '\t']
  · right; left
    simp only [List.mem_cons, List.not_mem_nil, or_false] at hspecial
    rcases hspecial with rfl | rfl | rfl | rfl | rfl
    · exact ⟨rfl, '\\', by decide, rfl, rfl⟩
    · exact ⟨rfl, '"', by decide, rfl, rfl⟩
    · exact ⟨rfl, 'n', by decide, rfl, rfl⟩
    · exact ⟨rfl, 'r', by decide, rfl, rfl⟩
    · exact ⟨rfl, 't', by decide, rfl, rfl⟩
  · simp only [List.mem_cons, List.not_mem_nil, or_false, not_or] at hspecial
    obtain ⟨h1, h2, h3, h4, h5⟩ := hspecial
    cases hhex : isHexEscaped c with
    | true => left; simp [escape, h1, h2, h3, h4, h5, hhex]
    | false => right; right; simp [escape, h1, h2, h3, h4, h5, hhex]

theorem readBody_escape (c : Char) (rest : List Char) :
    readBody '"' (escape c ++ rest) =
      (readBody '"' rest).map fun (text, after) => (readBack c ++ text, after) := by
  rcases escape_cases c with ⟨hhex, he⟩ | ⟨hhex, d, -, he, hd⟩ | ⟨hhex, he, hne, hq⟩
  · have hverbatim : ∀ d ∈ hexFour c.toNat, d ≠ '\\' ∧ d ≠ '"' :=
      List.all_iff_forall_prop.1 <| hexFour_of_isHexEscaped
        (P := fun _ ds => ds.all fun d => d ≠ '\\' ∧ d ≠ '"') (by decide) (by decide)
        (by decide) hhex
    rw [he, readBack, if_pos hhex, List.cons_append, List.cons_append, readBody,
      readBody_verbatim rest hverbatim, Option.map_map]
    rfl
  · rw [he, List.cons_append, List.cons_append, List.nil_append, readBody, hd]
    simp [readBack, hhex]
  · rw [he, List.singleton_append, readBody_cons hne, if_neg hq]
    simp [readBack, hhex]

/-- Written text is read back up to the escapes of four digits. -/
theorem readBody_encode (cs rest : List Char) :
    readBody '"' (cs.flatMap escape ++ '"' :: rest) = some (cs.flatMap readBack, rest) := by
  induction cs with
  | nil => simp [readBody_cons]
  | cons c cs ih => simp [readBody_escape, ih]

/-- Without escapes of four digits, text is read back as it was. -/
theorem flatMap_readBack {cs : List Char} (h : cs.all (fun c => !isHexEscaped c) = true) :
    cs.flatMap readBack = cs := by
  induction cs with
  | nil => rfl
  | cons c cs ih =>
    simp only [List.all_cons, Bool.and_eq_true, Bool.not_eq_true'] at h
    simp [readBack, h.1, ih h.2]

end Quoted

end Stencil.Text
