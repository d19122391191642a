import Mathlib.Data.String.Basic
import Stencil.Proofs.EarlyEnds

/-!
# Texts as bytes

The bytes of a text in UTF-8. A character below 0x80 is one byte with its own number, and all bytes
of any other character are 0x80 or more. A test that treats all characters beyond ASCII alike can
therefore be made on the bytes: it stops between two characters, and a text of ASCII characters is
found in the bytes only where it is found in the characters.
-/

namespace Stencil.Markup

/-- The bytes of a character, each as the character of its number. -/
def unitsOf (c : Char) : List Char :=
  (String.utf8EncodeChar c).map fun b => Char.ofNat b.toNat

/-- The bytes of a text, each as the character of its number. -/
def units (source : String) : List Char :=
  source.toByteArray.data.toList.map fun b => Char.ofNat b.toNat

variable {c u : Char} {cs us more : List Char} {p : Char → Bool}

theorem units_eq (source : String) : units source = source.toList.flatMap unitsOf := by
  have hbytes : source.toByteArray = (source.toList.flatMap String.utf8EncodeChar).toByteArray := by
    rw [← String.utf8Encode_toList, List.utf8Encode]
  rw [units, hbytes, List.data_toByteArray, List.toList_toArray, List.map_flatMap]
  rfl

theorem unitsOf_ascii (h : c.toNat < 0x80) : unitsOf c = [c] := by
  have hencode : String.utf8EncodeChar c = [UInt8.ofNat c.toNat] :=
    if_pos (Nat.le_of_lt_succ h)
  have hbyte : (UInt8.ofNat c.toNat).toNat = c.toNat := by
    rw [UInt8.toNat_ofNat', Nat.mod_eq_of_lt (by omega)]
  rw [unitsOf, hencode, List.map_singleton, hbyte, Char.ofNat_toNat]

theorem unitsOf_ne_nil (c : Char) : unitsOf c ≠ [] := by
  simp [unitsOf]

theorem length_unitsOf (c : Char) : (unitsOf c).length = c.utf8Size := by
  simp [unitsOf]

theorem length_flatMap_unitsOf (cs : List Char) : (cs.flatMap unitsOf).length = byteLength cs := by
  induction cs with
  | nil => rfl
  | cons c cs ih => rw [List.flatMap_cons, List.length_append, length_unitsOf, ih, byteLength]

/-- No byte of a character beyond ASCII is an ASCII character. -/
theorem le_of_mem_unitsOf (h : 0x80 ≤ c.toNat) (hu : u ∈ unitsOf c) : 0x80 ≤ u.toNat := by
  obtain ⟨b, hb, rfl⟩ := List.mem_map.1 hu
  have hlt : b.toNat < 256 := b.toNat_lt
  have hchar : (Char.ofNat b.toNat).toNat = b.toNat := by
    rw [Char.ofNat, dif_pos (.inl (by omega))]
    rfl
  rw [hchar]
  have hhigh : ¬c.val.toNat ≤ 0x7f := Nat.not_le.2 h
  rw [String.utf8EncodeChar, if_neg hhigh] at hb
  -- the lead byte is at least 0xc0, and every other byte is 0x80 and six bits
  split_ifs at hb <;> simp only [List.mem_cons, List.not_mem_nil, or_false] at hb
  · rcases hb with rfl | rfl <;> rw [UInt8.toNat_ofNat'] <;> omega
  · rcases hb with rfl | rfl | rfl <;> rw [UInt8.toNat_ofNat'] <;> omega
  · rcases hb with rfl | rfl | rfl | rfl <;> rw [UInt8.toNat_ofNat'] <;> omega

/-- The test treats all characters beyond ASCII alike. -/
def Uniform (p : Char → Bool) : Prop :=
  ∀ c d : Char, 0x80 ≤ c.toNat → 0x80 ≤ d.toNat → p c = p d

theorem Uniform.unit (hp : Uniform p) (hu : u ∈ unitsOf c) : p u = p c := by
  by_cases hc : c.toNat < 0x80
  · rw [unitsOf_ascii hc, List.mem_singleton] at hu
    rw [hu]
  · have hc := Nat.le_of_not_lt hc
    exact hp u c (le_of_mem_unitsOf hc hu) hc

/-- What a test lets pass ends with a whole character. -/
theorem Uniform.takeWhile_units (hp : Uniform p) (cs : List Char) :
    (cs.flatMap unitsOf).takeWhile p = (cs.takeWhile p).flatMap unitsOf := by
  induction cs with
  | nil => rfl
  | cons c cs ih =>
    rw [List.flatMap_cons]
    cases hc : p c with
    | true =>
      have hall : ∀ u ∈ unitsOf c, p u = true := fun u hu => (hp.unit hu).trans hc
      rw [List.takeWhile_append_of_pos hall, ih, List.takeWhile_cons_of_pos hc, List.flatMap_cons]
    | false =>
      obtain ⟨u, us, hunits⟩ := List.exists_cons_of_ne_nil (unitsOf_ne_nil c)
      have hu : ¬p u = true := by
        rw [hp.unit (hunits ▸ List.mem_cons_self), hc]
        exact Bool.false_ne_true
      rw [hunits, List.cons_append, List.takeWhile_cons_of_neg hu,
        List.takeWhile_cons_of_neg (by simp [hc])]
      rfl

/-- A text of ASCII characters stands at the front of the bytes where it stands at the front. -/
theorem prefix_units_iff {front : List Char} (hfront : ∀ d ∈ front, d.toNat < 0x80)
    (cs : List Char) : front <+: cs.flatMap unitsOf ↔ front <+: cs := by
  induction front generalizing cs with
  | nil => simp
  | cons d front ih =>
    rw [List.forall_mem_cons] at hfront
    cases cs with
    | nil => simp
    | cons c cs =>
      by_cases hc : c.toNat < 0x80
      · rw [List.flatMap_cons, unitsOf_ascii hc, List.singleton_append, List.cons_prefix_cons,
          List.cons_prefix_cons, ih hfront.2]
      · have hc := Nat.le_of_not_lt hc
        obtain ⟨u, us, hunits⟩ := List.exists_cons_of_ne_nil (unitsOf_ne_nil c)
        have hu := le_of_mem_unitsOf hc (hunits ▸ List.mem_cons_self)
        rw [List.flatMap_cons, hunits, List.cons_append, List.cons_prefix_cons,
          List.cons_prefix_cons]
        constructor
        · rintro ⟨rfl, -⟩
          omega
        · rintro ⟨rfl, -⟩
          omega

theorem startsComment_units (cs : List Char) :
    startsComment (cs.flatMap unitsOf) = startsComment cs := by
  have hprefix (cs : List Char) : startsComment cs = true ↔ "<!--".toList <+: cs := by
    rw [startsComment_iff]
    constructor
    · rintro ⟨tail, rfl⟩
      exact ⟨tail, rfl⟩
    · rintro ⟨tail, rfl⟩
      exact ⟨tail, rfl⟩
  rw [Bool.eq_iff_iff, hprefix, hprefix, prefix_units_iff]
  exact List.all_iff_forall_prop.1 (by decide)

section Tests

theorem ne_of_le {d : Char} (hc : 0x80 ≤ c.toNat) (hd : d.toNat < 0x80) : c ≠ d := by
  rintro rfl
  omega

theorem isAlphanum_of_le (hc : 0x80 ≤ c.toNat) : c.isAlphanum = false := by
  have hbeyond (d : Char) (hd : d.toNat < 0x80) : ¬c.val ≤ d.val := by
    rw [UInt32.le_iff_toNat_le]
    exact Nat.not_le.2 (Nat.lt_of_lt_of_le hd hc)
  have hupper : c.isUpper = false := decide_eq_false fun h => hbeyond 'Z' (by decide) h.2
  have hlower : c.isLower = false :=
    Bool.and_eq_false_iff.2 (.inr (decide_eq_false (hbeyond 'z' (by decide))))
  have hdigit : c.isDigit = false :=
    Bool.and_eq_false_iff.2 (.inr (decide_eq_false (hbeyond '9' (by decide))))
  change ((c.isUpper || c.isLower) || c.isDigit) = false
  rw [hupper, hlower, hdigit]
  rfl

theorem isTagBlank_of_le (hc : 0x80 ≤ c.toNat) : Text.isTagBlank c = false := by
  simp [Text.isTagBlank, ne_of_le hc]

theorem uniform_of_forall (value : Bool) (h : ∀ c : Char, 0x80 ≤ c.toNat → p c = value) :
    Uniform p :=
  fun c d hc hd => (h c hc).trans (h d hd).symm

theorem uniform_isTagBlank : Uniform Text.isTagBlank :=
  uniform_of_forall false fun _ => isTagBlank_of_le

theorem uniform_isTagChar : Uniform isTagChar :=
  uniform_of_forall false fun c hc => by
    simp [isTagChar, isAlphanum_of_le hc, ne_of_le hc]

theorem uniform_isAttributeChar : Uniform isAttributeChar :=
  uniform_of_forall true fun c hc => by
    simp [isAttributeChar, isTagBlank_of_le hc, ne_of_le hc]

theorem uniform_ne {d : Char} (hd : d.toNat < 0x80) : Uniform (· != d) :=
  uniform_of_forall true fun c hc => by simp [ne_of_le hc hd]

theorem uniform_inValue : Uniform fun c => !Text.isTagBlank c && c != '>' :=
  uniform_of_forall true fun c hc => by simp [isTagBlank_of_le hc, ne_of_le hc]

end Tests

theorem startsTag_units (cs : List Char) : startsTag (cs.flatMap unitsOf) = startsTag cs := by
  have hprefix (cs : List Char) : startsTag cs = true ↔
      ∃ d, (d.isAlpha || d == '/') = true ∧ ['<', d] <+: cs := by
    rw [startsTag_iff]
    constructor
    · rintro ⟨d, tail, rfl, hd⟩
      exact ⟨d, hd, tail, rfl⟩
    · rintro ⟨d, hd, tail, rfl⟩
      exact ⟨d, tail, rfl, hd⟩
  rw [Bool.eq_iff_iff, hprefix, hprefix]
  refine exists_congr fun d => and_congr_right fun hd => prefix_units_iff ?_ cs
  have hascii : d.toNat < 0x80 := by
    by_contra hle
    have hle := Nat.le_of_not_lt hle
    have halpha := (Bool.or_eq_false_iff.1 (isAlphanum_of_le hle)).1
    simp [halpha, ne_of_le hle] at hd
  simpa using hascii

theorem textRun_cons (c : Char) (cs : List Char) :
    textRun (c :: cs) = if startsMarkup (c :: cs) then ([], c :: cs)
      else (c :: (textRun cs).1, (textRun cs).2) := by
  rw [textRun]
  rfl

/-- Nothing starts at a byte that is no ASCII character. -/
theorem textRun_high (hus : ∀ u ∈ us, u ≠ '<') (more : List Char) :
    textRun (us ++ more) = (us ++ (textRun more).1, (textRun more).2) := by
  induction us with
  | nil => rfl
  | cons u us ih =>
    rw [List.forall_mem_cons] at hus
    have hstart : ¬startsMarkup (u :: (us ++ more)) = true := by
      intro h
      obtain ⟨tail, heq⟩ := exists_cons_of_startsMarkup h
      exact hus.1 (List.cons.inj heq).1
    rw [List.cons_append, textRun_cons, if_neg hstart, ih hus.2]
    rfl

theorem startsMarkup_units (cs : List Char) :
    startsMarkup (cs.flatMap unitsOf) = startsMarkup cs := by
  rw [startsMarkup, startsMarkup, startsTag_units, startsComment_units]

theorem textRun_units (cs : List Char) : textRun (cs.flatMap unitsOf)
    = ((textRun cs).1.flatMap unitsOf, (textRun cs).2.flatMap unitsOf) := by
  induction cs with
  | nil => rfl
  | cons c cs ih =>
    by_cases hc : c.toNat < 0x80
    · have hstart := startsMarkup_units (c :: cs)
      rw [List.flatMap_cons, unitsOf_ascii hc, List.singleton_append] at hstart ⊢
      cases hmarkup : startsMarkup (c :: cs) with
      | true =>
        rw [hmarkup] at hstart
        rw [textRun_cons, if_pos hstart, textRun_cons, if_pos hmarkup, List.flatMap_cons,
          unitsOf_ascii hc]
        rfl
      | false =>
        rw [hmarkup] at hstart
        rw [textRun_cons, if_neg (by simp [hstart]), textRun_cons, if_neg (by simp [hmarkup]), ih,
          List.flatMap_cons, unitsOf_ascii hc]
        rfl
    · have hc := Nat.le_of_not_lt hc
      have hmarkup : ¬startsMarkup (c :: cs) = true := by
        intro h
        obtain ⟨tail, heq⟩ := exists_cons_of_startsMarkup h
        exact ne_of_le hc (by decide) (List.cons.inj heq).1
      have hunits : ∀ u ∈ unitsOf c, u ≠ '<' := fun u hu =>
        ne_of_le (le_of_mem_unitsOf hc hu) (by decide)
      rw [List.flatMap_cons, textRun_high hunits, ih, textRun_cons, if_neg hmarkup,
        List.flatMap_cons]

/-- How many bytes come before the end of a comment. -/
def commentEnd? : List Char → Option Nat
  | [] => none
  | c :: cs =>
    if "-->".toList.isPrefixOf (c :: cs) then some 0 else (commentEnd? cs).map (· + 1)

theorem commentEnd?_high (hus : ∀ u ∈ us, u ≠ '-') (more : List Char) :
    commentEnd? (us ++ more) = (commentEnd? more).map (· + us.length) := by
  induction us with
  | nil => simp
  | cons u us ih =>
    rw [List.forall_mem_cons] at hus
    have hstart : ¬"-->".toList.isPrefixOf (u :: (us ++ more)) = true := by
      rw [List.isPrefixOf_iff_prefix, prefix_commentEnd_iff]
      rintro ⟨after, heq⟩
      exact hus.1 (List.cons.inj heq).1
    rw [List.cons_append, commentEnd?, if_neg hstart, ih hus.2]
    simp [Function.comp_def, Nat.add_assoc]

/-- The end of a comment is found in the bytes where it is found in the text. -/
theorem commentEnd?_units (cs : List Char) : (afterComment cs = none →
      commentEnd? (cs.flatMap unitsOf) = none) ∧
    ∀ rest, afterComment cs = some rest → ∃ k, commentEnd? (cs.flatMap unitsOf) = some k ∧
      k + 3 + byteLength rest = byteLength cs := by
  induction cs with
  | nil => exact ⟨fun _ => rfl, fun rest h => by cases h⟩
  | cons c cs ih =>
    have hascii : ∀ d ∈ "-->".toList, d.toNat < 0x80 := List.all_iff_forall_prop.1 (by decide)
    by_cases hend : "-->".toList <+: c :: cs
    · obtain ⟨units, hunits⟩ := (prefix_units_iff hascii (c :: cs)).2 hend
      obtain ⟨after, heq⟩ := prefix_commentEnd_iff.1 hend
      rw [← hunits, heq, afterComment]
      constructor
      · intro h
        cases h
      · rintro _ ⟨⟩
        refine ⟨0, rfl, ?_⟩
        change 0 + 3 + _ = 1 + (1 + (1 + _))
        omega
    · have hafter : afterComment (c :: cs) = afterComment cs := by
        rw [afterComment]
        rintro after rfl rfl
        exact hend ⟨after, rfl⟩
      have hskip : commentEnd? ((c :: cs).flatMap unitsOf)
          = (commentEnd? (cs.flatMap unitsOf)).map (· + c.utf8Size) := by
        rw [← length_unitsOf]
        by_cases hc : c.toNat < 0x80
        · have hstart := (prefix_units_iff hascii (c :: cs)).not.2 hend
          rw [List.flatMap_cons, unitsOf_ascii hc, List.singleton_append] at hstart ⊢
          rw [commentEnd?, if_neg (by rwa [List.isPrefixOf_iff_prefix])]
          rfl
        · have hc := Nat.le_of_not_lt hc
          rw [List.flatMap_cons]
          exact commentEnd?_high
            (fun u hu => ne_of_le (le_of_mem_unitsOf hc hu) (by decide)) _
      rw [hafter, hskip]
      refine ⟨fun h => by rw [ih.1 h]; rfl, fun rest h => ?_⟩
      obtain ⟨k, hk, hlength⟩ := ih.2 rest h
      refine ⟨k + c.utf8Size, by rw [hk]; rfl, ?_⟩
      rw [byteLength]
      omega

end Stencil.Markup
