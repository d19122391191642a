import Stencil.Proofs.Units

/-!
# Reading markup by byte positions

The same reader as a loop over the bytes of the template: it keeps an index, looks at single bytes,
and cuts pieces out of the text between two indices. An index out of range, a cut inside a character
and a loop that does not end would all leave it without a result. It has one for every template, and
the result is that of the reader of characters: every index at which a loop starts over lies between
two characters, since it comes before what the reader of characters still has to read, and what is
still to read gets shorter with every turn.
-/

namespace Stencil.Markup

namespace Indexed

/-- The text between two byte positions, which must lie between characters. -/
def slice? (source : String) (start stop : Nat) : Option String :=
  if start ≤ stop ∧ (⟨start⟩ : String.Pos.Raw).IsValid source ∧
      (⟨stop⟩ : String.Pos.Raw).IsValid source then
    some (String.Pos.Raw.extract source ⟨start⟩ ⟨stop⟩)
  else none

/-- Goes on while the bytes pass a test. -/
def scan (p : Char → Bool) (us : List Char) (i : Nat) : Nat :=
  if h : i < us.length then if p us[i] then scan p us (i + 1) else i else i
termination_by us.length - i

def startsTag? (us : List Char) (i : Nat) : Option Bool :=
  us[i]?.map fun c => c == '<' && us[i + 1]?.any fun d => d.isAlpha || d == '/'

def startsComment? (us : List Char) (i : Nat) : Option Bool :=
  if i ≤ us.length then some ("<!--".toList.isPrefixOf (us.drop i)) else none

def startsMarkup? (us : List Char) (i : Nat) : Option Bool :=
  (startsTag? us i).bind fun tag => if tag then some true else startsComment? us i

/-- Goes on to the next tag or comment. -/
def scanText? (us : List Char) (i : Nat) : Option Nat :=
  if i < us.length then
    match startsMarkup? us i with
    | none => none
    | some true => some i
    | some false => scanText? us (i + 1)
  else some i
termination_by us.length - i

def pastEnd (us : List Char) (i : Nat) : Nat :=
  if us[i]? = some '>' then i + 1 else i

variable (source : String)

def readName? (i : Nat) : Option (String × Nat) :=
  let stop := scan isTagChar (units source) i
  (slice? source i stop).map fun name => (name, stop)

def readValue? (i : Nat) : Option (Except MarkupError (String × Nat)) :=
  let us := units source
  match us[i]? with
  | none => some (.error ⟨i, .missingValue⟩)
  | some quote =>
    if quote = '"' ∨ quote = '\'' then
      let stop := scan (· != quote) us (i + 1)
      if stop < us.length then
        (slice? source (i + 1) stop).map fun value => .ok (value, stop + 1)
      else some (.error ⟨i, .value⟩)
    else
      let stop := scan (fun c => !Text.isTagBlank c && c != '>') us i
      (slice? source i stop).map fun value => .ok (value, stop)

/-- Reads an attribute, if one starts here. -/
def readAttribute? (i : Nat) : Option (Except MarkupError (Option Attribute × Nat)) :=
  let us := units source
  let stop := scan isAttributeChar us i
  if stop = i then some (.ok (none, i))
  else
    match slice? source i stop with
    | none => none
    | some name =>
      let next := scan Text.isTagBlank us stop
      if us[next]? = some '=' then
        (readValue? source (scan Text.isTagBlank us (next + 1))).map fun result =>
          result.map fun (value, after) => (some ⟨name, some value⟩, after)
      else some (.ok (some ⟨name, none⟩, next))

/-- The loop over the attributes of a tag, with the positions at which its turns start. It gives up
after a number of turns. -/
def attributeLoop (unterminated : MarkupError) :
    Nat → Nat → Option (List Nat × Except MarkupError (List Attribute × Bool × Nat))
  | 0, _ => none
  | turns + 1, i =>
    let us := units source
    let j := scan Text.isTagBlank us i
    match us[j]? with
    | none => some ([i], .error unterminated)
    | some u =>
      if u = '/' then some ([i], .ok ([], true, pastEnd us (scan Text.isTagBlank us (j + 1))))
      else if u = '>' then some ([i], .ok ([], false, j + 1))
      else
        match readAttribute? source j with
        | none => none
        | some (.error e) => some ([i], .error e)
        | some (.ok (attr, next)) =>
          (attributeLoop unterminated turns (if attr.isNone then next + 1 else next)).map
            fun (heads, result) =>
              (i :: heads, result.map fun (attrs, ending) => (attr.toList ++ attrs, ending))

/-- Reads a tag, with the positions of its loop. -/
def readTag? (i : Nat) : Option (List Nat × Except MarkupError (Event × Nat)) :=
  let us := units source
  match us[i + 1]? with
  | none => none
  | some u =>
    if u = '/' then
      (readName? source (i + 2)).map fun (tag, next) =>
        ([], .ok (.closeTag tag, pastEnd us (scan Text.isTagBlank us next)))
    else
      match readName? source (i + 1) with
      | none => none
      | some (tag, next) =>
        (attributeLoop source ⟨i, .tag tag⟩ (us.length + 1) next).map fun (heads, result) =>
          (heads, result.map fun (attrs, closes, after) => (tagEvent tag attrs closes, after))

/-- Reads what stands at a position. -/
def readEvent? (i : Nat) : Option (List Nat × Except MarkupError (Option Event × Nat)) :=
  let us := units source
  match startsComment? us i, startsTag? us i with
  | some true, _ =>
    (slice? source (i + 4) us.length).map fun rest =>
      match commentEnd? (units rest) with
      | none => ([], .error ⟨i, .comment⟩)
      | some k => ([], .ok (none, i + 4 + k + 3))
  | some false, some true =>
    (readTag? source i).map fun (heads, result) =>
      (heads, result.map fun (event, next) => (some event, next))
  | some false, some false =>
    match scanText? us (i + 1) with
    | none => none
    | some next => (slice? source i next).map fun run => ([], .ok (some (.text run), next))
  | _, _ => none

/-- The loop over the template, with the positions at which its turns and those of the loops in it
start. It gives up after a number of turns. -/
def eventLoop : Nat → Nat → Option (List Nat × Except MarkupError (List Event))
  | 0, _ => none
  | turns + 1, i =>
    if i < (units source).length then
      match readEvent? source i with
      | none => none
      | some (heads, .error e) => some (i :: heads, .error e)
      | some (heads, .ok (event, next)) =>
        (eventLoop turns next).map fun (more, result) =>
          (i :: (heads ++ more), result.map fun events => event.toList ++ events)
    else some ([i], .ok [])

/-- Reads a template, with the positions at which the turns of all loops start. -/
def run : Option (List Nat × Except MarkupError (List Node)) :=
  (eventLoop source ((units source).length + 1) 0).map fun (heads, result) =>
    (heads, result.map fun events => (Forest.ofEvents events).filter fun n => !n.isBlank)

end Indexed

/-- The position in front of what is still to read. -/
def place (source : String) (rest : List Char) : Nat :=
  byteLength source.toList - byteLength rest

def Break.locate (source : String) (b : Break) : MarkupError :=
  ⟨place source b.rest, b.fault⟩

/-- An answer of the reader of characters, with positions for what is still to read. -/
def located {α β : Type} (source : String) (f : α → β) : Except Break α → Except MarkupError β
  | .error b => .error (b.locate source)
  | .ok a => .ok (f a)

/-- Positions between characters, each behind the ones before it. -/
structure Ascends (source : String) (low : Nat) (heads : List Nat) : Prop where
  rising : heads.Pairwise (· < ·)
  le : ∀ i ∈ heads, low ≤ i
  isValid : ∀ i ∈ heads, (⟨i⟩ : String.Pos.Raw).IsValid source

section Places

variable {source : String} {c d : Char} {p : Char → Bool} {front mid rest tail after : List Char}

theorem length_units (source : String) : (units source).length = byteLength source.toList := by
  rw [units_eq, length_flatMap_unitsOf]

theorem place_eq (h : front ++ rest = source.toList) : place source rest = byteLength front := by
  rw [place, ← h, byteLength_append]
  omega

theorem place_append (h : mid ++ after <:+ source.toList) :
    place source after = place source (mid ++ after) + byteLength mid := by
  obtain ⟨front, heq⟩ := h
  rw [place_eq heq, ← byteLength_append]
  exact place_eq (by rw [List.append_assoc, heq])

theorem place_add (h : rest <:+ source.toList) :
    place source rest + byteLength rest = byteLength source.toList := by
  obtain ⟨front, heq⟩ := h
  rw [place_eq heq, ← byteLength_append, heq]

theorem place_of_ascii (hc : c.toNat < 0x80) (h : c :: tail <:+ source.toList) :
    place source tail = place source (c :: tail) + 1 := by
  have hsize : c.utf8Size = 1 := by rw [← length_unitsOf, unitsOf_ascii hc, List.length_singleton]
  have hplace := place_append (show [c] ++ tail <:+ source.toList from h)
  rwa [byteLength, byteLength, hsize] at hplace

/-- The position moves forward with every character that is read. -/
theorem place_lt (hafter : after <:+ tail) (h : c :: tail <:+ source.toList) :
    place source (c :: tail) < place source after := by
  obtain ⟨mid, rfl⟩ := hafter
  have hplace := place_append (show (c :: mid) ++ after <:+ source.toList from h)
  have hpos := c.utf8Size_pos
  rw [byteLength, List.cons_append] at hplace
  omega

theorem place_mono (hafter : after <:+ rest) (h : rest <:+ source.toList) :
    place source rest ≤ place source after := by
  obtain ⟨mid, rfl⟩ := hafter
  rw [place_append h]
  exact Nat.le_add_right _ _

theorem byteLength_lt (h : rest <:+ source.toList) (hafter : after <:+ source.toList)
    (hlt : place source rest < place source after) : byteLength after < byteLength rest := by
  have hrest := place_add h
  have hadd := place_add hafter
  omega

theorem isValid_place (h : rest <:+ source.toList) :
    (⟨place source rest⟩ : String.Pos.Raw).IsValid source := by
  obtain ⟨front, heq⟩ := h
  rw [String.Pos.Raw.isValid_iff_exists_append]
  refine ⟨String.ofList front, String.ofList rest, ?_, ?_⟩
  · rw [← String.ofList_append, heq, String.ofList_toList]
  · rw [place_eq heq, byteLength_eq]
    rfl

theorem drop_place (h : rest <:+ source.toList) :
    (units source).drop (place source rest) = rest.flatMap unitsOf := by
  obtain ⟨front, heq⟩ := h
  rw [place_eq heq, units_eq, ← heq, List.flatMap_append, ← length_flatMap_unitsOf,
    List.drop_left]

theorem place_nil : place source [] = (units source).length := by
  rw [place, byteLength, Nat.sub_zero, length_units]

theorem getElem?_place_nil : (units source)[place source []]? = none :=
  List.getElem?_eq_none (Nat.le_of_eq place_nil.symm)

/-- The byte at a position tells which ASCII character stands there. -/
theorem exists_unit (h : c :: tail <:+ source.toList) :
    ∃ u, (units source)[place source (c :: tail)]? = some u ∧
      ∀ d : Char, d.toNat < 0x80 → (u = d ↔ c = d) := by
  obtain ⟨u, us, hunits⟩ := List.exists_cons_of_ne_nil (unitsOf_ne_nil c)
  refine ⟨u, ?_, fun d hd => ?_⟩
  · rw [← List.head?_drop, drop_place h, List.flatMap_cons, hunits]
    rfl
  · by_cases hc : c.toNat < 0x80
    · rw [unitsOf_ascii hc] at hunits
      rw [(List.cons.inj hunits).1]
    · have hc := Nat.le_of_not_lt hc
      have hu := le_of_mem_unitsOf hc (hunits ▸ List.mem_cons_self)
      simp [ne_of_le hc hd, ne_of_le hu hd]

theorem getElem?_place_iff (hd : d.toNat < 0x80) (h : rest <:+ source.toList) :
    (units source)[place source rest]? = some d ↔ rest.head? = some d := by
  cases rest with
  | nil => simp [getElem?_place_nil]
  | cons c tail =>
    obtain ⟨u, hu, hascii⟩ := exists_unit h
    simp [hu, hascii d hd]

section Ascents

variable {low low' : Nat} {heads more : List Nat}

theorem Ascends.nil (source : String) (low : Nat) : Ascends source low [] :=
  ⟨.nil, by simp, by simp⟩

theorem Ascends.cons (h : rest <:+ source.toList) (hlow : place source rest < low)
    (hheads : Ascends source low heads) :
    Ascends source (place source rest) (place source rest :: heads) where
  rising := .cons (fun i hi => Nat.lt_of_lt_of_le hlow (hheads.le i hi)) hheads.rising
  le := List.forall_mem_cons.2
    ⟨Nat.le_refl _, fun i hi => Nat.le_trans (Nat.le_of_lt hlow) (hheads.le i hi)⟩
  isValid := List.forall_mem_cons.2 ⟨isValid_place h, hheads.isValid⟩

theorem Ascends.single (h : rest <:+ source.toList) :
    Ascends source (place source rest) [place source rest] :=
  .cons h (Nat.lt_succ_self _) (.nil source _)

theorem Ascends.mono (hlow : low ≤ low') (hheads : Ascends source low' heads) :
    Ascends source low heads :=
  ⟨hheads.rising, fun i hi => Nat.le_trans hlow (hheads.le i hi), hheads.isValid⟩

theorem Ascends.append (hheads : Ascends source low heads) (hlt : ∀ i ∈ heads, i < low')
    (hlow : low ≤ low') (hmore : Ascends source low' more) :
    Ascends source low (heads ++ more) where
  rising := List.pairwise_append.2 ⟨hheads.rising, hmore.rising, fun i hi j hj =>
    Nat.lt_of_lt_of_le (hlt i hi) (hmore.le j hj)⟩
  le := List.forall_mem_append.2 ⟨hheads.le, (hmore.mono hlow).le⟩
  isValid := List.forall_mem_append.2 ⟨hheads.isValid, hmore.isValid⟩

end Ascents

namespace Indexed

theorem slice?_place (h : mid ++ after <:+ source.toList) :
    slice? source (place source (mid ++ after)) (place source after)
      = some (String.ofList mid) := by
  have hafter : after <:+ source.toList := (List.suffix_append mid after).trans h
  rw [slice?, if_pos ⟨place_mono (List.suffix_append mid after) h, isValid_place h,
    isValid_place hafter⟩]
  obtain ⟨front, heq⟩ := h
  have hsource : source = String.ofList (front ++ mid ++ after) := by
    rw [List.append_assoc, heq, String.ofList_toList]
  have hbytes (cs : List Char) : byteLength cs = String.utf8Len cs := by
    rw [byteLength_eq, String.utf8ByteSize_ofList]
  rw [place_eq heq, place_append ⟨front, heq⟩, place_eq heq, hbytes, hbytes, hsource]
  rw [String.extract_of_valid]

theorem scan_eq (p : Char → Bool) (us : List Char) (i : Nat) :
    scan p us i = i + ((us.drop i).takeWhile p).length := by
  fun_induction scan p us i with
  | case1 i h hp ih =>
    rw [ih, List.drop_eq_getElem_cons h, List.takeWhile_cons_of_pos hp, List.length_cons]
    omega
  | case2 i h hp =>
    rw [List.drop_eq_getElem_cons h, List.takeWhile_cons_of_neg hp]
    rfl
  | case3 i h =>
    rw [List.drop_eq_nil_of_le (Nat.le_of_not_lt h)]
    rfl

/-- A scan stops in front of what the test does not let pass. -/
theorem scan_place (hp : Uniform p) (h : rest <:+ source.toList) :
    scan p (units source) (place source rest) = place source (rest.dropWhile p) := by
  have hsplit : rest.takeWhile p ++ rest.dropWhile p = rest := List.takeWhile_append_dropWhile
  have hplace := place_append (hsplit.symm ▸ h)
  rw [hsplit] at hplace
  rw [scan_eq, drop_place h, hp.takeWhile_units, length_flatMap_unitsOf, hplace]

theorem slice?_scan (p : Char → Bool) (h : rest <:+ source.toList) :
    slice? source (place source rest) (place source (rest.dropWhile p))
      = some (String.ofList (rest.takeWhile p)) := by
  have hsplit : rest.takeWhile p ++ rest.dropWhile p = rest := List.takeWhile_append_dropWhile
  have hslice := slice?_place (hsplit.symm ▸ h)
  rwa [hsplit] at hslice

theorem pastEnd_place (h : rest <:+ source.toList) :
    pastEnd (units source) (place source rest) = place source (skipEnd rest) := by
  have hunit := getElem?_place_iff (d := '>') (by decide) h
  rw [pastEnd]
  by_cases hend : rest.head? = some '>'
  · rw [if_pos (hunit.2 hend)]
    obtain ⟨tail, rfl⟩ := List.head?_eq_some_iff.1 hend
    exact (place_of_ascii (by decide) h).symm
  · rw [if_neg (hunit.not.2 hend), skipEnd]
    rintro tail rfl
    exact hend rfl

theorem startsTag?_eq {us : List Char} {i : Nat} (h : i < us.length) :
    startsTag? us i = some (startsTag (us.drop i)) := by
  rw [startsTag?, List.getElem?_eq_getElem h, List.drop_eq_getElem_cons h, ← List.head?_drop,
    Option.map_some]
  by_cases hopen : us[i] = '<'
  · rw [hopen]
    cases us.drop (i + 1) with
    | nil => rfl
    | cons d tail => simp [startsTag]
  · have hno : startsTag (us[i] :: us.drop (i + 1)) = false := by
      rw [startsTag]
      exact fun _ _ heq => hopen (List.cons.inj heq).1
    rw [hno, beq_false_of_ne hopen, Bool.false_and]

theorem startsComment?_eq {us : List Char} {i : Nat} (h : i ≤ us.length) :
    startsComment? us i = some (startsComment (us.drop i)) := by
  have hprefix : ("<!--".toList.isPrefixOf (us.drop i)) = startsComment (us.drop i) := by
    rw [Bool.eq_iff_iff, List.isPrefixOf_iff_prefix, startsComment_iff]
    constructor
    · rintro ⟨tail, heq⟩
      exact ⟨tail, heq.symm⟩
    · rintro ⟨tail, heq⟩
      exact ⟨tail, heq.symm⟩
  rw [startsComment?, if_pos h, hprefix]

theorem place_le (source : String) (rest : List Char) :
    place source rest ≤ (units source).length := by
  rw [length_units]
  exact Nat.sub_le _ _

theorem place_lt_length (h : c :: tail <:+ source.toList) :
    place source (c :: tail) < (units source).length := by
  obtain ⟨u, hu, -⟩ := exists_unit h
  exact (List.getElem?_eq_some_iff.1 hu).1

theorem startsTag?_place (h : c :: tail <:+ source.toList) :
    startsTag? (units source) (place source (c :: tail)) = some (startsTag (c :: tail)) := by
  rw [startsTag?_eq (place_lt_length h), drop_place h, startsTag_units]

theorem startsComment?_place (h : rest <:+ source.toList) :
    startsComment? (units source) (place source rest) = some (startsComment rest) := by
  rw [startsComment?_eq (place_le source rest), drop_place h, startsComment_units]

theorem startsMarkup?_eq {us : List Char} {i : Nat} (h : i < us.length) :
    startsMarkup? us i = some (startsMarkup (us.drop i)) := by
  rw [startsMarkup?, startsTag?_eq h, startsComment?_eq (Nat.le_of_lt h), startsMarkup]
  cases startsTag (us.drop i) <;> rfl

theorem scanText?_eq {us : List Char} {i : Nat} (h : i ≤ us.length) :
    scanText? us i = some (i + (textRun (us.drop i)).1.length) := by
  fun_induction scanText? us i with
  | case1 i hlt hnone =>
    rw [startsMarkup?_eq hlt] at hnone
    cases hnone
  | case2 i hlt hstart =>
    rw [startsMarkup?_eq hlt, Option.some.injEq] at hstart
    rw [List.drop_eq_getElem_cons hlt] at hstart ⊢
    rw [textRun_cons, if_pos hstart]
    rfl
  | case3 i hlt hstart ih =>
    rw [startsMarkup?_eq hlt, Option.some.injEq] at hstart
    rw [ih hlt]
    rw [List.drop_eq_getElem_cons hlt] at hstart ⊢
    rw [textRun_cons, if_neg (Bool.eq_false_iff.1 hstart), List.length_cons]
    exact congrArg some (by omega)
  | case4 i hge =>
    rw [List.drop_eq_nil_of_le (Nat.le_of_not_lt hge)]
    rfl

/-- The run of text ends in front of the next tag or comment. Its first character is passed by one
byte only, and nothing starts at the others. -/
theorem scanText?_place (h : c :: tail <:+ source.toList) :
    scanText? (units source) (place source (c :: tail) + 1)
      = some (place source (textRun tail).2) := by
  have hlow : ∀ u ∈ (unitsOf c).tail, u ≠ '<' := by
    intro u hu
    by_cases hc : c.toNat < 0x80
    · rw [unitsOf_ascii hc] at hu
      cases hu
    · exact ne_of_le (le_of_mem_unitsOf (Nat.le_of_not_lt hc) (List.mem_of_mem_tail hu)) (by decide)
  have hdrop : (units source).drop (place source (c :: tail) + 1)
      = (unitsOf c).tail ++ tail.flatMap unitsOf := by
    rw [← List.tail_drop, drop_place h, List.flatMap_cons,
      List.tail_append_of_ne_nil (unitsOf_ne_nil c)]
  have hplace : place source (textRun tail).2
      = place source (c :: tail) + (c.utf8Size + byteLength (textRun tail).1) := by
    have hsplit : (c :: (textRun tail).1) ++ (textRun tail).2 = c :: tail :=
      congrArg (c :: ·) (textRun_append_eq tail)
    have happend := place_append (hsplit.symm ▸ h)
    rwa [hsplit] at happend
  have hpos := c.utf8Size_pos
  rw [scanText?_eq (place_lt_length h), hdrop, textRun_high hlow, textRun_units, List.length_append,
    List.length_tail, length_unitsOf, length_flatMap_unitsOf, hplace]
  exact congrArg some (by omega)

/-! Each reader of bytes gives what the reader of characters gives, with the position in front of
what the latter leaves. -/

theorem readName?_place (h : rest <:+ source.toList) :
    readName? source (place source rest) =
      some (String.ofList (rest.takeWhile isTagChar), place source (rest.dropWhile isTagChar)) := by
  rw [readName?, scan_place uniform_isTagChar h, slice?_scan isTagChar h]
  rfl

theorem scan_blanks (h : rest <:+ source.toList) :
    scan Text.isTagBlank (units source) (place source rest) = place source (skipBlanks rest) :=
  scan_place uniform_isTagBlank h

theorem readValue?_place (h : rest <:+ source.toList) :
    readValue? source (place source rest) =
      some (located source (Prod.map id (place source)) (readValue rest)) := by
  cases rest with
  | nil =>
    rw [readValue?, getElem?_place_nil]
    rfl
  | cons c tail =>
    obtain ⟨u, hu, hascii⟩ := exists_unit h
    have hquote : (u = '"' ∨ u = '\'') ↔ (c = '"' ∨ c = '\'') :=
      or_congr (hascii '"' (by decide)) (hascii '\'' (by decide))
    have htail : tail <:+ source.toList := (List.suffix_cons c tail).trans h
    rw [readValue?, readValue]
    simp only [hu]
    by_cases hc : c = '"' ∨ c = '\''
    · have hcode : c.toNat < 0x80 := by rcases hc with rfl | rfl <;> decide
      obtain rfl : u = c := (hascii c hcode).2 rfl
      have hslice := slice?_scan (· != u) htail
      rw [if_pos hc, if_pos hc, ← place_of_ascii hcode h, scan_place (uniform_ne hcode) htail]
      cases hdrop : tail.dropWhile (· != u) with
      | nil =>
        rw [if_neg (by rw [place_nil]; exact Nat.lt_irrefl _)]
        rfl
      | cons d after =>
        have hd : d = u := by
          have hstop := List.head?_dropWhile_not (· != u) tail
          rw [hdrop] at hstop
          simpa using hstop
        have hend : d :: after <:+ source.toList :=
          hdrop ▸ (List.dropWhile_suffix _).trans htail
        rw [hdrop] at hslice
        rw [if_pos (place_lt_length hend), hslice, ← place_of_ascii (hd ▸ hcode) hend]
        rfl
    · rw [if_neg (hquote.not.2 hc), if_neg hc, scan_place uniform_inValue h,
        slice?_scan _ h]
      rfl

theorem readAttribute?_place (hc : isAttributeChar c = true) (h : c :: tail <:+ source.toList) :
    readAttribute? source (place source (c :: tail)) =
      some (located source (Prod.map some (place source)) (readAttribute (c :: tail))) := by
  have hname : (c :: tail).dropWhile isAttributeChar <:+ tail := by
    rw [List.dropWhile_cons_of_pos hc]
    exact List.dropWhile_suffix _
  have hafter : (c :: tail).dropWhile isAttributeChar <:+ source.toList :=
    (List.dropWhile_suffix _).trans h
  have hblanks := (suffix_skipBlanks _).trans hafter
  have hunit := getElem?_place_iff (d := '=') (by decide) hblanks
  rw [readAttribute?, readAttribute]
  simp only [scan_place uniform_isAttributeChar h, if_neg (Nat.ne_of_gt (place_lt hname h)),
    slice?_scan isAttributeChar h, scan_blanks hafter]
  generalize skipBlanks ((c :: tail).dropWhile isAttributeChar) = next at hblanks hunit ⊢
  by_cases hequals : next.head? = some '='
  · rw [if_pos (hunit.2 hequals)]
    obtain ⟨more, rfl⟩ := List.head?_eq_some_iff.1 hequals
    have hmore : more <:+ source.toList := (List.suffix_cons '=' more).trans hblanks
    rw [← place_of_ascii (by decide) hblanks, scan_blanks hmore,
      readValue?_place ((suffix_skipBlanks more).trans hmore)]
    cases hvalue : readValue (skipBlanks more) with
    | error e =>
      simp only [hvalue]
      rfl
    | ok found =>
      simp only [hvalue]
      rfl
  · rw [if_neg (hunit.not.2 hequals)]
    split
    · exact absurd rfl hequals
    · rfl

theorem readAttribute?_skip (hc : isAttributeChar c = false) (h : c :: tail <:+ source.toList) :
    readAttribute? source (place source (c :: tail)) =
      some (.ok (none, place source (c :: tail))) := by
  rw [readAttribute?]
  simp only [scan_place uniform_isAttributeChar h]
  rw [List.dropWhile_cons_of_neg (Bool.eq_false_iff.1 hc), if_pos rfl]

/-- A character that belongs to no name is one byte. -/
theorem ascii_of_not_isAttributeChar (hc : isAttributeChar c = false) : c.toNat < 0x80 := by
  by_contra hle
  have hle := Nat.le_of_not_lt hle
  simp [isAttributeChar, isTagBlank_of_le hle, ne_of_le hle] at hc

section AttributeTurns

variable (h : rest <:+ source.toList) (hs : skipBlanks rest = c :: tail)
include h hs

theorem suffix_of_skipBlanks : c :: tail <:+ source.toList :=
  hs ▸ (suffix_skipBlanks rest).trans h

theorem place_lt_of_skipBlanks (hafter : after <:+ tail) :
    place source rest < place source after :=
  Nat.lt_of_le_of_lt (place_mono (hs ▸ suffix_skipBlanks rest) h)
    (place_lt hafter (suffix_of_skipBlanks h hs))

/-- A turn of the loop over the attributes that does not end it. -/
theorem attributeLoop_turn {e : MarkupError} {turns : Nat} (hslash : c ≠ '/') (hend : c ≠ '>') :
    attributeLoop source e (turns + 1) (place source rest) =
      match readAttribute? source (place source (c :: tail)) with
      | none => none
      | some (.error e') => some ([place source rest], .error e')
      | some (.ok (attr, next)) =>
        (attributeLoop source e turns (if attr.isNone then next + 1 else next)).map
          fun (heads, result) => (place source rest :: heads,
            result.map fun (attrs, ending) => (attr.toList ++ attrs, ending)) := by
  obtain ⟨u, hu, hascii⟩ := exists_unit (suffix_of_skipBlanks h hs)
  rw [attributeLoop]
  simp only [scan_blanks h, hs, hu, if_neg ((hascii '/' (by decide)).not.2 hslash),
    if_neg ((hascii '>' (by decide)).not.2 hend)]

end AttributeTurns

/-- The loop over the attributes ends, and no turn starts where another did: a turn reads an
attribute or passes a character. -/
theorem attributeLoop_place (b : Break) {turns : Nat} (h : rest <:+ source.toList)
    (hturns : byteLength rest < turns) :
    ∃ heads, attributeLoop source (b.locate source) turns (place source rest) =
        some (heads,
          located source (Prod.map id (Prod.map id (place source))) (readAttributes b rest)) ∧
      Ascends source (place source rest) heads ∧
      ∀ attrs closes after, readAttributes b rest = .ok (attrs, closes, after) →
        ∀ i ∈ heads, i < place source after := by
  fun_induction readAttributes b rest generalizing turns with
  | case1 cs hs =>
    obtain ⟨turns, rfl⟩ := Nat.exists_eq_add_of_lt hturns
    refine ⟨[place source cs], ?_, .single h, fun _ _ _ heq => by cases heq⟩
    rw [attributeLoop]
    simp only [scan_blanks h, hs, getElem?_place_nil]
    rfl
  | case2 cs tail hs =>
    obtain ⟨turns, rfl⟩ := Nat.exists_eq_add_of_lt hturns
    have hrest := suffix_of_skipBlanks h hs
    have htail : tail <:+ source.toList := (List.suffix_cons '/' tail).trans hrest
    have hunit := (getElem?_place_iff (d := '/') (by decide) hrest).2 rfl
    refine ⟨[place source cs], ?_, .single h, ?_⟩
    · rw [attributeLoop]
      simp only [scan_blanks h, hs, hunit, if_true, ← place_of_ascii (by decide) hrest,
        scan_blanks htail, pastEnd_place ((suffix_skipBlanks tail).trans htail)]
      rfl
    · rintro _ _ _ ⟨⟩
      exact List.forall_mem_singleton.2 (place_lt_of_skipBlanks h hs
        ((suffix_skipEnd _).trans (suffix_skipBlanks tail)))
  | case3 cs tail hs =>
    obtain ⟨turns, rfl⟩ := Nat.exists_eq_add_of_lt hturns
    have hrest := suffix_of_skipBlanks h hs
    have hunit := (getElem?_place_iff (d := '>') (by decide) hrest).2 rfl
    refine ⟨[place source cs], ?_, .single h, ?_⟩
    · rw [attributeLoop]
      simp only [scan_blanks h, hs, hunit, if_true, ← place_of_ascii (by decide) hrest]
      rfl
    · rintro _ _ _ ⟨⟩
      exact List.forall_mem_singleton.2 (place_lt_of_skipBlanks h hs List.suffix_rfl)
  | case4 cs c tail hslash hend hs hle hc e ha =>
    obtain ⟨turns, rfl⟩ := Nat.exists_eq_add_of_lt hturns
    refine ⟨[place source cs], ?_, .single h, fun _ _ _ heq => by cases heq⟩
    rw [attributeLoop_turn h hs hslash hend,
      readAttribute?_place hc (suffix_of_skipBlanks h hs), ha]
    rfl
  | case5 cs c tail hslash hend hs hle hc a after ha hlt ih =>
    obtain ⟨turns, rfl⟩ := Nat.exists_eq_add_of_lt hturns
    have hrest := suffix_of_skipBlanks h hs
    have hafter : after <:+ source.toList :=
      (suffix_readAttribute hc ha).trans ((List.suffix_cons c tail).trans hrest)
    have hmore := place_lt_of_skipBlanks h hs (suffix_readAttribute hc ha)
    have hbytes := byteLength_lt h hafter hmore
    obtain ⟨heads, hloop, hascends, hbefore⟩ :=
      @ih (byteLength cs + turns) hafter (by omega)
    refine ⟨place source cs :: heads, ?_, hascends.cons h hmore, ?_⟩
    · rw [attributeLoop_turn h hs hslash hend, readAttribute?_place hc hrest, ha]
      change (attributeLoop source _ (byteLength cs + turns) (place source after)).map _ = _
      rw [hloop]
      cases readAttributes b after <;> rfl
    · intro attrs closes last heq
      obtain ⟨⟨more, ending⟩, hread, hpair⟩ := exists_of_map_ok heq
      cases hpair
      have hlast := place_mono (suffix_readAttributes hread) hafter
      exact List.forall_mem_cons.2 ⟨Nat.lt_of_lt_of_le hmore hlast, hbefore _ _ _ hread⟩
  | case6 cs c tail hslash hend hs hle hc hlt ih =>
    obtain ⟨turns, rfl⟩ := Nat.exists_eq_add_of_lt hturns
    have hc := Bool.eq_false_iff.2 hc
    have hrest := suffix_of_skipBlanks h hs
    have htail : tail <:+ source.toList := (List.suffix_cons c tail).trans hrest
    have hmore := place_lt_of_skipBlanks h hs List.suffix_rfl
    have hbytes := byteLength_lt h htail hmore
    obtain ⟨heads, hloop, hascends, hbefore⟩ :=
      @ih (byteLength cs + turns) htail (by omega)
    refine ⟨place source cs :: heads, ?_, hascends.cons h hmore, ?_⟩
    · rw [attributeLoop_turn h hs hslash hend, readAttribute?_skip hc hrest]
      change (attributeLoop source _ _ (place source (c :: tail) + 1)).map _ = _
      rw [← place_of_ascii (ascii_of_not_isAttributeChar hc) hrest, hloop]
      cases readAttributes b tail <;> rfl
    · intro attrs closes last hread
      have hlast := place_mono (suffix_readAttributes hread) htail
      exact List.forall_mem_cons.2 ⟨Nat.lt_of_lt_of_le hmore hlast, hbefore _ _ _ hread⟩

theorem byteLength_lt_turns (h : rest <:+ source.toList) :
    byteLength rest < (units source).length + 1 := by
  have hadd := place_add h
  rw [length_units]
  omega

theorem readTag?_place (hc : c.toNat < 0x80) (h : c :: d :: tail <:+ source.toList) :
    ∃ heads, readTag? source (place source (c :: d :: tail)) =
        some (heads, located source (Prod.map id (place source)) (readTag (c :: d :: tail))) ∧
      Ascends source (place source (d :: tail)) heads ∧
      ∀ event after, readTag (c :: d :: tail) = .ok (event, after) →
        ∀ i ∈ heads, i < place source after := by
  have hrest : d :: tail <:+ source.toList := (List.suffix_cons c _).trans h
  have hnext := place_of_ascii hc h
  obtain ⟨u, hu, hascii⟩ := exists_unit hrest
  have hslash := hascii '/' (by decide)
  by_cases hd : d = '/'
  · subst hd
    have htail : tail <:+ source.toList := (List.suffix_cons '/' tail).trans hrest
    have hname := (List.dropWhile_suffix isTagChar).trans htail
    have htwo : place source (c :: '/' :: tail) + 2 = place source tail := by
      rw [place_of_ascii (by decide) hrest, hnext]
    refine ⟨[], ?_, .nil source _, by simp⟩
    rw [readTag?]
    simp only [← hnext, hu, if_pos (hslash.2 rfl), htwo, readName?_place htail, Option.map_some,
      scan_blanks hname, pastEnd_place ((suffix_skipBlanks _).trans hname)]
    rfl
  · have hname := (List.dropWhile_suffix isTagChar).trans hrest
    obtain ⟨heads, hloop, hascends, hbefore⟩ := attributeLoop_place
      ⟨.tag (String.ofList ((d :: tail).takeWhile isTagChar)), c :: d :: tail⟩ hname
      (byteLength_lt_turns hname)
    refine ⟨heads, ?_, hascends.mono (place_mono (List.dropWhile_suffix _) hrest), ?_⟩
    · rw [readTag?, readTag_eq hd]
      simp only [← hnext, hu, if_neg (hslash.not.2 hd), readName?_place hrest]
      rw [Break.locate] at hloop
      rw [hloop]
      cases readAttributes _ ((d :: tail).dropWhile isTagChar) <;> rfl
    · intro event after heq
      rw [readTag_eq hd] at heq
      obtain ⟨⟨attrs, closes, last⟩, hread, hpair⟩ := exists_of_map_ok heq
      cases hpair
      exact hbefore _ _ _ hread

theorem suffix_tail_of_readEvent {event : Option Event}
    (h : readEvent c tail = .ok (event, after)) : after <:+ tail := by
  rcases List.suffix_cons_iff.1 (suffix_readEvent h) with rfl | htail
  · exact absurd (length_readEvent_lt h) (Nat.lt_irrefl _)
  · exact htail

theorem readEvent?_comment {body : List Char} (h : "<!--".toList ++ body <:+ source.toList) :
    readEvent? source (place source ("<!--".toList ++ body)) =
      some ([], located source (Prod.map id (place source))
        (readEvent '<' ('!' :: '-' :: '-' :: body))) := by
  have hbody : body <:+ source.toList := (List.suffix_append "<!--".toList body).trans h
  have hfour : place source ("<!--".toList ++ body) + 4 = place source body :=
    (place_append h).symm
  have hwhole : body ++ [] <:+ source.toList := by rwa [List.append_nil]
  have hslice := slice?_place hwhole
  rw [List.append_nil, place_nil] at hslice
  have hunits : units (String.ofList body) = body.flatMap unitsOf := by
    rw [units_eq, String.toList_ofList]
  have hstart : startsComment ("<!--".toList ++ body) = true := startsComment_iff.2 ⟨body, rfl⟩
  rw [readEvent?, readEvent, if_pos (startsComment_iff.2 ⟨body, rfl⟩)]
  simp only [startsComment?_place h, hstart, hfour, hslice, Option.map_some, hunits, List.drop]
  cases hafter : afterComment body with
  | none =>
    rw [(commentEnd?_units body).1 hafter]
    rfl
  | some after =>
    obtain ⟨k, hk, hlength⟩ := (commentEnd?_units body).2 after hafter
    obtain ⟨front, hfront⟩ := exists_of_afterComment hafter
    have hsuffix : after <:+ body := ⟨front ++ "-->".toList, by simp [hfront]⟩
    have hend : place source body + k + 3 = place source after := by
      have hadd := place_add hbody
      have hadd' := place_add (hsuffix.trans hbody)
      omega
    simp only [hk, hend]
    rfl

theorem readEvent?_place (h : c :: tail <:+ source.toList) :
    ∃ heads, readEvent? source (place source (c :: tail)) =
        some (heads, located source (Prod.map id (place source)) (readEvent c tail)) ∧
      Ascends source (place source tail) heads ∧
      ∀ event after, readEvent c tail = .ok (event, after) →
        ∀ i ∈ heads, i < place source after := by
  cases hcomment : startsComment (c :: tail) with
  | true =>
    obtain ⟨body, heq⟩ := startsComment_iff.1 hcomment
    cases heq
    exact ⟨[], readEvent?_comment h, .nil source _, by simp⟩
  | false =>
    rw [readEvent?, readEvent]
    simp only [startsComment?_place h, startsTag?_place h, hcomment]
    cases htag : startsTag (c :: tail) with
    | true =>
      obtain ⟨d, more, heq, -⟩ := startsTag_iff.1 htag
      cases heq
      obtain ⟨heads, hread, hascends, hbefore⟩ := readTag?_place (by decide) h
      refine ⟨heads, ?_, hascends, ?_⟩
      · simp only [hread, if_true]
        cases htagread : readTag ('<' :: d :: more) <;> rfl
      · intro event after heq
        cases htagread : readTag ('<' :: d :: more) with
        | error b => simp [htagread] at heq
        | ok found =>
          simp only [htagread, if_true, Bool.false_eq_true, if_false] at heq
          cases heq
          exact hbefore _ _ htagread
    | false =>
      have hsplit : (c :: (textRun tail).1) ++ (textRun tail).2 = c :: tail :=
        congrArg (c :: ·) (textRun_append_eq tail)
      have hslice := slice?_place (hsplit.symm ▸ h)
      rw [hsplit] at hslice
      refine ⟨[], ?_, .nil source _, by simp⟩
      simp only [scanText?_place h, hslice]
      rfl

/-- The loop over the template ends, and no turn of any loop starts where another did. The last one
starts at the end of the text if all of it was read. -/
theorem eventLoop_place {turns : Nat} (h : rest <:+ source.toList)
    (hturns : byteLength rest < turns) :
    ∃ heads, eventLoop source turns (place source rest) =
        some (place source rest :: heads, located source id (readEvents rest)) ∧
      Ascends source (place source rest) (place source rest :: heads) ∧
      ∀ events, readEvents rest = .ok events →
        (place source rest :: heads).getLast? = some (units source).length := by
  fun_induction readEvents rest generalizing turns with
  | case1 =>
    obtain ⟨turns, rfl⟩ := Nat.exists_eq_add_of_lt hturns
    refine ⟨[], ?_, .single h, fun _ _ => congrArg some place_nil⟩
    rw [eventLoop, if_neg (Nat.not_lt.2 (Nat.le_of_eq place_nil.symm))]
    rfl
  | case2 c tail b hread =>
    obtain ⟨turns, rfl⟩ := Nat.exists_eq_add_of_lt hturns
    obtain ⟨heads, hevent, hascends, -⟩ := readEvent?_place h
    refine ⟨heads, ?_, hascends.cons h (place_lt List.suffix_rfl h), fun _ heq => by cases heq⟩
    rw [eventLoop, if_pos (place_lt_length h), hevent, hread]
    rfl
  | case3 c tail event after hread hlt ih =>
    obtain ⟨turns, rfl⟩ := Nat.exists_eq_add_of_lt hturns
    have hafter := suffix_tail_of_readEvent hread
    have htail : tail <:+ source.toList := (List.suffix_cons c tail).trans h
    have hbytes := byteLength_lt h (hafter.trans htail) (place_lt hafter h)
    obtain ⟨heads, hevent, hascends, hbefore⟩ := readEvent?_place h
    obtain ⟨later, hloop, hlater, hlast⟩ :=
      @ih (byteLength (c :: tail) + turns) (hafter.trans htail) (by omega)
    have hall := hascends.append (hbefore event after hread) (place_mono hafter htail) hlater
    refine ⟨heads ++ place source after :: later, ?_,
      hall.cons h (place_lt List.suffix_rfl h), fun events heq => ?_⟩
    · rw [eventLoop, if_pos (place_lt_length h), hevent, hread]
      change (eventLoop source _ (place source after)).map _ = _
      rw [hloop]
      cases readEvents after <;> rfl
    · obtain ⟨rest, hrest, -⟩ := exists_of_map_ok heq
      rw [← List.cons_append, List.getLast?_append_of_ne_nil _ (List.cons_ne_nil _ _)]
      exact hlast rest hrest

end Indexed

end Places

/-- Reading by bytes gives the result of `parse` for every template. The positions at which the
turns of its loops start lie in the text, between characters, and each is behind the one before.
They start at the front and, if the template can be read, end at its end. -/
theorem run_advances_between_characters (source : String) :
    ∃ heads, Indexed.run source = some (heads, parse source) ∧ heads.Pairwise (· < ·) ∧
      (∀ i ∈ heads, i ≤ source.utf8ByteSize ∧ (⟨i⟩ : String.Pos.Raw).IsValid source) ∧
      heads.head? = some 0 ∧
      ∀ roots, parse source = .ok roots → heads.getLast? = some source.utf8ByteSize := by
  obtain ⟨heads, hloop, hascends, hlast⟩ :=
    Indexed.eventLoop_place List.suffix_rfl (Indexed.byteLength_lt_turns List.suffix_rfl)
  have hstart : place source source.toList = 0 := Nat.sub_self _
  have hsize : (units source).length = source.utf8ByteSize := by
    rw [length_units, byteLength_eq, String.ofList_toList]
  rw [hstart] at hloop hascends hlast
  refine ⟨0 :: heads, ?_, hascends.rising, fun i hi => ?_, rfl, fun roots hparse => ?_⟩
  · rw [Indexed.run, hloop, parse]
    cases readEvents source.toList <;> rfl
  · exact ⟨(hascends.isValid i hi).le_utf8ByteSize, hascends.isValid i hi⟩
  · rw [parse] at hparse
    cases hread : readEvents source.toList with
    | error b => simp [hread] at hparse
    | ok events => rw [hlast events hread, hsize]

end Stencil.Markup
