import Mathlib.Data.List.TakeWhile
import Stencil.Expr.Match

/-!
# The language of the grammar

The grammar read as a context-free one: a choice takes either side, a repetition any number of
items, and any run of blanks may stand between the items of a loose rule. What must not follow is
kept as a condition on the place where it is asked for. Every run of the grammar that matches is
such a derivation: ordered choice and greed leave derivations out, and add none.
-/

namespace Stencil.Grammar

variable {spacing : Spacing} {c c' : Cursor} {t : Trace}

/-- The second place comes after the first one and a run of blanks, which only loose spacing
allows. -/
def Cursor.Skips (spacing : Spacing) (c c' : Cursor) : Prop :=
  ∃ blanks, c.rest = blanks ++ c'.rest ∧ c'.position = c.position + blanks.length ∧
    (∀ b ∈ blanks, Text.isGap b = true) ∧ (spacing = .loose ∨ blanks = [])

/-- One item or more, with blanks between them. -/
inductive Repeats (spacing : Spacing) (item : Cursor → Cursor → Prop) : Cursor → Cursor → Prop
  | one {c c' : Cursor} : item c c' → Repeats spacing item c c'
  | more {c c₁ c₂ c' : Cursor} : item c c₁ → c₁.Skips spacing c₂ → Repeats spacing item c₂ c' →
      Repeats spacing item c c'

/-- A pattern leads from one place to another, given where rules lead. -/
def Pattern.Spans (rule : Rule → Cursor → Cursor → Prop) (spacing : Spacing) :
    Pattern → Cursor → Cursor → Prop
  | .atStart, c, c' => c.position = 0 ∧ c' = c
  | .atEnd, c, c' => c.rest = [] ∧ c' = c
  | .text s, c, c' => c.rest = s.toList ++ c'.rest ∧ c'.position = c.position + s.length
  | .one set, c, c' =>
    ∃ char, set.mem char = true ∧ c.rest = char :: c'.rest ∧ c'.position = c.position + 1
  | .rule r, c, c' => rule r c c'
  | .seq first second, c, c' =>
    ∃ c₁ c₂, first.Spans rule spacing c c₁ ∧ c₁.Skips spacing c₂ ∧ second.Spans rule spacing c₂ c'
  | .choice first second, c, c' => first.Spans rule spacing c c' ∨ second.Spans rule spacing c c'
  | .optional inner, c, c' => c' = c ∨ inner.Spans rule spacing c c'
  | .star inner, c, c' => c' = c ∨ Repeats spacing (inner.Spans rule spacing) c c'
  | .absent inner, c, c' => c' = c ∧ ∀ next, ¬ inner.Spans rule spacing c next

/-- A rule derives what stands between two places, with rules nested at most `height` deep. -/
def Rule.Derives : Nat → Spacing → Rule → Cursor → Cursor → Prop
  | 0, _, _, _, _ => False
  | height + 1, outer, r, c, c' =>
    let spacing := if r.spacing = .loose then outer else r.spacing
    r.body.Spans (Rule.Derives height spacing) spacing c c'

/-- The text is derived from `input`, which asks for the start and the end of the text. -/
def Derivable (source : List Char) : Prop :=
  ∃ height c, Rule.Derives height .loose .input ⟨0, source⟩ c

theorem Cursor.skips_gap (spacing : Spacing) (c : Cursor) : c.Skips spacing (c.gap spacing) := by
  cases spacing with
  | loose =>
    refine ⟨c.rest.takeWhile Text.isGap, ?_, rfl, fun b hb => List.mem_takeWhile_imp hb, .inl rfl⟩
    exact (List.takeWhile_append_dropWhile).symm
  | compact => exact ⟨[], rfl, rfl, by simp, .inr rfl⟩
  | sealed => exact ⟨[], rfl, rfl, by simp, .inr rfl⟩

theorem Cursor.text?_eq_some_iff {s : String} :
    c.text? s = some c' ↔ c.rest = s.toList ++ c'.rest ∧ c'.position = c.position + s.length := by
  rw [Cursor.text?, Option.map_eq_some_iff]
  constructor
  · rintro ⟨rest, hafter, rfl⟩
    exact ⟨(Text.append_eq_of_after? hafter).symm, rfl⟩
  · rintro ⟨hrest, hposition⟩
    refine ⟨c'.rest, Text.after?_eq_some_iff.2 hrest.symm, ?_⟩
    rw [← hposition]

theorem Cursor.one?_eq_some_iff {set : CharSet} :
    c.one? set = some c' ↔
      ∃ char, set.mem char = true ∧ c.rest = char :: c'.rest ∧ c'.position = c.position + 1 := by
  obtain ⟨position, rest⟩ := c
  cases rest with
  | nil => simp [Cursor.one?]
  | cons char rest =>
    change (if set.mem char then some (⟨position + 1, rest⟩ : Cursor) else none) = some c' ↔ _
    split
    · rename_i hchar
      constructor
      · intro h
        cases h
        exact ⟨char, hchar, rfl, rfl⟩
      · rintro ⟨_, -, hrest, hposition⟩
        cases hrest
        rw [← hposition]
    · rename_i hchar
      constructor
      · intro h
        cases h
      · rintro ⟨_, hmem, hrest, -⟩
        cases hrest
        exact absurd hmem hchar

namespace Pattern

variable {rule : Rule → Cursor → Cursor → Prop} {attempt : Rule → Cursor → Trace → Outcome}

/-- Texts and single characters, and choices of them. -/
def isFlat : Pattern → Bool
  | .text _ | .one _ => true
  | .choice first second => first.isFlat && second.isFlat
  | _ => false

/-- What must not follow is a text or a single character, and never a rule. -/
def isGrounded : Pattern → Bool
  | .absent inner => inner.isFlat
  | .seq first second | .choice first second => first.isGrounded && second.isGrounded
  | .optional inner | .star inner => inner.isGrounded
  | _ => true

/-- Ordered choice finds a flat pattern wherever it stands. -/
theorem run_ne_none_of_spans {p : Pattern} (hp : p.isFlat = true)
    (h : p.Spans rule spacing c c') (t : Trace) : (p.run attempt spacing c t).1 ≠ none := by
  induction p generalizing t with
  | text s =>
    rw [run, Cursor.text?_eq_some_iff.2 h]
    exact Option.some_ne_none _
  | one set =>
    rw [run, Cursor.one?_eq_some_iff.2 h]
    exact Option.some_ne_none _
  | choice first second ihfirst ihsecond =>
    rw [isFlat, Bool.and_eq_true] at hp
    rw [run]
    rcases hfirst : first.run attempt spacing c t with ⟨_ | next, t'⟩
    · rcases h with h | h
      · exact absurd (congrArg Prod.fst hfirst) (ihfirst hp.1 h t)
      · exact ihsecond hp.2 h t'
    · exact Option.some_ne_none _
  | atStart | atEnd | rule | seq | optional | star | absent => cases hp

/-- What a repeated step takes is nothing, or items with blanks before each. -/
theorem repeats_of_iterate {inner : Pattern} {item : Cursor → Cursor → Prop}
    (hinner : ∀ c c' t, (inner.run attempt spacing c t).1 = some c' → item c c') {limit : Nat}
    (h : (iterate (fun c t => inner.run attempt spacing (c.gap spacing) t) limit c t).1
      = some c') :
    c' = c ∨ ∃ next, c.Skips spacing next ∧ Repeats spacing item next c' := by
  induction limit generalizing c t with
  | zero =>
    cases h
    exact .inl rfl
  | succ limit ih =>
    rw [iterate] at h
    rcases hrun : inner.run attempt spacing (c.gap spacing) t with ⟨_ | mid, t'⟩
    · rw [hrun] at h
      cases h
      exact .inl rfl
    · rw [hrun] at h
      have hmid : item (c.gap spacing) mid := hinner _ _ t (by rw [hrun])
      refine .inr ⟨_, c.skips_gap spacing, ?_⟩
      rcases ih h with rfl | ⟨next, hskips, hrepeats⟩
      · exact .one hmid
      · exact .more hmid hskips hrepeats

/-- A pattern that matches spans what it takes, if rules do so. -/
theorem spans_of_run {p : Pattern} (hp : p.isGrounded = true)
    (hattempt : ∀ r c c' t, (attempt r c t).1 = some c' → rule r c c')
    (h : (p.run attempt spacing c t).1 = some c') : p.Spans rule spacing c c' := by
  induction p generalizing c c' t with
  | atStart =>
    rw [run] at h
    split at h
    · rename_i hposition
      cases h
      exact ⟨hposition, rfl⟩
    · cases h
  | atEnd =>
    rw [run] at h
    split at h
    · rename_i hempty
      cases h
      exact ⟨List.isEmpty_iff.1 hempty, rfl⟩
    · cases h
  | text s => exact Cursor.text?_eq_some_iff.1 h
  | one set => exact Cursor.one?_eq_some_iff.1 h
  | rule r => exact hattempt r c c' t h
  | seq first second ihfirst ihsecond =>
    rw [isGrounded, Bool.and_eq_true] at hp
    rw [run] at h
    rcases hfirst : first.run attempt spacing c t with ⟨_ | next, t'⟩
    · rw [hfirst] at h
      cases h
    · rw [hfirst] at h
      have hnext := ihfirst hp.1 (congrArg Prod.fst hfirst)
      exact ⟨next, next.gap spacing, hnext, next.skips_gap spacing, ihsecond hp.2 h⟩
  | choice first second ihfirst ihsecond =>
    rw [isGrounded, Bool.and_eq_true] at hp
    rw [run] at h
    rcases hfirst : first.run attempt spacing c t with ⟨_ | next, t'⟩
    · rw [hfirst] at h
      exact .inr (ihsecond hp.2 h)
    · rw [hfirst] at h
      cases h
      exact .inl (ihfirst hp.1 (congrArg Prod.fst hfirst))
  | optional inner ih =>
    rw [run] at h
    rcases hinner : inner.run attempt spacing c t with ⟨_ | next, t'⟩
    · rw [hinner] at h
      cases h
      exact .inl rfl
    · rw [hinner] at h
      cases h
      exact .inr (ih hp (congrArg Prod.fst hinner))
  | star inner ih =>
    rw [run] at h
    rcases hinner : inner.run attempt spacing c t with ⟨_ | next, t'⟩
    · rw [hinner] at h
      cases h
      exact .inl rfl
    · rw [hinner] at h
      have hnext := ih hp (congrArg Prod.fst hinner)
      rcases repeats_of_iterate (fun _ _ _ => ih hp) h with rfl | ⟨mid, hskips, hrepeats⟩
      · exact .inr (.one hnext)
      · exact .inr (.more hnext hskips hrepeats)
  | absent inner ih =>
    rw [run] at h
    rcases hinner : inner.run attempt spacing c t with ⟨_ | next, t'⟩
    · rw [hinner] at h
      cases h
      exact ⟨rfl, fun next hnext =>
        run_ne_none_of_spans hp hnext t (congrArg Prod.fst hinner)⟩
    · rw [hinner] at h
      cases h

end Pattern

theorem Rule.isGrounded_body (r : Rule) : r.body.isGrounded = true := by
  cases r <;> rfl

/-- A rule matches where its body does. -/
theorem Rule.fst_run (depth : Nat) (outer : Spacing) (r : Rule) (c : Cursor) (t : Trace) :
    (r.run (depth + 1) outer c t).1 =
      (r.body.run (Rule.run depth (if r.spacing = .loose then outer else r.spacing))
        (if r.spacing = .loose then outer else r.spacing) c t).1 := by
  rw [Rule.run]
  split
  · rename_i hrun
    rw [hrun]
  · rename_i hrun
    rw [hrun]

/-- A rule that matches derives what it takes. -/
theorem Rule.derives_of_run {depth : Nat} {r : Rule} (h : (r.run depth spacing c t).1 = some c') :
    r.Derives depth spacing c c' := by
  induction depth generalizing spacing r c c' t with
  | zero => cases h
  | succ depth ih =>
    rw [Rule.fst_run] at h
    exact Pattern.spans_of_run r.isGrounded_body (fun _ _ _ _ => ih) h

/-- A text that the run of the grammar accepts is derivable. -/
theorem derivable_of_accepts {source : List Char} (h : accepts source = true) :
    Derivable source := by
  obtain ⟨c, hc⟩ := Option.isSome_iff_exists.1 h
  exact ⟨_, c, Rule.derives_of_run hc⟩

end Stencil.Grammar
