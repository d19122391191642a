import Stencil.Proofs.Language
import Stencil.Proofs.Text

/-!
# Recognition without a trace

Apart from the start of the text, a run of the grammar does not depend on where it stands, and it
never depends on its trace. What a rule leaves of a text is therefore a function of the text alone,
`after?`, and the run agrees with it. Its equations are those of the grammar, and a repetition is
taken apart item by item.
-/

namespace Stencil.Grammar

/-- The text after the blanks that the spacing allows. -/
def Spacing.strip : Spacing → List Char → List Char
  | .loose, cs => cs.dropWhile Text.isGap
  | _, cs => cs

/-- Repeats a step as long as it matches, at most `limit` times. -/
def exhaust (step : List Char → Option (List Char)) : Nat → List Char → List Char
  | 0, cs => cs
  | limit + 1, cs =>
    match step cs with
    | some rest => exhaust step limit rest
    | none => cs

/-- What is left of a text when a step has been repeated as long as it matches. -/
def drain (step : List Char → Option (List Char)) (cs : List Char) : List Char :=
  exhaust step (cs.length + 1) cs

/-- What a pattern leaves of a text, given what rules leave. -/
def Pattern.after? (attempt : Rule → List Char → Option (List Char)) (spacing : Spacing) :
    Pattern → List Char → Option (List Char)
  | .atStart, cs => some cs
  | .atEnd, cs => if cs.isEmpty then some cs else none
  | .text s, cs => Text.after? s.toList cs
  | .one _, [] => none
  | .one set, c :: rest => if set.mem c then some rest else none
  | .rule r, cs => attempt r cs
  | .seq first second, cs =>
    (first.after? attempt spacing cs).bind fun rest =>
      second.after? attempt spacing (spacing.strip rest)
  | .choice first second, cs =>
    (first.after? attempt spacing cs).or (second.after? attempt spacing cs)
  | .optional inner, cs => some ((inner.after? attempt spacing cs).getD cs)
  | .star inner, cs =>
    some <| match inner.after? attempt spacing cs with
      | some rest => drain (fun cs => inner.after? attempt spacing (spacing.strip cs)) rest
      | none => cs
  | .absent inner, cs => if (inner.after? attempt spacing cs).isSome then none else some cs

/-- What a rule leaves of a text, with rules nested at most `depth` deep. -/
def Rule.after? : Nat → Spacing → Rule → List Char → Option (List Char)
  | 0, _, _, _ => none
  | depth + 1, outer, r, cs =>
    let spacing := if r.spacing = .loose then outer else r.spacing
    r.body.after? (Rule.after? depth spacing) spacing cs

variable {spacing : Spacing} {cs rest : List Char}

theorem Spacing.strip_strip (spacing : Spacing) (cs : List Char) :
    spacing.strip (spacing.strip cs) = spacing.strip cs := by
  cases spacing with
  | loose => exact Text.dropWhile_of_stop (Text.head?_dropWhile cs)
  | compact | sealed => rfl

theorem rest_gap (spacing : Spacing) (c : Cursor) :
    (c.gap spacing).rest = spacing.strip c.rest := by
  cases spacing <;> rfl

namespace Pattern

/-- The pattern does not ask for the start of the text. -/
def isFree : Pattern → Bool
  | .atStart => false
  | .rule r => r != .input
  | .seq first second | .choice first second => first.isFree && second.isFree
  | .optional inner | .star inner | .absent inner => inner.isFree
  | _ => true

variable {run : Rule → Cursor → Trace → Outcome} {attempt : Rule → List Char → Option (List Char)}

theorem rest_iterate {step : Cursor → Trace → Outcome} {step' : List Char → Option (List Char)}
    (hstep : ∀ c t, (step c t).1.map Cursor.rest = step' c.rest) (limit : Nat) (c : Cursor)
    (t : Trace) :
    (iterate step limit c t).1.map Cursor.rest = some (exhaust step' limit c.rest) := by
  induction limit generalizing c t with
  | zero => rfl
  | succ limit ih =>
    have hnext := hstep c t
    rw [iterate, exhaust, ← hnext]
    rcases step c t with ⟨_ | next, t'⟩
    · rfl
    · exact ih next t'

/-- A run leaves what the pattern leaves, wherever it starts. -/
theorem rest_run {p : Pattern} (hp : p.isFree = true)
    (hrun : ∀ r, r ≠ .input → ∀ c t, (run r c t).1.map Cursor.rest = attempt r c.rest)
    (c : Cursor) (t : Trace) :
    (p.run run spacing c t).1.map Cursor.rest = p.after? attempt spacing c.rest := by
  induction p generalizing c t with
  | atStart => cases hp
  | atEnd =>
    rw [Pattern.run, after?]
    split <;> rfl
  | text s => simp [Pattern.run, after?, Cursor.text?, Option.map_map, Function.comp_def]
  | one set =>
    obtain ⟨position, _ | ⟨char, rest⟩⟩ := c
    · rfl
    · change (if set.mem char then some (⟨position + 1, rest⟩ : Cursor) else none).map _ = _
      rw [after?]
      split <;> rfl
  | rule r => exact hrun r (bne_iff_ne.1 hp) c t
  | seq first second ihfirst ihsecond =>
    rw [isFree, Bool.and_eq_true] at hp
    have hfirst := ihfirst hp.1 c t
    rw [Pattern.run, after?, ← hfirst]
    rcases first.run run spacing c t with ⟨_ | next, t'⟩
    · rfl
    · have hsecond := ihsecond hp.2 (next.gap spacing) t'
      rw [rest_gap] at hsecond
      exact hsecond
  | choice first second ihfirst ihsecond =>
    rw [isFree, Bool.and_eq_true] at hp
    have hfirst := ihfirst hp.1 c t
    rw [Pattern.run, after?, ← hfirst]
    rcases first.run run spacing c t with ⟨_ | next, t'⟩
    · exact ihsecond hp.2 c t'
    · rfl
  | optional inner ih =>
    have hinner := ih hp c t
    rw [Pattern.run, after?, ← hinner]
    rcases inner.run run spacing c t with ⟨_ | next, t'⟩ <;> rfl
  | star inner ih =>
    have hinner := ih hp c t
    rw [Pattern.run, after?, ← hinner]
    rcases inner.run run spacing c t with ⟨_ | next, t'⟩
    · rfl
    · refine rest_iterate (fun c t => ?_) _ next t'
      rw [ih hp, rest_gap]
  | absent inner ih =>
    have hinner := ih hp c t
    rw [Pattern.run, after?, ← hinner]
    rcases inner.run run spacing c t with ⟨_ | next, t'⟩ <;> rfl

end Pattern

theorem Rule.isFree_body {r : Rule} (h : r ≠ .input) : r.body.isFree = true := by
  cases r with
  | input => exact absurd rfl h
  | _ => rfl

theorem Rule.rest_run {r : Rule} (h : r ≠ .input) (depth : Nat) (outer : Spacing) (c : Cursor)
    (t : Trace) : (r.run depth outer c t).1.map Cursor.rest = r.after? depth outer c.rest := by
  induction depth generalizing outer r c t with
  | zero => rfl
  | succ depth ih =>
    rw [Rule.fst_run]
    exact Pattern.rest_run (isFree_body h) (fun r hr c t => ih hr _ c t) c t

/-- What the grammar asks for after the start of the text. -/
def Pattern.whole : Pattern :=
  .sequence (.rule .expression) [.optional (.rule .filter), .rule .endOfInput]

/-- The text is accepted if the grammar matches from the start and nothing is left. -/
theorem accepts_eq (source : List Char) :
    accepts source = (Pattern.whole.after? (Rule.after? (4 * source.length + 15) .loose) .loose
      (Spacing.loose.strip source)).isSome := by
  have hwhole : (Pattern.whole.run (Rule.run (4 * source.length + 15) .loose) .loose
      (Cursor.gap .loose ⟨0, source⟩) ⟨0, []⟩).1.map Cursor.rest = _ :=
    Pattern.rest_run rfl (fun r hr c t => Rule.rest_run hr _ _ c t) _ _
  rw [← rest_gap .loose ⟨0, source⟩, ← hwhole, Option.isSome_map, accepts, run, Rule.fst_run]
  rfl

/-- The rule takes at least one character. -/
def Rule.isProper : Rule → Bool
  | .endOfInput | .doubleQuoted | .singleQuoted => false
  | _ => true

/-- The pattern takes at least one character. -/
def Pattern.isProper : Pattern → Bool
  | .text s => !s.toList.isEmpty
  | .one _ => true
  | .rule r => r.isProper
  | .seq first second => first.isProper || second.isProper
  | .choice first second => first.isProper && second.isProper
  | _ => false

theorem Rule.isProper_body {r : Rule} (h : r.isProper = true) : r.body.isProper = true := by
  cases r with
  | endOfInput | doubleQuoted | singleQuoted => cases h
  | _ => rfl

theorem Spacing.length_strip_le (spacing : Spacing) (cs : List Char) :
    (spacing.strip cs).length ≤ cs.length := by
  cases spacing with
  | loose => exact (List.dropWhile_sublist _).length_le
  | compact | sealed => exact Nat.le_refl _

theorem length_exhaust_le {step : List Char → Option (List Char)}
    (hstep : ∀ cs rest, step cs = some rest → rest.length ≤ cs.length) (limit : Nat)
    (cs : List Char) : (exhaust step limit cs).length ≤ cs.length := by
  induction limit generalizing cs with
  | zero => exact Nat.le_refl _
  | succ limit ih =>
    rw [exhaust]
    split
    · rename_i rest hrest
      exact Nat.le_trans (ih rest) (hstep cs rest hrest)
    · exact Nat.le_refl _

/-- A pattern leaves no more than there was, and less if it is proper. -/
theorem Pattern.length_after? {attempt : Rule → List Char → Option (List Char)} {p : Pattern}
    (hattempt : ∀ r cs rest, attempt r cs = some rest →
      rest.length ≤ cs.length ∧ (r.isProper = true → rest.length < cs.length))
    (h : p.after? attempt spacing cs = some rest) :
    rest.length ≤ cs.length ∧ (p.isProper = true → rest.length < cs.length) := by
  induction p generalizing cs rest with
  | atStart =>
    cases h
    exact ⟨Nat.le_refl _, nofun⟩
  | atEnd =>
    rw [after?] at h
    split at h
    · cases h
      exact ⟨Nat.le_refl _, nofun⟩
    · cases h
  | text s =>
    have hcs := congrArg List.length (Text.append_eq_of_after? h)
    rw [List.length_append] at hcs
    refine ⟨by omega, fun hs => ?_⟩
    have hpos : 0 < s.toList.length := by
      rw [List.length_pos_iff]
      simpa [isProper] using hs
    omega
  | one set =>
    cases cs with
    | nil => cases h
    | cons c tail =>
      rw [after?] at h
      split at h
      · cases h
        simp
      · cases h
  | rule r => exact hattempt r cs rest h
  | seq first second ihfirst ihsecond =>
    obtain ⟨mid, hfirst, hsecond⟩ := Option.bind_eq_some_iff.1 h
    obtain ⟨hle, hlt⟩ := ihfirst hfirst
    obtain ⟨hle', hlt'⟩ := ihsecond hsecond
    have hstrip := spacing.length_strip_le mid
    refine ⟨by omega, fun hproper => ?_⟩
    rw [isProper, Bool.or_eq_true] at hproper
    rcases hproper with hproper | hproper
    · have := hlt hproper
      omega
    · have := hlt' hproper
      omega
  | choice first second ihfirst ihsecond =>
    rw [isProper, Bool.and_eq_true]
    rcases Option.or_eq_some_iff.1 h with hfirst | ⟨-, hsecond⟩
    · exact ⟨(ihfirst hfirst).1, fun hproper => (ihfirst hfirst).2 hproper.1⟩
    · exact ⟨(ihsecond hsecond).1, fun hproper => (ihsecond hsecond).2 hproper.2⟩
  | optional inner ih =>
    refine ⟨?_, nofun⟩
    cases h
    cases hinner : inner.after? attempt spacing cs with
    | none => exact Nat.le_refl _
    | some mid => exact (ih hinner).1
  | star inner ih =>
    refine ⟨?_, nofun⟩
    cases h
    cases hinner : inner.after? attempt spacing cs with
    | none => exact Nat.le_refl _
    | some mid =>
      refine Nat.le_trans (length_exhaust_le (fun cs rest hrest => ?_) _ mid) (ih hinner).1
      exact Nat.le_trans (ih hrest).1 (spacing.length_strip_le cs)
  | absent inner ih =>
    rw [after?] at h
    split at h
    · cases h
    · cases h
      exact ⟨Nat.le_refl _, nofun⟩

theorem Rule.length_after? {depth : Nat} {r : Rule} (h : r.after? depth spacing cs = some rest) :
    rest.length ≤ cs.length ∧ (r.isProper = true → rest.length < cs.length) := by
  induction depth generalizing spacing r cs rest with
  | zero => cases h
  | succ depth ih =>
    have hbody := Pattern.length_after? (fun _ _ _ => ih) h
    exact ⟨hbody.1, fun hproper => hbody.2 (isProper_body hproper)⟩

section Drain

variable {step : List Char → Option (List Char)}

theorem drain_of_none (h : step cs = none) : drain step cs = cs := by
  rw [drain, exhaust, h]

/-- Once the limit exceeds what is left, it plays no part. -/
theorem exhaust_congr (hstep : ∀ cs rest, step cs = some rest → rest.length < cs.length)
    {m n : Nat} (hm : cs.length < m) (hn : cs.length < n) :
    exhaust step m cs = exhaust step n cs := by
  induction m generalizing cs n with
  | zero => omega
  | succ m ih =>
    cases n with
    | zero => omega
    | succ n =>
      rw [exhaust, exhaust]
      split
      · rename_i rest hrest
        have hlt := hstep cs rest hrest
        exact ih (by omega) (by omega)
      · rfl

theorem drain_of_some (hstep : ∀ cs rest, step cs = some rest → rest.length < cs.length)
    (h : step cs = some rest) : drain step cs = drain step rest := by
  rw [drain, exhaust, h]
  exact exhaust_congr hstep (hstep cs rest h) (Nat.lt_succ_self _)

end Drain

namespace Pattern

/-- What a pattern leaves of a text inside a rule with this spacing. -/
def rest? (depth : Nat) (spacing : Spacing) (p : Pattern) : List Char → Option (List Char) :=
  p.after? (Rule.after? depth spacing) spacing

/-- What a pattern leaves of a text after the blanks before it. -/
def past? (depth : Nat) (p : Pattern) (cs : List Char) : Option (List Char) :=
  p.rest? depth .loose (Spacing.loose.strip cs)

variable {depth : Nat} {p q : Pattern}

theorem rest?_seq : (seq p q).rest? depth spacing cs =
    (p.rest? depth spacing cs).bind fun rest => q.rest? depth spacing (spacing.strip rest) := rfl

theorem rest?_choice : (choice p q).rest? depth spacing cs =
    (p.rest? depth spacing cs).or (q.rest? depth spacing cs) := rfl

theorem rest?_optional : (optional p).rest? depth spacing cs =
    some ((p.rest? depth spacing cs).getD cs) := rfl

theorem rest?_absent : (absent p).rest? depth spacing cs =
    if (p.rest? depth spacing cs).isSome then none else some cs := rfl

theorem rest?_text {s : String} : (text s).rest? depth spacing cs = Text.after? s.toList cs := rfl

theorem rest?_one_cons {set : CharSet} {c : Char} : (one set).rest? depth spacing (c :: cs) =
    if set.mem c then some cs else none := rfl

theorem length_rest?_lt (hp : p.isProper = true) (h : p.rest? depth spacing cs = some rest) :
    rest.length < cs.length :=
  (length_after? (fun _ _ _ => Rule.length_after?) h).2 hp

/-- A repetition without blanks goes on as long as its item matches. -/
theorem rest?_star (hp : p.isProper = true) (hspacing : spacing ≠ .loose) :
    (star p).rest? depth spacing cs = some (drain (p.rest? depth spacing) cs) := by
  have hstrip : (fun cs => p.rest? depth spacing (spacing.strip cs)) = p.rest? depth spacing := by
    cases spacing with
    | loose => exact absurd rfl hspacing
    | compact | sealed => rfl
  change some (match p.rest? depth spacing cs with
    | some rest => drain (fun cs => p.rest? depth spacing (spacing.strip cs)) rest
    | none => cs) = _
  rw [hstrip]
  split
  · rename_i rest hrest
    rw [drain_of_some (fun _ _ => length_rest?_lt hp) hrest]
  · rename_i hnone
    rw [drain_of_none hnone]

theorem past?_strip : p.past? depth (Spacing.loose.strip cs) = p.past? depth cs := by
  rw [past?, Spacing.strip_strip, past?]

theorem past?_seq : (seq p q).past? depth cs = (p.past? depth cs).bind (q.past? depth) := rfl

theorem past?_choice : (choice p q).past? depth cs = (p.past? depth cs).or (q.past? depth cs) := rfl

theorem past?_optional : (optional p).past? depth cs =
    some ((p.past? depth cs).getD (Spacing.loose.strip cs)) := rfl

theorem past?_rule {r : Rule} : (rule r).past? depth cs =
    r.after? depth .loose (Spacing.loose.strip cs) := rfl

theorem length_past?_lt (hp : p.isProper = true) (h : p.past? depth cs = some rest) :
    rest.length < cs.length :=
  Nat.lt_of_lt_of_le (length_rest?_lt hp h) (Spacing.loose.length_strip_le cs)

theorem drain_past?_of_some (hp : p.isProper = true) (h : p.past? depth cs = some rest) :
    drain (p.past? depth) cs = drain (p.past? depth) rest :=
  drain_of_some (fun _ _ => length_past?_lt hp) h

/-- A repetition with blanks goes on up to where its item does not match, or to the blanks there. -/
theorem exists_past?_star (hp : p.isProper = true)
    (hdrain : drain (p.past? depth) cs = drain (p.past? depth) rest)
    (hstop : p.past? depth rest = none) :
    ∃ ds, (star p).past? depth cs = some ds ∧
      Spacing.loose.strip ds = Spacing.loose.strip rest := by
  rw [drain_of_none hstop] at hdrain
  rw [← hdrain]
  refine ⟨_, rfl, ?_⟩
  change Spacing.loose.strip (match p.past? depth cs with
    | some rest => drain (p.past? depth) rest
    | none => Spacing.loose.strip cs) = _
  split
  · rename_i next hnext
    rw [drain_past?_of_some hp hnext]
  · rename_i hnone
    rw [drain_of_none hnone, Spacing.strip_strip]

end Pattern

end Stencil.Grammar
