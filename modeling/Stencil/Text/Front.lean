/-!
# Fronts and ends of texts

Taking a text off the front or the end of another one.
-/

namespace Stencil.Text

/-- What follows `front` in a text that starts with it. -/
def after? : List Char → List Char → Option (List Char)
  | [], cs => some cs
  | _ :: _, [] => none
  | f :: front, c :: cs => if f = c then after? front cs else none

/-- What precedes `ending` in a text that ends with it. -/
def before? (ending cs : List Char) : Option (List Char) :=
  (after? ending.reverse cs.reverse).map List.reverse

theorem after?_append (front rest : List Char) : after? front (front ++ rest) = some rest := by
  induction front with
  | nil => rfl
  | cons c front ih => rw [List.cons_append, after?, if_pos rfl, ih]

theorem append_eq_of_after? {front cs rest : List Char} (h : after? front cs = some rest) :
    front ++ rest = cs := by
  fun_induction after? front cs with
  | case1 cs => exact (Option.some.inj h).symm
  | case2 => cases h
  | case3 front c cs ih => rw [List.cons_append, ih h]
  | case4 => cases h

theorem after?_eq_some_iff {front cs rest : List Char} :
    after? front cs = some rest ↔ front ++ rest = cs :=
  ⟨append_eq_of_after?, fun h => h ▸ after?_append front rest⟩

theorem before?_eq_some_iff {ending cs rest : List Char} :
    before? ending cs = some rest ↔ rest ++ ending = cs := by
  rw [before?, Option.map_eq_some_iff]
  constructor
  · intro ⟨r, hr, he⟩
    have := congrArg List.reverse (append_eq_of_after? hr)
    rw [List.reverse_append, List.reverse_reverse, List.reverse_reverse, he] at this
    exact this
  · intro h
    refine ⟨rest.reverse, ?_, List.reverse_reverse rest⟩
    rw [← h, List.reverse_append, after?_append]

theorem length_le_of_after? {front cs rest : List Char} (h : after? front cs = some rest) :
    rest.length ≤ cs.length := by
  rw [← append_eq_of_after? h, List.length_append]
  exact Nat.le_add_left ..

end Stencil.Text
