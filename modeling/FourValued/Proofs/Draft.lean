import FourValued.Draft
import FourValued.Proofs.Balance

/-!
# Drafts whose brackets match

The main connective of a balanced draft cuts it into two balanced ones, and a draft that is negated stays balanced
and has no main connective (`balanced_of_cutMain`, `balanced_negate`, `splitMain_negate`). Depths are counted in
integers here.
-/

namespace FourValued.Draft

open Text

variable {m l r inner : Draft} {c : Connective} {g : Glyph}

theorem balanced_of_content (h : m.content = some inner) : Balanced 0 inner.chars :=
  balanced_of_enclosed (content_eq h).1

theorem content_brackets (balanced : Balanced 0 m.chars) : content (sign '(' :: (m ++ [sign ')'])) = some m := by
  have length : m.chars.length = m.length := List.length_map _
  rw [content, chars_brackets, enclosed_brackets balanced, Option.map_some, length, List.drop_succ_cons,
    List.drop_zero, List.take_left]

theorem balanced_of_cutMain (balanced : Balanced 0 m.chars) (h : m.cutMain Int = some (l, c, r)) :
    Balanced 0 l.chars ∧ Balanced 0 r.chars ∧ splitMain l.chars = none :=
  balanced_of_splitMain balanced (cutMain_eq h).1

theorem cutMain_append (balanced : Balanced 0 l.chars) (hidden : splitMain l.chars = none)
    (hg : g.char = c.char) : cutMain Int (l ++ g :: r) = some (l, c, r) := by
  have at_sign : splitFrom (0 : Int) (chars (g :: r)) = some ([], c, r.chars) := by
    rw [chars, List.map_cons, hg, splitFrom, if_pos rfl, Connective.ofChar?_eq_some_iff.2 rfl]
    rfl
  have cut : splitFrom (0 : Int) (chars (l ++ g :: r)) = some (l.chars, c, r.chars) := by
    rw [chars_append]
    refine (splitFrom_append balanced hidden).trans ?_
    rw [at_sign]
    simp
  have length : l.chars.length = l.length := List.length_map _
  rw [cutMain, cut, Option.map_some]
  dsimp only
  rw [length, List.take_left, List.drop_append]
  simp

theorem cutMain_of_negatedContent (h : m.negatedContent = some inner) : m.cutMain Int = none := by
  obtain ⟨g, rest, rfl, tilde, closed⟩ := negatedContent_eq h
  rw [cutMain_eq_none_iff, chars_cons_of_sign tilde]
  exact Option.map_eq_none_iff.2 (splitMain_of_enclosed (content_eq closed).1)

theorem negatedContent_of_cutMain {pieces : Draft × Connective × Draft} (cut : m.cutMain Int = some pieces) :
    m.negatedContent = none := by
  cases h : m.negatedContent with
  | none => rfl
  | some inner =>
    rw [cutMain_of_negatedContent h] at cut
    cases cut

theorem splitMain_negate (balanced : Balanced 0 m.chars) : splitMain (m.negate Int).chars = none := by
  cases cut : m.cutMain Int with
  | some pieces =>
    rw [negate_of_cutMain cut, chars_cons_of_sign rfl, chars_brackets]
    exact Option.map_eq_none_iff.2 (splitMain_of_enclosed (enclosed_brackets balanced))
  | none =>
    rw [negate_of_hidden cut, chars_cons_of_sign rfl]
    exact Option.map_eq_none_iff.2 (cutMain_eq_none_iff.1 cut)

theorem balanced_negate (balanced : Balanced 0 m.chars) : Balanced 0 (m.negate Int).chars := by
  cases cut : m.cutMain Int with
  | some pieces =>
    rw [negate_of_cutMain cut, chars_cons_of_sign rfl, chars_brackets]
    exact balanced_cons_iff.2 ⟨by decide, balanced_brackets balanced⟩
  | none =>
    rw [negate_of_hidden cut, chars_cons_of_sign rfl]
    exact balanced_cons_iff.2 ⟨by decide, balanced⟩

end FourValued.Draft
