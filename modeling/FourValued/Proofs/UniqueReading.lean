import Mathlib.Data.List.Basic
import FourValued.Formula

/-!
# Unique reading of printed formulas

Both ways to print a formula put fixed pieces of text around the texts of its parts (`Writing`). If the piece at the
beginning tells letters, negations and connectives apart, and the piece at the beginning or the one between the
operands tells which connective it is, then the text of a formula says where it ends: no text continues in two ways
as the text of a formula (`Writing.Legible.text_append_inj`). So formulas that print alike are the same
(`Formula.printed_eq_iff`).
-/

namespace FourValued

/-- The pieces of text around the parts of a formula. -/
structure Writing where
  beforeLetter : List Char
  afterLetter : List Char
  beforeNegated : List Char
  afterNegated : List Char
  before : Connective → List Char
  between : Connective → List Char
  after : Connective → List Char

namespace Writing

def text (w : Writing) : Formula → List Char
  | .var l => w.beforeLetter ++ l.char :: w.afterLetter
  | .neg f => w.beforeNegated ++ (w.text f ++ w.afterNegated)
  | .binary c l r => w.before c ++ (w.text l ++ (w.between c ++ (w.text r ++ w.after c)))

section Append

variable (w : Writing) (c : Connective) (f l r : Formula) (x : List Char)

theorem text_var_append (m : Letter) : w.text (.var m) ++ x = w.beforeLetter ++ m.char :: (w.afterLetter ++ x) := by
  simp [text]

theorem text_neg_append : w.text (.neg f) ++ x = w.beforeNegated ++ (w.text f ++ (w.afterNegated ++ x)) := by
  simp [text]

theorem text_binary_append : w.text (.binary c l r) ++ x =
    w.before c ++ (w.text l ++ (w.between c ++ (w.text r ++ (w.after c ++ x)))) := by
  simp [text]

end Append

/-- The pieces tell apart what they are put around. -/
structure Legible (w : Writing) : Prop where
  letter_ne_negated : ∀ (l : Letter) x y, w.beforeLetter ++ l.char :: x ≠ w.beforeNegated ++ y
  letter_ne_connective : ∀ (l : Letter) c x y, w.beforeLetter ++ l.char :: x ≠ w.before c ++ y
  negated_ne_connective : ∀ c x y, w.beforeNegated ++ x ≠ w.before c ++ y
  /-- Connectives that begin alike are told apart between their operands. -/
  connective_inj : ∀ c d x y, w.before c ++ x = w.before d ++ y →
    x = y ∧ ∀ u v, w.between c ++ u = w.between d ++ v → c = d

theorem Legible.text_append_inj {w : Writing} (legible : w.Legible) {f g : Formula} {x y : List Char}
    (h : w.text f ++ x = w.text g ++ y) : f = g ∧ x = y := by
  induction f generalizing g x y with
  | var l =>
    rw [text_var_append] at h
    cases g with
    | var m =>
      rw [text_var_append, List.append_cancel_left_eq, List.cons.injEq, List.append_cancel_left_eq] at h
      exact ⟨congrArg Formula.var (Letter.char_injective h.1), h.2⟩
    | neg g => exact absurd (h.trans (text_neg_append ..)) (legible.letter_ne_negated l _ _)
    | binary d l' r' => exact absurd (h.trans (text_binary_append ..)) (legible.letter_ne_connective l d _ _)
  | neg f ih =>
    rw [text_neg_append] at h
    cases g with
    | var m => exact absurd ((text_var_append ..).symm.trans h.symm) (legible.letter_ne_negated m _ _)
    | neg g =>
      rw [text_neg_append, List.append_cancel_left_eq] at h
      obtain ⟨rfl, rest⟩ := ih h
      exact ⟨rfl, List.append_cancel_left rest⟩
    | binary d l' r' => exact absurd (h.trans (text_binary_append ..)) (legible.negated_ne_connective d _ _)
  | binary c l r ihl ihr =>
    rw [text_binary_append] at h
    cases g with
    | var m => exact absurd ((text_var_append ..).symm.trans h.symm) (legible.letter_ne_connective m c _ _)
    | neg g => exact absurd ((text_neg_append ..).symm.trans h.symm) (legible.negated_ne_connective c _ _)
    | binary d l' r' =>
      -- The left operands are equal even before it is known that the connectives are.
      rw [text_binary_append] at h
      obtain ⟨operands, told⟩ := legible.connective_inj c d _ _ h
      obtain ⟨rfl, afterLeft⟩ := ihl operands
      obtain rfl := told _ _ afterLeft
      obtain ⟨rfl, rest⟩ := ihr (List.append_cancel_left afterLeft)
      exact ⟨rfl, List.append_cancel_left rest⟩

theorem Legible.text_injective {w : Writing} (legible : w.Legible) : Function.Injective w.text := by
  intro f g h
  exact (legible.text_append_inj (x := []) (y := []) (congrArg (· ++ []) h)).1

def bracketed : Writing where
  beforeLetter := []
  afterLetter := []
  beforeNegated := ['~']
  afterNegated := []
  before _ := ['(']
  between c := [' ', c.char, ' ']
  after _ := [')']

def functional : Writing where
  beforeLetter := ['V', 'a', 'r', '(']
  afterLetter := [')']
  beforeNegated := ['N', 'o', 't', '(']
  afterNegated := [')']
  before c := (Formula.functionName c).toList ++ ['(']
  between _ := [',', ' ']
  after _ := [')']

theorem char_ne_sign : ∀ l : Letter, l.char ≠ '~' ∧ l.char ≠ '(' := by decide

theorem legible_bracketed : bracketed.Legible where
  letter_ne_negated l x y := by simp [bracketed, char_ne_sign l]
  letter_ne_connective l c x y := by simp [bracketed, char_ne_sign l]
  negated_ne_connective c x y := by simp [bracketed]
  connective_inj c d x y h := by
    refine ⟨by simpa [bracketed] using h, fun u v told => ?_⟩
    -- The sign of the connective stands between its operands.
    simp only [bracketed, List.cons_append, List.cons.injEq, true_and] at told
    exact Option.some.inj ((Connective.ofChar?_eq_some_iff.2 told.1.symm).symm.trans
      (Connective.ofChar?_eq_some_iff.2 rfl))

theorem legible_functional : functional.Legible where
  letter_ne_negated l x y := by simp [functional]
  letter_ne_connective l c x y := by cases c <;> simp [functional, Formula.functionName]
  negated_ne_connective c x y := by cases c <;> simp [functional, Formula.functionName]
  connective_inj c d x y h := by
    cases c <;> cases d <;> simp_all [functional, Formula.functionName]

end Writing

namespace Formula

theorem toList_bracketed (f : Formula) : f.bracketed.toList = Writing.bracketed.text f := by
  induction f with
  | var l => simp [bracketed, Letter.text, Writing.text, Writing.bracketed]
  | neg f ih => simp [bracketed, ih, Writing.text, Writing.bracketed]
  | binary c l r ihl ihr => simp [bracketed, Connective.text, ihl, ihr, Writing.text, Writing.bracketed]

theorem toList_functional (f : Formula) : f.functional.toList = Writing.functional.text f := by
  induction f with
  | var l => simp [functional, Letter.text, Writing.text, Writing.functional]
  | neg f ih => simp [functional, ih, Writing.text, Writing.functional]
  | binary c l r ihl ihr => simp [functional, ihl, ihr, Writing.text, Writing.functional]

/-- Formulas that print alike, in either way, are the same. -/
theorem printed_eq_iff (f g : Formula) :
    (f.bracketed = g.bracketed ↔ f = g) ∧ (f.functional = g.functional ↔ f = g) := by
  constructor
  · rw [← String.toList_inj, toList_bracketed, toList_bracketed, Writing.legible_bracketed.text_injective.eq_iff]
  · rw [← String.toList_inj, toList_functional, toList_functional, Writing.legible_functional.text_injective.eq_iff]

end Formula

end FourValued
