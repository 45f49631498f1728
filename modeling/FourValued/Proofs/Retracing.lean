import FourValued.Proofs.Drawing
import FourValued.Text.Cut

/-!
# Tracing a formula back from its diagram

A line of a diagram can be taken apart: its margin ends at the corner, its label at the colon, and its value at the
line break (`Diagram.Line.chars_append_inj`). Among the lines of a formula, that of its root has the shortest margin,
so it parts the lines of the operands (`Diagram.lines_eq_iff`), and its label tells how many operands there are. So two
diagrams are equal only if they draw the same formula with the same values (`Diagram.text_eq_iff`).
-/

namespace FourValued

namespace Formula

theorem mem_letters_iff {f : Formula} {l : Letter} : l ∈ f.letters ↔ ∃ a, f.at? a = some (var l) := by
  constructor
  · intro h
    induction f with
    | var m =>
      obtain rfl : l = m := by simpa [letters] using h
      exact ⟨[], rfl⟩
    | neg f ih =>
      obtain ⟨a, ha⟩ := ih h
      exact ⟨.negated :: a, ha⟩
    | binary c l' r' ihl ihr =>
      rcases List.mem_append.1 h with hl | hr
      · obtain ⟨a, ha⟩ := ihl hl
        exact ⟨.left :: a, ha⟩
      · obtain ⟨a, ha⟩ := ihr hr
        exact ⟨.right :: a, ha⟩
  · rintro ⟨a, ha⟩
    induction a generalizing f with
    | nil =>
      obtain rfl : f = var l := by simpa only [at?, Option.some.injEq] using ha
      simp [letters]
    | cons x a ih =>
      cases f <;> cases x <;> simp only [at?, reduceCtorEq] at ha <;> simp [letters, ih ha]

theorem letters_at?_subset {f g : Formula} {a : Address} (h : f.at? a = some g) : g.letters ⊆ f.letters := by
  intro l hl
  obtain ⟨b, hb⟩ := mem_letters_iff.1 hl
  exact mem_letters_iff.2 ⟨a ++ b, by rw [at?_append, h, Option.bind_some, hb]⟩

theorem eval_at?_eq_iff {f : Formula} {v w : Letter → TruthValue} :
    (∀ a, (f.at? a).map (eval v) = (f.at? a).map (eval w)) ↔ ∀ l ∈ f.letters, v l = w l := by
  constructor
  · intro h l hl
    obtain ⟨a, ha⟩ := mem_letters_iff.1 hl
    simpa [ha, eval] using h a
  · intro h a
    cases ha : f.at? a with
    | none => rfl
    | some g => exact congrArg some (g.eval_congr fun l hl => h l (letters_at?_subset ha hl))

end Formula

namespace Diagram

section Words

variable {x y : List Char}

theorem corner_ne_bar (s : Side) (b : Bool) : s.corner ≠ bar b := by cases s <;> cases b <;> decide

theorem corner_injective {s t : Side} (h : s.corner = t.corner) : s = t := by
  revert h
  cases s <;> cases t <;> decide

theorem bar_injective {b d : Bool} (h : bar b = bar d) : b = d := by
  revert h
  cases b <;> cases d <;> decide

theorem margin_append_inj {m n : List Bool} {s t : Side}
    (h : (m.flatMap fun b => [bar b, ' ', ' ', ' ']) ++ s.corner :: x =
      (n.flatMap fun b => [bar b, ' ', ' ', ' ']) ++ t.corner :: y) : m = n ∧ s = t ∧ x = y := by
  induction m generalizing n with
  | nil =>
    cases n with
    | nil =>
      obtain ⟨corners, rest⟩ := List.cons.inj h
      exact ⟨rfl, corner_injective corners, rest⟩
    | cons d n => exact absurd (List.cons.inj h).1 (corner_ne_bar s d)
  | cons b m ih =>
    cases n with
    | nil => exact absurd (List.cons.inj h).1.symm (corner_ne_bar t b)
    | cons d n =>
      simp only [List.flatMap_cons, List.cons_append, List.nil_append, List.cons.injEq, true_and] at h
      obtain ⟨rfl, corners, rest⟩ := ih h.2
      exact ⟨by rw [bar_injective h.1], corners, rest⟩

theorem word_append_inj {v w : TruthValue} (h : v.word.toList ++ '\n' :: x = w.word.toList ++ '\n' :: y) :
    v = w ∧ x = y := by
  cases v <;> cases w <;> simp_all [TruthValue.word]

theorem Line.chars_append_inj {l m : Line} (hl : ':' ∉ l.label.toList) (hm : ':' ∉ m.label.toList)
    (h : l.chars ++ '\n' :: x = m.chars ++ '\n' :: y) : l = m ∧ x = y := by
  obtain ⟨margin, side, label, value⟩ := l
  obtain ⟨margin', side', label', value'⟩ := m
  simp only [Line.chars, List.append_assoc, List.cons_append] at h
  obtain ⟨rfl, rfl, entries⟩ := margin_append_inj h
  simp only [String.toList_append, List.append_assoc, List.append_cancel_left_eq] at entries
  obtain ⟨labels, values⟩ := Text.append_cons_inj hl hm entries
  obtain ⟨rfl, rest⟩ := word_append_inj (List.cons.inj values).2
  obtain rfl := String.toList_inj.1 labels
  exact ⟨rfl, rest⟩

theorem eq_of_flatMap_chars {ls ms : List Line} (hl : ∀ l ∈ ls, ':' ∉ l.label.toList)
    (hm : ∀ m ∈ ms, ':' ∉ m.label.toList)
    (h : ls.flatMap (fun l => l.chars ++ ['\n']) = ms.flatMap fun m => m.chars ++ ['\n']) : ls = ms := by
  induction ls generalizing ms with
  | nil =>
    cases ms with
    | nil => rfl
    | cons m ms => simp at h
  | cons l ls ih =>
    cases ms with
    | nil => simp at h
    | cons m ms =>
      simp only [List.flatMap_cons, List.append_assoc, List.singleton_append] at h
      simp only [List.forall_mem_cons] at hl hm
      obtain ⟨rfl, rest⟩ := Line.chars_append_inj hl.1 hm.1 h
      rw [ih hl.2 hm.2 rest]

end Words

section Parts

variable {value v w : Letter → TruthValue} {margin : List Bool} {side : Side} {f g : Formula} {l : Line}

theorem colon_notMem_of_mem (h : l ∈ lines value margin side f) : ':' ∉ l.label.toList := by
  obtain ⟨a, g, -, rfl⟩ := exists_shows_of_mem h
  exact fun h => absurd (isUpper_of_mem_label _ h) (by decide)

def root (value : Letter → TruthValue) (margin : List Bool) (side : Side) (f : Formula) : Line :=
  ⟨margin, side, label f, f.eval value⟩

def upper (value : Letter → TruthValue) (margin : List Bool) (side : Side) : Formula → List Line
  | .binary _ _ r => lines value (margin ++ [decide (side = .below)]) .above r
  | _ => []

def lower (value : Letter → TruthValue) (margin : List Bool) (side : Side) : Formula → List Line
  | .var _ => []
  | .neg f => lines value (margin ++ [decide (side = .above)]) .below f
  | .binary _ l _ => lines value (margin ++ [decide (side = .above)]) .below l

theorem lines_eq_append : lines value margin side f =
    upper value margin side f ++ root value margin side f :: lower value margin side f := by
  cases f <;> rfl

theorem lt_length_margin_of_mem {b : Bool} (h : l ∈ lines value (margin ++ [b]) side f) :
    margin.length < l.margin.length := by
  obtain ⟨a, g, -, rfl⟩ := exists_shows_of_mem h
  simp only [List.length_append, List.length_singleton]
  omega

theorem lt_length_margin (h : l ∈ upper value margin side f ∨ l ∈ lower value margin side f) :
    margin.length < l.margin.length := by
  cases f with
  | var x => simp [upper, lower] at h
  | neg f =>
    simp only [upper, lower, List.not_mem_nil, false_or] at h
    exact lt_length_margin_of_mem h
  | binary c l r => exact h.elim lt_length_margin_of_mem lt_length_margin_of_mem

theorem root_notMem :
    root w margin side g ∉ upper v margin side f ∧ root w margin side g ∉ lower v margin side f :=
  ⟨fun h => Nat.lt_irrefl _ (lt_length_margin (.inl h)), fun h => Nat.lt_irrefl _ (lt_length_margin (.inr h))⟩

/-- The line of the root parts the lines above it from those below it. -/
theorem lines_eq_iff : lines v margin side f = lines w margin side g ↔
    upper v margin side f = upper w margin side g ∧ root v margin side f = root w margin side g ∧
      lower v margin side f = lower w margin side g := by
  rw [lines_eq_append, lines_eq_append, List.append_cons_inj_of_notMem root_notMem.1 root_notMem.2]

theorem text_ne_name : ∀ l : Letter, l.text ≠ "NOT" ∧ ∀ c, l.text ≠ connectiveName c := by
  intro l
  have short : l.text.length = 1 := by simp [Letter.text]
  refine ⟨fun h => ?_, fun c h => ?_⟩
  · rw [h] at short
    exact absurd short (by decide)
  · rw [h] at short
    cases c <;> exact absurd short (by decide)

theorem connectiveName_ne_not (c : Connective) : connectiveName c ≠ "NOT" := by
  cases c <;> simp [connectiveName]

theorem connectiveName_injective {c d : Connective} (h : connectiveName c = connectiveName d) : c = d := by
  cases c <;> cases d <;> simp_all [connectiveName]

theorem eq_of_lines_eq (h : lines v margin side f = lines w margin side g) : f = g ∧ ∀ l ∈ f.letters, v l = w l := by
  -- The labels of the two roots are equal, so the roots have the same operands, drawn with the same margins.
  induction f generalizing g margin side with
  | var l =>
    obtain ⟨-, roots, -⟩ := lines_eq_iff.1 h
    obtain ⟨-, -, labels, values⟩ := Line.mk.inj roots
    cases g with
    | var m =>
      obtain rfl : l = m := Letter.char_injective (by simpa [label, Letter.text] using labels)
      exact ⟨rfl, by simpa [Formula.letters, Formula.eval] using values⟩
    | neg g => exact absurd labels (text_ne_name l).1
    | binary d l' r' => exact absurd labels ((text_ne_name l).2 d)
  | neg f ih =>
    obtain ⟨-, roots, operands⟩ := lines_eq_iff.1 h
    obtain ⟨-, -, labels, -⟩ := Line.mk.inj roots
    cases g with
    | var m => exact absurd labels.symm (text_ne_name m).1
    | neg g =>
      obtain ⟨rfl, values⟩ := ih operands
      exact ⟨rfl, values⟩
    | binary d l' r' => exact absurd labels.symm (connectiveName_ne_not d)
  | binary c l r ihl ihr =>
    obtain ⟨right, roots, left⟩ := lines_eq_iff.1 h
    obtain ⟨-, -, labels, -⟩ := Line.mk.inj roots
    cases g with
    | var m => exact absurd labels.symm ((text_ne_name m).2 c)
    | neg g => exact absurd labels (connectiveName_ne_not c)
    | binary d l' r' =>
      obtain rfl := connectiveName_injective labels
      obtain ⟨rfl, valuesLeft⟩ := ihl left
      obtain ⟨rfl, valuesRight⟩ := ihr right
      exact ⟨rfl, List.forall_mem_append.2 ⟨valuesLeft, valuesRight⟩⟩

theorem lines_congr (h : ∀ l ∈ f.letters, v l = w l) : lines v margin side f = lines w margin side f := by
  induction f generalizing margin side with
  | var l => simp [lines, h l (by simp [Formula.letters])]
  | neg f ih => rw [lines, lines, ih h, Formula.eval_congr _ h]
  | binary c l r ihl ihr =>
    have operands := List.forall_mem_append.1 h
    rw [lines, lines, ihl operands.1, ihr operands.2, Formula.eval_congr _ h]

end Parts

theorem lines_eq_of_text_eq {f g : Formula} {v w : Letter → TruthValue} (h : text f v = text g w) :
    lines v [] .below f = lines w [] .below g := by
  rw [← String.toList_inj, toList_text, toList_text, rows, rows, List.flatMap_map, List.flatMap_map] at h
  exact eq_of_flatMap_chars (fun _ => colon_notMem_of_mem) (fun _ => colon_notMem_of_mem) h

/-- Two diagrams are equal just if they draw the same formula and each of its parts has the same value in both. -/
theorem text_eq_iff (f g : Formula) (v w : Letter → TruthValue) :
    text f v = text g w ↔ f = g ∧ ∀ a, (f.at? a).map (Formula.eval v) = (g.at? a).map (Formula.eval w) := by
  constructor
  · intro h
    obtain ⟨rfl, values⟩ := eq_of_lines_eq (lines_eq_of_text_eq h)
    exact ⟨rfl, Formula.eval_at?_eq_iff.2 values⟩
  · rintro ⟨rfl, parts⟩
    rw [text, text, lines_congr (Formula.eval_at?_eq_iff.1 parts)]

end Diagram

end FourValued
