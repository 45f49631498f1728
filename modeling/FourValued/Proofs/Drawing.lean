import Mathlib.Data.List.Forall2
import FourValued.Diagram
import FourValued.Proofs.Addresses

/-!
# The drawing of a formula

The lines of a diagram come from margins that are handed down the formula, and a reader sees connections. The line of
a node is told by its address (`Diagram.forall₂_lines`): every branch of the way adds a bar if the way turns there,
and blanks otherwise (`Diagram.bars`). Since only what faces the parent stands between a node and its parent, the bars
run from every node to its parent and no further (`Diagram.text_draws`).
-/

namespace FourValued

def Branch.side : Branch → Diagram.Side
  | .right => .above
  | _ => .below

namespace Diagram

theorem Side.ne_below_iff {s : Side} : s ≠ below ↔ s = above := by cases s <;> decide

theorem Side.ne_above_iff {s : Side} : s ≠ above ↔ s = below := by cases s <;> decide

/-- The side of its parent on which the node at an address is drawn, in a drawing whose root is drawn on `root`. -/
def sideAt (root : Side) : Address → Side
  | [] => root
  | x :: a => sideAt x.side a

/-- Whether a bar passes, for each node on the way to an address. -/
def bars (root : Side) : Address → List Bool
  | [] => []
  | x :: a => decide (root ≠ x.side) :: bars x.side a

section Ways

variable (root : Side) {a : Address} {x : Branch} {c : Address}

@[simp] theorem length_bars : (bars root a).length = a.length := by
  induction a generalizing root with
  | nil => rfl
  | cons x a ih => simp [bars, ih]

theorem bars_append : bars root (a ++ x :: c) = bars root a ++ decide (sideAt root a ≠ x.side) :: bars x.side c := by
  induction a generalizing root with
  | nil => rfl
  | cons y a ih => exact congrArg (decide (root ≠ y.side) :: ·) (ih y.side)

theorem sideAt_concat : sideAt root (a ++ [x]) = x.side := by
  induction a generalizing root with
  | nil => rfl
  | cons y a ih => exact ih y.side

theorem sideAt_below_eq (a : Address) : sideAt .below a = if a.getLast? = some .right then .above else .below := by
  rcases a.eq_nil_or_concat' with rfl | ⟨q, x, rfl⟩
  · rfl
  · rw [sideAt_concat]
    cases x <;> simp [Branch.side]

theorem sideAt_below_ne_iff : sideAt .below a ≠ x.side ↔ (x = .right ↔ a.getLast? ≠ some .right) := by
  rw [sideAt_below_eq]
  by_cases last : a.getLast? = some .right <;> cases x <;> simp [last, Branch.side]

end Ways

def Shows (value : Letter → TruthValue) (margin : List Bool) (root : Side) (f : Formula) (a : Address) (l : Line) :
    Prop :=
  ∃ g, f.at? a = some g ∧ l = ⟨margin ++ bars root a, sideAt root a, label g, g.eval value⟩

section Lines

variable {value : Letter → TruthValue} {margin : List Bool} {root : Side} {f g : Formula} {a : Address} {x : Branch}

theorem shows_nil : Shows value margin root f [] ⟨margin, root, label f, f.eval value⟩ := by
  refine ⟨f, ?_, by simp [bars, sideAt]⟩
  cases f <;> rfl

theorem Shows.cons {l : Line} (step : f.at? (x :: a) = g.at? a)
    (h : Shows value (margin ++ [decide (root ≠ x.side)]) x.side g a l) : Shows value margin root f (x :: a) l := by
  obtain ⟨k, hk, rfl⟩ := h
  exact ⟨k, step.trans hk, by simp [bars, sideAt]⟩

theorem forall₂_lines (value : Letter → TruthValue) (margin : List Bool) (root : Side) (f : Formula) :
    List.Forall₂ (Shows value margin root f) f.addresses (lines value margin root f) := by
  -- The margin handed to an operand ends with the bar of the branch to it.
  induction f generalizing margin root with
  | var l => exact .cons shows_nil .nil
  | neg f ih =>
    refine .cons shows_nil (List.forall₂_map_left_iff.2 ((ih _ _).imp fun a l h => ?_))
    exact Shows.cons (x := .negated) rfl (by simpa only [Branch.side, Side.ne_below_iff] using h)
  | binary c l r ihl ihr =>
    refine List.rel_append (List.forall₂_map_left_iff.2 ((ihr _ _).imp fun a l h => ?_))
      (.cons shows_nil (List.forall₂_map_left_iff.2 ((ihl _ _).imp fun a l h => ?_)))
    · exact Shows.cons (x := .right) rfl (by simpa only [Branch.side, Side.ne_above_iff] using h)
    · exact Shows.cons (x := .left) rfl (by simpa only [Branch.side, Side.ne_below_iff] using h)

theorem exists_shows_of_mem {l : Line} (h : l ∈ lines value margin root f) : ∃ a, Shows value margin root f a l := by
  obtain ⟨i, hi, rfl⟩ := List.getElem_of_mem h
  have shown := forall₂_lines value margin root f
  exact ⟨_, shown.get (shown.length_eq ▸ hi) hi⟩

end Lines

section Characters

def Side.corner : Side → Char
  | above => '┌'
  | below => '└'

def bar (passes : Bool) : Char := if passes then '│' else ' '

def Line.chars (l : Line) : List Char :=
  l.margin.flatMap (fun b => [bar b, ' ', ' ', ' ']) ++
    l.side.corner :: ("── " ++ l.label ++ ": " ++ l.value.word).toList

theorem toList_marginText (b : Bool) : (marginText b).toList = [bar b, ' ', ' ', ' '] := by
  cases b <;> simp [marginText, bar]

theorem Side.toList_connector (s : Side) : s.connector.toList = s.corner :: "── ".toList := by
  cases s <;> simp [connector, corner]

theorem Line.toList_text (l : Line) : l.text.toList = l.chars ++ ['\n'] := by
  simp [Line.text, Line.chars, String.toList_join, List.flatMap_map, toList_marginText, Side.toList_connector]

theorem length_flatMap_bar (m : List Bool) : (m.flatMap fun b => [bar b, ' ', ' ', ' ']).length = 4 * m.length := by
  simp [List.length_flatMap, Nat.mul_comm]

variable {l : Line} {n : ℕ}

theorem Line.getElem?_corner (h : l.margin.length = n) : l.chars[4 * n]? = some l.side.corner := by
  rw [← h, ← length_flatMap_bar, Line.chars, List.getElem?_append_right (Nat.le_refl _), Nat.sub_self]
  rfl

theorem Line.drop_corner (h : l.margin.length = n) :
    l.chars.drop (4 * n + 1) = ("── " ++ l.label ++ ": " ++ l.value.word).toList := by
  rw [← h, ← length_flatMap_bar, Line.chars, List.drop_length_add_append]
  rfl

theorem Line.getElem?_bar {m r : List Bool} {b : Bool} (h : l.margin = m ++ b :: r) (hm : m.length = n) :
    l.chars[4 * n]? = some (bar b) := by
  rw [← hm, ← length_flatMap_bar, Line.chars, h, List.flatMap_append, List.flatMap_cons, List.append_assoc,
    List.getElem?_append_right (Nat.le_refl _), Nat.sub_self]
  rfl

theorem isUpper_char : ∀ x : Letter, x.char.isUpper = true := by decide

theorem isUpper_of_mem_label {f : Formula} : ∀ x ∈ (label f).toList, x.isUpper = true := by
  cases f with
  | var x => simpa [label, Letter.text] using isUpper_char x
  | neg f => simp [label]
  | binary c l r => cases c <;> simp [label, connectiveName]

theorem lineBreak_notMem_word (v : TruthValue) : '\n' ∉ v.word.toList := by cases v <;> simp [TruthValue.word]

theorem Line.lineBreak_notMem_chars (h : '\n' ∉ l.label.toList) : '\n' ∉ l.chars := by
  have margin : '\n' ∉ l.margin.flatMap fun b => [bar b, ' ', ' ', ' '] := by
    simp only [List.mem_flatMap, not_exists, not_and]
    rintro (_ | _) - <;> decide
  have corner : '\n' ≠ l.side.corner := by cases l.side <;> decide
  simp [Line.chars, margin, corner, h, lineBreak_notMem_word]

end Characters

def cell (rows : List (List Char)) (i j : ℕ) : Option Char := (rows[i]?).bind (·[j]?)

/-- The rows draw a formula under an assignment of values. -/
structure Draws (f : Formula) (value : Letter → TruthValue) (rows : List (List Char)) : Prop where
  length_eq : rows.length = f.size
  /-- Every row shows one node. -/
  existsUnique : ∀ i < rows.length, ∃! a, a ∈ f.addresses ∧ f.row a = i
  row_right_lt : ∀ a c, a ++ .right :: c ∈ f.addresses → f.row (a ++ .right :: c) < f.row a
  lt_row_of_ne_right : ∀ a x c, x ≠ .right → a ++ x :: c ∈ f.addresses → f.row a < f.row (a ++ x :: c)
  /-- Each branch moves a node four columns to the right. -/
  corner : ∀ a ∈ f.addresses,
    cell rows (f.row a) (4 * a.length) = some (if a.getLast? = some .right then '┌' else '└')
  entry : ∀ a g, f.at? a = some g →
    (rows[f.row a]?).map (·.drop (4 * a.length + 1)) =
      some ("── " ++ label g ++ ": " ++ (g.eval value).word).toList
  /-- A bar runs from every node to its parent. -/
  bar : ∀ a ∈ f.addresses, ∀ i : ℕ, Between (f.row a) i (f.parentRow a) → cell rows i (4 * a.length) = some '│'
  /-- On the far side of a node, its subformula leaves the column of the node blank. -/
  blank : ∀ a b, a ++ b ∈ f.addresses → Between (f.parentRow a) (f.row a) (f.row (a ++ b)) →
    cell rows (f.row (a ++ b)) (4 * a.length) = some ' '

section Rows

variable {f g : Formula} {value : Letter → TruthValue} {a c : Address} {x : Branch}

def rows (f : Formula) (value : Letter → TruthValue) : List (List Char) := (lines value [] .below f).map Line.chars

theorem toList_text (f : Formula) (value : Letter → TruthValue) :
    (text f value).toList = (rows f value).flatMap (· ++ ['\n']) := by
  simp only [text, rows, String.toList_join, List.flatMap_map, Line.toList_text]

theorem length_rows : (rows f value).length = f.size := by rw [rows, List.length_map, length_lines]

theorem getElem?_rows (h : f.at? a = some g) :
    (rows f value)[f.row a]? = some (Line.chars ⟨bars .below a, sideAt .below a, label g, g.eval value⟩) := by
  have ha : a ∈ f.addresses := Formula.mem_addresses_iff.2 ⟨g, h⟩
  have inAddresses : f.row a < f.addresses.length := Formula.row_lt_length ha
  have inLines : f.row a < (lines value [] .below f).length := length_lines value [] .below f ▸ Formula.row_lt_size ha
  obtain ⟨k, hk, shown⟩ := (forall₂_lines value [] .below f).get inAddresses inLines
  rw [Formula.get_row ha] at hk shown
  obtain rfl : g = k := Option.some.inj (h.symm.trans hk)
  rw [rows, List.getElem?_map, List.getElem?_eq_getElem inLines]
  exact congrArg (fun l => some (Line.chars l)) shown

theorem cell_rows_of_mem (h : a ++ x :: c ∈ f.addresses) :
    cell (rows f value) (f.row (a ++ x :: c)) (4 * a.length) =
      some (if x = .right ↔ a.getLast? ≠ some .right then '│' else ' ') := by
  obtain ⟨g, hg⟩ := Formula.mem_addresses_iff.1 h
  rw [cell, getElem?_rows hg, Option.bind_some, Line.getElem?_bar (bars_append .below) (length_bars .below)]
  simp only [bar, decide_eq_true_iff, sideAt_below_ne_iff]

theorem draws_rows : Draws f value (rows f value) where
  length_eq := length_rows
  existsUnique i h := Formula.existsUnique_row (length_rows ▸ h)
  row_right_lt a c h := (Formula.row_lt_row_iff h (Formula.mem_addresses_of_append h)).2 (Above.append_iff.2 rfl)
  lt_row_of_ne_right a x c hx h :=
    (Formula.row_lt_row_iff (Formula.mem_addresses_of_append h) h).2 (Above.self_append_iff.2 hx)
  corner a ha := by
    obtain ⟨g, hg⟩ := Formula.mem_addresses_iff.1 ha
    rw [cell, getElem?_rows hg, Option.bind_some, Line.getElem?_corner (length_bars .below), sideAt_below_eq]
    split <;> rfl
  entry a g hg := by
    rw [getElem?_rows hg, Option.map_some, Line.drop_corner (length_bars .below)]
  bar a ha i h := by
    have inside : i < f.size := by
      have hrow : f.row a < f.size := Formula.row_lt_size ha
      have hparent : f.parentRow a < f.size := Formula.parentRow_lt_size ha
      simp only [Between] at h
      omega
    -- The row shows a node `b` of the subformula at `a`, on the side of the parent.
    obtain ⟨b, ⟨hb, rfl⟩, -⟩ := Formula.existsUnique_row inside
    obtain ⟨x, c, rfl, turn⟩ := Formula.eq_append_of_between ha hb h
    rw [cell_rows_of_mem hb, if_pos turn]
  blank a b h far := by
    obtain ⟨x, c, rfl, turn⟩ := Formula.eq_cons_of_far h far
    rw [cell_rows_of_mem h, if_neg (by simp [turn])]

theorem lineBreak_notMem_rows {r : List Char} (h : r ∈ rows f value) : '\n' ∉ r := by
  obtain ⟨l, hl, rfl⟩ := List.mem_map.1 h
  obtain ⟨a, g, -, rfl⟩ := exists_shows_of_mem hl
  exact Line.lineBreak_notMem_chars fun h => absurd (isUpper_of_mem_label _ h) (by decide)

end Rows

/-- A diagram consists of one row for each node, ordered from right operands over their connectives to left operands.
The corner of a node stands four columns to the right of its parent's, a bar runs from there to the parent, and the
column is blank where the subformula of the node turns away from the parent. -/
theorem text_draws (f : Formula) (value : Letter → TruthValue) :
    ∃ rows : List (List Char), (text f value).toList = rows.flatMap (· ++ ['\n']) ∧ (∀ r ∈ rows, '\n' ∉ r) ∧
      Draws f value rows :=
  ⟨rows f value, toList_text f value, fun _ => lineBreak_notMem_rows, draws_rows⟩

example :
    text (.binary .and (.var ⟨15⟩) (.binary .or (.neg (.var ⟨18⟩)) (.neg (.var ⟨16⟩)))) (fun _ => .unknown) =
      "│       ┌── NOT: UNKNOWN\n" ++
      "│       │   └── Q: UNKNOWN\n" ++
      "│   ┌── OR: UNKNOWN\n" ++
      "│   │   └── NOT: UNKNOWN\n" ++
      "│   │       └── S: UNKNOWN\n" ++
      "└── AND: UNKNOWN\n" ++
      "    └── P: UNKNOWN\n" := by
  decide +kernel

end Diagram

end FourValued
