import Mathlib.Data.Int.Notation
import Mathlib.Data.List.Basic
import Mathlib.Data.List.Nodup
import Mathlib.Data.List.Pairwise
import FourValued.Formula

/-!
# Addresses of subformulas

The address of a node is the list of the branches that lead to it from the root. A drawing shows the nodes from top
to bottom: those of the right operand, then the node itself, then those of the left or negated operand
(`Formula.addresses`). Which of two nodes stands above the other is seen where their addresses part (`Above`,
`Formula.pairwise_addresses`). So whatever stands strictly between a node and its parent belongs to the node, on the
side that faces the parent (`Above.eq_append_of_between`).
-/

namespace FourValued

inductive Branch
  | negated
  | left
  | right
  deriving DecidableEq, Repr

abbrev Address := List Branch

namespace Formula

def at? : Formula → Address → Option Formula
  | f, [] => some f
  | neg f, .negated :: a => f.at? a
  | binary _ l _, .left :: a => l.at? a
  | binary _ _ r, .right :: a => r.at? a
  | _, _ => none

def addresses : Formula → List Address
  | var _ => [[]]
  | neg f => [] :: f.addresses.map (.negated :: ·)
  | binary _ l r => r.addresses.map (.right :: ·) ++ [] :: l.addresses.map (.left :: ·)

theorem length_addresses (f : Formula) : f.addresses.length = f.size := by
  induction f with
  | var l => rfl
  | neg f ih => simp [addresses, size, ih]
  | binary c l r ihl ihr =>
    simp only [addresses, size, List.length_append, List.length_map, List.length_cons, ihl, ihr]
    omega

theorem mem_addresses_iff {f : Formula} {a : Address} : a ∈ f.addresses ↔ ∃ g, f.at? a = some g := by
  induction f generalizing a with
  | var l =>
    cases a with
    | nil => simp [addresses, at?]
    | cons x a => simp [addresses, at?]
  | neg f ih =>
    cases a with
    | nil => simp [addresses, at?]
    | cons x a => cases x <;> simp [addresses, at?, ih]
  | binary c l r ihl ihr =>
    cases a with
    | nil => simp [addresses, at?]
    | cons x a => cases x <;> simp [addresses, at?, ihl, ihr]

theorem at?_append (f : Formula) (a b : Address) : f.at? (a ++ b) = (f.at? a).bind fun g => g.at? b := by
  induction a generalizing f with
  | nil => cases f <;> rfl
  | cons x a ih => cases f <;> cases x <;> first | rfl | exact ih _

theorem mem_addresses_of_append {f : Formula} {a b : Address} (h : a ++ b ∈ f.addresses) : a ∈ f.addresses := by
  rw [mem_addresses_iff, at?_append] at h
  obtain ⟨g, hg⟩ := h
  obtain ⟨k, hk, -⟩ := Option.bind_eq_some_iff.1 hg
  exact mem_addresses_iff.2 ⟨k, hk⟩

end Formula

/-- The node at the first address stands above the node at the second. -/
def Above : Address → Address → Prop
  | [], [] => False
  | [], y :: _ => y ≠ .right
  | x :: _, [] => x = .right
  | x :: a, y :: b => if x = y then Above a b else x = .right

namespace Above

variable {a b c : Address} {x y : Branch}

@[simp] theorem not_nil_nil : ¬ Above [] [] := id

@[simp] theorem nil_cons : Above [] (y :: b) ↔ y ≠ .right := Iff.rfl

@[simp] theorem cons_nil : Above (x :: a) [] ↔ x = .right := Iff.rfl

@[simp] theorem cons_cons_self : Above (x :: a) (x :: b) ↔ Above a b := by simp [Above]

theorem cons_cons_of_ne (h : x ≠ y) : Above (x :: a) (y :: b) ↔ x = .right := by simp [Above, h]

theorem append_iff : Above (a ++ y :: c) a ↔ y = .right := by
  induction a with
  | nil => simp
  | cons x a ih => simp [ih]

theorem self_append_iff : Above a (a ++ y :: c) ↔ y ≠ .right := by
  induction a with
  | nil => simp
  | cons x a ih => simp [ih]

theorem irrefl (a : Address) : ¬ Above a a := by
  induction a with
  | nil => exact not_nil_nil
  | cons x a ih => rwa [cons_cons_self]

theorem head_eq_of_right (h : Above (x :: a) (.right :: b)) : x = .right := by
  by_contra differ
  exact differ ((cons_cons_of_ne differ).1 h)

theorem head_eq_of_ne_right (h : Above (y :: b) (x :: a)) (hy : y ≠ .right) : y = x := by
  by_contra differ
  exact hy ((cons_cons_of_ne differ).1 h)

theorem head_eq_of_both (above : Above (x :: a) (y :: b)) (below : Above (y :: b) (x :: c)) : y = x := by
  by_cases hy : y = .right
  · subst hy
    exact (head_eq_of_right above).symm
  · exact head_eq_of_ne_right below hy

theorem asymm (h : Above a b) : ¬ Above b a := by
  induction a generalizing b with
  | nil =>
    cases b with
    | nil => exact not_nil_nil
    | cons y b => exact h
  | cons x a ih =>
    cases b with
    | nil => exact fun below => below h
    | cons y b =>
      intro below
      obtain rfl := head_eq_of_both h below
      rw [cons_cons_self] at h below
      exact ih h below

theorem eq_append_of_between (h : (Above (a ++ [x]) b ∧ Above b a) ∨ (Above a b ∧ Above b (a ++ [x]))) :
    ∃ y c, b = a ++ x :: y :: c ∧ (y = .right ↔ x ≠ .right) := by
  -- The induction is on the way to the parent. What lies between two nodes takes the first branch that both take.
  induction a generalizing b with
  | nil =>
    cases b with
    | nil => simp at h
    | cons z b =>
      have same : z = x := by
        rcases h with ⟨above, rfl⟩ | ⟨hz, below⟩
        · exact (head_eq_of_right above).symm
        · exact head_eq_of_ne_right below hz
      subst same
      simp only [List.nil_append, cons_nil, nil_cons, cons_cons_self] at h
      cases b with
      | nil => simp at h
      | cons y b =>
        simp only [cons_nil, nil_cons] at h
        refine ⟨y, b, rfl, ?_⟩
        rcases h with ⟨hy, hz⟩ | ⟨hz, hy⟩ <;> simp [hy, hz]
  | cons w a ih =>
    cases b with
    | nil => simp at h
    | cons z b =>
      have same : z = w := by
        rcases h with ⟨above, below⟩ | ⟨above, below⟩ <;> exact head_eq_of_both above below
      subst same
      simp only [List.cons_append, cons_cons_self] at h
      obtain ⟨y, c, rfl, turn⟩ := ih h
      exact ⟨y, c, rfl, turn⟩

end Above

def Between (i j k : ℤ) : Prop := (i < j ∧ j < k) ∨ (k < j ∧ j < i)

namespace Formula

theorem pairwise_addresses (f : Formula) : f.addresses.Pairwise Above := by
  induction f with
  | var l => exact List.pairwise_singleton _ _
  | neg f ih =>
    rw [addresses, List.pairwise_cons, List.pairwise_map]
    simp [Above, ih]
  | binary c l r ihl ihr =>
    rw [addresses, List.pairwise_append, List.pairwise_cons, List.pairwise_map, List.pairwise_map]
    simp [Above, ihl, ihr]

theorem nodup_addresses (f : Formula) : f.addresses.Nodup := by
  refine f.pairwise_addresses.imp ?_
  rintro a b h rfl
  exact Above.irrefl a h

def row (f : Formula) (a : Address) : ℕ := f.addresses.idxOf a

/-- The line of the parent of a node. The parent of the root stands above all lines. -/
def parentRow (f : Formula) (a : Address) : ℤ := if a = [] then -1 else f.row a.dropLast

variable {f : Formula} {a b c : Address} {x y : Branch} {i : ℕ}

@[simp] theorem parentRow_nil : f.parentRow [] = -1 := rfl

@[simp] theorem parentRow_concat : f.parentRow (a ++ [x]) = f.row a := by simp [parentRow]

theorem row_lt_length (h : a ∈ f.addresses) : f.row a < f.addresses.length := List.idxOf_lt_length_iff.2 h

theorem get_row (h : a ∈ f.addresses) : f.addresses.get ⟨f.row a, row_lt_length h⟩ = a :=
  List.getElem_idxOf (row_lt_length h)

theorem row_inj (h : a ∈ f.addresses) : f.row a = f.row b ↔ a = b := List.idxOf_inj h

theorem row_lt_size (h : a ∈ f.addresses) : f.row a < f.size := f.length_addresses ▸ row_lt_length h

theorem parentRow_lt_size (h : a ∈ f.addresses) : f.parentRow a < f.size := by
  rcases a.eq_nil_or_concat' with rfl | ⟨q, x, rfl⟩
  · rw [parentRow_nil]
    omega
  · rw [parentRow_concat, Int.ofNat_lt]
    exact row_lt_size (mem_addresses_of_append h)

theorem existsUnique_row (h : i < f.size) : ∃! a, a ∈ f.addresses ∧ f.row a = i := by
  rw [← length_addresses] at h
  refine ⟨f.addresses[i], ⟨List.getElem_mem h, f.nodup_addresses.idxOf_getElem i h⟩, ?_⟩
  rintro a ⟨ha, rfl⟩
  exact (List.getElem_idxOf h).symm

theorem above_of_row_lt (ha : a ∈ f.addresses) (hb : b ∈ f.addresses) (h : f.row a < f.row b) : Above a b := by
  rw [← get_row ha, ← get_row hb]
  exact List.pairwise_iff_getElem.1 f.pairwise_addresses _ _ (row_lt_length ha) (row_lt_length hb) h

theorem row_lt_row_iff (ha : a ∈ f.addresses) (hb : b ∈ f.addresses) : f.row a < f.row b ↔ Above a b := by
  refine ⟨above_of_row_lt ha hb, fun above => ?_⟩
  rcases Nat.lt_trichotomy (f.row a) (f.row b) with lt | eq | gt
  · exact lt
  · exact absurd ((row_inj ha).1 eq ▸ above) (Above.irrefl a)
  · exact absurd (above_of_row_lt hb ha gt) above.asymm

theorem eq_append_of_between (ha : a ∈ f.addresses) (hb : b ∈ f.addresses)
    (h : Between (f.row a) (f.row b) (f.parentRow a)) :
    ∃ y c, b = a ++ y :: c ∧ (y = .right ↔ a.getLast? ≠ some .right) := by
  rcases a.eq_nil_or_concat' with rfl | ⟨q, x, rfl⟩
  · have above : Above b [] := by
      rw [← row_lt_row_iff hb ha]
      simp only [Between, parentRow_nil] at h
      omega
    cases b with
    | nil => simp at above
    | cons y c => exact ⟨y, c, rfl, by simpa using above⟩
  · have hq : q ∈ f.addresses := mem_addresses_of_append ha
    simp only [Between, parentRow_concat, Int.ofNat_lt, row_lt_row_iff ha hb, row_lt_row_iff hb hq,
      row_lt_row_iff hq hb, row_lt_row_iff hb ha] at h
    obtain ⟨y, c, rfl, turn⟩ := Above.eq_append_of_between h
    exact ⟨y, c, by simp, by simpa using turn⟩

theorem eq_cons_of_far (h : a ++ b ∈ f.addresses) (far : Between (f.parentRow a) (f.row a) (f.row (a ++ b))) :
    ∃ y c, b = y :: c ∧ (y = .right ↔ a.getLast? = some .right) := by
  have ha : a ∈ f.addresses := mem_addresses_of_append h
  cases b with
  | nil => simp [Between] at far
  | cons y c =>
    refine ⟨y, c, rfl, ?_⟩
    have below : f.row a < f.row (a ++ y :: c) ↔ y ≠ .right := by
      rw [row_lt_row_iff ha h, Above.self_append_iff]
    have above : f.row (a ++ y :: c) < f.row a ↔ y = .right := by
      rw [row_lt_row_iff h ha, Above.append_iff]
    rcases a.eq_nil_or_concat' with rfl | ⟨q, x, rfl⟩
    · have hy : y ≠ .right := by
        rw [← below]
        simp only [Between, parentRow_nil] at far
        omega
      simpa using hy
    · have hq : q ∈ f.addresses := mem_addresses_of_append ha
      simp only [Between, parentRow_concat, Int.ofNat_lt, below, above, row_lt_row_iff ha hq, row_lt_row_iff hq ha,
        Above.append_iff, Above.self_append_iff] at far
      rcases far with ⟨hx, hy⟩ | ⟨hy, hx⟩ <;> simp [hx, hy]

end Formula

end FourValued
