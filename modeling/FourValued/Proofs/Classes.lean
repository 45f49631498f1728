import Mathlib.Data.Fintype.EquivFin
import Mathlib.Data.Setoid.Basic
import Mathlib.Logic.Function.Iterate
import FourValued.Valuation

/-!
# Classes of linked letters

The classes of a valuation are known through their representatives. That the parents of a letter lead to one
that is its own parent (`Valuation.Rooted`) holds of the empty valuation and is kept by links, since a link
only redirects one representative to another. In an alphabet of twenty-six letters no such path is longer
than twenty-five steps, so the bounded climb finds its end. From there a link merges two classes and leaves
the others alone (`linked_link`, `get_link`).
-/

namespace FourValued

theorem iterate_eq_of_card_le {α : Type} [Fintype α] {f : α → α} {x r : α} {n m : ℕ} (hr : f r = r)
    (hx : f^[n] x = r) (hm : Fintype.card α ≤ m + 1) : f^[m] x = r := by
  classical
  have arrives : ∃ n, f^[n] x = r := ⟨n, hx⟩
  let first := Nat.find arrives
  have hfirst : f^[first] x = r := Nat.find_spec arrives
  have distinct : Function.Injective fun i : Fin (first + 1) => f^[i.val] x := by
    intro i j hij
    by_contra hne
    wlog hlt : i.val < j.val generalizing i j
    · exact this hij.symm (Ne.symm hne) (by omega)
    have shortcut : f^[first - j.val + i.val] x = r := by
      have hj : first - j.val + j.val = first := by omega
      have hij : f^[i.val] x = f^[j.val] x := hij
      rw [Function.iterate_add_apply, hij, ← Function.iterate_add_apply, hj, hfirst]
    exact Nat.find_min arrives (by omega : first - j.val + i.val < first) shortcut
  have hcard := Fintype.card_le_of_injective _ distinct
  rw [Fintype.card_fin] at hcard
  have hsplit : m - first + first = m := by omega
  rw [← hsplit, Function.iterate_add_apply, hfirst, Function.iterate_fixed hr]

instance : Fintype Letter := Fintype.ofEquiv (Fin 26) ⟨Letter.mk, Letter.index, fun _ => rfl, fun _ => rfl⟩

theorem card_letter : Fintype.card Letter = 26 := Fintype.ofEquiv_card _

namespace Valuation

variable {v w : Valuation}

theorem climb_eq_iterate (v : Valuation) (n : ℕ) (l : Letter) : v.climb n l = v.parent.get^[n] l := by
  induction n generalizing l with
  | zero => rfl
  | succ n ih =>
    rw [climb, Function.iterate_succ_apply, ih]
    split
    · next hl => rw [hl, Function.iterate_fixed hl]
    · rfl

inductive Climbs (v : Valuation) : Letter → Letter → Prop
  | stay {r : Letter} : v.parent.get r = r → Climbs v r r
  | step {l r : Letter} : Climbs v (v.parent.get l) r → Climbs v l r

theorem Climbs.parent_eq {l r : Letter} (h : v.Climbs l r) : v.parent.get r = r := by
  induction h with
  | stay hr => exact hr
  | step _ ih => exact ih

theorem Climbs.exists_iterate {l r : Letter} (h : v.Climbs l r) : ∃ n, v.parent.get^[n] l = r := by
  induction h with
  | stay hr => exact ⟨0, rfl⟩
  | step _ ih =>
    obtain ⟨n, hn⟩ := ih
    exact ⟨n + 1, hn⟩

theorem Climbs.climb_eq {l r : Letter} (h : v.Climbs l r) {m : ℕ} (hm : 25 ≤ m) : v.climb m l = r := by
  obtain ⟨n, hn⟩ := h.exists_iterate
  rw [climb_eq_iterate]
  exact iterate_eq_of_card_le h.parent_eq hn (by rw [card_letter]; omega)

theorem Climbs.representative_eq {l r : Letter} (h : v.Climbs l r) : v.representative l = r :=
  h.climb_eq (by decide)

/-- Every letter has a representative that is its own parent. -/
def Rooted (v : Valuation) : Prop := ∀ l, ∃ r, v.Climbs l r

theorem Rooted.climbs (h : v.Rooted) (l : Letter) : v.Climbs l (v.representative l) := by
  obtain ⟨r, hr⟩ := h l
  rw [hr.representative_eq]
  exact hr

theorem Rooted.parent_representative (h : v.Rooted) (l : Letter) :
    v.parent.get (v.representative l) = v.representative l := (h.climbs l).parent_eq

theorem Rooted.representative_representative (h : v.Rooted) (l : Letter) :
    v.representative (v.representative l) = v.representative l :=
  Climbs.representative_eq (.stay (h.parent_representative l))

theorem Rooted.representative_parent (h : v.Rooted) (l : Letter) :
    v.representative (v.parent.get l) = v.representative l :=
  (Climbs.step (h.climbs (v.parent.get l))).representative_eq.symm

theorem rooted_of_parent_eq (hp : ∀ l, v.parent.get l = l) : v.Rooted := fun l => ⟨l, .stay (hp l)⟩

theorem rooted_empty : empty.Rooted := rooted_of_parent_eq fun l => LetterMap.get_ofFn id l

theorem representative_empty (l : Letter) : empty.representative l = l :=
  Climbs.representative_eq (.stay (LetterMap.get_ofFn id l))

theorem Climbs.congr (hp : v.parent = w.parent) {l r : Letter} (h : v.Climbs l r) : w.Climbs l r := by
  induction h with
  | stay hr => exact .stay (hp ▸ hr)
  | step _ ih => exact .step (hp ▸ ih)

theorem Rooted.congr (h : v.Rooted) (hp : v.parent = w.parent) : w.Rooted :=
  fun l => ⟨_, (h.climbs l).congr hp⟩

theorem Rooted.declare (h : v.Rooted) (l : Letter) : (v.declare l).Rooted := h.congr rfl

theorem Rooted.put (h : v.Rooted) (l : Letter) (x : TruthValue) : (v.put l x).Rooted := h.congr rfl

theorem parent_declareAll (v : Valuation) (ls : List Letter) : (v.declareAll ls).parent = v.parent := by
  induction ls generalizing v with
  | nil => rfl
  | cons l ls ih => exact ih (v.declare l)

theorem Rooted.declareAll (h : v.Rooted) (ls : List Letter) : (v.declareAll ls).Rooted :=
  h.congr (parent_declareAll v ls).symm

theorem cells_declareAll (v : Valuation) (ls : List Letter) : (v.declareAll ls).cells = v.cells := by
  induction ls generalizing v with
  | nil => rfl
  | cons l ls ih => exact ih (v.declare l)

theorem isDeclared_declareAll (v : Valuation) (ls : List Letter) (l : Letter) :
    (v.declareAll ls).isDeclared l = true ↔ l ∈ ls ∨ v.isDeclared l = true := by
  induction ls generalizing v with
  | nil => simp [declareAll]
  | cons k ls ih =>
    refine (ih (v.declare k)).trans ?_
    rw [isDeclared_declare, Bool.or_eq_true, decide_eq_true_eq, List.mem_cons, or_assoc, or_left_comm]

/-- Redirecting `child` to `root` moves the paths that end at `child`, and no others. -/
theorem Climbs.redirect {root child l r : Letter} (hp : w.parent = v.parent.set child root)
    (hroot : v.parent.get root = root) (hchild : v.parent.get child = child) (h : v.Climbs l r) :
    w.Climbs l (if r = child then root else r) := by
  have at_child : w.parent.get child = root := by rw [hp, LetterMap.get_set_self]
  have off_child : ∀ k, k ≠ child → w.parent.get k = v.parent.get k := by
    intro k hk
    rw [hp, LetterMap.get_set_of_ne hk]
  have at_root : w.parent.get root = root := by
    by_cases hrc : root = child
    · rw [hrc] at at_child ⊢
      exact at_child
    · rw [off_child root hrc, hroot]
  induction h with
  | @stay r hr =>
    by_cases hrc : r = child
    · rw [if_pos hrc, hrc]
      exact .step (at_child.symm ▸ .stay at_root)
    · rw [if_neg hrc]
      exact .stay ((off_child r hrc).trans hr)
  | @step l r _ ih =>
    by_cases hl : l = child
    · rw [hl, hchild] at ih
      exact hl ▸ ih
    · exact .step ((off_child l hl).symm ▸ ih)

theorem linked_iff {a b : Letter} : v.linked a b = true ↔ v.representative a = v.representative b := by
  simp [linked]

theorem linked_comm (v : Valuation) (k l : Letter) : v.linked k l = v.linked l k := by
  rw [Bool.eq_iff_iff, linked_iff, linked_iff, eq_comm]

@[simp] theorem linked_declare (v : Valuation) (l a b : Letter) :
    (v.declare l).linked a b = v.linked a b := by
  simp only [linked, representative_declare]

@[simp] theorem linked_put (v : Valuation) (l a b : Letter) (x : TruthValue) :
    (v.put l x).linked a b = v.linked a b := by
  simp only [linked, representative_put]

theorem get_eq_of_linked {a b : Letter} (h : v.linked a b = true) : v.get a = v.get b := by
  rw [get, get, linked_iff.1 h]

def classes (v : Valuation) : Setoid Letter := Setoid.ker v.representative

theorem classes_iff {a b : Letter} : v.classes a b ↔ v.linked a b = true := linked_iff.symm

theorem classes_le_iff : v.classes ≤ w.classes ↔ ∀ a b, v.linked a b = true → w.linked a b = true :=
  ⟨fun h _ _ hab => classes_iff.1 (h (classes_iff.2 hab)),
    fun h _ _ hab => classes_iff.2 (h _ _ (classes_iff.1 hab))⟩

theorem classes_congr (h : v.parent = w.parent) : v.classes = w.classes :=
  congrArg Setoid.ker (funext (representative_congr h))

theorem Rooted.linked_representative (h : v.Rooted) (a : Letter) : v.linked (v.representative a) a = true :=
  linked_iff.2 (h.representative_representative a)

theorem Rooted.linked_representative_right (h : v.Rooted) (a b : Letter) :
    v.linked a (v.representative b) = v.linked a b := by
  rw [Bool.eq_iff_iff, linked_iff, linked_iff, h.representative_representative]

theorem orient_cases (v : Valuation) (a b : Letter) :
    v.orient a b = (v.representative a, v.representative b) ∨
    v.orient a b = (v.representative b, v.representative a) := by
  unfold orient
  split
  · exact .inr rfl
  · exact .inl rfl

section Link

variable (h : v.Rooted) (a b : Letter)
include h

theorem Rooted.parent_orient :
    v.parent.get (v.orient a b).1 = (v.orient a b).1 ∧ v.parent.get (v.orient a b).2 = (v.orient a b).2 := by
  rcases v.orient_cases a b with ho | ho <;> rw [ho]
  · exact ⟨h.parent_representative a, h.parent_representative b⟩
  · exact ⟨h.parent_representative b, h.parent_representative a⟩

theorem Rooted.climbs_link (l : Letter) : (v.link a b).Climbs l
    (if v.representative l = (v.orient a b).2 then (v.orient a b).1 else v.representative l) :=
  (h.climbs l).redirect rfl (h.parent_orient a b).1 (h.parent_orient a b).2

theorem Rooted.link : (v.link a b).Rooted := fun l => ⟨_, h.climbs_link a b l⟩

theorem Rooted.representative_link (l : Letter) : (v.link a b).representative l =
    if v.representative l = (v.orient a b).2 then (v.orient a b).1 else v.representative l :=
  (h.climbs_link a b l).representative_eq

theorem Rooted.linked_link (k l : Letter) : (v.link a b).linked k l = true ↔
    v.linked k l = true ∨ (v.linked k a = true ∧ v.linked l b = true) ∨
    (v.linked k b = true ∧ v.linked l a = true) := by
  simp only [linked_iff, h.representative_link a b]
  rcases v.orient_cases a b with ho | ho <;> simp only [ho] <;> grind

theorem Rooted.classes_link_le {E : Setoid Letter} (below : v.classes ≤ E) (joined : E a b) :
    (v.link a b).classes ≤ E := by
  intro k l hkl
  have at_most : ∀ {k l}, v.linked k l = true → E k l := fun hkl => below (classes_iff.2 hkl)
  rcases (h.linked_link a b k l).1 (classes_iff.1 hkl) with hkl | ⟨hk, hl⟩ | ⟨hk, hl⟩
  · exact at_most hkl
  · exact E.trans' (E.trans' (at_most hk) joined) (E.symm' (at_most hl))
  · exact E.trans' (E.trans' (at_most hk) (E.symm' joined)) (E.symm' (at_most hl))

theorem Rooted.get_link (l : Letter) : (v.link a b).get l =
    if v.linked l a = true ∨ v.linked l b = true then (v.get a).join (v.get b) else v.get l := by
  have cell : (v.link a b).get l = if (v.link a b).representative l = (v.orient a b).1 then
      (v.get a).join (v.get b) else v.get l := by
    have written : (v.link a b).cells = v.cells.set (v.orient a b).1 ((v.get a).join (v.get b)) := rfl
    rw [get, written, LetterMap.get_set, h.representative_link a b]
    by_cases hc : v.representative l = (v.orient a b).2
    · simp only [if_pos hc, if_true]
    · simp only [if_neg hc]
      rfl
  rw [cell, h.representative_link a b]
  simp only [linked_iff]
  rcases v.orient_cases a b with ho | ho <;> simp only [ho] <;> grind

end Link

end Valuation

end FourValued
