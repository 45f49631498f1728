import FourValued.Proofs.Ascent

/-!
# Undeclared letters

A letter that no operation has declared is fresh: it is its own parent and the parent of no other letter, and its cell
is unknown (`Valuation.Lawful`). What a write changes or a link redirects is the representative of a letter that it
declares, and no parents lead from such a letter to a fresh one (`Fresh.eq_of_climbs`). With twenty-six letters the
parents of a letter are followed at most twenty-five times before they end (`Climbs.exists_steps`).
-/

namespace FourValued

namespace Valuation

variable {v : Valuation} {k l r : Letter}

theorem Climbs.exists_first (h : v.Climbs l r) : ∃ n, v.parent.get^[n] l = r ∧
    ∀ m < n, v.parent.get (v.parent.get^[m] l) ≠ v.parent.get^[m] l := by
  induction h with
  | stay => exact ⟨0, rfl, nofun⟩
  | @step l r _ ih =>
    obtain ⟨n, arrives, moves⟩ := ih
    by_cases own : v.parent.get l = l
    · rw [own] at arrives moves
      exact ⟨n, arrives, moves⟩
    · refine ⟨n + 1, arrives, fun m hm => ?_⟩
      cases m with
      | zero => exact own
      | succ m => exact moves m (Nat.lt_of_succ_lt_succ hm)

theorem Climbs.exists_steps (h : v.Climbs l r) : ∃ n ≤ 25, v.parent.get^[n] l = r ∧
    ∀ m < n, v.parent.get (v.parent.get^[m] l) ≠ v.parent.get^[m] l := by
  obtain ⟨n, arrives, moves⟩ := h.exists_first
  refine ⟨n, Nat.le_of_not_lt fun late => moves 25 late ?_, arrives, moves⟩
  rw [iterate_eq_of_card_le h.parent_eq arrives card_letter.le]
  exact h.parent_eq

/-- The letter is its own parent and no other letter's, and its cell is unknown. -/
structure Fresh (v : Valuation) (l : Letter) : Prop where
  parent_eq_iff : ∀ k, v.parent.get k = l ↔ k = l
  cell : v.cells.get l = .unknown

structure Lawful (v : Valuation) : Prop where
  rooted : v.Rooted
  fresh : ∀ l, v.isDeclared l = false → v.Fresh l

theorem Fresh.eq_of_climbs (h : v.Fresh r) (climbs : v.Climbs l r) : l = r := by
  induction climbs with
  | stay => rfl
  | step _ ih => exact (h.parent_eq_iff _).1 (ih h)

theorem Fresh.representative_eq (h : v.Fresh l) : v.representative l = l :=
  Climbs.representative_eq (.stay ((h.parent_eq_iff l).2 rfl))

theorem Fresh.get_eq (h : v.Fresh l) : v.get l = .unknown := by
  rw [get, h.representative_eq, h.cell]

theorem Lawful.representative_ne (h : v.Lawful) (fresh : v.Fresh k) (other : k ≠ l) : k ≠ v.representative l := by
  rintro rfl
  exact other (fresh.eq_of_climbs (h.rooted.climbs l)).symm

theorem Lawful.isDeclared_representative (h : v.Lawful) (declared : v.isDeclared l = true) :
    v.isDeclared (v.representative l) = true := by
  by_contra undeclared
  have fresh := h.fresh _ (Bool.eq_false_iff.2 undeclared)
  rw [← fresh.eq_of_climbs (h.rooted.climbs l)] at undeclared
  exact undeclared declared

theorem lawful_empty : empty.Lawful := by
  refine ⟨rooted_empty, fun l _ => ⟨fun k => ?_, LetterMap.get_const _ l⟩⟩
  rw [empty, LetterMap.get_ofFn, id]

theorem Lawful.put (h : v.Lawful) (l : Letter) (x : TruthValue) : (v.put l x).Lawful := by
  refine ⟨h.rooted.put l x, fun k undeclared => ?_⟩
  rw [isDeclared_put, Bool.or_eq_false_iff, decide_eq_false_iff_not] at undeclared
  have fresh := h.fresh k undeclared.2
  have kept : (v.put l x).cells.get k = v.cells.get k :=
    LetterMap.get_set_of_ne (h.representative_ne fresh undeclared.1) _ x
  exact ⟨fresh.parent_eq_iff, kept.trans fresh.cell⟩

theorem Lawful.link (h : v.Lawful) (a b : Letter) : (v.link a b).Lawful := by
  refine ⟨h.rooted.link a b, fun k undeclared => ?_⟩
  simp only [isDeclared_link, Bool.or_eq_false_iff, decide_eq_false_iff_not] at undeclared
  obtain ⟨not_b, not_a, undeclared⟩ := undeclared
  have fresh := h.fresh k undeclared
  have apart : k ≠ (v.orient a b).1 ∧ k ≠ (v.orient a b).2 := by
    have left := h.representative_ne fresh not_a
    have right := h.representative_ne fresh not_b
    rcases v.orient_cases a b with ho | ho <;> rw [ho]
    · exact ⟨left, right⟩
    · exact ⟨right, left⟩
  refine ⟨fun j => ?_, ?_⟩
  · have redirected : (v.link a b).parent.get j =
        if j = (v.orient a b).2 then (v.orient a b).1 else v.parent.get j := LetterMap.get_set _ _ _ _
    rw [redirected]
    split
    · next child => rw [child]; exact iff_of_false apart.1.symm apart.2.symm
    · exact fresh.parent_eq_iff j
  · have kept : (v.link a b).cells.get k = v.cells.get k := LetterMap.get_set_of_ne apart.1 _ _
    exact kept.trans fresh.cell

theorem Lawful.perform (h : v.Lawful) (o : Operation) : (v.perform o).Lawful :=
  perform_induction (fun _ l x h => h.put l x) (fun _ a b h => h.link a b) h o

theorem Lawful.performAll (h : v.Lawful) (os : List Operation) : (v.performAll os).Lawful :=
  performAll_induction (fun _ hu o _ => hu.perform o) h

/-- After any operations on the empty valuation the parents of each letter lead within twenty-five steps to its
representative, which is the first among them to be its own parent. A letter that is not declared is its own parent,
the parent of no other letter, and unknown; a declared letter has a declared representative. -/
theorem parents_end_and_undeclared_apart (os : List Operation) :
    let v := empty.performAll os
    (∀ l, (v.parent.get l).index.val < Letter.count ∧
      v.parent.get (v.representative l) = v.representative l ∧
      ∃ n ≤ 25, v.parent.get^[n] l = v.representative l ∧
        ∀ m < n, v.parent.get (v.parent.get^[m] l) ≠ v.parent.get^[m] l) ∧
    (∀ l, v.isDeclared l = false →
      v.parent.get l = l ∧ (∀ k, v.parent.get k = l → k = l) ∧ v.get l = .unknown) ∧
    ∀ l, v.isDeclared l = true → v.isDeclared (v.representative l) = true := by
  intro v
  have lawful : v.Lawful := lawful_empty.performAll os
  refine ⟨fun l => ?_, fun l undeclared => ?_, fun l => lawful.isDeclared_representative⟩
  · have climbs := lawful.rooted.climbs l
    exact ⟨(v.parent.get l).index.isLt, climbs.parent_eq, climbs.exists_steps⟩
  · have fresh := lawful.fresh l undeclared
    exact ⟨(fresh.parent_eq_iff l).2 rfl, fun k => (fresh.parent_eq_iff k).1, fresh.get_eq⟩

end Valuation

end FourValued
