import Mathlib.Algebra.BigOperators.Ring.Finset
import FourValued.Proofs.Locality
import FourValued.Proofs.Reachability

/-!
# How many passes an inference takes

A pass changes values only in the classes of the letters that its predicates mention, and all letters of a
class have one value. So a pass that changes any value changes that of a mentioned letter, and raises its
rank. The passes before the last are therefore at most as many as the ranks of the mentioned letters rise
together, two for each letter at most. The bound on passes is never reached.
-/

namespace FourValued

namespace Predicate

def mentioned (ps : List Predicate) : Finset Letter := (ps.flatMap letters).toFinset

theorem mem_mentioned {ps : List Predicate} {l : Letter} : l ∈ mentioned ps ↔ ∃ p ∈ ps, l ∈ p.letters := by
  rw [mentioned, List.mem_toFinset, List.mem_flatMap]

end Predicate

namespace Valuation

variable {v w : Valuation} {ps : List Predicate}

theorem Rooted.exists_letter_changed (h : v.Rooted) (changed : (v.applyAll ps).snapshot ≠ v.snapshot) :
    ∃ p ∈ ps, ∃ l ∈ p.letters, (v.applyAll ps).get l ≠ v.get l := by
  obtain ⟨k, hk⟩ := exists_get_ne changed
  have reached : k ∈ v.reach ps := by
    by_contra off
    exact hk ((h.applyAll_off_reach ps).get_eq off)
  obtain ⟨p, hp, l, hl, hkl⟩ := reached
  refine ⟨p, hp, l, hl, ?_⟩
  -- The letters `k` and `l` have one value before the pass and one after it.
  have still := (h.grows_applyAll ps).linked k l hkl
  rwa [← get_eq_of_linked hkl, ← get_eq_of_linked still]

theorem Grows.rank_sum_le (h : v.Grows w) (M : Finset Letter) :
    ∑ l ∈ M, (v.get l).rank ≤ ∑ l ∈ M, (w.get l).rank :=
  Finset.sum_le_sum fun l _ => TruthValue.rank_le_rank (h.value l)

theorem Rooted.settle_passes_le (h : v.Rooted) {M : Finset Letter}
    (mentions : ∀ p ∈ ps, ∀ l ∈ p.letters, l ∈ M) (n : ℕ) : (v.settle ps n).passes + ∑ l ∈ M, (v.get l).rank ≤
      ∑ l ∈ M, ((v.settle ps n).valuation.get l).rank + 1 := by
  induction n generalizing v with
  | zero =>
    rw [settle]
    dsimp only
    omega
  | succ n ih =>
    rw [settle]
    dsimp only
    split
    · have grown := (h.grows_applyAll ps).rank_sum_le M
      dsimp only
      omega
    · next changed =>
      obtain ⟨p, hp, l, hl, hne⟩ := h.exists_letter_changed changed
      have risen := (h.grows_applyAll ps).rank_sum_lt (mentions p hp l hl) hne
      have rest := ih (h.applyAll ps)
      dsimp only
      omega

theorem Rooted.infer_passes_add_le (h : v.Rooted) (ss : List String) :
    let M := Predicate.mentioned (Predicate.wellFormed ss)
    (v.infer ss).2.passes + ∑ l ∈ M, (v.get l).rank ≤ ∑ l ∈ M, ((v.infer ss).1.get l).rank + 1 := by
  intro M
  rw [infer_passes, infer_valuation]
  apply h.settle_passes_le
  intro p hp l hl
  exact Predicate.mem_mentioned.2 ⟨p, Predicate.mem_byLength.1 hp, hl⟩

theorem Rooted.infer_settled (h : v.Rooted) (ss : List String) :
    (v.infer ss).2.converged = true ∧ 1 ≤ (v.infer ss).2.passes := by
  obtain ⟨k, passes, -⟩ := h.exists_last_pass (Predicate.byLength (Predicate.wellFormed ss))
  rw [infer_converged, infer_passes, passes]
  exact ⟨h.settle_converged _, Nat.succ_pos k⟩

/-- The bound on passes never ends an inference: it converges, and its passes before the last are at most as
many as the ranks of the letters of its predicates rise together. -/
theorem infer_passes_le (h : v.Reachable) (ss : List String) :
    let M := Predicate.mentioned (Predicate.wellFormed ss)
    let w := (v.infer ss).1
    let r := (v.infer ss).2
    r.converged = true ∧ 1 ≤ r.passes ∧
    (r.passes : ℤ) - 1 ≤ ∑ l ∈ M, (((w.get l).rank : ℤ) - (v.get l).rank) ∧
    r.passes ≤ 2 * M.card + 1 ∧ r.passes ≤ 53 ∧ 53 < maxPasses := by
  intro M w r
  obtain ⟨converged, some_pass⟩ : r.converged = true ∧ 1 ≤ r.passes := h.rooted.infer_settled ss
  have bound : r.passes + ∑ l ∈ M, (v.get l).rank ≤ ∑ l ∈ M, (w.get l).rank + 1 :=
    h.rooted.infer_passes_add_le ss
  have top : ∑ l ∈ M, (w.get l).rank ≤ M.card * 2 :=
    Finset.sum_le_card_nsmul M _ 2 fun l _ => TruthValue.rank_le_two _
  have letters : M.card ≤ 26 := card_letter ▸ M.card_le_univ
  clear_value r w M
  refine ⟨converged, some_pass, ?_, by omega, by omega, by decide⟩
  have rise : (r.passes : ℤ) + ∑ l ∈ M, ((v.get l).rank : ℤ) ≤ ∑ l ∈ M, ((w.get l).rank : ℤ) + 1 := by
    exact_mod_cast bound
  rw [Finset.sum_sub_distrib]
  omega

theorem infer_passes_le_chain :
    let v := empty.perform (.link ⟨3⟩ ⟨4⟩)
    let ss := ["C>D", "B > c", "A>B", "A"]
    let M := Predicate.mentioned (Predicate.wellFormed ss)
    let w := (v.infer ss).1
    let r := (v.infer ss).2
    v.Reachable ∧ r.passes = 4 ∧
    r.converged = true ∧ 1 ≤ r.passes ∧
    (r.passes : ℤ) - 1 ≤ ∑ l ∈ M, (((w.get l).rank : ℤ) - (v.get l).rank) ∧
    r.passes ≤ 2 * M.card + 1 ∧ r.passes ≤ 53 ∧ 53 < maxPasses := by
  intro v ss M w r
  have reachable : v.Reachable := .perform .empty (.link ⟨3⟩ ⟨4⟩)
  exact ⟨reachable, by decide +kernel, infer_passes_le reachable ss⟩

end Valuation

end FourValued
