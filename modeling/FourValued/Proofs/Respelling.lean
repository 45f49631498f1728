import FourValued.Proofs.Faults
import FourValued.Proofs.Settling

/-!
# Spelling does not bear on inference

An inference knows its texts only by the predicates that they spell. To drop blank and malformed texts and to
write the others as their predicates are written leaves it those predicates in their order
(`Predicate.wellFormed_respelled`), so that it does the same in as many passes. Its warnings are the reports on the
malformed texts, one for each (`Predicate.malformed_eq`). The predicates are applied in the order of their texts,
sorted by the length of the canonical text (`Predicate.byLength_wellFormed`).
-/

namespace FourValued

open Text

section Sorting

variable {α : Type} (key : α → ℕ) {xs : List α}

theorem key_trans (a b c : α) (ab : decide (key a ≤ key b) = true) (bc : decide (key b ≤ key c) = true) :
    decide (key a ≤ key c) = true := by
  rw [decide_eq_true_eq] at *
  exact ab.trans bc

theorem key_total (a b : α) : (decide (key a ≤ key b) || decide (key b ≤ key a)) = true := by
  rw [Bool.or_eq_true, decide_eq_true_eq, decide_eq_true_eq]
  exact Nat.le_total _ _

theorem sorted_mergeSort (xs : List α) :
    (xs.mergeSort fun a b => key a ≤ key b).Pairwise fun a b => key a ≤ key b := by
  simpa only [decide_eq_true_eq] using List.pairwise_mergeSort (key_trans key) (key_total key) xs

theorem filter_mergeSort (xs : List α) (n : ℕ) :
    (xs.mergeSort fun a b => key a ≤ key b).filter (fun a => key a = n) = xs.filter fun a => key a = n := by
  have alike : (xs.filter fun a => key a = n).Pairwise fun a b => decide (key a ≤ key b) = true := by
    refine List.pairwise_of_forall_mem_list fun a ha b hb => ?_
    simp only [List.mem_filter, decide_eq_true_eq] at ha hb ⊢
    omega
  have within := List.sublist_mergeSort (key_trans key) (key_total key) alike List.filter_sublist
  have kept := within.filter fun a => key a = n
  rw [List.filter_filter] at kept
  simp only [Bool.and_self] at kept
  have count := ((List.mergeSort_perm xs fun a b => decide (key a ≤ key b)).filter fun a => key a = n).length_eq
  exact (kept.eq_of_length count.symm).symm

variable {key}

theorem flatMap_filter_of_sorted (sorted : xs.Pairwise fun a b => key a ≤ key b) (n : ℕ) :
    ((List.range n).flatMap fun k => xs.filter fun a => key a = k) = xs.filter fun a => key a < n := by
  induction n with
  | zero => simp
  | succ n ih =>
    rw [List.range_succ, List.flatMap_append, ih, List.flatMap_singleton]
    clear ih
    induction xs with
    | nil => rfl
    | cons a xs ih =>
      have tail := ih (List.pairwise_cons.1 sorted).2
      by_cases below : key a < n
      · have differ : key a ≠ n := below.ne
        have below_succ : key a < n + 1 := below.trans n.lt_succ_self
        simp only [List.filter_cons, below, differ, below_succ, decide_true, decide_false, if_true, Bool.false_eq_true,
          if_false, List.cons_append, tail]
      · -- From `a` on no key is less than `n`.
        have from_n : ∀ b ∈ a :: xs, n ≤ key b := by
          intro b hb
          rcases List.mem_cons.1 hb with rfl | hb
          · exact not_lt.1 below
          · exact (not_lt.1 below).trans ((List.pairwise_cons.1 sorted).1 b hb)
        have none_below : (a :: xs).filter (fun b => key b < n) = [] := by
          refine List.filter_eq_nil_iff.2 fun b hb => ?_
          simpa using from_n b hb
        rw [none_below, List.nil_append]
        refine List.filter_congr fun b hb => decide_eq_decide.2 ?_
        have := from_n b hb
        omega

end Sorting

namespace Predicate

variable {s : String} {ss : List String}

def respelled (ss : List String) : List String := (wellFormed ss).map text

theorem canonical_text (p : Predicate) : canonical p.text = p.chars := by
  have letter : ∀ l : Letter, isBlank l.char = false ∧ l.char.toUpper = l.char := by decide
  have literal : ∀ q : Literal, ∀ c ∈ q.chars, isBlank c = false ∧ c.toUpper = c := by
    rintro ⟨l, n⟩
    cases n
    · simpa [Literal.chars] using letter l
    · simpa [Literal.chars] using ⟨by decide, letter l⟩
  rw [canonical, text, String.toList_ofList]
  apply canonicalChars_eq_self
  cases p with
  | assignment q => exact literal q
  | biconditional l r =>
    simp only [chars, List.forall_mem_cons]
    exact ⟨letter l, by decide, letter r, List.forall_mem_nil _⟩
  | conditional a c =>
    rw [chars, List.forall_mem_append, List.forall_mem_cons]
    exact ⟨literal a, by decide, literal c⟩

theorem wellFormed_respelled (ss : List String) : wellFormed (respelled ss) = wellFormed ss := by
  have spelled : ∀ p : Predicate, ofText? p.text = some p := fun p => ofText?_eq_some_iff.2 p.canonical_text
  rw [respelled, wellFormed_eq, List.filterMap_map]
  exact (List.filterMap_congr fun p _ => spelled p).trans List.filterMap_some

theorem malformed_eq (ss : List String) :
    malformed ss = (ss.filter fun s => Malformed s).map MalformedPredicate.ofText := by
  rw [malformed, ← List.filterMap_eq_map, List.filterMap_filter]
  refine List.filterMap_congr fun s _ => ?_
  split
  · next q hq =>
    have good : ¬ Malformed s := fun h => by
      rw [read_of_malformed h] at hq
      cases hq
    simp [good]
  · next m hm =>
    obtain ⟨bad, rfl⟩ := read_eq_error_iff.1 hm
    simp [bad]

theorem malformed_respelled (ss : List String) : malformed (respelled ss) = [] := by
  rw [malformed_eq, respelled]
  have good : ∀ p : Predicate, ¬ Malformed p.text := fun p h => h.2 p p.canonical_text
  simp [good]

theorem byLength_wellFormed (ss : List String) : byLength (wellFormed ss) =
    wellFormed (ss.mergeSort fun s t => (canonical s).length ≤ (canonical t).length) := by
  let sorted := ss.mergeSort fun s t => (canonical s).length ≤ (canonical t).length
  have lengths : (wellFormed sorted).Pairwise fun p q => p.length ≤ q.length := by
    rw [wellFormed_eq, List.pairwise_filterMap]
    refine (sorted_mergeSort (fun s => (canonical s).length) ss).imp fun {s t} hst p hp q hq => ?_
    rwa [ofText?_eq_some_iff.1 hp, ofText?_eq_some_iff.1 hq] at hst
  have same : ∀ n, ((wellFormed ss).filter fun p => p.length = n) =
      (wellFormed sorted).filter fun p => p.length = n := by
    intro n
    rw [← wellFormed_filter_length, ← wellFormed_filter_length]
    exact congrArg wellFormed (filter_mergeSort (fun s => (canonical s).length) ss n).symm
  calc
    byLength (wellFormed ss) = byLength (wellFormed sorted) := List.flatMap_congr fun n _ => same n
    _ = (wellFormed sorted).filter fun p => p.length < maxLength + 1 := flatMap_filter_of_sorted lengths _
    _ = wellFormed sorted := List.filter_eq_self.2 fun p _ => decide_eq_true (Nat.lt_succ_of_le p.length_le)

end Predicate

namespace Valuation

/-- To drop the blank and the malformed texts and to respell the others leaves the outcome of an inference and the
number of its passes as they are, and takes its warnings away. There is one warning for each malformed text, which
shows the text without its outer blanks, and the inference succeeds just when there is none. -/
theorem infer_respelled (v : Valuation) (ss : List String) :
    let ts := Predicate.respelled ss
    let sorted := ss.mergeSort fun s t => (canonical s).length ≤ (canonical t).length
    (v.infer ts).1 = (v.infer ss).1 ∧ (v.infer ts).2.passes = (v.infer ss).2.passes ∧
    (v.infer ts).2.converged = (v.infer ss).2.converged ∧
    (v.infer ss).1 = (v.settle (Predicate.wellFormed sorted) maxPasses).valuation ∧
    (v.infer ts).2.warnings = [] ∧
    (v.infer ss).2.warnings = (ss.filter fun s => Malformed s).map MalformedPredicate.ofText ∧
    (∀ s, (MalformedPredicate.ofText s).predicate = trim s) ∧
    ((v.infer ss).2.result = .ok () ↔ ∀ s ∈ ss, ¬ Malformed s) := by
  intro ts sorted
  have warned : (v.infer ss).2.warnings = (ss.filter fun s => Malformed s).map MalformedPredicate.ofText :=
    Predicate.malformed_eq ss
  have same : Predicate.wellFormed ts = Predicate.wellFormed ss := Predicate.wellFormed_respelled ss
  refine ⟨?_, ?_, ?_, ?_, Predicate.malformed_respelled ss, warned, fun s => rfl, ?_⟩
  · rw [infer_valuation, infer_valuation, same]
  · rw [infer_passes, infer_passes, same]
  · rw [infer_converged, infer_converged, same]
  · rw [infer_valuation, Predicate.byLength_wellFormed]
  · rw [Inference.result, warned]
    simp

end Valuation

end FourValued
