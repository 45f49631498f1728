import Mathlib.Algebra.Order.BigOperators.Group.Finset
import FourValued.Proofs.Growth
import FourValued.Session

/-!
# Passes of inference

Whatever each application of a predicate keeps, a whole inference keeps (`infer_induction`), and so does any
number of inferences in a session. A pass that changes some value raises the sum of the ranks of all values,
which is at most fifty-two. So the bound on the number of passes is never what ends an inference: its last
pass is one that changes no value (`Rooted.exists_last_pass`).
-/

namespace FourValued

namespace TruthValue

def rank : TruthValue → ℕ
  | unknown => 0
  | tt | ff => 1
  | invalid => 2

theorem rank_le_two (a : TruthValue) : a.rank ≤ 2 := by cases a <;> decide

theorem rank_le_rank {a b : TruthValue} (h : a ≤ b) : a.rank ≤ b.rank := by
  revert h
  cases a <;> cases b <;> decide

theorem rank_lt_rank {a b : TruthValue} (h : a ≤ b) (hne : b ≠ a) : a.rank < b.rank := by
  revert h hne
  cases a <;> cases b <;> decide

end TruthValue

namespace Valuation

variable {v w : Valuation} {ps : List Predicate}

theorem snapshot_eq_iff : v.snapshot = w.snapshot ↔ ∀ l, v.get l = w.get l := by
  constructor
  · intro h l
    have hl := congrArg (fun m : LetterMap TruthValue => m.get l) h
    simpa only [snapshot, LetterMap.get_ofFn] using hl
  · intro h
    apply LetterMap.ext
    intro l
    rw [snapshot, snapshot, LetterMap.get_ofFn, LetterMap.get_ofFn, h l]

theorem exists_get_ne (changed : v.snapshot ≠ w.snapshot) : ∃ l, v.get l ≠ w.get l := by
  by_contra hno
  push Not at hno
  exact changed (snapshot_eq_iff.2 hno)

theorem applyAll_induction {P : Valuation → Prop} (step : ∀ v, P v → ∀ p ∈ ps, P (v.apply p))
    (h : P v) : P (v.applyAll ps) := by
  induction ps generalizing v with
  | nil => exact h
  | cons p ps ih =>
    refine ih (fun v hv q hq => step v hv q (List.mem_cons_of_mem p hq)) ?_
    exact step v h p List.mem_cons_self

theorem settle_induction {P : Valuation → Prop} (step : ∀ v, P v → ∀ p ∈ ps, P (v.apply p)) (n : ℕ)
    (h : P v) : P (v.settle ps n).valuation := by
  induction n generalizing v with
  | zero => exact h
  | succ n ih =>
    have pass := applyAll_induction step h
    rw [settle]
    dsimp only
    split
    · exact pass
    · exact ih pass

theorem infer_valuation (v : Valuation) (ss : List String) : (v.infer ss).1 =
    (v.settle (Predicate.byLength (Predicate.wellFormed ss)) maxPasses).valuation := by
  rw [infer]

theorem infer_passes (v : Valuation) (ss : List String) : (v.infer ss).2.passes =
    (v.settle (Predicate.byLength (Predicate.wellFormed ss)) maxPasses).passes := by
  rw [infer]

theorem infer_converged (v : Valuation) (ss : List String) : (v.infer ss).2.converged =
    (v.settle (Predicate.byLength (Predicate.wellFormed ss)) maxPasses).converged := by
  rw [infer]

theorem infer_induction {P : Valuation → Prop} {ss : List String}
    (step : ∀ v, P v → ∀ p ∈ Predicate.wellFormed ss, P (v.apply p)) (h : P v) : P (v.infer ss).1 := by
  rw [infer_valuation]
  apply settle_induction (fun v hv p hp => ?_) maxPasses h
  exact step v hv p (Predicate.mem_byLength.1 hp)

theorem Rooted.infer_induction {P : Valuation → Prop} {ss : List String} (h : v.Rooted)
    (step : ∀ u, u.Rooted → P u → ∀ p ∈ Predicate.wellFormed ss, P (u.apply p)) (start : P v) :
    P (v.infer ss).1 := by
  have both := Valuation.infer_induction (P := fun u => u.Rooted ∧ P u)
    (fun u hu p hp => ⟨hu.1.apply p, step u hu.1 hu.2 p hp⟩) ⟨h, start⟩
  exact both.2

def passed (v : Valuation) (ps : List Predicate) (k : ℕ) : Valuation := (fun u => u.applyAll ps)^[k] v

theorem passed_succ (v : Valuation) (ps : List Predicate) (k : ℕ) :
    v.passed ps (k + 1) = (v.passed ps k).applyAll ps := Function.iterate_succ_apply' _ k v

theorem Rooted.passed (h : v.Rooted) (ps : List Predicate) (k : ℕ) : (v.passed ps k).Rooted := by
  induction k with
  | zero => exact h
  | succ k ih =>
    rw [passed_succ]
    exact ih.applyAll ps

def Quiet (v : Valuation) (ps : List Predicate) : Prop := ∀ l, (v.applyAll ps).get l = v.get l

theorem exists_quiet_pass {n : ℕ} (h : (v.settle ps n).converged = true) :
    ∃ k, (v.settle ps n).passes = k + 1 ∧
    (v.settle ps n).valuation = v.passed ps (k + 1) ∧ (v.passed ps k).Quiet ps := by
  induction n generalizing v with
  | zero => cases h
  | succ n ih =>
    rw [settle] at h ⊢
    dsimp only at h ⊢
    split at h
    · next quiet =>
      rw [if_pos quiet]
      exact ⟨0, rfl, rfl, snapshot_eq_iff.1 quiet⟩
    · next changed =>
      rw [if_neg changed]
      obtain ⟨k, hk, last, quiet⟩ := ih h
      exact ⟨k + 1, congrArg (· + 1) hk, last, quiet⟩

theorem settle_passes_le_of_quiet {k : ℕ} (quiet : (v.passed ps k).Quiet ps) (n : ℕ) :
    (v.settle ps n).passes ≤ k + 1 := by
  induction n generalizing v k with
  | zero => exact Nat.zero_le _
  | succ n ih =>
    rw [settle]
    dsimp only
    split
    · exact Nat.succ_le_succ (Nat.zero_le k)
    · next changed =>
      cases k with
      | zero => exact absurd (snapshot_eq_iff.2 quiet) changed
      | succ k => exact Nat.succ_le_succ (ih quiet)

def potential (v : Valuation) : ℕ := ∑ l : Letter, (v.get l).rank

theorem potential_le (v : Valuation) : v.potential ≤ 52 := by
  have h := Finset.sum_le_card_nsmul Finset.univ (fun l => (v.get l).rank) 2
    fun l _ => TruthValue.rank_le_two _
  rwa [Finset.card_univ, card_letter] at h

theorem Grows.rank_sum_lt (h : v.Grows w) {M : Finset Letter} {l : Letter} (hl : l ∈ M)
    (changed : w.get l ≠ v.get l) : ∑ k ∈ M, (v.get k).rank < ∑ k ∈ M, (w.get k).rank := by
  refine Finset.sum_lt_sum (fun k _ => TruthValue.rank_le_rank (h.value k)) ⟨l, hl, ?_⟩
  exact TruthValue.rank_lt_rank (h.value l) changed

theorem Grows.potential_lt (h : v.Grows w) (changed : w.snapshot ≠ v.snapshot) :
    v.potential < w.potential := by
  obtain ⟨l, hl⟩ := exists_get_ne changed
  exact h.rank_sum_lt (Finset.mem_univ l) hl

theorem Rooted.converged_of_potential (h : v.Rooted) {n : ℕ} (hn : 52 < v.potential + n) :
    (v.settle ps n).converged = true := by
  induction n generalizing v with
  | zero =>
    have := v.potential_le
    omega
  | succ n ih =>
    rw [settle]
    dsimp only
    split
    · rfl
    · next changed =>
      have rise := (h.grows_applyAll ps).potential_lt changed
      exact ih (h.applyAll ps) (by omega)

theorem Rooted.settle_converged (h : v.Rooted) (ps : List Predicate) :
    (v.settle ps maxPasses).converged = true :=
  h.converged_of_potential (by unfold maxPasses; omega)

theorem Rooted.exists_last_pass (h : v.Rooted) (ps : List Predicate) :
    ∃ k, (v.settle ps maxPasses).passes = k + 1 ∧
    (v.settle ps maxPasses).valuation = v.passed ps (k + 1) ∧ (v.passed ps k).Quiet ps :=
  exists_quiet_pass (h.settle_converged ps)

end Valuation

namespace Session

def inferAll (t : Session) (calls : List (List String)) : Session :=
  calls.foldl (fun t ss => (t.infer ss).1) t

theorem inferAll_cons (t : Session) (ss : List String) (calls : List (List String)) :
    t.inferAll (ss :: calls) = (t.infer ss).1.inferAll calls := by
  rw [inferAll, List.foldl_cons, inferAll]

theorem infer_fst (t : Session) (ss : List String) :
    (t.infer ss).1 = { t with valuation := (t.valuation.infer ss).1 } := by
  rw [infer]

theorem inferAll_induction {P : Valuation → Prop} {t : Session} {calls : List (List String)}
    (step : ∀ v, P v → ∀ ss ∈ calls, ∀ p ∈ Predicate.wellFormed ss, P (v.apply p))
    (h : P t.valuation) : P (t.inferAll calls).valuation := by
  induction calls generalizing t with
  | nil => exact h
  | cons ss calls ih =>
    rw [inferAll_cons, infer_fst]
    refine ih (fun v hv ts hts => step v hv ts (List.mem_cons_of_mem ss hts)) ?_
    dsimp only
    exact Valuation.infer_induction (fun v hv => step v hv ss List.mem_cons_self) h

theorem rooted_inferAll {t : Session} (h : t.valuation.Rooted) (calls : List (List String)) :
    (t.inferAll calls).valuation.Rooted := inferAll_induction (fun _ hv _ _ p _ => hv.apply p) h

theorem inferAll_induction_of_rooted {P : Valuation → Prop} {t : Session} {calls : List (List String)}
    (h : t.valuation.Rooted)
    (step : ∀ v, v.Rooted → P v → ∀ ss ∈ calls, ∀ p ∈ Predicate.wellFormed ss, P (v.apply p))
    (start : P t.valuation) : P (t.inferAll calls).valuation := by
  have both := inferAll_induction (P := fun v => v.Rooted ∧ P v)
    (fun v hv ss hss p hp => ⟨hv.1.apply p, step v hv.1 hv.2 ss hss p hp⟩) ⟨h, start⟩
  exact both.2

theorem root_inferAll (t : Session) (calls : List (List String)) : (t.inferAll calls).root = t.root := by
  induction calls generalizing t with
  | nil => rfl
  | cons ss calls ih =>
    have first : (t.infer ss).1.root = t.root := by rw [infer_fst]
    rw [inferAll_cons, ih, first]

end Session

end FourValued
