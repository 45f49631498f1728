import FourValued.Proofs.Spelling
import FourValued.Proofs.Unconditional

/-!
# Assignments may stand anywhere

An inference puts the shorter texts first, so each of its passes begins with the assignments
(`Predicate.byLength_eq_append`). Assignments commute, and to repeat one adds nothing, so what they do to a
valuation depends only on which they are (`Rooted.applyAll_congr`). Two lists that differ in no more than the
places of their assignments, and in how often each is repeated, therefore go through the same passes, cell by
cell.
-/

namespace FourValued

open Text

theorem TruthValue.revise_right_comm (a : TruthValue) {b c : TruthValue} (hb : b ≠ unknown) (hc : c ≠ unknown) :
    revise (revise a b) c = revise (revise a c) b := by
  revert hb hc
  cases a <;> cases b <;> cases c <;> decide

namespace LetterMap

variable {α : Type}

def update (m : LetterMap α) (l : Letter) (f : α → α) : LetterMap α := m.set l (f (m.get l))

theorem get_update (m : LetterMap α) (l k : Letter) (f : α → α) :
    (m.update l f).get k = if k = l then f (m.get k) else m.get k := by
  rw [update, get_set]
  split
  · next hk => rw [hk]
  · rfl

theorem update_right_comm (m : LetterMap α) (k l : Letter) {f g : α → α} (comm : ∀ a, g (f a) = f (g a)) :
    (m.update k f).update l g = (m.update l g).update k f := by
  apply ext
  intro i
  simp only [get_update]
  split <;> split <;> first | rfl | exact comm _

end LetterMap

namespace Predicate

def isAssignment : Predicate → Bool
  | assignment _ => true
  | _ => false

def rules (n : Nat) (ss : List String) : List Predicate :=
  (wellFormed (ss.filter fun s => (canonical s).length = n)).filter fun p => !p.isAssignment

def ofLengths (ns : List Nat) (ps : List Predicate) : List Predicate :=
  ns.flatMap fun n => ps.filter fun p => p.length = n

variable {p : Predicate} {ps : List Predicate} {n : Nat}

theorem isConditional_eq_false (h : p.isAssignment = true) : p.isConditional = false := by
  cases p with
  | assignment p => rfl
  | biconditional l r => rfl
  | conditional a c => cases h

theorem isAssignment_iff_length : p.isAssignment = true ↔ p.length < 3 := by
  cases p with
  | assignment p =>
    obtain ⟨l, n⟩ := p
    cases n <;> simp [isAssignment, length, chars, Literal.chars]
  | biconditional l r => simp [isAssignment, length, chars]
  | conditional a c =>
    obtain ⟨l, n⟩ := a
    obtain ⟨k, m⟩ := c
    cases n <;> cases m <;> simp [isAssignment, length, chars, Literal.chars]

theorem mem_ofLengths {ns : List Nat} : p ∈ ofLengths ns ps ↔ p ∈ ps ∧ p.length ∈ ns := by
  simp only [ofLengths, List.mem_flatMap, List.mem_filter, decide_eq_true_eq]
  exact ⟨fun ⟨_, hn, hp, length⟩ => ⟨hp, length ▸ hn⟩, fun ⟨hp, hn⟩ => ⟨_, hn, hp, rfl⟩⟩

theorem byLength_eq_append (ps : List Predicate) :
    byLength ps = ofLengths [0, 1, 2] ps ++ ofLengths [3, 4, 5] ps := by
  have lengths : List.range (maxLength + 1) = [0, 1, 2] ++ [3, 4, 5] := rfl
  rw [byLength, lengths, List.flatMap_append]
  rfl

theorem mem_shortest : p ∈ ofLengths [0, 1, 2] ps ↔ p ∈ ps ∧ p.isAssignment = true := by
  have short : p.length ∈ [0, 1, 2] ↔ p.length < 3 := by
    simp only [List.mem_cons, List.not_mem_nil, or_false]
    omega
  rw [mem_ofLengths, short, isAssignment_iff_length]

theorem rules_eq (hn : 3 ≤ n) (ss : List String) : rules n ss = (wellFormed ss).filter fun p => p.length = n := by
  rw [rules, wellFormed_filter_length, List.filter_filter]
  apply List.filter_congr
  intro p _
  by_cases hp : p.length = n
  · have rule : p.isAssignment = false := by
      rw [Bool.eq_false_iff, Ne, isAssignment_iff_length, hp]
      omega
    simp [rule]
  · simp [hp]

theorem ofLengths_wellFormed (ss : List String) :
    ofLengths [3, 4, 5] (wellFormed ss) = [3, 4, 5].flatMap fun n => rules n ss := by
  simp [ofLengths, rules_eq]

end Predicate

namespace Valuation

variable {v : Valuation} {p q : Predicate} {ps qs : List Predicate} {ss ts : List String}

theorem apply_assignment (v : Valuation) (p : Literal) : v.apply (.assignment p) =
    { v with
      declared := v.declared.update p.letter fun _ => true
      cells := v.cells.update (v.representative p.letter) fun x => x.revise p.required } := rfl

theorem apply_assignment_twice (v : Valuation) (p q : Literal) :
    (v.apply (.assignment p)).apply (.assignment q) =
      { v with
        declared := (v.declared.update p.letter fun _ => true).update q.letter fun _ => true
        cells := (v.cells.update (v.representative p.letter) fun x => x.revise p.required).update
          (v.representative q.letter) fun x => x.revise q.required } := by
  have same : (v.apply (.assignment p)).representative q.letter = v.representative q.letter :=
    representative_congr rfl q.letter
  rw [apply_assignment, same]
  rfl

theorem apply_right_comm (v : Valuation) (hp : p.isAssignment = true) (hq : q.isAssignment = true) :
    (v.apply p).apply q = (v.apply q).apply p := by
  cases p with
  | biconditional l r => cases hp
  | conditional a c => cases hp
  | assignment p =>
    cases q with
    | biconditional l r => cases hq
    | conditional a c => cases hq
    | assignment q =>
      have declared := v.declared.update_right_comm p.letter q.letter (f := fun _ => true) (g := fun _ => true)
        fun _ => rfl
      have cells := v.cells.update_right_comm (v.representative p.letter) (v.representative q.letter)
        (f := fun x => x.revise p.required) (g := fun x => x.revise q.required)
        fun x => TruthValue.revise_right_comm x p.required_ne_unknown q.required_ne_unknown
      rw [apply_assignment_twice, apply_assignment_twice, declared, cells]

theorem applyAll_perm (perm : ps.Perm qs) (assignments : ∀ p ∈ ps, p.isAssignment = true) (v : Valuation) :
    v.applyAll ps = v.applyAll qs :=
  perm.foldl_eq' (fun p hp q hq v => v.apply_right_comm (assignments p hp) (assignments q hq)) v

theorem Rooted.applyAll_congr (h : v.Rooted) (assignments : ∀ p ∈ ps, p.isAssignment = true)
    (same : ∀ p, p ∈ ps ↔ p ∈ qs) : v.applyAll ps = v.applyAll qs := by
  have assignments' : ∀ p ∈ qs, p.isAssignment = true := fun p hp => assignments p ((same p).2 hp)
  have plain := fun p hp => Predicate.isConditional_eq_false (assignments p hp)
  have plain' := fun p hp => Predicate.isConditional_eq_false (assignments' p hp)
  calc
    v.applyAll ps = (v.applyAll ps).applyAll qs := (h.applyAll_of_subset plain fun p hp => (same p).2 hp).symm
    _ = v.applyAll (ps ++ qs) := (applyAll_append v ps qs).symm
    _ = v.applyAll (qs ++ ps) := by
      refine applyAll_perm List.perm_append_comm (fun p hp => ?_) v
      exact (List.mem_append.1 hp).elim (assignments p) (assignments' p)
    _ = (v.applyAll qs).applyAll ps := applyAll_append v qs ps
    _ = v.applyAll qs := h.applyAll_of_subset plain' fun p hp => (same p).1 hp

theorem Rooted.settle_congr (h : v.Rooted) (pass : ∀ u : Valuation, u.Rooted → u.applyAll ps = u.applyAll qs)
    (n : Nat) : v.settle ps n = v.settle qs n := by
  induction n generalizing v with
  | zero => rfl
  | succ n ih =>
    rw [settle, settle]
    dsimp only
    rw [pass v h, ih (h.applyAll qs)]

theorem Rooted.applyAll_byLength (h : v.Rooted)
    (facts : ∀ p : Literal, .assignment p ∈ Predicate.wellFormed ss ↔ .assignment p ∈ Predicate.wellFormed ts)
    (rules : ∀ n ∈ [3, 4, 5], Predicate.rules n ss = Predicate.rules n ts) :
    v.applyAll (Predicate.byLength (Predicate.wellFormed ss)) =
      v.applyAll (Predicate.byLength (Predicate.wellFormed ts)) := by
  have longer : Predicate.ofLengths [3, 4, 5] (Predicate.wellFormed ss) =
      Predicate.ofLengths [3, 4, 5] (Predicate.wellFormed ts) := by
    rw [Predicate.ofLengths_wellFormed, Predicate.ofLengths_wellFormed]
    exact List.flatMap_congr rules
  have shortest : v.applyAll (Predicate.ofLengths [0, 1, 2] (Predicate.wellFormed ss)) =
      v.applyAll (Predicate.ofLengths [0, 1, 2] (Predicate.wellFormed ts)) := by
    refine h.applyAll_congr (fun p hp => (Predicate.mem_shortest.1 hp).2) fun p => ?_
    rw [Predicate.mem_shortest, Predicate.mem_shortest]
    refine and_congr_left fun hp => ?_
    cases p with
    | assignment p => exact facts p
    | biconditional l r => cases hp
    | conditional a c => cases hp
  rw [Predicate.byLength_eq_append, Predicate.byLength_eq_append, applyAll_append, applyAll_append, shortest, longer]

/-- Where the assignments stand in a list, and how often each is repeated, is of no account, whether or not they
contradict each other or the rest: as long as the other predicates of each length keep their order, an inference
leaves the same valuation after the same number of passes. -/
theorem infer_assignments_anywhere (h : v.Reachable)
    (facts : ∀ p : Literal, .assignment p ∈ Predicate.wellFormed ss ↔ .assignment p ∈ Predicate.wellFormed ts)
    (rules : ∀ n ∈ [3, 4, 5], Predicate.rules n ss = Predicate.rules n ts) :
    (v.infer ss).1 = (v.infer ts).1 ∧ (v.infer ss).2.passes = (v.infer ts).2.passes ∧
    (v.infer ss).2.converged = (v.infer ts).2.converged := by
  have settled := h.rooted.settle_congr (fun u hu => hu.applyAll_byLength facts rules) maxPasses
  refine ⟨?_, ?_, ?_⟩
  · rw [infer_valuation, infer_valuation, settled]
  · rw [infer_passes, infer_passes, settled]
  · rw [infer_converged, infer_converged, settled]

theorem infer_assignments_anywhere_contradictory :
    let v := empty.perform (.link ⟨4⟩ ⟨5⟩)
    let ss := ["A", "D", "A>~B", "A>~D", "E = F", "~e"]
    let ts := ["a > ~b", "~E", "E=F", "d", "A > ~D", "A", "~", "D"]
    v.Reachable ∧
    (∀ p : Literal, .assignment p ∈ Predicate.wellFormed ss ↔ .assignment p ∈ Predicate.wellFormed ts) ∧
    (∀ n ∈ [3, 4, 5], Predicate.rules n ss = Predicate.rules n ts) ∧
    ((v.infer ss).1.get ⟨0⟩ = .invalid ∧ (v.infer ss).1.get ⟨1⟩ = .ff) ∧
    (v.infer ss).1 = (v.infer ts).1 ∧ (v.infer ss).2.passes = (v.infer ts).2.passes ∧
    (v.infer ss).2.converged = (v.infer ts).2.converged := by
  intro v ss ts
  have reachable : v.Reachable := .perform .empty (.link ⟨4⟩ ⟨5⟩)
  have facts : ∀ p : Literal,
      .assignment p ∈ Predicate.wellFormed ss ↔ .assignment p ∈ Predicate.wellFormed ts := by
    have included : ∀ p ∈ Predicate.wellFormed ss, p.isAssignment = true → p ∈ Predicate.wellFormed ts := by decide
    have includes : ∀ p ∈ Predicate.wellFormed ts, p.isAssignment = true → p ∈ Predicate.wellFormed ss := by decide
    exact fun p => ⟨fun hp => included _ hp rfl, fun hp => includes _ hp rfl⟩
  have rules : ∀ n ∈ [3, 4, 5], Predicate.rules n ss = Predicate.rules n ts := by decide
  exact ⟨reachable, facts, rules, by decide +kernel,
    infer_assignments_anywhere reachable facts rules⟩

end Valuation

end FourValued
