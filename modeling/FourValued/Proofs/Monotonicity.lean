import FourValued.Proofs.Closure
import FourValued.Proofs.Links

/-!
# Consistent inference is monotone and free of order

An inference that ends without a contradiction holds a set of literals that is closed under its predicates
and supports the valuation it began with. Any inference from the same valuation with some of these predicates
is supported by that set too, and links no more letters. So what it infers is found in the larger one, and
two inferences with the same predicates find the same, in whatever order the predicates stand.
-/

namespace FourValued

theorem TruthValue.eq_unknown {a : TruthValue} (vague : a.isConcrete ≠ true) (consistent : a ≠ invalid) :
    a = unknown := by
  cases a with
  | unknown => rfl
  | tt => exact absurd rfl vague
  | ff => exact absurd rfl vague
  | invalid => exact absurd rfl consistent

namespace Valuation

variable {u v w : Valuation}

theorem backs_held_of_le {l : Letter} {x : TruthValue} (h : x ≤ w.get l) (consistent : w.get l ≠ .invalid) :
    Backs w.held l x := by
  cases x with
  | unknown => trivial
  | tt => exact Literal.eq_required_of_le (p := ⟨l, false⟩) h consistent
  | ff => exact Literal.eq_required_of_le (p := ⟨l, true⟩) h consistent
  | invalid => exact absurd (TruthValue.le_antisymm (TruthValue.le_invalid _) h) consistent

theorem Grows.supported_held (h : v.Grows w) (consistent : ∀ l, w.get l ≠ .invalid) : v.Supported w.held := by
  refine ⟨fun l => backs_held_of_le (h.value l) (consistent l), fun a b hab n => ?_⟩
  simp only [mem_held, get_eq_of_linked (h.linked a b hab), Literal.required]

theorem Supported.get_ne_invalid (h : u.Supported w.held) (l : Letter) : u.get l ≠ .invalid := by
  intro hl
  have backed := h.value l
  rw [hl] at backed
  exact w.not_contradictory_held backed.2

theorem Supported.get_eq_held (h : u.Supported w.held) {l : Letter} (concrete : (u.get l).isConcrete = true) :
    w.get l = u.get l := by
  obtain ⟨htrue, hfalse, -⟩ := h.mem_of_get l
  cases hl : u.get l with
  | tt => exact htrue hl
  | ff => exact hfalse hl
  | unknown => rw [hl] at concrete; cases concrete
  | invalid => rw [hl] at concrete; cases concrete

theorem Supported.get_eq (h : u.Supported w.held) (k : w.Supported u.held) (l : Letter) :
    u.get l = w.get l := by
  by_cases hu : (u.get l).isConcrete = true
  · exact (h.get_eq_held hu).symm
  · by_cases hw : (w.get l).isConcrete = true
    · exact k.get_eq_held hw
    · rw [TruthValue.eq_unknown hu (h.get_ne_invalid l), TruthValue.eq_unknown hw (k.get_ne_invalid l)]

theorem Rooted.infer_below (h : v.Rooted) {ss ts : List String}
    (included : Predicate.wellFormed ss ⊆ Predicate.wellFormed ts)
    (consistent : ∀ l, (v.infer ts).1.get l ≠ .invalid) :
    (v.infer ss).1.Supported (v.infer ts).1.held ∧
    ∀ k l, (v.infer ss).1.linked k l = true → (v.infer ts).1.linked k l = true := by
  have grown := h.grows_infer ts
  have spent := h.spent_infer ts
  constructor
  · refine (grown.supported_held consistent).infer h fun p hp => ?_
    exact closes_held (spent p (included hp)) consistent
  · refine classes_le_iff.1 (h.classes_infer_le (classes_le_iff.2 grown.linked) fun a b hab => ?_)
    exact classes_iff.2 (spent _ (included hab)).idle

/-- If the larger of two sets of predicates leads to no contradiction, neither does the smaller, and it leads
to no value or link that the larger does not lead to. Two texts of the same set, in any order and with any
repetitions, both lead to a contradiction or to the same values and links. -/
theorem infer_mono (h : v.Reachable) (ss ts : List String) :
    let a := (v.infer ss).1
    let b := (v.infer ts).1
    (Predicate.wellFormed ss ⊆ Predicate.wellFormed ts → (∀ l, b.get l ≠ .invalid) →
      (∀ l, a.get l ≠ .invalid) ∧ (∀ l, (a.get l).isConcrete = true → b.get l = a.get l) ∧
      ∀ k l, a.linked k l = true → b.linked k l = true) ∧
    ((∀ p, p ∈ Predicate.wellFormed ss ↔ p ∈ Predicate.wellFormed ts) →
      ((∃ l, a.get l = .invalid) ∧ ∃ l, b.get l = .invalid) ∨
      ((∀ l, a.get l = b.get l) ∧ ∀ k l, a.linked k l = b.linked k l)) := by
  intro a b
  have below : Predicate.wellFormed ss ⊆ Predicate.wellFormed ts → (∀ l, b.get l ≠ .invalid) →
      a.Supported b.held ∧ ∀ k l, a.linked k l = true → b.linked k l = true := h.rooted.infer_below
  have above : Predicate.wellFormed ts ⊆ Predicate.wellFormed ss → (∀ l, a.get l ≠ .invalid) →
      b.Supported a.held ∧ ∀ k l, b.linked k l = true → a.linked k l = true := h.rooted.infer_below
  clear_value a b
  constructor
  · intro included consistent
    obtain ⟨supported, linked⟩ := below included consistent
    exact ⟨supported.get_ne_invalid, fun l => supported.get_eq_held, linked⟩
  · intro same
    by_cases consistent : ∀ l, b.get l ≠ .invalid
    · right
      obtain ⟨supported, linked⟩ := below (fun p => (same p).1) consistent
      obtain ⟨supports, links⟩ := above (fun p => (same p).2) supported.get_ne_invalid
      exact ⟨supported.get_eq supports, fun k l => Bool.eq_iff_iff.2 ⟨linked k l, links k l⟩⟩
    · left
      have contradictory : ¬ ∀ l, a.get l ≠ .invalid := fun consistent' =>
        consistent (above (fun p => (same p).2) consistent').1.get_ne_invalid
      push Not at consistent contradictory
      exact ⟨contradictory, consistent⟩

theorem infer_mono_linked :
    let v := empty.perform (.link ⟨2⟩ ⟨4⟩)
    let ss := ["B", "A=B", "~"]
    let ts := ["a = b", "A>C", "B", "E>~D", "B"]
    let a := (v.infer ss).1
    let b := (v.infer ts).1
    v.Reachable ∧ Predicate.wellFormed ss ⊆ Predicate.wellFormed ts ∧ (∀ l, b.get l ≠ .invalid) ∧
    (∀ l, a.get l ≠ .invalid) ∧ (∀ l, (a.get l).isConcrete = true → b.get l = a.get l) ∧
    ∀ k l, a.linked k l = true → b.linked k l = true := by
  intro v ss ts a b
  have reachable : v.Reachable := .perform .empty (.link ⟨2⟩ ⟨4⟩)
  have included : Predicate.wellFormed ss ⊆ Predicate.wellFormed ts := by decide
  have consistent : ∀ l, b.get l ≠ .invalid := by decide +kernel
  exact ⟨reachable, included, consistent, (infer_mono reachable ss ts).1 included consistent⟩

end Valuation

end FourValued
