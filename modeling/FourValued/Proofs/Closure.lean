import Mathlib.Logic.Relation
import FourValued.Proofs.Support

/-!
# Inference computes a closure

Predicates span a graph on the literals: a conditional leads from its antecedent to its consequent and back
between their negations, and a biconditional joins its letters in both signs. The closure holds what can be
reached from the asserted literals. It is the least set that is closed under the predicates, so it supports
what is inferred from nothing, and it is held by what is inferred without a contradiction.
-/

namespace FourValued

namespace Predicate

inductive Edge (ps : List Predicate) : Literal → Literal → Prop
  | forward {a c : Literal} : .conditional a c ∈ ps → Edge ps a c
  | backward {a c : Literal} : .conditional a c ∈ ps → Edge ps c.negate a.negate
  | across {l r : Letter} (n : Bool) : .biconditional l r ∈ ps → Edge ps ⟨l, n⟩ ⟨r, n⟩
  | back {l r : Letter} (n : Bool) : .biconditional l r ∈ ps → Edge ps ⟨r, n⟩ ⟨l, n⟩

/-- The literals that can be reached from the asserted ones. -/
def closure (ps : List Predicate) : Set Literal :=
  {q | ∃ p, .assignment p ∈ ps ∧ Relation.ReflTransGen (Edge ps) p q}

variable {ps : List Predicate} {S : Set Literal}

theorem mem_closure_of_edge {p q : Literal} (hp : p ∈ closure ps) (h : Edge ps p q) : q ∈ closure ps := by
  obtain ⟨start, asserted, path⟩ := hp
  exact ⟨start, asserted, path.tail h⟩

theorem closes_closure : ∀ p ∈ ps, p.Closes (closure ps) := by
  intro p hp
  cases p with
  | assignment p => exact ⟨p, hp, .refl⟩
  | biconditional l r =>
    intro n
    exact ⟨fun h => mem_closure_of_edge h (.across n hp), fun h => mem_closure_of_edge h (.back n hp)⟩
  | conditional a c =>
    exact ⟨fun h => mem_closure_of_edge h (.forward hp), fun h => mem_closure_of_edge h (.backward hp)⟩

theorem mem_of_edge (closed : ∀ p ∈ ps, p.Closes S) {p q : Literal} (h : Edge ps p q) (hp : p ∈ S) :
    q ∈ S := by
  cases h with
  | forward hc => exact (closed _ hc).1 hp
  | backward hc => exact (closed _ hc).2 hp
  | across n hb => exact (closed _ hb n).1 hp
  | back n hb => exact (closed _ hb n).2 hp

theorem closure_subset (closed : ∀ p ∈ ps, p.Closes S) : closure ps ⊆ S := by
  rintro q ⟨p, asserted, path⟩
  induction path with
  | refl => exact closed _ asserted
  | tail _ edge ih => exact mem_of_edge closed edge ih

end Predicate

namespace Valuation

variable {v : Valuation} {S : Set Literal} {ss : List String}

theorem Rooted.closes_held_infer (rooted : v.Rooted) (consistent : ∀ l, (v.infer ss).1.get l ≠ .invalid) :
    ∀ p ∈ Predicate.wellFormed ss, p.Closes (v.infer ss).1.held := by
  intro p hp
  exact closes_held (rooted.spent_infer ss p hp) consistent

theorem Supported.contradictory_iff {w : Valuation} (h : w.Supported S)
    (complete : (∀ l, w.get l ≠ .invalid) → S ⊆ w.held) :
    (∃ l, w.get l = .invalid) ↔ Contradictory S := by
  constructor
  · rintro ⟨l, hl⟩
    have backed := h.value l
    rw [hl] at backed
    exact backed.2
  · rintro ⟨l, htrue, hfalse⟩
    by_contra hno
    push Not at hno
    exact w.not_contradictory_held ⟨l, complete hno htrue, complete hno hfalse⟩

theorem Supported.mem_of_get {w : Valuation} (h : w.Supported S) (l : Letter) :
    (w.get l = .tt → (⟨l, false⟩ : Literal) ∈ S) ∧ (w.get l = .ff → (⟨l, true⟩ : Literal) ∈ S) ∧
    (w.get l = .invalid → (⟨l, false⟩ : Literal) ∈ S ∨ (⟨l, true⟩ : Literal) ∈ S) := by
  have backed := h.value l
  refine ⟨fun hl => ?_, fun hl => ?_, fun hl => ?_⟩ <;> rw [hl] at backed
  · exact backed
  · exact backed
  · exact backed.1

theorem Supported.get_iff {w : Valuation} (h : w.Supported S) (complete : S ⊆ w.held) {l : Letter}
    (consistent : w.get l ≠ .invalid) :
    (w.get l = .tt ↔ (⟨l, false⟩ : Literal) ∈ S) ∧ (w.get l = .ff ↔ (⟨l, true⟩ : Literal) ∈ S) ∧
    (w.get l = .unknown ↔ (⟨l, false⟩ : Literal) ∉ S ∧ (⟨l, true⟩ : Literal) ∉ S) := by
  obtain ⟨true_mem, false_mem, -⟩ := h.mem_of_get l
  have htrue : w.get l = .tt ↔ (⟨l, false⟩ : Literal) ∈ S :=
    ⟨true_mem, fun hl => mem_held_plain.1 (complete hl)⟩
  have hfalse : w.get l = .ff ↔ (⟨l, true⟩ : Literal) ∈ S :=
    ⟨false_mem, fun hl => mem_held_negated.1 (complete hl)⟩
  refine ⟨htrue, hfalse, ?_⟩
  rw [← htrue, ← hfalse]
  cases hv : w.get l <;> simp_all

/-- What is inferred where no letter is linked or known is the closure of the predicates. Where the closure
is contradictory so is some letter, and the values still stand on literals of the closure. -/
theorem infer_eq_closure (ls : List Letter) (ss : List String) :
    let C := Predicate.closure (Predicate.wellFormed ss)
    let w := ((empty.declareAll ls).infer ss).1
    ((∃ l, w.get l = .invalid) ↔ Contradictory C) ∧
    ((∀ l, w.get l ≠ .invalid) → ∀ l,
      (w.get l = .tt ↔ (⟨l, false⟩ : Literal) ∈ C) ∧ (w.get l = .ff ↔ (⟨l, true⟩ : Literal) ∈ C) ∧
      (w.get l = .unknown ↔ (⟨l, false⟩ : Literal) ∉ C ∧ (⟨l, true⟩ : Literal) ∉ C)) ∧
    ∀ l, (w.get l = .tt → (⟨l, false⟩ : Literal) ∈ C) ∧ (w.get l = .ff → (⟨l, true⟩ : Literal) ∈ C) ∧
      (w.get l = .invalid → (⟨l, false⟩ : Literal) ∈ C ∨ (⟨l, true⟩ : Literal) ∈ C) := by
  intro C w
  have rooted : (empty.declareAll ls).Rooted := rooted_empty.congr (parent_declareAll empty ls).symm
  have supported : w.Supported C :=
    (supported_declareAll_empty C ls).infer rooted Predicate.closes_closure
  have complete : (∀ l, w.get l ≠ .invalid) → C ⊆ w.held :=
    fun consistent => Predicate.closure_subset (rooted.closes_held_infer consistent)
  clear_value w
  exact ⟨supported.contradictory_iff complete,
    fun consistent l => supported.get_iff (complete consistent) (consistent l), supported.mem_of_get⟩

end Valuation

end FourValued
