import FourValued.Proofs.Counting
import FourValued.Proofs.Rows

/-!
# Thresholds

In the order false, invalid, unknown, true a conjunction is the lesser of its operands and a disjunction the
greater. So a formula without negations comes up to a threshold of that order just when it is classically true
of the letters that come up to it (`Formula.reaches_eval`): its value on all four values is known from its
values on true and false. Formulas without negations that are equivalent on true and false are therefore equal
on all four values, and they may be rearranged by the laws of distributive lattices.
-/

namespace FourValued

namespace TruthValue

/-- The place of a value in the order false, invalid, unknown, true. -/
def degree : TruthValue → ℕ
  | ff => 0
  | invalid => 1
  | unknown => 2
  | tt => 3

theorem degree_injective {a b : TruthValue} (h : a.degree = b.degree) : a = b := by
  revert h
  cases a <;> cases b <;> decide

theorem degree_and (a b : TruthValue) : (and a b).degree = min a.degree b.degree := by
  cases a <;> cases b <;> rfl

theorem degree_or (a b : TruthValue) : (or a b).degree = max a.degree b.degree := by
  cases a <;> cases b <;> rfl

def reaches (a : TruthValue) (n : ℕ) : Bool := n ≤ a.degree

theorem eq_of_reaches {a b : TruthValue} (h : ∀ n, a.reaches n = b.reaches n) : a = b := by
  have same : ∀ n, n ≤ a.degree ↔ n ≤ b.degree := fun n => decide_eq_decide.1 (h n)
  exact degree_injective (Nat.le_antisymm ((same _).1 (Nat.le_refl _)) ((same _).2 (Nat.le_refl _)))

end TruthValue

theorem Connective.reaches_apply (c : Connective) (a b : TruthValue) (n : ℕ) :
    (c.apply a b).reaches n = c.truth (a.reaches n) (b.reaches n) := by
  cases c with
  | and => simp only [apply, truth, TruthValue.reaches, TruthValue.degree_and, le_min_iff, Bool.decide_and]
  | or => simp only [apply, truth, TruthValue.reaches, TruthValue.degree_or, le_max_iff, Bool.decide_or]

namespace Formula

variable {f g : Formula}

def truth (σ : Letter → Bool) : Formula → Bool
  | var l => σ l
  | neg f => !f.truth σ
  | binary c l r => c.truth (l.truth σ) (r.truth σ)

theorem eval_ofBool (f : Formula) (σ : Letter → Bool) : f.eval (fun l => .ofBool (σ l)) = .ofBool (f.truth σ) := by
  induction f with
  | var l => rfl
  | neg f ih => rw [eval, ih, truth, TruthValue.ofBool_not]
  | binary c l r ihl ihr => rw [eval, ihl, ihr, truth, Connective.apply_ofBool]

theorem reaches_eval (positive : f.negations = 0) (value : Letter → TruthValue) (n : ℕ) :
    (f.eval value).reaches n = f.truth fun l => (value l).reaches n := by
  induction f with
  | var l => rfl
  | neg f ih => cases positive
  | binary c l r ihl ihr =>
    obtain ⟨positive_l, positive_r⟩ := Nat.add_eq_zero_iff.1 positive
    rw [eval, Connective.reaches_apply, ihl positive_l, ihr positive_r, truth]

theorem eval_eq_of_truth_eq (hf : f.negations = 0) (hg : g.negations = 0) (same : ∀ σ, f.truth σ = g.truth σ)
    (value : Letter → TruthValue) : f.eval value = g.eval value := by
  apply TruthValue.eq_of_reaches
  intro n
  rw [reaches_eval hf, reaches_eval hg, same]

/-- The second formula comes from the first when operands are commuted, re-associated, distributed and absorbed,
in any direction and at any place. -/
inductive Rearranges : Formula → Formula → Prop
  | refl (f : Formula) : Rearranges f f
  | symm {f g : Formula} : Rearranges f g → Rearranges g f
  | trans {f g h : Formula} : Rearranges f g → Rearranges g h → Rearranges f h
  | neg {f g : Formula} : Rearranges f g → Rearranges (neg f) (neg g)
  | binary {l l' r r' : Formula} (c : Connective) :
      Rearranges l l' → Rearranges r r' → Rearranges (binary c l r) (binary c l' r')
  | comm (c : Connective) (f g : Formula) : Rearranges (.binary c f g) (.binary c g f)
  | assoc (c : Connective) (f g h : Formula) :
      Rearranges (.binary c (.binary c f g) h) (.binary c f (.binary c g h))
  | distrib (c : Connective) (f g h : Formula) :
      Rearranges (.binary c f (.binary c.dual g h)) (.binary c.dual (.binary c f g) (.binary c f h))
  | absorb (c : Connective) (f g : Formula) : Rearranges (.binary c f (.binary c.dual f g)) f

theorem Rearranges.truth_eq (h : f.Rearranges g) (σ : Letter → Bool) : f.truth σ = g.truth σ := by
  induction h with
  | refl f => rfl
  | symm _ ih => exact ih.symm
  | trans _ _ ihf ihg => exact ihf.trans ihg
  | neg _ ih => rw [truth, truth, ih]
  | binary c _ _ ihl ihr => rw [truth, truth, ihl, ihr]
  | comm c f g =>
    cases c with
    | and => exact Bool.and_comm _ _
    | or => exact Bool.or_comm _ _
  | assoc c f g h =>
    cases c with
    | and => exact Bool.and_assoc _ _ _
    | or => exact Bool.or_assoc _ _ _
  | distrib c f g h =>
    cases c with
    | and => exact Bool.and_or_distrib_left _ _ _
    | or => exact Bool.or_and_distrib_left _ _ _
  | absorb c f g =>
    cases c with
    | and => exact inf_sup_self
    | or => exact sup_inf_self

end Formula

namespace Valuation

theorem Reachable.assignAll {v : Valuation} (h : v.Reachable) (bs : List (Letter × Bool)) :
    (v.assignAll bs).Reachable := by
  induction bs generalizing v with
  | nil => exact h
  | cons p bs ih => exact ih (h.perform (.assign p.1 p.2))

theorem exists_reachable_ofBool (σ : Letter → Bool) :
    ∃ v : Valuation, v.Reachable ∧ v.get = fun l => .ofBool (σ l) := by
  refine ⟨empty.assignAll (Letter.all.map fun l => (l, σ l)), Reachable.empty.assignAll _, ?_⟩
  funext l
  have agree : ∀ p ∈ Letter.all.map fun l => (l, σ l), empty.linked l p.1 = true → p.2 = σ l := by
    intro p hp linked
    obtain ⟨k, -, rfl⟩ := List.mem_map.1 hp
    have same : l = k := by simpa only [linked_iff, representative_empty] using linked
    rw [same]
  rw [get_assignAll agree, if_pos]
  exact ⟨(l, σ l), List.mem_map.2 ⟨l, l.mem_all, rfl⟩, linked_iff.2 rfl⟩

end Valuation

namespace Formula

variable {f g : Formula}

theorem truth_eq_of_concrete (same : ∀ v : Valuation, v.Reachable →
    (∀ l ∈ f.letters ++ g.letters, (v.get l).isConcrete = true) → f.eval v.get = g.eval v.get)
    (σ : Letter → Bool) : f.truth σ = g.truth σ := by
  obtain ⟨v, reachable, values⟩ := Valuation.exists_reachable_ofBool σ
  have concrete : ∀ l ∈ f.letters ++ g.letters, (v.get l).isConcrete = true := by
    intro l _
    rw [values]
    exact TruthValue.isConcrete_ofBool (σ l)
  have equal := same v reachable concrete
  rw [values, eval_ofBool, eval_ofBool] at equal
  exact TruthValue.ofBool_injective equal

/-- Formulas without negations that have one value wherever their letters are true or false have one value under
every valuation, whatever is unknown or contradictory. In particular rearranging such a formula never changes
its value. -/
theorem boolean_equivalents_interchangeable (hf : f.negations = 0) (hg : g.negations = 0) :
    ((∀ v : Valuation, v.Reachable → (∀ l ∈ f.letters ++ g.letters, (v.get l).isConcrete = true) →
      f.eval v.get = g.eval v.get) → ∀ w : Valuation, f.eval w.get = g.eval w.get) ∧
    (f.Rearranges g → ∀ w : Valuation, f.eval w.get = g.eval w.get) :=
  ⟨fun same w => eval_eq_of_truth_eq hf hg (truth_eq_of_concrete same) w.get,
    fun rearranges w => eval_eq_of_truth_eq hf hg rearranges.truth_eq w.get⟩

theorem boolean_equivalents_interchangeable_absorbed :
    let f := binary .and (var ⟨0⟩) (binary .or (var ⟨1⟩) (var ⟨0⟩))
    let g := var ⟨0⟩
    let w := (Valuation.empty.poison ⟨0⟩).declare ⟨1⟩
    f.negations = 0 ∧ g.negations = 0 ∧ f.Rearranges g ∧
    (∀ v : Valuation, v.Reachable → (∀ l ∈ f.letters ++ g.letters, (v.get l).isConcrete = true) →
      f.eval v.get = g.eval v.get) ∧
    w.get ⟨0⟩ = .invalid ∧ w.get ⟨1⟩ = .unknown ∧ f.eval w.get = g.eval w.get := by
  intro f g w
  have rearranges : f.Rearranges g :=
    .trans (.binary .and (.refl _) (.comm .or _ _)) (.absorb .and _ _)
  have absorbed : ∀ a b : TruthValue, a.isConcrete = true → b.isConcrete = true → a.and (b.or a) = a := by
    intro a b
    cases a <;> cases b <;> decide
  have same : ∀ v : Valuation, v.Reachable → (∀ l ∈ f.letters ++ g.letters, (v.get l).isConcrete = true) →
      f.eval v.get = g.eval v.get := fun v _ concrete =>
    absorbed _ _ (concrete ⟨0⟩ (by decide)) (concrete ⟨1⟩ (by decide))
  obtain ⟨interchangeable, -⟩ := boolean_equivalents_interchangeable (f := f) (g := g) rfl rfl
  exact ⟨rfl, rfl, rearranges, same, by decide, by decide, interchangeable same w⟩

end Formula

end FourValued
