import FourValued.Inference
import FourValued.Proofs.Classes

/-!
# Inference only adds information

Applying a predicate never takes anything back: each letter keeps its value or gets one with more
information, and letters stay declared and linked (`Valuation.Grows`). Backward use of a conditional is
forward use of its contrapositive (`tollens_eq_ponens`), so what one use can do is said once
(`ponens_cases`).
-/

namespace FourValued

namespace TruthValue

theorem unknown_le (a : TruthValue) : unknown ≤ a := by cases a <;> decide

theorem le_invalid (a : TruthValue) : a ≤ invalid := by cases a <;> decide

end TruthValue

namespace Literal

theorem required_ne_unknown (p : Literal) : p.required ≠ .unknown := by
  unfold required
  cases p.negated <;> decide

theorem required_ne_invalid (p : Literal) : p.required ≠ .invalid := by
  unfold required
  cases p.negated <;> decide

theorem negate_required (p : Literal) : p.negate.required = .ofBool p.negated := by
  simp only [required, negate, Bool.not_not]

theorem negate_required_ne (p : Literal) : p.negate.required ≠ p.required := by
  rw [negate_required, required]
  cases p.negated <;> decide

theorem concrete_and_ne_iff (p : Literal) (x : TruthValue) :
    (x.isConcrete = true ∧ x ≠ p.required) ↔ x = p.negate.required := by
  rw [negate_required, required]
  cases p.negated <;> cases x <;> decide

theorem eq_required_of_le {p : Literal} {x : TruthValue} (h : p.required ≤ x) (hx : x ≠ .invalid) :
    x = p.required := by
  revert h
  unfold required
  cases p.negated <;> cases x <;> first | decide | contradiction

end Literal

namespace Valuation

theorem isDeclared_link (v : Valuation) (a b l : Letter) :
    (v.link a b).isDeclared l = (l = b || (l = a || v.isDeclared l)) := by
  have written : (v.link a b).isDeclared l = ((v.declare a).declare b).isDeclared l := rfl
  rw [written, isDeclared_declare, isDeclared_declare]

theorem clash_comm (v : Valuation) (a c : Literal) : v.clash a c = v.clash c a := by
  have twice : ∀ (l k : Letter), (v.poison l).poison k =
      { v with
        declared := (v.declared.set l true).set k true
        cells := (v.cells.set (v.representative l) .invalid).set (v.representative k) .invalid } := by
    intro l k
    have hk : (v.poison l).representative k = v.representative k := representative_put v l k .invalid
    rw [poison, put, hk]
    rfl
  rw [clash, clash, twice, twice]
  congr 1 <;>
    · apply LetterMap.ext
      intro k
      simp only [LetterMap.get_set]
      split <;> split <;> rfl

theorem tollens_eq_ponens (v : Valuation) (a c : Literal) : v.tollens a c = v.ponens c.negate a.negate := by
  have swap : v.clash a c = v.clash c.negate a.negate := clash_comm v a c
  simp only [tollens, ponens, Literal.concrete_and_ne_iff, swap]
  rfl

theorem ponens_cases (v : Valuation) (a c : Literal) :
    (v.ponens a c = v ∧ (v.get a.letter = a.required → v.get c.letter = c.required)) ∨
    (v.ponens a c = v.put c.letter c.required ∧ v.get a.letter = a.required ∧
      v.get c.letter = .unknown) ∨
    (v.ponens a c = v.clash a c ∧ v.get a.letter = a.required ∧ v.get c.letter ≠ .unknown ∧
      v.get c.letter ≠ c.required) := by
  unfold ponens
  by_cases ha : v.get a.letter = a.required
  · rw [if_pos ha]
    by_cases hu : v.get c.letter = .unknown
    · right; left
      rw [if_pos hu, assertValue_eq, hu]
      exact ⟨rfl, ha, rfl⟩
    · rw [if_neg hu]
      by_cases hc : v.get c.letter = c.required
      · left
        exact ⟨if_pos hc, fun _ => hc⟩
      · right; right
        exact ⟨if_neg hc, ha, hu, hc⟩
  · left
    exact ⟨if_neg ha, fun h => absurd h ha⟩

theorem apply_conditional (v : Valuation) (a c : Literal) : v.apply (.conditional a c) =
    (((v.declare a.letter).declare c.letter).ponens a c).ponens c.negate a.negate :=
  tollens_eq_ponens _ a c

structure Grows (v w : Valuation) : Prop where
  value : ∀ l, v.get l ≤ w.get l
  linked : ∀ a b, v.linked a b = true → w.linked a b = true
  declared : ∀ l, v.isDeclared l = true → w.isDeclared l = true

variable {u v w : Valuation}

theorem Grows.refl (v : Valuation) : v.Grows v :=
  ⟨fun _ => TruthValue.le_refl _, fun _ _ h => h, fun _ h => h⟩

theorem Grows.trans (h : u.Grows v) (k : v.Grows w) : u.Grows w :=
  ⟨fun l => TruthValue.le_trans (h.value l) (k.value l), fun a b hl => k.linked a b (h.linked a b hl),
    fun l hd => k.declared l (h.declared l hd)⟩

theorem Grows.get_eq_of_quiet (h : u.Grows v) (k : v.Grows w) (quiet : ∀ l, w.get l = u.get l)
    (l : Letter) : v.get l = u.get l :=
  TruthValue.le_antisymm (quiet l ▸ k.value l) (h.value l)

theorem grows_declare (v : Valuation) (l : Letter) : v.Grows (v.declare l) := by
  refine ⟨fun k => ?_, fun a b hab => ?_, fun k hk => ?_⟩
  · rw [get_declare]
    exact TruthValue.le_refl _
  · rwa [linked_declare]
  · rw [isDeclared_declare, hk, Bool.or_true]

theorem grows_put {l : Letter} {x : TruthValue} (hx : v.get l ≤ x) : v.Grows (v.put l x) := by
  refine ⟨fun k => ?_, fun a b hab => ?_, fun k hk => ?_⟩
  · rw [get_put]
    split
    · next hk => exact get_eq_of_linked (linked_iff.2 hk) ▸ hx
    · exact TruthValue.le_refl _
  · rwa [linked_put]
  · rw [isDeclared_put, hk, Bool.or_true]

theorem grows_assertValue (v : Valuation) (l : Letter) (x : TruthValue) : v.Grows (v.assertValue l x) :=
  grows_put (TruthValue.le_revise _ _)

theorem grows_poison (v : Valuation) (l : Letter) : v.Grows (v.poison l) :=
  grows_put (TruthValue.le_invalid _)

theorem Rooted.grows_link (h : v.Rooted) (a b : Letter) : v.Grows (v.link a b) := by
  refine ⟨fun k => ?_, fun k l hkl => (h.linked_link a b k l).2 (.inl hkl), fun k hk => ?_⟩
  · rw [h.get_link a b]
    split
    · next hk =>
      rcases hk with hk | hk <;> rw [get_eq_of_linked hk]
      · exact TruthValue.le_join_left _ _
      · exact TruthValue.le_join_right _ _
    · exact TruthValue.le_refl _
  · rw [isDeclared_link, hk, Bool.or_true, Bool.or_true]

theorem grows_clash (v : Valuation) (a c : Literal) : v.Grows (v.clash a c) :=
  (grows_poison v a.letter).trans (grows_poison _ c.letter)

theorem grows_ponens (v : Valuation) (a c : Literal) : v.Grows (v.ponens a c) := by
  rcases v.ponens_cases a c with ⟨he, -⟩ | ⟨he, -, hc⟩ | ⟨he, -⟩ <;> rw [he]
  · exact Grows.refl v
  · exact grows_put (hc ▸ TruthValue.unknown_le _)
  · exact grows_clash v a c

theorem Rooted.clash (h : v.Rooted) (a c : Literal) : (v.clash a c).Rooted :=
  (h.put a.letter .invalid).put c.letter .invalid

theorem Rooted.ponens (h : v.Rooted) (a c : Literal) : (v.ponens a c).Rooted := by
  rcases v.ponens_cases a c with ⟨he, -⟩ | ⟨he, -⟩ | ⟨he, -⟩ <;> rw [he]
  · exact h
  · exact h.put c.letter c.required
  · exact h.clash a c

theorem Rooted.apply (h : v.Rooted) (p : Predicate) : (v.apply p).Rooted := by
  cases p with
  | assignment p => exact h.put p.letter _
  | biconditional l r => exact h.link l r
  | conditional a c =>
    rw [apply_conditional]
    exact (((h.declare a.letter).declare c.letter).ponens a c).ponens c.negate a.negate

theorem Rooted.grows_apply (h : v.Rooted) (p : Predicate) : v.Grows (v.apply p) := by
  cases p with
  | assignment p => exact grows_assertValue v p.letter p.required
  | biconditional l r => exact h.grows_link l r
  | conditional a c =>
    rw [apply_conditional]
    have declared := (grows_declare v a.letter).trans (grows_declare _ c.letter)
    exact (declared.trans (grows_ponens _ a c)).trans (grows_ponens _ c.negate a.negate)

theorem applyAll_cons (v : Valuation) (p : Predicate) (ps : List Predicate) :
    v.applyAll (p :: ps) = (v.apply p).applyAll ps := rfl

theorem applyAll_append (v : Valuation) (ps qs : List Predicate) :
    v.applyAll (ps ++ qs) = (v.applyAll ps).applyAll qs := List.foldl_append

theorem Rooted.applyAll (h : v.Rooted) (ps : List Predicate) : (v.applyAll ps).Rooted := by
  induction ps generalizing v with
  | nil => exact h
  | cons p ps ih => exact ih (h.apply p)

theorem Rooted.grows_applyAll (h : v.Rooted) (ps : List Predicate) : v.Grows (v.applyAll ps) := by
  induction ps generalizing v with
  | nil => exact Grows.refl v
  | cons p ps ih => exact (h.grows_apply p).trans (ih (h.apply p))

end Valuation

end FourValued
