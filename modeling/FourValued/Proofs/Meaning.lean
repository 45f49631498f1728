import Mathlib.Logic.ExistsUnique
import FourValued.Proofs.Grammar

/-!
# The meaning of an expression

The formula of an expression has its negations moved inwards. On all four values this changes the meaning,
since the connectives are not dual where unknown meets invalid. It keeps the meaning as long as one of the
two is left out (`Sentence.eval_formula`): the other three values are closed under the connectives, which are
dual there. On true and false alone the meaning is the classical one (`Sentence.eval_ofBool`), and a value
that is true or false does not depend on letters that are neither (`Formula.eval_of_concrete`).
-/

namespace FourValued

open Text

namespace TruthValue

theorem isConcrete_ofBool (b : Bool) : (ofBool b).isConcrete = true := by cases b <;> rfl

theorem isConcrete_of_eq {a : TruthValue} {b : Bool} (h : a = ofBool b) : a.isConcrete = true := by
  rw [h]
  exact isConcrete_ofBool b

theorem negate_ne {x a : TruthValue} (hx : x.isConcrete = false) (ha : a ≠ x) : a.negate ≠ x := by
  cases x <;> cases a <;> simp_all [isConcrete, negate]

end TruthValue

namespace Connective

theorem apply_ne {x a b : TruthValue} (c : Connective) (hx : x.isConcrete = false) (ha : a ≠ x)
    (hb : b ≠ x) : c.apply a b ≠ x := by
  cases c <;> cases x <;> cases a <;> cases b <;>
    simp_all [TruthValue.isConcrete, apply, TruthValue.and, TruthValue.or]

theorem negate_apply {x a b : TruthValue} (c : Connective) (hx : x.isConcrete = false) (ha : a ≠ x)
    (hb : b ≠ x) : (c.apply a b).negate = c.dual.apply a.negate b.negate := by
  cases c <;> cases x <;> cases a <;> cases b <;>
    simp_all [TruthValue.isConcrete, apply, dual, TruthValue.and, TruthValue.or, TruthValue.negate]

def truth : Connective → Bool → Bool → Bool
  | and => Bool.and
  | or => Bool.or

theorem apply_ofBool (c : Connective) (a b : Bool) :
    c.apply (.ofBool a) (.ofBool b) = .ofBool (c.truth a b) := by
  cases c with
  | and => exact (TruthValue.ofBool_and a b).symm
  | or => exact (TruthValue.ofBool_or a b).symm

theorem apply_of_concrete {a a' b b' : TruthValue} (c : Connective) (ha : a.isConcrete → a' = a)
    (hb : b.isConcrete → b' = b) (h : (c.apply a b).isConcrete) : c.apply a' b' = c.apply a b := by
  cases c <;> cases a <;> cases b <;>
    simp_all [TruthValue.isConcrete, apply, TruthValue.and, TruthValue.or] <;> cases a' <;> rfl

end Connective

namespace Surface

variable {value : Letter → TruthValue} {x : TruthValue}

theorem eval_ne {k : Level} (t : Surface k) (hx : x.isConcrete = false)
    (h : ∀ l : Letter, l.char ∈ t.text → value l ≠ x) : t.eval value ≠ x := by
  induction t with
  | letter l => exact h l (by simp [text])
  | neg u ih => exact TruthValue.negate_ne hx (ih fun l hl => h l (by simp [text, hl]))
  | group e ih => exact ih fun l hl => h l (by simp [text, hl])
  | single u ih => exact ih h
  | binary c u e ihu ihe =>
    exact c.apply_ne hx (ihu fun l hl => h l (by simp [text, hl]))
      (ihe fun l hl => h l (by simp [text, hl]))

theorem eval_formula {k : Level} (t : Surface k) (hx : x.isConcrete = false)
    (h : ∀ l : Letter, l.char ∈ t.text → value l ≠ x) (negated : Bool) :
    (t.formula negated).eval value = if negated then (t.eval value).negate else t.eval value := by
  induction t generalizing negated with
  | letter l => cases negated <;> rfl
  | neg u ih =>
    have hu := ih fun l hl => h l (by simp [text, hl])
    cases negated <;> simp [formula, Formula.eval, eval, hu]
  | group e ih =>
    have he := ih fun l hl => h l (by simp [text, hl])
    cases e with
    | single u =>
      -- The negation of a bracketed operand stays outside the brackets.
      have hu := he false
      simp only [formula, eval] at hu
      cases negated <;> simp [formula, Formula.eval, eval, hu]
    | binary c u e => simpa only [formula, eval] using he negated
  | single u ih => simpa only [formula, eval] using ih h negated
  | binary c u e ihu ihe =>
    have mem_u : ∀ l : Letter, l.char ∈ u.text → value l ≠ x := fun l hl => h l (by simp [text, hl])
    have mem_e : ∀ l : Letter, l.char ∈ e.text → value l ≠ x := fun l hl => h l (by simp [text, hl])
    have dual := c.negate_apply hx (eval_ne u hx mem_u) (eval_ne e hx mem_e)
    cases negated <;> simp [formula, Formula.eval, eval, ihu mem_u, ihe mem_e, dual]

def truth {k : Level} (σ : Letter → Bool) : Surface k → Bool
  | letter l => σ l
  | neg u => !u.truth σ
  | group e => e.truth σ
  | single u => u.truth σ
  | binary c u e => c.truth (u.truth σ) (e.truth σ)

theorem eval_ofBool {k : Level} (t : Surface k) (σ : Letter → Bool) :
    t.eval (fun l => .ofBool (σ l)) = .ofBool (t.truth σ) := by
  induction t with
  | letter l => rfl
  | neg u ih => rw [eval, ih, truth, TruthValue.ofBool_not]
  | group e ih => exact ih
  | single u ih => exact ih
  | binary c u e ihu ihe => rw [eval, ihu, ihe, truth, Connective.apply_ofBool]

end Surface

namespace Sentence

variable {value : Letter → TruthValue} {x : TruthValue}

theorem eval_formula (t : Sentence) (hx : x.isConcrete = false)
    (h : ∀ l : Letter, l.char ∈ t.text → value l ≠ x) : t.formula.eval value = t.eval value := by
  cases t with
  | plain e => exact Surface.eval_formula e hx h false
  | conditional a c =>
    have ha := Surface.eval_formula a hx (fun l hl => h l (by simp [text, hl])) true
    have hc := Surface.eval_formula c hx (fun l hl => h l (by simp [text, hl])) false
    simp only [formula, Formula.eval, ha, hc, eval, Connective.apply, if_true, Bool.false_eq_true, if_false]

def truth (σ : Letter → Bool) : Sentence → Bool
  | plain e => e.truth σ
  | conditional a c => !a.truth σ || c.truth σ

theorem eval_ofBool (t : Sentence) (σ : Letter → Bool) :
    t.eval (fun l => .ofBool (σ l)) = .ofBool (t.truth σ) := by
  cases t with
  | plain e => exact Surface.eval_ofBool e σ
  | conditional a c =>
    rw [eval, truth, Surface.eval_ofBool, Surface.eval_ofBool, TruthValue.ofBool_or,
      TruthValue.ofBool_not]

theorem eval_formula_ofBool (t : Sentence) (σ : Letter → Bool) :
    t.formula.eval (fun l => .ofBool (σ l)) = .ofBool (t.truth σ) := by
  have known : ∀ l : Letter, l.char ∈ t.text → TruthValue.ofBool (σ l) ≠ .unknown := by
    intro l _
    cases σ l <;> decide
  rw [eval_formula t (by decide) known, eval_ofBool]

end Sentence

theorem Formula.eval_of_concrete {v w : Letter → TruthValue} (f : Formula)
    (h : ∀ l ∈ f.letters, (v l).isConcrete → w l = v l) (hf : (f.eval v).isConcrete) :
    f.eval w = f.eval v := by
  induction f with
  | var l => exact h l (by simp [letters]) hf
  | neg f ih =>
    have inner : (f.eval v).isConcrete := by
      rw [eval] at hf
      cases hv : f.eval v <;> simp_all [TruthValue.isConcrete, TruthValue.negate]
    rw [eval, eval, ih h inner]
  | binary c l r ihl ihr =>
    exact c.apply_of_concrete (ihl fun x hx => h x (by simp [letters, hx]))
      (ihr fun x hx => h x (by simp [letters, hx])) hf

/-- Where no letter of an expression is unknown or none is contradictory, its formula has the value of the
expression as it is written. -/
theorem eval_parsed_eq_eval_written {s : String} {v : Valuation} {f : Formula}
    (parsed : (v.parse s).1 = .ok f) {w : Valuation}
    (unmixed : ∀ a b : Letter, a.char ∈ canonical s → b.char ∈ canonical s →
      ¬ (w.get a = .unknown ∧ w.get b = .invalid)) :
    (∃! t : Sentence, t.Derives s) ∧ ∀ t : Sentence, t.Derives s → f.eval w.get = t.eval w.get := by
  obtain ⟨t, ht, rfl⟩ := Valuation.exists_derives_of_parse parsed
  refine ⟨⟨t, ht, fun u hu => hu.unique ht⟩, fun u hu => ?_⟩
  obtain rfl := hu.unique ht
  have text : u.text = canonical s := ht
  by_cases known : ∀ l : Letter, l.char ∈ u.text → w.get l ≠ .unknown
  · exact u.eval_formula rfl known
  · have consistent : ∀ l : Letter, l.char ∈ u.text → w.get l ≠ .invalid := by
      intro b hb hw
      apply known
      intro a ha hu
      exact unmixed a b (text ▸ ha) (text ▸ hb) ⟨hu, hw⟩
    exact u.eval_formula rfl consistent

theorem eval_parsed_negated_group :
    let s := "~(p & Q)"
    let f := Formula.binary .or (.neg (.var ⟨15⟩)) (.neg (.var ⟨16⟩))
    let w := (Valuation.empty.poison ⟨15⟩).assertValue ⟨16⟩ .tt
    (Valuation.empty.parse s).1 = .ok f ∧
    (∀ a b : Letter, a.char ∈ canonical s → b.char ∈ canonical s →
      ¬ (w.get a = .unknown ∧ w.get b = .invalid)) ∧
    (∃! t : Sentence, t.Derives s) ∧ ∀ t : Sentence, t.Derives s → f.eval w.get = t.eval w.get := by
  intro s f w
  have derives : (Sentence.plain (.single (.neg (.group (.binary .and (.letter ⟨15⟩)
      (.single (.letter ⟨16⟩))))))).Derives s := by decide
  have parsed : (Valuation.empty.parse s).1 = .ok f := congrArg Prod.fst (derives.parse_eq _)
  have known : ∀ a : Letter, a.char ∈ canonical s → w.get a ≠ .unknown := by decide
  have unmixed : ∀ a b : Letter, a.char ∈ canonical s → b.char ∈ canonical s →
      ¬ (w.get a = .unknown ∧ w.get b = .invalid) := fun a b ha _ h => known a ha h.1
  exact ⟨parsed, unmixed, eval_parsed_eq_eval_written parsed unmixed⟩

end FourValued
