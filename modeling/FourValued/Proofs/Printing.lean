import FourValued.Proofs.Grammar

/-!
# Reading what formulas print

A formula is printed with brackets around every connective, or sparingly, with brackets only around the left
side of a connective and around a connective that is negated. Either text is derived by the grammar
(`canonical_bracketed`, `canonical_sparse`), so it is read; the formula that is read is the one that was
printed, with each negated connective replaced by the dual one of the negated sides (`Formula.deMorgan`).
-/

namespace FourValued

open Text

namespace Formula

/-- A negated connective becomes the dual connective of the negated sides; other negations stay. -/
def deMorgan : Formula → Formula
  | var l => var l
  | binary c l r => binary c l.deMorgan r.deMorgan
  | neg (binary c l r) => binary c.dual (neg l).deMorgan (neg r).deMorgan
  | neg f => neg f.deMorgan
termination_by f => f.size
decreasing_by all_goals (simp only [size]; omega)

def wrap : Formula → String → String
  | binary _ _ _, s => "(" ++ s ++ ")"
  | _, s => s

/-- The text with brackets around left sides and negated formulas only. -/
def sparse : Formula → String
  | var l => l.text
  | neg f => "~" ++ f.wrap f.sparse
  | binary c l r => l.wrap l.sparse ++ " " ++ c.text ++ " " ++ r.sparse

def OccursIn (g : Formula) : Formula → Prop
  | var l => g = var l
  | neg f => g = neg f ∨ g.OccursIn f
  | binary c l r => g = binary c l r ∨ g.OccursIn l ∨ g.OccursIn r

theorem deMorgan_eq_self_iff (f : Formula) :
    f.deMorgan = f ↔ ∀ c l r, ¬ (neg (binary c l r)).OccursIn f := by
  induction f using deMorgan.induct with
  | case1 l => simp [deMorgan, OccursIn]
  | case2 c l r ihl ihr => simp [deMorgan, OccursIn, ihl, ihr, forall_and]
  | case3 c l r ihl ihr =>
    have changed : (neg (binary c l r)).deMorgan ≠ neg (binary c l r) := by
      rw [deMorgan]
      nofun
    exact ⟨fun same => absurd same changed, fun nowhere => absurd (.inl rfl) (nowhere c l r)⟩
  | case4 f other ih =>
    have plain : ∀ c l r, binary c l r ≠ f := fun c l r same => other c l r same.symm
    simp [deMorgan, OccursIn, ih, plain]

def signed (negated : Bool) (f : Formula) : Formula := if negated then neg f else f

theorem deMorgan_signed_binary (negated : Bool) (c : Connective) (l r : Formula) :
    (signed negated (binary c l r)).deMorgan = binary (if negated then c.dual else c)
      (signed negated l).deMorgan (signed negated r).deMorgan := by
  cases negated <;> simp [signed, deMorgan]

theorem deMorgan_signed_neg (negated : Bool) (f : Formula) :
    (signed negated (neg f)).deMorgan = signed negated (signed true f).deMorgan := by
  cases negated <;> simp [signed, deMorgan]

end Formula

def Surface.operand : Surface .expression → Surface .operand
  | single u => u
  | binary c u e => group (binary c u e)

theorem Surface.formula_operand (e : Surface .expression) (negated : Bool) :
    e.operand.formula negated = e.formula negated := by
  cases e with
  | single u => rw [operand, formula]
  | binary c u e => rw [operand, formula, formula]

namespace Formula

def derivation (full : Bool) : Formula → Surface .expression
  | var l => .single (.letter l)
  | neg f => .single (.neg (f.derivation full).operand)
  | binary c l r =>
    .binary c (l.derivation full).operand
      (if full then .single (r.derivation full).operand else r.derivation full)

theorem formula_derivation (full : Bool) (f : Formula) (negated : Bool) :
    (f.derivation full).formula negated = (signed negated f).deMorgan := by
  induction f generalizing negated with
  | var l => cases negated <;> simp [derivation, Surface.formula, signed, deMorgan]
  | neg f ih =>
    rw [deMorgan_signed_neg, ← ih true, derivation, Surface.formula, Surface.formula, Surface.formula_operand,
      signed]
  | binary c l r ihl ihr =>
    have right : (if full then .single (r.derivation full).operand else r.derivation full : Surface _).formula
        negated = (r.derivation full).formula negated := by
      cases full with
      | false => rfl
      | true => rw [if_pos rfl, Surface.formula, Surface.formula_operand]
    rw [deMorgan_signed_binary, ← ihl negated, ← ihr negated, derivation, Surface.formula,
      Surface.formula_operand, right]

end Formula

namespace Text

theorem canonical_letter : ∀ l : Letter, canonical l.text = [l.char] := by decide

theorem canonical_connective (c : Connective) : canonical c.text = [c.char] := by cases c <;> decide

theorem canonical_signs : canonical "~" = ['~'] ∧ canonical "(" = ['('] ∧ canonical ")" = [')'] ∧
    canonical " " = [] := by decide

end Text

namespace Formula

theorem canonical_bracketed (f : Formula) : canonical f.bracketed = (f.derivation true).operand.text := by
  induction f with
  | var l => exact canonical_letter l
  | neg f ih =>
    rw [bracketed, canonical_append, ih, canonical_signs.1]
    rfl
  | binary c l r ihl ihr =>
    simp only [bracketed, canonical_append, ihl, ihr, canonical_signs, canonical_connective, derivation,
      if_true, Surface.operand, Surface.text]
    simp

theorem canonical_wrap {f : Formula} {s : String} (h : canonical s = (f.derivation false).text) :
    canonical (f.wrap s) = (f.derivation false).operand.text := by
  cases f with
  | var l => exact h
  | neg f => exact h
  | binary c l r =>
    simp only [wrap, canonical_append, canonical_signs, h]
    rfl

theorem canonical_sparse (f : Formula) : canonical f.sparse = (f.derivation false).text := by
  induction f with
  | var l => exact canonical_letter l
  | neg f ih =>
    rw [sparse, canonical_append, canonical_wrap ih, canonical_signs.1]
    rfl
  | binary c l r ihl ihr =>
    simp only [sparse, canonical_append, canonical_wrap ihl, ihr, canonical_signs, canonical_connective,
      derivation, Bool.false_eq_true, if_false, Surface.text]
    simp

theorem derives_bracketed (f : Formula) :
    (Sentence.plain (.single (f.derivation true).operand)).Derives f.bracketed := f.canonical_bracketed.symm

theorem derives_sparse (f : Formula) : (Sentence.plain (f.derivation false)).Derives f.sparse :=
  f.canonical_sparse.symm

/-- A formula that is printed, with all brackets or with few, is read with its negated connectives replaced
by the duals of the negated sides. So it is read back as it was just when it negates no connective. -/
theorem parse_printed (v : Valuation) (f : Formula) :
    (v.parse f.bracketed).1 = .ok f.deMorgan ∧ (v.parse f.sparse).1 = .ok f.deMorgan ∧
    ((v.parse f.bracketed).1 = .ok f ↔ ∀ c l r, ¬ (neg (binary c l r)).OccursIn f) := by
  have bracketed : (v.parse f.bracketed).1 = .ok f.deMorgan := by
    rw [f.derives_bracketed.parse_eq v, Sentence.formula, Surface.formula, Surface.formula_operand,
      formula_derivation]
    rfl
  have sparse : (v.parse f.sparse).1 = .ok f.deMorgan := by
    rw [f.derives_sparse.parse_eq v, Sentence.formula, formula_derivation]
    rfl
  refine ⟨bracketed, sparse, ?_⟩
  rw [bracketed, Except.ok.injEq]
  exact f.deMorgan_eq_self_iff

end Formula

end FourValued
