import FourValued.Inference.Rules
import FourValued.Predicate.Reader

/-!
# Inference

Inference reads predicates, puts the shorter ones first and applies all of them in passes until a pass
changes no value. Texts that are no predicates are skipped with a warning each.
-/

namespace FourValued

def maxPasses : Nat := 64

/-- The predicates from shortest to longest; those of one length keep their order. -/
def Predicate.byLength (ps : List Predicate) : List Predicate :=
  (List.range (Predicate.maxLength + 1)).flatMap fun n => ps.filter fun p => p.length = n

structure Settlement where
  valuation : Valuation
  passes : Nat
  converged : Bool
  deriving DecidableEq, Repr

/-- Applies the predicates in at most `n` passes, the last of which changes no value. -/
def Valuation.settle (ps : List Predicate) : Nat → Valuation → Settlement
  | 0, v => ⟨v, 0, false⟩
  | n + 1, v =>
    let next := v.applyAll ps
    if next.snapshot = v.snapshot then ⟨next, 1, true⟩
    else
      let rest := next.settle ps n
      { rest with passes := rest.passes + 1 }

structure Inference where
  passes : Nat
  converged : Bool
  warnings : List MalformedPredicate
  deriving DecidableEq, Repr

def Inference.result (i : Inference) : Except (List MalformedPredicate) Unit :=
  if i.warnings = [] then .ok () else .error i.warnings

def Inference.clean (i : Inference) : Bool := i.result.isOk

namespace Predicate

def wellFormed (ss : List String) : List Predicate :=
  ss.filterMap fun s =>
    match read s with
    | .ok p => p
    | .error _ => none

def malformed (ss : List String) : List MalformedPredicate :=
  ss.filterMap fun s =>
    match read s with
    | .ok _ => none
    | .error m => some m

theorem mem_byLength {ps : List Predicate} {p : Predicate} : p ∈ byLength ps ↔ p ∈ ps := by
  have := Nat.lt_succ_of_le p.length_le
  simp only [byLength, List.mem_flatMap, List.mem_range, List.mem_filter, decide_eq_true_eq]
  exact ⟨fun ⟨_, _, h, _⟩ => h, fun h => ⟨p.length, this, h, rfl⟩⟩

end Predicate

namespace Valuation

def infer (v : Valuation) (ss : List String) : Valuation × Inference :=
  let r := v.settle (Predicate.byLength (Predicate.wellFormed ss)) maxPasses
  (r.valuation, ⟨r.passes, r.converged, Predicate.malformed ss⟩)

end Valuation

end FourValued
