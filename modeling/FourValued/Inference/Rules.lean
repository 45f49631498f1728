import FourValued.Predicate
import FourValued.Valuation

/-!
# Rules of inference

An assignment asserts what its literal requires, a biconditional links its letters, and a conditional is
used forwards and then backwards. Forwards (ponens), if its antecedent holds, its consequent must hold too;
backwards (tollens), if its consequent fails, its antecedent must fail too. Where the required value meets
another known one, both letters become contradictory.
-/

namespace FourValued

namespace Valuation

def clash (v : Valuation) (a c : Literal) : Valuation := (v.poison a.letter).poison c.letter

def ponens (v : Valuation) (a c : Literal) : Valuation :=
  if v.get a.letter = a.required then
    if v.get c.letter = .unknown then v.assertValue c.letter c.required
    else if v.get c.letter = c.required then v
    else v.clash a c
  else v

def tollens (v : Valuation) (a c : Literal) : Valuation :=
  if (v.get c.letter).isConcrete = true ∧ v.get c.letter ≠ c.required then
    if v.get a.letter = .unknown then v.assertValue a.letter a.negate.required
    else if v.get a.letter = a.negate.required then v
    else v.clash a c
  else v

def apply (v : Valuation) : Predicate → Valuation
  | .assignment p => v.assertValue p.letter p.required
  | .biconditional l r => v.link l r
  | .conditional a c => (((v.declare a.letter).declare c.letter).ponens a c).tollens a c

def applyAll (v : Valuation) (ps : List Predicate) : Valuation := ps.foldl apply v

end Valuation

end FourValued
