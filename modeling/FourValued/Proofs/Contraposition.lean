import FourValued.Proofs.Assignments

/-!
# A conditional and its contrapositive are one rule

A conditional is used forwards and then backwards, and its contrapositive the other way round. The two uses
commute (`ponens_contrapositive_comm`): where only one of them has its condition, the other finds nothing to do
before it or after it, and where both have theirs, each makes both letters contradictory. It is of no account
whether the two letters are different, the same or linked.
-/

namespace FourValued

namespace Valuation

variable {v : Valuation} {a c : Literal}

theorem declare_right_comm (v : Valuation) (k l : Letter) : (v.declare k).declare l = (v.declare l).declare k := by
  have declared := v.declared.update_right_comm k l (f := fun _ => true) (g := fun _ => true) fun _ => rfl
  exact congrArg (fun m => { v with declared := m }) declared

theorem ponens_of_ne (ha : v.get a.letter ≠ a.required) : v.ponens a c = v :=
  ponens_eq_self fun h => absurd h ha

theorem ponens_eq_clash (ha : v.get a.letter = a.required) (hc : v.get c.letter = c.negate.required) :
    v.ponens a c = v.clash a c := by
  rcases v.ponens_cases a c with ⟨-, holds⟩ | ⟨-, -, unknown⟩ | ⟨he, -⟩
  · exact absurd (hc.symm.trans (holds ha)) c.negate_required_ne
  · exact absurd (hc.symm.trans unknown) c.negate.required_ne_unknown
  · exact he

theorem get_consequent_ponens_ne (ha : v.get a.letter = a.required) :
    (v.ponens a c).get c.letter ≠ c.negate.required := by
  rcases v.ponens_cases a c with ⟨he, holds⟩ | ⟨he, -⟩ | ⟨he, -⟩ <;> rw [he]
  · rw [holds ha]
    exact c.negate_required_ne.symm
  · rw [get_put, if_pos rfl]
    exact c.negate_required_ne.symm
  · rw [get_clash_right]
    exact c.negate.required_ne_invalid.symm

theorem contrapositive_ponens (ha : v.get a.letter = a.required) :
    (v.ponens a c).ponens c.negate a.negate = v.ponens a c :=
  ponens_of_ne (get_consequent_ponens_ne ha)

theorem ponens_contrapositive (hc : v.get c.letter = c.negate.required) :
    (v.ponens c.negate a.negate).ponens a c = v.ponens c.negate a.negate := by
  simpa only [Literal.negate_negate] using contrapositive_ponens (a := c.negate) (c := a.negate) hc

theorem ponens_contrapositive_comm (v : Valuation) (a c : Literal) :
    (v.ponens a c).ponens c.negate a.negate = (v.ponens c.negate a.negate).ponens a c := by
  by_cases ha : v.get a.letter = a.required
  · by_cases hc : v.get c.letter = c.negate.required
    · have clash_forwards : v.ponens a c = v.clash a c := ponens_eq_clash ha hc
      have clash_backwards : v.ponens c.negate a.negate = v.clash c a := by
        refine ponens_eq_clash hc ?_
        rwa [Literal.negate_negate]
      rw [contrapositive_ponens ha, ponens_contrapositive hc, clash_forwards, clash_backwards, clash_comm]
    · rw [contrapositive_ponens ha, ponens_of_ne (a := c.negate) hc]
  · by_cases hc : v.get c.letter = c.negate.required
    · rw [ponens_contrapositive hc, ponens_of_ne ha]
    · rw [ponens_of_ne ha, ponens_of_ne (a := c.negate) hc, ponens_of_ne ha]

/-- A conditional and its contrapositive leave the same valuation behind. -/
theorem apply_contrapositive (v : Valuation) (a c : Literal) :
    v.apply (.conditional a c) = v.apply (.conditional c.negate a.negate) := by
  have order := v.declare_right_comm a.letter c.letter
  rw [apply_conditional, apply_conditional, a.negate_negate, c.negate_negate, ponens_contrapositive_comm, order]
  rfl

end Valuation

end FourValued
