import FourValued.Proofs.Decoding
import FourValued.Proofs.Settling

/-!
# Reachable valuations

What can be done to a valuation is one of nine operations, and a valuation is reachable when operations lead
to it from the empty one. Only links change parents, and they keep every chain of parents ending in a letter
that is its own parent. So the reachable valuations are rooted (`Reachable.rooted`).
-/

namespace FourValued

/-- Reading an expression counts whether or not it succeeds. -/
inductive Operation
  | declare (l : Letter)
  | assertValue (l : Letter) (x : TruthValue)
  | poison (l : Letter)
  | assign (l : Letter) (b : Bool)
  | link (a b : Letter)
  | apply (p : Predicate)
  | infer (ss : List String)
  | build (ts : Polish)
  | parse (s : String)
  deriving DecidableEq, Repr

namespace Valuation

variable {v : Valuation}

def perform (v : Valuation) : Operation → Valuation
  | .declare l => v.declare l
  | .assertValue l x => v.assertValue l x
  | .poison l => v.poison l
  | .assign l b => v.assign l b
  | .link a b => v.link a b
  | .apply p => v.apply p
  | .infer ss => (v.infer ss).1
  | .build ts => (v.build ts).2
  | .parse s => (v.parse s).2

inductive Reachable : Valuation → Prop
  | empty : Reachable .empty
  | perform {v : Valuation} : Reachable v → (o : Operation) → Reachable (v.perform o)

theorem exists_build_eq_declareAll (v : Valuation) (ts : Polish) :
    ∃ ls, (v.build ts).2 = v.declareAll ls := by
  obtain ⟨k, shape⟩ := exists_hasShape ts
  exact ⟨_, congrArg Prod.snd (v.build_of_hasShape shape)⟩

theorem exists_parse_eq_declareAll (v : Valuation) (s : String) :
    ∃ ls, (v.parse s).2 = v.declareAll ls := by
  rw [parse]
  split
  · exact ⟨[], rfl⟩
  · exact v.exists_build_eq_declareAll _

theorem parent_build (v : Valuation) (ts : Polish) : (v.build ts).2.parent = v.parent := by
  obtain ⟨ls, hls⟩ := v.exists_build_eq_declareAll ts
  rw [hls, parent_declareAll]

theorem parent_parse (v : Valuation) (s : String) : (v.parse s).2.parent = v.parent := by
  obtain ⟨ls, hls⟩ := v.exists_parse_eq_declareAll s
  rw [hls, parent_declareAll]

theorem Rooted.infer (h : v.Rooted) (ss : List String) : (v.infer ss).1.Rooted :=
  Valuation.infer_induction (fun _ hu p _ => hu.apply p) h

theorem Rooted.perform (h : v.Rooted) (o : Operation) : (v.perform o).Rooted := by
  cases o with
  | declare l => exact h.declare l
  | assertValue l x => exact h.put l _
  | poison l => exact h.put l _
  | assign l b => exact h.put l _
  | link a b => exact h.link a b
  | apply p => exact h.apply p
  | infer ss => exact h.infer ss
  | build ts => exact h.congr (v.parent_build ts).symm
  | parse s => exact h.congr (v.parent_parse s).symm

theorem Reachable.rooted (h : v.Reachable) : v.Rooted := by
  induction h with
  | empty => exact rooted_empty
  | perform _ o ih => exact ih.perform o

end Valuation

end FourValued
