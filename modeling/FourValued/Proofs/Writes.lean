import FourValued.Proofs.Links

/-!
# Writes through linked letters

To assert a value of a letter, to make it contradictory and to assign it a truth value is to write one value to one
cell, that of the representative of the letter (`Valuation.perform_write`). So all letters linked to it read what is
written and no others do, and through which letter of a class a write is made is of no account. What the cells of the
other letters of the class hold is stale, and stays so. To link two letters is answered with the value that both read
from then on (`Valuation.Rooted.linkThenGet_fst`).
-/

namespace FourValued

inductive Write
  | assertValue (x : TruthValue)
  | poison
  | assign (b : Bool)
  deriving DecidableEq, Repr

namespace Write

def through (w : Write) (l : Letter) : Operation :=
  match w with
  | assertValue x => .assertValue l x
  | poison => .poison l
  | assign b => .assign l b

def outcome (w : Write) (current : TruthValue) : TruthValue :=
  match w with
  | assertValue x => current.revise x
  | poison => .invalid
  | assign b => .ofBool b

end Write

namespace Valuation

variable {v : Valuation} {k l : Letter}

theorem perform_write (v : Valuation) (w : Write) (l : Letter) :
    v.perform (w.through l) = v.put l (w.outcome (v.get l)) := by
  cases w <;> rfl

theorem get_put_of_linked (h : v.linked k l = true) (x : TruthValue) : (v.put l x).get k = x := by
  rw [get_put, if_pos (linked_iff.1 h)]

theorem get_put_of_not_linked (h : v.linked k l = false) (x : TruthValue) : (v.put l x).get k = v.get k := by
  rw [get_put, if_neg]
  rw [← linked_iff, h]
  nofun

theorem cells_put_of_linked (h : v.linked k l = true) (x : TruthValue) : (v.put k x).cells = (v.put l x).cells :=
  congrArg (v.cells.set · x) (linked_iff.1 h)

theorem Rooted.linkThenGet_fst (h : v.Rooted) (a b : Letter) :
    (v.linkThenGet a b).1 = (v.link a b).get a ∧ (v.linkThenGet a b).1 = (v.link a b).get b := by
  have itself : ∀ l, v.linked l l = true := fun l => linked_iff.2 rfl
  rw [h.get_link, if_pos (.inl (itself a)), h.get_link, if_pos (.inr (itself b))]
  exact ⟨rfl, rfl⟩

/-- A write, in whatever state operations have led to, gives all letters linked to its letter the same value, with which
an assertion answers. The other letters keep theirs, and no representative changes. Made through another letter of the class it leads to the same cells
and parents: it reaches the cell of the representative, which is its own parent, and no other cell. Only the letter
itself is declared. -/
theorem write_reaches_class (os : List Operation) (w : Write) (l : Letter) :
    let v := empty.performAll os
    let u := v.perform (w.through l)
    (∀ k, v.linked k l = true → u.get k = w.outcome (v.get l)) ∧
    (∀ x, w = .assertValue x → v.assertThenGet l x = (w.outcome (v.get l), u)) ∧
    (∀ k, v.linked k l = false → u.get k = v.get k) ∧
    (∀ k, u.representative k = v.representative k) ∧
    (∀ k, v.linked k l = true →
      (v.perform (w.through k)).cells = u.cells ∧ (v.perform (w.through k)).parent = u.parent) ∧
    v.parent.get (v.representative l) = v.representative l ∧
    (∀ k, k ≠ v.representative l → u.cells.get k = v.cells.get k) ∧
    ∀ k, u.isDeclared k = (k = l || v.isDeclared k) := by
  intro v u
  have rooted : v.Rooted := rooted_empty.performAll os
  have written : u = v.put l (w.outcome (v.get l)) := v.perform_write w l
  rw [written]
  refine ⟨fun k hk => get_put_of_linked hk _, ?_, fun k hk => get_put_of_not_linked hk _,
    fun k => representative_put v l k _, fun k hk => ?_, rooted.parent_representative l,
    fun k hk => LetterMap.get_set_of_ne hk _ _, fun k => isDeclared_put v l k _⟩
  · rintro x rfl
    rfl
  · rw [perform_write, get_eq_of_linked hk]
    exact ⟨cells_put_of_linked hk _, rfl⟩

end Valuation

end FourValued
