import Mathlib.Order.Bounds.Defs
import FourValued.Proofs.Links

/-!
# Values join the evidence

Direct operations declare letters, assert values other than unknown, make letters contradictory and link
them. A letter's value is the least upper bound of all that such operations assert of the letters that they
connect to it, whether they assert it before or after the links. For what is asserted stays below the value
(`Rooted.le_get_performAll`), and bounds on the evidence that are the same for linked letters bound the
values (`Bounded.perform`). So the order of the operations is of no account.
-/

namespace FourValued

theorem TruthValue.le_revise_right (a b : TruthValue) : b ≤ revise a b := by
  cases a <;> cases b <;> decide

inductive Operation.Asserts : Operation → Letter → TruthValue → Prop
  | value (l : Letter) (x : TruthValue) : Asserts (.assertValue l x) l x
  | poison (l : Letter) : Asserts (.poison l) l .invalid

inductive Operation.Direct : Operation → Prop
  | declare (l : Letter) : Direct (.declare l)
  | assertValue (l : Letter) {x : TruthValue} : x ≠ .unknown → Direct (.assertValue l x)
  | poison (l : Letter) : Direct (.poison l)
  | link (a b : Letter) : Direct (.link a b)

theorem Operation.Direct.ne_assign {o : Operation} (h : o.Direct) (l : Letter) (b : Bool) :
    o ≠ .assign l b := by
  cases h <;> nofun

/-- What the operations assert of the letters that they connect to a letter. -/
def evidence (os : List Operation) (l : Letter) : Set TruthValue :=
  {x | ∃ o ∈ os, ∃ k, o.Asserts k x ∧ Connected os k l}

theorem connected_congr {os os' : List Operation} (same : ∀ o, o ∈ os ↔ o ∈ os') (k l : Letter) :
    Connected os k l ↔ Connected os' k l := by
  simp only [Connected, same]

theorem evidence_congr {os os' : List Operation} (same : ∀ o, o ∈ os ↔ o ∈ os') (l : Letter) :
    evidence os l = evidence os' l := by
  simp only [evidence, same, connected_congr same]

namespace Valuation

variable {v : Valuation} {os : List Operation} {o : Operation} {k l a b : Letter} {x : TruthValue}

structure Bounded (bound : Letter → TruthValue) (v : Valuation) : Prop where
  rooted : v.Rooted
  value : ∀ l, v.get l ≤ bound l
  linked : ∀ k l, v.linked k l = true → bound k = bound l

variable {bound : Letter → TruthValue}

theorem Bounded.put (h : v.Bounded bound) (hx : x ≤ bound l) : (v.put l x).Bounded bound := by
  refine ⟨h.rooted.put l x, fun k => ?_, fun a b hab => h.linked a b ?_⟩
  · rw [get_put]
    split
    · next hk => exact h.linked k l (linked_iff.2 hk) ▸ hx
    · exact h.value k
  · rwa [linked_put] at hab

theorem Bounded.assertValue (h : v.Bounded bound) (known : x ≠ .unknown) (hx : x ≤ bound l) :
    (v.assertValue l x).Bounded bound := by
  apply h.put
  rw [TruthValue.revise_eq_join _ known]
  exact TruthValue.join_le (h.value l) hx

theorem Bounded.link (h : v.Bounded bound) (hab : bound a = bound b) : (v.link a b).Bounded bound := by
  refine ⟨h.rooted.link a b, fun k => ?_, fun k l hkl => ?_⟩
  · rw [h.rooted.get_link a b]
    split
    · next hk =>
      have joined : (v.get a).join (v.get b) ≤ bound a :=
        TruthValue.join_le (h.value a) (hab ▸ h.value b)
      rcases hk with hk | hk
      · exact h.linked k a hk ▸ joined
      · exact (h.linked k b hk).trans hab.symm ▸ joined
    · exact h.value k
  · have below : v.classes ≤ Setoid.ker bound := fun a b hab => h.linked a b (classes_iff.1 hab)
    exact h.rooted.classes_link_le a b below hab (classes_iff.2 hkl)

theorem Bounded.perform (h : v.Bounded bound) (direct : o.Direct)
    (joined : ∀ a b, o.Joins a b → bound a = bound b) (asserted : ∀ k x, o.Asserts k x → x ≤ bound k) :
    (v.perform o).Bounded bound := by
  cases direct with
  | declare l => exact ⟨h.rooted.declare l, fun k => get_declare v l k ▸ h.value k, h.linked⟩
  | @assertValue l x known => exact h.assertValue known (asserted l x (.value l x))
  | poison l => exact h.put (asserted l .invalid (.poison l))
  | link a b => exact h.link (joined a b (.link a b))

theorem bounded_empty (bound : Letter → TruthValue) : empty.Bounded bound := by
  refine ⟨rooted_empty, fun l => ?_, fun k l hkl => ?_⟩
  · rw [get, empty, LetterMap.get_const]
    exact TruthValue.unknown_le _
  · rw [linked_iff, representative_empty, representative_empty] at hkl
    rw [hkl]

section

open Classical

noncomputable def cap (E : Setoid Letter) (l : Letter) (y : TruthValue) (k : Letter) : TruthValue :=
  if E k l then y else .invalid

theorem cap_self (E : Setoid Letter) (l : Letter) (y : TruthValue) : cap E l y l = y := if_pos (E.refl l)

theorem cap_congr {E : Setoid Letter} (hab : E a b) (l : Letter) (y : TruthValue) : cap E l y a = cap E l y b := by
  have alike : E a l ↔ E b l := ⟨fun hal => E.trans (E.symm hab) hal, fun hbl => E.trans hab hbl⟩
  simp only [cap, alike]

theorem le_cap {E : Setoid Letter} {y : TruthValue} (h : E k l → x ≤ y) : x ≤ cap E l y k := by
  unfold cap
  split
  · next equivalent => exact h equivalent
  · exact TruthValue.le_invalid x

end

theorem le_get_perform (v : Valuation) (asserts : o.Asserts k x) : x ≤ (v.perform o).get k := by
  cases asserts with
  | value k x =>
    rw [perform, assertValue_eq, get_put, if_pos rfl]
    exact TruthValue.le_revise_right _ _
  | poison k =>
    rw [perform, poison, get_put, if_pos rfl]
    exact TruthValue.le_refl _

theorem Rooted.le_get_performAll (h : v.Rooted) (direct : ∀ o ∈ os, o.Direct) (ho : o ∈ os)
    (asserts : o.Asserts k x) : x ≤ (v.performAll os).get k := by
  obtain ⟨before, after, rfl⟩ := List.append_of_mem ho
  rw [performAll_append, performAll_cons]
  have later : ∀ o ∈ after, ∀ l b, o ≠ .assign l b := fun o ho =>
    (direct o (by simp [ho])).ne_assign
  have grown := ((h.performAll before).perform o).grows_performAll later
  exact TruthValue.le_trans (le_get_perform _ asserts) (grown.value k)

theorem isLUB_get_performAll (direct : ∀ o ∈ os, o.Direct) (l : Letter) :
    IsLUB (evidence os l) ((empty.performAll os).get l) := by
  constructor
  · rintro x ⟨o, ho, k, asserts, connected⟩
    rw [← get_eq_of_linked ((linked_performAll_empty os k l).2 connected)]
    exact rooted_empty.le_get_performAll direct ho asserts
  · intro y upper
    let E : Setoid Letter := Relation.EqvGen.setoid fun a b => ∃ o ∈ os, o.Joins a b
    have bounded : (empty.performAll os).Bounded (cap E l y) := by
      refine performAll_induction (fun u hu o ho => hu.perform (direct o ho) ?_ ?_) (bounded_empty _)
      · intro a b joins
        have ab : Connected os a b := .rel a b ⟨o, ho, joins⟩
        exact cap_congr ab l y
      · intro k x asserts
        exact le_cap fun connected => upper ⟨o, ho, k, asserts, connected⟩
    exact cap_self E l y ▸ bounded.value l

theorem isDeclared_empty (l : Letter) : empty.isDeclared l = false := LetterMap.get_const false l

theorem isDeclared_perform (v : Valuation) (direct : o.Direct) (l : Letter) :
    (v.perform o).isDeclared l = ((empty.perform o).isDeclared l || v.isDeclared l) := by
  cases direct with
  | declare k => simp [perform, isDeclared_empty]
  | assertValue k hx => simp [perform, assertValue_eq, isDeclared_empty]
  | poison k => simp [perform, poison, isDeclared_empty]
  | link a b => simp [perform, isDeclared_link, isDeclared_empty, Bool.or_assoc]

theorem isDeclared_performAll (direct : ∀ o ∈ os, o.Direct) (l : Letter) :
    (v.performAll os).isDeclared l = true ↔
      v.isDeclared l = true ∨ ∃ o ∈ os, (empty.perform o).isDeclared l = true := by
  induction os generalizing v with
  | nil => simp [performAll]
  | cons o os ih =>
    rw [List.forall_mem_cons] at direct
    rw [performAll_cons, ih direct.2, isDeclared_perform v direct.1, Bool.or_eq_true]
    simp only [List.mem_cons, exists_eq_or_imp]
    rw [or_assoc, or_left_comm]

/-- After direct operations each letter has the least value above all the evidence about its class, and the
same operations in another order lead to the same values, links and declared letters. -/
theorem performAll_joins_evidence (direct : ∀ o ∈ os, o.Direct) :
    (∀ l, IsLUB (evidence os l) ((empty.performAll os).get l)) ∧
    ∀ os' : List Operation, os.Perm os' → ∀ l,
      (empty.performAll os').get l = (empty.performAll os).get l ∧
      (∀ k, (empty.performAll os').linked k l = (empty.performAll os).linked k l) ∧
      (empty.performAll os').isDeclared l = (empty.performAll os).isDeclared l := by
  refine ⟨isLUB_get_performAll direct, fun os' perm l => ?_⟩
  have same : ∀ o, o ∈ os' ↔ o ∈ os := fun o => perm.mem_iff.symm
  have direct' : ∀ o ∈ os', o.Direct := fun o ho => direct o ((same o).1 ho)
  refine ⟨?_, fun k => ?_, ?_⟩
  · have first := isLUB_get_performAll direct l
    have second := isLUB_get_performAll direct' l
    rw [evidence_congr same] at second
    exact TruthValue.le_antisymm (second.2 first.1) (first.2 second.1)
  · rw [Bool.eq_iff_iff, linked_performAll_empty, linked_performAll_empty, connected_congr same]
  · rw [Bool.eq_iff_iff, isDeclared_performAll direct', isDeclared_performAll direct]
    simp only [same]

theorem performAll_joins_evidence_late_link :
    let os : List Operation := [.assertValue ⟨1⟩ .ff, .link ⟨0⟩ ⟨1⟩, .declare ⟨3⟩,
      .assertValue ⟨2⟩ .tt, .link ⟨2⟩ ⟨0⟩, .poison ⟨4⟩]
    let os' : List Operation := [.link ⟨2⟩ ⟨0⟩, .poison ⟨4⟩, .assertValue ⟨2⟩ .tt,
      .link ⟨0⟩ ⟨1⟩, .assertValue ⟨1⟩ .ff, .declare ⟨3⟩]
    (∀ o ∈ os, o.Direct) ∧ os.Perm os' ∧ (empty.performAll os).get ⟨0⟩ = .invalid ∧
    (∀ l, IsLUB (evidence os l) ((empty.performAll os).get l)) ∧
    ∀ l, (empty.performAll os').get l = (empty.performAll os).get l ∧
      (∀ k, (empty.performAll os').linked k l = (empty.performAll os).linked k l) ∧
      (empty.performAll os').isDeclared l = (empty.performAll os).isDeclared l := by
  intro os os'
  have direct : ∀ o ∈ os, o.Direct := by
    simp only [os, List.forall_mem_cons]
    exact ⟨.assertValue _ (by decide), .link _ _, .declare _, .assertValue _ (by decide),
      .link _ _, .poison _, nofun⟩
  have perm : os.Perm os' := by decide
  obtain ⟨joined, ordered⟩ := performAll_joins_evidence direct
  exact ⟨direct, perm, by decide +kernel, joined, ordered os' perm⟩

end Valuation

end FourValued
