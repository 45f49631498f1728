import FourValued.Proofs.Evidence

/-!
# Inference without conditionals

What an assignment or a biconditional adds is never undone: it stays spent however the valuation grows
(`Grows.spent_of_plain`). So one pass spends all predicates of a list that has no conditional, and the second
changes nothing. Each value is then the least upper bound of what the letters of its class held before and of
what is asserted of them, where the classes are those that the links and the biconditionals span. Neither
depends on the order of the list.
-/

namespace FourValued

def Predicate.isConditional : Predicate → Bool
  | conditional _ _ => true
  | _ => false

namespace Valuation

variable {v w : Valuation} {p : Predicate} {ps qs : List Predicate} {ss ts : List String} {k l : Letter}

theorem required_le_of_idle {p : Literal} (idle : (Predicate.assignment p).Idle v) :
    p.required ≤ v.get p.letter := by
  rcases idle with held | held <;> rw [held]
  · exact TruthValue.le_refl _
  · exact TruthValue.le_invalid _

theorem Grows.spent_of_plain (h : v.Grows w) (plain : p.isConditional = false) (spent : p.Spent v) : p.Spent w := by
  refine ⟨fun l hl => h.declared l (spent.declared l hl), ?_⟩
  cases p with
  | assignment p =>
    have kept := TruthValue.le_trans (required_le_of_idle spent.idle) (h.value p.letter)
    by_cases contradictory : w.get p.letter = .invalid
    · exact .inr contradictory
    · exact .inl (Literal.eq_required_of_le kept contradictory)
  | biconditional l r => exact h.linked l r spent.idle
  | conditional a c => cases plain

theorem Rooted.spent_applyAll_of_plain (h : v.Rooted) (plain : ∀ p ∈ ps, p.isConditional = false) :
    ∀ p ∈ ps, p.Spent (v.applyAll ps) := by
  intro p hp
  obtain ⟨before, after, rfl⟩ := List.append_of_mem hp
  have reached := h.applyAll before
  have rest := (reached.apply p).grows_applyAll after
  rw [applyAll_append, applyAll_cons]
  exact rest.spent_of_plain (plain p hp) (reached.spent_apply p)

theorem Rooted.applyAll_of_subset (h : v.Rooted) (plain : ∀ p ∈ ps, p.isConditional = false)
    (some_of : qs ⊆ ps) : (v.applyAll ps).applyAll qs = v.applyAll ps := by
  have spent := h.spent_applyAll_of_plain plain
  exact applyAll_eq_self fun q hq => (h.applyAll ps).apply_eq_self (spent q (some_of hq))

theorem Rooted.settle_passes_le_two (h : v.Rooted) (plain : ∀ p ∈ ps, p.isConditional = false) (n : Nat) :
    (v.settle ps n).passes ≤ 2 := by
  have first : v.passed ps 1 = v.applyAll ps := rfl
  have quiet : (v.passed ps 1).Quiet ps := by
    intro l
    rw [first, h.applyAll_of_subset plain (List.Subset.refl ps)]
  exact settle_passes_le_of_quiet quiet n

theorem Bounded.apply {bound : Letter → TruthValue} (h : v.Bounded bound) (plain : p.isConditional = false)
    (joined : ∀ a b, p = .biconditional a b → bound a = bound b)
    (asserted : ∀ q, p = .assignment q → q.required ≤ bound q.letter) : (v.apply p).Bounded bound := by
  cases p with
  | assignment q => exact h.assertValue q.required_ne_unknown (asserted q rfl)
  | biconditional a b => exact h.link (joined a b rfl)
  | conditional a c => cases plain

/-- What the letters that are linked to `l` in `w` hold in `v`, and what the texts assert of them. -/
def classEvidence (v w : Valuation) (ss : List String) (l : Letter) : Set TruthValue :=
  {x | ∃ k, w.linked k l = true ∧
    (x = v.get k ∨ ∃ q : Literal, .assignment q ∈ Predicate.wellFormed ss ∧ q.letter = k ∧ x = q.required)}

theorem classEvidence_congr {w' : Valuation} (links : ∀ a b, w.linked a b = w'.linked a b)
    (same : ∀ p, p ∈ Predicate.wellFormed ss ↔ p ∈ Predicate.wellFormed ts) (l : Letter) :
    v.classEvidence w ss l = v.classEvidence w' ts l := by
  simp only [classEvidence, links, same]

theorem Rooted.le_get_infer (h : v.Rooted) {x : TruthValue} (hx : x ∈ v.classEvidence (v.infer ss).1 ss l) :
    x ≤ (v.infer ss).1.get l := by
  obtain ⟨k, linked, evidence⟩ := hx
  rw [← get_eq_of_linked linked]
  rcases evidence with rfl | ⟨q, hq, rfl, rfl⟩
  · exact (h.grows_infer ss).value k
  · exact required_le_of_idle (h.spent_infer ss _ hq).idle

theorem Rooted.isLUB_get_infer (h : v.Rooted)
    (plain : ∀ p ∈ Predicate.wellFormed ss, p.isConditional = false) (l : Letter) :
    IsLUB (v.classEvidence (v.infer ss).1 ss l) ((v.infer ss).1.get l) := by
  refine ⟨fun x hx => h.le_get_infer hx, fun y upper => ?_⟩
  generalize final : (v.infer ss).1 = w at upper ⊢
  have grown : v.Grows w := final ▸ h.grows_infer ss
  have spent : ∀ p ∈ Predicate.wellFormed ss, p.Spent w := final ▸ h.spent_infer ss
  have start : v.Bounded (cap w.classes l y) :=
    ⟨h, fun k => le_cap fun linked => upper ⟨k, classes_iff.1 linked, .inl rfl⟩,
      fun a b hab => cap_congr (classes_iff.2 (grown.linked a b hab)) l y⟩
  have bounded : (v.infer ss).1.Bounded (cap w.classes l y) := by
    refine Valuation.infer_induction (fun u hu p hp => hu.apply (plain p hp) ?_ ?_) start
    · rintro a b rfl
      exact cap_congr (classes_iff.2 (spent _ hp).idle) l y
    · rintro q rfl
      exact le_cap fun linked => upper ⟨q.letter, classes_iff.1 linked, .inr ⟨q, hp, rfl, rfl⟩⟩
  rw [final] at bounded
  exact cap_self w.classes l y ▸ bounded.value l

/-- The equivalence that the links and the biconditionals among the texts span. -/
def span (v : Valuation) (ss : List String) : Setoid Letter :=
  Relation.EqvGen.setoid fun a b => v.linked a b = true ∨ .biconditional a b ∈ Predicate.wellFormed ss

theorem Rooted.classes_infer (h : v.Rooted) (ss : List String) : (v.infer ss).1.classes = v.span ss := by
  apply le_antisymm
  · refine h.classes_infer_le (fun a b hab => ?_) fun a b stated => .rel a b (.inr stated)
    exact .rel a b (.inl (classes_iff.1 hab))
  · refine Setoid.eqvGen_le fun a b hab => classes_iff.2 ?_
    rcases hab with before | stated
    · exact (h.grows_infer ss).linked a b before
    · exact (h.spent_infer ss _ stated).idle

theorem Rooted.linked_infer_congr (h : v.Rooted)
    (same : ∀ p, p ∈ Predicate.wellFormed ss ↔ p ∈ Predicate.wellFormed ts) (a b : Letter) :
    (v.infer ss).1.linked a b = (v.infer ts).1.linked a b := by
  have spans : v.span ss = v.span ts := by simp only [span, same]
  rw [Bool.eq_iff_iff, ← classes_iff, ← classes_iff, h.classes_infer, h.classes_infer, spans]

/-- An inference without conditionals takes at most two passes, and leaves each letter with the least value above
all that the letters of its class held and all that is asserted of them. The classes are those that the links
and the biconditionals span. The same predicates in another order, or repeated, lead to the same values and
links. -/
theorem infer_unconditional (h : v.Reachable) (plain : ∀ p ∈ Predicate.wellFormed ss, p.isConditional = false) :
    let w := (v.infer ss).1
    ((v.infer ss).2.passes ≤ 2 ∧ (v.infer ss).2.converged = true) ∧
    (∀ l, IsLUB (v.classEvidence w ss l) (w.get l)) ∧
    (∀ a b, w.linked a b = true ↔ v.span ss a b) ∧
    ∀ ts, (∀ p, p ∈ Predicate.wellFormed ss ↔ p ∈ Predicate.wellFormed ts) → ∀ l,
      w.get l = (v.infer ts).1.get l ∧ ∀ k, w.linked k l = (v.infer ts).1.linked k l := by
  intro w
  have rooted := h.rooted
  refine ⟨⟨?_, ?_⟩, rooted.isLUB_get_infer plain, fun a b => ?_, fun ts same l => ⟨?_, fun k => ?_⟩⟩
  · rw [infer_passes]
    exact rooted.settle_passes_le_two (fun p hp => plain p (Predicate.mem_byLength.1 hp)) maxPasses
  · rw [infer_converged]
    exact rooted.settle_converged _
  · rw [← classes_iff, rooted.classes_infer]
  · have plain' : ∀ p ∈ Predicate.wellFormed ts, p.isConditional = false := fun p hp => plain p ((same p).2 hp)
    have first := rooted.isLUB_get_infer plain l
    have second := rooted.isLUB_get_infer plain' l
    rw [← classEvidence_congr (rooted.linked_infer_congr same) same] at second
    exact TruthValue.le_antisymm (first.2 second.1) (second.2 first.1)
  · exact rooted.linked_infer_congr same k l

theorem infer_unconditional_contradictory :
    let v := (empty.perform (.assign ⟨0⟩ true)).perform (.link ⟨1⟩ ⟨2⟩)
    let ss := ["~c", "A = B", "d", "A>"]
    let ts := ["D", "~C", "A=B", "~C"]
    let w := (v.infer ss).1
    (v.Reachable ∧ (∀ p ∈ Predicate.wellFormed ss, p.isConditional = false) ∧ w.get ⟨0⟩ = .invalid) ∧
    ((v.infer ss).2.passes ≤ 2 ∧ (v.infer ss).2.converged = true) ∧
    (∀ l, IsLUB (v.classEvidence w ss l) (w.get l)) ∧
    (∀ a b, w.linked a b = true ↔ v.span ss a b) ∧
    ∀ l, w.get l = (v.infer ts).1.get l ∧ ∀ k, w.linked k l = (v.infer ts).1.linked k l := by
  intro v ss ts w
  have reachable : v.Reachable := .perform (.perform .empty (.assign ⟨0⟩ true)) (.link ⟨1⟩ ⟨2⟩)
  have plain : ∀ p ∈ Predicate.wellFormed ss, p.isConditional = false := by decide
  have same : ∀ p, p ∈ Predicate.wellFormed ss ↔ p ∈ Predicate.wellFormed ts := by
    have included : Predicate.wellFormed ss ⊆ Predicate.wellFormed ts := by decide
    have includes : Predicate.wellFormed ts ⊆ Predicate.wellFormed ss := by decide
    exact fun p => ⟨fun hp => included hp, fun hp => includes hp⟩
  obtain ⟨settled, values, links, ordered⟩ := infer_unconditional reachable plain
  exact ⟨⟨reachable, plain, by decide +kernel⟩, settled, values, links, ordered ts same⟩

end Valuation

end FourValued
