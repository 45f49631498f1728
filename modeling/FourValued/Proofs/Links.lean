import FourValued.Proofs.Fixpoint

/-!
# Links are what operations join

An operation joins the letters that it links, be it directly or by a biconditional that it applies. Linked
letters are equivalent in every equivalence that holds what was linked before and what is joined
(`Rooted.classes_perform_le`), and no operation takes a link back (`Rooted.linked_perform_mono`). So the classes
of a valuation are those of the equivalence that its operations span, and each has one representative, at
which every chain of parents in the class ends.
-/

namespace FourValued

inductive Operation.Joins : Operation → Letter → Letter → Prop
  | link (a b : Letter) : Joins (.link a b) a b
  | apply (a b : Letter) : Joins (.apply (.biconditional a b)) a b
  | infer {ss : List String} {a b : Letter} :
      .biconditional a b ∈ Predicate.wellFormed ss → Joins (.infer ss) a b

/-- The letters are the same or are joined by some of the operations, directly or through other letters. -/
def Connected (os : List Operation) : Letter → Letter → Prop :=
  Relation.EqvGen fun a b => ∃ o ∈ os, o.Joins a b

namespace Valuation

variable {v w : Valuation} {E : Setoid Letter} {os : List Operation} {o : Operation} {a b : Letter}

def performAll (v : Valuation) (os : List Operation) : Valuation := os.foldl perform v

theorem performAll_cons (v : Valuation) (o : Operation) (os : List Operation) :
    v.performAll (o :: os) = (v.perform o).performAll os := rfl

theorem performAll_append (v : Valuation) (os os' : List Operation) :
    v.performAll (os ++ os') = (v.performAll os).performAll os' := List.foldl_append

theorem performAll_induction {P : Valuation → Prop} (step : ∀ v, P v → ∀ o ∈ os, P (v.perform o))
    (h : P v) : P (v.performAll os) := List.foldlRecOn os perform h step

theorem Rooted.performAll (h : v.Rooted) (os : List Operation) : (v.performAll os).Rooted :=
  Valuation.performAll_induction (fun _ hu o _ => hu.perform o) h

theorem Rooted.performAll_induction {P : Valuation → Prop} (h : v.Rooted)
    (step : ∀ u, u.Rooted → P u → ∀ o ∈ os, P (u.perform o)) (start : P v) : P (v.performAll os) := by
  have both := Valuation.performAll_induction (P := fun u => u.Rooted ∧ P u)
    (fun u hu o ho => ⟨hu.1.perform o, step u hu.1 hu.2 o ho⟩) ⟨h, start⟩
  exact both.2

theorem Rooted.grows_infer (h : v.Rooted) (ss : List String) : v.Grows (v.infer ss).1 :=
  h.infer_induction (fun _ hu grown p _ => grown.trans (hu.grows_apply p)) (Grows.refl v)

theorem grows_declareAll (v : Valuation) (ls : List Letter) : v.Grows (v.declareAll ls) := by
  induction ls generalizing v with
  | nil => exact Grows.refl v
  | cons l ls ih => exact (grows_declare v l).trans (ih (v.declare l))

theorem Rooted.grows_perform (h : v.Rooted) (keeps : ∀ l x, o ≠ .assign l x) : v.Grows (v.perform o) := by
  cases o with
  | declare l => exact grows_declare v l
  | assertValue l x => exact grows_assertValue v l x
  | poison l => exact grows_poison v l
  | assign l x => exact absurd rfl (keeps l x)
  | link a b => exact h.grows_link a b
  | apply p => exact h.grows_apply p
  | infer ss => exact h.grows_infer ss
  | build ts =>
    obtain ⟨ls, hls⟩ := v.exists_build_eq_declareAll ts
    rw [Valuation.perform, hls]
    exact v.grows_declareAll ls
  | parse s =>
    obtain ⟨ls, hls⟩ := v.exists_parse_eq_declareAll s
    rw [Valuation.perform, hls]
    exact v.grows_declareAll ls

theorem Rooted.grows_performAll (h : v.Rooted) (keeps : ∀ o ∈ os, ∀ l x, o ≠ .assign l x) :
    v.Grows (v.performAll os) :=
  h.performAll_induction (fun _ hu grown o ho => grown.trans (hu.grows_perform (keeps o ho))) (Grows.refl v)

theorem classes_ponens (v : Valuation) (a c : Literal) : (v.ponens a c).classes = v.classes := by
  rcases v.ponens_cases a c with ⟨he, -⟩ | ⟨he, -⟩ | ⟨he, -⟩ <;> rw [he]
  · exact classes_congr rfl
  · exact classes_congr rfl

theorem Rooted.classes_apply_le (h : v.Rooted) {p : Predicate} (below : v.classes ≤ E)
    (joined : ∀ a b, p = .biconditional a b → E a b) : (v.apply p).classes ≤ E := by
  cases p with
  | assignment p => exact below
  | biconditional a b => exact h.classes_link_le _ _ below (joined a b rfl)
  | conditional a c =>
    rw [apply_conditional, classes_ponens, classes_ponens]
    exact below

theorem Rooted.classes_infer_le (h : v.Rooted) {ss : List String} (below : v.classes ≤ E)
    (joined : ∀ a b, .biconditional a b ∈ Predicate.wellFormed ss → E a b) : (v.infer ss).1.classes ≤ E := by
  refine h.infer_induction (P := fun u => u.classes ≤ E) (fun u hu below p hp => ?_) below
  exact hu.classes_apply_le below fun a b hab => joined a b (hab ▸ hp)

theorem Rooted.classes_perform_le (h : v.Rooted) (below : v.classes ≤ E)
    (joined : ∀ a b, o.Joins a b → E a b) : (v.perform o).classes ≤ E := by
  cases o with
  | declare l => exact below
  | assertValue l x => exact below
  | poison l => exact below
  | assign l x => exact below
  | link a b => exact h.classes_link_le _ _ below (joined a b (.link a b))
  | apply p =>
    refine h.classes_apply_le below fun a b hp => joined a b ?_
    rw [hp]
    exact .apply a b
  | infer ss => exact h.classes_infer_le below fun a b hp => joined a b (.infer hp)
  | build ts => exact classes_congr (v.parent_build ts) ▸ below
  | parse s => exact classes_congr (v.parent_parse s) ▸ below

theorem Rooted.linked_perform_of_joins (h : v.Rooted) (joins : o.Joins a b) :
    (v.perform o).linked a b = true := by
  cases joins with
  | link a b => exact (h.spent_apply (.biconditional a b)).idle
  | apply a b => exact (h.spent_apply (.biconditional a b)).idle
  | infer hp => exact (h.spent_infer _ _ hp).idle

theorem Rooted.linked_perform_mono (h : v.Rooted) (o : Operation) (hab : v.linked a b = true) :
    (v.perform o).linked a b = true := by
  by_cases assigns : ∃ l x, o = .assign l x
  · -- An assignment may take values back, but it leaves the parents.
    obtain ⟨l, x, rfl⟩ := assigns
    exact (linked_put v l a b _).trans hab
  · have keeps : ∀ l x, o ≠ .assign l x := fun l x ho => assigns ⟨l, x, ho⟩
    exact (h.grows_perform keeps).linked a b hab

theorem Rooted.linked_performAll_mono (h : v.Rooted) (os : List Operation) (hab : v.linked a b = true) :
    (v.performAll os).linked a b = true :=
  h.performAll_induction (fun _ hu linked o _ => hu.linked_perform_mono o linked) hab

theorem Rooted.linked_performAll_of_joins (h : v.Rooted) (ho : o ∈ os) (joins : o.Joins a b) :
    (v.performAll os).linked a b = true := by
  obtain ⟨before, after, rfl⟩ := List.append_of_mem ho
  rw [performAll_append, performAll_cons]
  have rooted := h.performAll before
  exact (rooted.perform o).linked_performAll_mono after (rooted.linked_perform_of_joins joins)

theorem Rooted.classes_performAll_le (h : v.Rooted) (below : v.classes ≤ E)
    (joined : ∀ o ∈ os, ∀ a b, o.Joins a b → E a b) : (v.performAll os).classes ≤ E :=
  h.performAll_induction (P := fun u => u.classes ≤ E)
    (fun _ hu below o ho => hu.classes_perform_le below (joined o ho)) below

theorem linked_performAll_empty (os : List Operation) (a b : Letter) :
    (empty.performAll os).linked a b = true ↔ Connected os a b := by
  constructor
  · intro hab
    have start : empty.classes ≤ Relation.EqvGen.setoid fun a b => ∃ o ∈ os, o.Joins a b := by
      intro k l hkl
      have same : k = l := by simpa only [linked_iff, representative_empty] using classes_iff.1 hkl
      exact same ▸ .refl k
    exact rooted_empty.classes_performAll_le start (fun o ho a b hj => .rel a b ⟨o, ho, hj⟩)
      (classes_iff.2 hab)
  · intro hab
    have spanned : Relation.EqvGen.setoid (fun a b => ∃ o ∈ os, o.Joins a b) ≤
        (empty.performAll os).classes := by
      refine Setoid.eqvGen_le ?_
      rintro a b ⟨o, ho, joins⟩
      exact classes_iff.2 (rooted_empty.linked_performAll_of_joins ho joins)
    exact classes_iff.1 (spanned hab)

theorem Rooted.existsUnique_representative (h : v.Rooted) (a : Letter) :
    ∃! r, v.linked r a = true ∧ v.representative r = r := by
  refine ⟨v.representative a, ⟨h.linked_representative a, h.representative_representative a⟩, ?_⟩
  rintro r ⟨linked, stays⟩
  rw [← stays, linked_iff.1 linked]

/-- Two letters are linked just when the operations so far connect them. An operation that joins no letters
leaves the links as they are, and none takes a link back. Each class has one representative, which the
parents of all its letters lead to. -/
theorem linked_iff_connected (os : List Operation) :
    let v := empty.performAll os
    (∀ a b, v.linked a b = true ↔ Connected os a b) ∧
    (∀ o : Operation, (∀ a b, ¬ o.Joins a b) → ∀ a b, (v.perform o).linked a b = v.linked a b) ∧
    (∀ (o : Operation) (a b : Letter), v.linked a b = true → (v.perform o).linked a b = true) ∧
    ∀ a, v.Climbs a (v.representative a) ∧ v.linked (v.representative a) a = true ∧
      v.representative (v.representative a) = v.representative a ∧
      ∃! r, v.linked r a = true ∧ v.representative r = r := by
  intro v
  have rooted : v.Rooted := rooted_empty.performAll os
  refine ⟨linked_performAll_empty os, fun o joinless a b => ?_, fun o a b => rooted.linked_perform_mono o,
    fun a => ⟨rooted.climbs a, rooted.linked_representative a, rooted.representative_representative a,
      rooted.existsUnique_representative a⟩⟩
  have no_more : (v.perform o).classes ≤ v.classes :=
    rooted.classes_perform_le le_rfl fun a b joins => absurd joins (joinless a b)
  rw [Bool.eq_iff_iff]
  exact ⟨classes_le_iff.1 no_more a b, rooted.linked_perform_mono o⟩

end Valuation

end FourValued
