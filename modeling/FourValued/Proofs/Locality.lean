import FourValued.Proofs.Settling

/-!
# Predicates act within classes

A set of letters that is a union of classes can be looked at on its own. A predicate about other letters
leaves everything that is kept for the set as it was (`Splits.apply_outside`). A predicate about letters of
the set does the same to two valuations that are alike on the set, whatever they hold elsewhere
(`Alike.apply`). Either way the set stays a union of classes.
-/

namespace FourValued.Valuation

variable {A : Set Letter} {u v w : Valuation} {p : Predicate} {ps : List Predicate}

/-- The set `A` is a union of classes. -/
structure Splits (A : Set Letter) (v : Valuation) : Prop where
  rooted : v.Rooted
  linked : ∀ k l, v.linked k l = true → (k ∈ A ↔ l ∈ A)

theorem Splits.compl (h : v.Splits A) : v.Splits Aᶜ :=
  ⟨h.rooted, fun k l hkl => not_congr (h.linked k l hkl)⟩

theorem Splits.congr (h : v.Splits A) (hp : v.parent = w.parent) : w.Splits A := by
  refine ⟨h.rooted.congr hp, fun k l hkl => h.linked k l ?_⟩
  rwa [linked_iff, representative_congr hp, representative_congr hp, ← linked_iff]

theorem Splits.representative_mem_iff (h : v.Splits A) (l : Letter) : v.representative l ∈ A ↔ l ∈ A :=
  h.linked _ l (linked_iff.2 (h.rooted.representative_representative l))

theorem Splits.parent_mem_iff (h : v.Splits A) (l : Letter) : v.parent.get l ∈ A ↔ l ∈ A :=
  h.linked _ l (linked_iff.2 (h.rooted.representative_parent l))

theorem Splits.link (h : v.Splits A) {a b : Letter} (hab : a ∈ A ↔ b ∈ A) : (v.link a b).Splits A := by
  have below : v.classes ≤ Setoid.ker (· ∈ A) := fun k l hkl => propext (h.linked k l (classes_iff.1 hkl))
  have within := h.rooted.classes_link_le a b below (propext hab)
  exact ⟨h.rooted.link a b, fun k l hkl => Iff.of_eq (within (classes_iff.2 hkl))⟩

/-- The set `A` is a union of classes of both valuations, and they keep the same for each of its letters. -/
structure Alike (A : Set Letter) (v w : Valuation) : Prop where
  left : v.Splits A
  right : w.Splits A
  declared : ∀ l ∈ A, v.declared.get l = w.declared.get l
  parent : ∀ l ∈ A, v.parent.get l = w.parent.get l
  cells : ∀ l ∈ A, v.cells.get l = w.cells.get l

theorem Splits.alike (h : v.Splits A) : Alike A v v :=
  ⟨h, h, fun _ _ => rfl, fun _ _ => rfl, fun _ _ => rfl⟩

theorem Alike.trans (h : Alike A u v) (k : Alike A v w) : Alike A u w :=
  ⟨h.left, k.right, fun l hl => (h.declared l hl).trans (k.declared l hl),
    fun l hl => (h.parent l hl).trans (k.parent l hl), fun l hl => (h.cells l hl).trans (k.cells l hl)⟩

theorem Alike.symm (h : Alike A v w) : Alike A w v :=
  ⟨h.right, h.left, fun l hl => (h.declared l hl).symm, fun l hl => (h.parent l hl).symm,
    fun l hl => (h.cells l hl).symm⟩

theorem Alike.climbs (h : Alike A v w) {l r : Letter} (hl : l ∈ A) (hc : v.Climbs l r) : w.Climbs l r := by
  -- The parents of letters of `A` are letters of `A`, where both valuations have the same parents.
  induction hc with
  | @stay r hr => exact .stay ((h.parent r hl).symm.trans hr)
  | @step l r _ ih =>
    have next := ih ((h.left.parent_mem_iff l).2 hl)
    exact .step (h.parent l hl ▸ next)

theorem Alike.representative_eq (h : Alike A v w) {l : Letter} (hl : l ∈ A) :
    v.representative l = w.representative l :=
  (h.climbs hl (h.left.rooted.climbs l)).representative_eq.symm

theorem Alike.get_eq (h : Alike A v w) {l : Letter} (hl : l ∈ A) : v.get l = w.get l := by
  rw [get, get, ← h.representative_eq hl]
  exact h.cells _ ((h.left.representative_mem_iff l).2 hl)

theorem declare_eq_put (v : Valuation) (l : Letter) : v.declare l = v.put l (v.get l) := by
  have cell : v.cells.get (v.representative l) = v.get l := rfl
  rw [put, LetterMap.set_eq_self cell]
  rfl

section Outside

variable (h : v.Splits A)
include h

theorem Splits.put_outside {l : Letter} (hl : l ∉ A) (x : TruthValue) : Alike A (v.put l x) v where
  left := h.congr rfl
  right := h
  declared _ hk := LetterMap.get_set_of_ne (ne_of_mem_of_not_mem hk hl) _ _
  parent _ _ := rfl
  cells _ hk := by
    have outside : v.representative l ∉ A := mt (h.representative_mem_iff l).1 hl
    exact LetterMap.get_set_of_ne (ne_of_mem_of_not_mem hk outside) _ _

theorem Splits.declare_outside {l : Letter} (hl : l ∉ A) : Alike A (v.declare l) v :=
  v.declare_eq_put l ▸ h.put_outside hl _

theorem Splits.orient_not_mem {a b : Letter} (ha : a ∉ A) (hb : b ∉ A) :
    (v.orient a b).1 ∉ A ∧ (v.orient a b).2 ∉ A := by
  have ha := mt (h.representative_mem_iff a).1 ha
  have hb := mt (h.representative_mem_iff b).1 hb
  rcases v.orient_cases a b with ho | ho <;> rw [ho]
  · exact ⟨ha, hb⟩
  · exact ⟨hb, ha⟩

theorem Splits.link_outside {a b : Letter} (ha : a ∉ A) (hb : b ∉ A) : Alike A (v.link a b) v where
  left := h.link (iff_of_false ha hb)
  right := h
  declared _ hk :=
    (LetterMap.get_set_of_ne (ne_of_mem_of_not_mem hk hb) _ _).trans
      (LetterMap.get_set_of_ne (ne_of_mem_of_not_mem hk ha) _ _)
  parent _ hk := LetterMap.get_set_of_ne (ne_of_mem_of_not_mem hk (h.orient_not_mem ha hb).2) _ _
  cells _ hk := LetterMap.get_set_of_ne (ne_of_mem_of_not_mem hk (h.orient_not_mem ha hb).1) _ _

theorem Splits.clash_outside {a c : Literal} (ha : a.letter ∉ A) (hc : c.letter ∉ A) :
    Alike A (v.clash a c) v := by
  have first := h.put_outside ha .invalid
  exact (first.left.put_outside hc .invalid).trans first

theorem Splits.ponens_outside {a c : Literal} (ha : a.letter ∉ A) (hc : c.letter ∉ A) :
    Alike A (v.ponens a c) v := by
  rcases v.ponens_cases a c with ⟨he, -⟩ | ⟨he, -⟩ | ⟨he, -⟩ <;> rw [he]
  · exact h.alike
  · exact h.put_outside hc _
  · exact h.clash_outside ha hc

theorem Splits.apply_outside (hp : ∀ l ∈ p.letters, l ∉ A) : Alike A (v.apply p) v := by
  cases p with
  | assignment p => exact h.put_outside (hp p.letter (.head _)) _
  | biconditional l r =>
    exact h.link_outside (hp l (.head _)) (hp r (.tail _ (.head _)))
  | conditional a c =>
    have ha : a.letter ∉ A := hp a.letter (.head _)
    have hc : c.letter ∉ A := hp c.letter (.tail _ (.head _))
    have antecedent := h.declare_outside ha
    have consequent := (antecedent.left.declare_outside hc).trans antecedent
    have forward := (consequent.left.ponens_outside ha hc).trans consequent
    rw [apply_conditional]
    exact (forward.left.ponens_outside (a := c.negate) (c := a.negate) hc ha).trans forward

theorem Splits.applyAll_outside (hps : ∀ p ∈ ps, ∀ l ∈ p.letters, l ∉ A) : Alike A (v.applyAll ps) v :=
  applyAll_induction (P := fun u => Alike A u v)
    (fun _ hu p hp => (hu.left.apply_outside (hps p hp)).trans hu) h.alike

end Outside

section Inside

variable (h : Alike A v w)
include h

theorem Alike.put {l : Letter} (hl : l ∈ A) (x : TruthValue) : Alike A (v.put l x) (w.put l x) where
  left := h.left.congr rfl
  right := h.right.congr rfl
  declared k hk := LetterMap.get_set_congr (h.declared k hk) _ _
  parent := h.parent
  cells k hk := by
    have same : (w.put l x).cells = w.cells.set (v.representative l) x := by
      rw [h.representative_eq hl]
      rfl
    rw [same]
    exact LetterMap.get_set_congr (h.cells k hk) _ _

theorem Alike.declare {l : Letter} (hl : l ∈ A) : Alike A (v.declare l) (w.declare l) := by
  rw [declare_eq_put, declare_eq_put, h.get_eq hl]
  exact h.put hl _

theorem Alike.assertValue {l : Letter} (hl : l ∈ A) (x : TruthValue) :
    Alike A (v.assertValue l x) (w.assertValue l x) := by
  rw [assertValue_eq, assertValue_eq, h.get_eq hl]
  exact h.put hl _

theorem Alike.orient_eq {a b : Letter} (ha : a ∈ A) (hb : b ∈ A) : v.orient a b = w.orient a b := by
  rw [orient, orient, h.get_eq ha, h.get_eq hb, h.representative_eq ha, h.representative_eq hb]

theorem Alike.link {a b : Letter} (ha : a ∈ A) (hb : b ∈ A) : Alike A (v.link a b) (w.link a b) := by
  refine ⟨h.left.link (iff_of_true ha hb), h.right.link (iff_of_true ha hb), ?_, ?_, ?_⟩ <;> intro k hk <;>
    rw [Valuation.link, Valuation.link, linkThenGet, linkThenGet, h.orient_eq ha hb, h.get_eq ha, h.get_eq hb]
  · exact LetterMap.get_set_congr (LetterMap.get_set_congr (h.declared k hk) _ _) _ _
  · exact LetterMap.get_set_congr (h.parent k hk) _ _
  · exact LetterMap.get_set_congr (h.cells k hk) _ _

theorem Alike.clash {a c : Literal} (ha : a.letter ∈ A) (hc : c.letter ∈ A) :
    Alike A (v.clash a c) (w.clash a c) := (h.put ha .invalid).put hc .invalid

theorem Alike.ponens {a c : Literal} (ha : a.letter ∈ A) (hc : c.letter ∈ A) :
    Alike A (v.ponens a c) (w.ponens a c) := by
  rw [Valuation.ponens, Valuation.ponens, h.get_eq ha, h.get_eq hc]
  split
  · split
    · exact h.assertValue hc _
    · split
      · exact h
      · exact h.clash ha hc
  · exact h

theorem Alike.apply (hp : ∀ l ∈ p.letters, l ∈ A) : Alike A (v.apply p) (w.apply p) := by
  cases p with
  | assignment p => exact h.assertValue (hp p.letter (.head _)) _
  | biconditional l r =>
    exact h.link (hp l (.head _)) (hp r (.tail _ (.head _)))
  | conditional a c =>
    have ha : a.letter ∈ A := hp a.letter (.head _)
    have hc : c.letter ∈ A := hp c.letter (.tail _ (.head _))
    rw [apply_conditional, apply_conditional]
    exact (((h.declare ha).declare hc).ponens ha hc).ponens (a := c.negate) (c := a.negate) hc ha

end Inside

def reach (v : Valuation) (ps : List Predicate) : Set Letter :=
  {k | ∃ p ∈ ps, ∃ l ∈ p.letters, v.linked k l = true}

theorem mem_reach_iff {k : Letter} :
    k ∈ v.reach ps ↔ ∃ p ∈ ps, ∃ l ∈ p.letters, v.linked k l = true := Iff.rfl

theorem mem_reach (hp : p ∈ ps) {l : Letter} (hl : l ∈ p.letters) : l ∈ v.reach ps :=
  ⟨p, hp, l, hl, linked_iff.2 rfl⟩

theorem Rooted.splits_reach (h : v.Rooted) (ps : List Predicate) : v.Splits (v.reach ps) := by
  refine ⟨h, fun k l hkl => ?_⟩
  simp only [mem_reach_iff, linked_iff, linked_iff.1 hkl]

theorem not_mem_compl_reach : ∀ p ∈ ps, ∀ l ∈ p.letters, l ∉ (v.reach ps)ᶜ :=
  fun _ hp _ hl => not_not_intro (mem_reach hp hl)

theorem Rooted.applyAll_off_reach (h : v.Rooted) (ps : List Predicate) :
    Alike (v.reach ps)ᶜ (v.applyAll ps) v :=
  (h.splits_reach ps).compl.applyAll_outside not_mem_compl_reach

end FourValued.Valuation
