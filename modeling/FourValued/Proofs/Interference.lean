import FourValued.Proofs.Fixpoint
import FourValued.Proofs.Locality

/-!
# Unrelated predicates do not interfere

Two lists of predicates are apart when no letter of one is linked to a letter of the other. However two such
lists are interleaved, and also after the shorter predicates are put first, a pass does to the classes of
either list what a pass of that list alone does, and nothing to other classes. A pass of the interleaved list
is quiet just when both lists alone are, and a list that has settled changes nothing in further passes, with
contradictions or without. So the passes that the interleaved list takes are the larger of the two numbers.
-/

namespace FourValued

inductive Interleaving {α : Type} : List α → List α → List α → Prop
  | nil : Interleaving [] [] []
  | left {xs ys zs : List α} (x : α) : Interleaving xs ys zs → Interleaving (x :: xs) ys (x :: zs)
  | right {xs ys zs : List α} (y : α) : Interleaving xs ys zs → Interleaving xs (y :: ys) (y :: zs)

namespace Interleaving

variable {α β : Type} {xs ys zs : List α}

theorem symm (h : Interleaving xs ys zs) : Interleaving ys xs zs := by
  induction h with
  | nil => exact .nil
  | left x _ ih => exact .right x ih
  | right y _ ih => exact .left y ih

theorem mem_iff (h : Interleaving xs ys zs) {z : α} : z ∈ zs ↔ z ∈ xs ∨ z ∈ ys := by
  induction h with
  | nil => simp
  | left x _ ih => rw [List.mem_cons, List.mem_cons, ih, or_assoc]
  | right y _ ih => rw [List.mem_cons, List.mem_cons, ih, or_left_comm]

theorem append {xs' ys' zs' : List α} (h : Interleaving xs ys zs) (h' : Interleaving xs' ys' zs') :
    Interleaving (xs ++ xs') (ys ++ ys') (zs ++ zs') := by
  induction h with
  | nil => exact h'
  | left x _ ih => exact .left x ih
  | right y _ ih => exact .right y ih

theorem filterMap (f : α → Option β) (h : Interleaving xs ys zs) :
    Interleaving (xs.filterMap f) (ys.filterMap f) (zs.filterMap f) := by
  induction h with
  | nil => exact .nil
  | left x _ ih =>
    rw [List.filterMap_cons, List.filterMap_cons]
    split
    · exact ih
    · exact .left _ ih
  | right y _ ih =>
    rw [List.filterMap_cons, List.filterMap_cons]
    split
    · exact ih
    · exact .right _ ih

theorem filter (f : α → Bool) (h : Interleaving xs ys zs) :
    Interleaving (xs.filter f) (ys.filter f) (zs.filter f) := by
  rw [← List.filterMap_eq_filter]
  exact h.filterMap _

theorem flatMap {f g k : β → List α} (h : ∀ b, Interleaving (f b) (g b) (k b)) (bs : List β) :
    Interleaving (bs.flatMap f) (bs.flatMap g) (bs.flatMap k) := by
  induction bs with
  | nil => exact .nil
  | cons b bs ih =>
    rw [List.flatMap_cons, List.flatMap_cons, List.flatMap_cons]
    exact (h b).append ih

theorem byLength {ps qs rs : List Predicate} (h : Interleaving ps qs rs) :
    Interleaving (Predicate.byLength ps) (Predicate.byLength qs) (Predicate.byLength rs) :=
  flatMap (fun _ => h.filter _) _

end Interleaving

namespace Valuation

variable {A : Set Letter} {u v w : Valuation} {ps qs rs : List Predicate}

theorem Alike.applyAll_interleaving (h : Alike A u v) (interleaved : Interleaving ps qs rs)
    (inside : ∀ p ∈ ps, ∀ l ∈ p.letters, l ∈ A) (outside : ∀ q ∈ qs, ∀ l ∈ q.letters, l ∉ A) :
    Alike A (u.applyAll rs) (v.applyAll ps) := by
  induction interleaved generalizing u v with
  | nil => exact h
  | left p _ ih =>
    rw [List.forall_mem_cons] at inside
    exact ih (h.apply inside.1) inside.2 outside
  | right q _ ih =>
    rw [List.forall_mem_cons] at outside
    exact ih ((h.left.apply_outside outside.1).trans h) inside outside.2

theorem Alike.passed_interleaving (h : Alike A u v) (interleaved : Interleaving ps qs rs)
    (inside : ∀ p ∈ ps, ∀ l ∈ p.letters, l ∈ A) (outside : ∀ q ∈ qs, ∀ l ∈ q.letters, l ∉ A) (k : ℕ) :
    Alike A (u.passed rs k) (v.passed ps k) := by
  induction k with
  | zero => exact h
  | succ k ih =>
    rw [passed_succ, passed_succ]
    exact ih.applyAll_interleaving interleaved inside outside

theorem Splits.passed_outside (h : v.Splits A) (outside : ∀ p ∈ ps, ∀ l ∈ p.letters, l ∉ A) (k : ℕ) :
    Alike A (v.passed ps k) v := by
  induction k with
  | zero => exact h.alike
  | succ k ih =>
    rw [passed_succ]
    exact (ih.left.applyAll_outside outside).trans ih

theorem Rooted.passed_off_reach (h : v.Rooted) (ps : List Predicate) (k : ℕ) :
    Alike (v.reach ps)ᶜ (v.passed ps k) v :=
  (h.splits_reach ps).compl.passed_outside not_mem_compl_reach k

theorem reach_byLength (v : Valuation) (ps : List Predicate) :
    v.reach (Predicate.byLength ps) = v.reach ps := by
  ext k
  simp only [mem_reach_iff, Predicate.mem_byLength]

theorem Rooted.quiet_passed_iff (h : v.Rooted) (ps : List Predicate) (k : ℕ) : (v.passed ps k).Quiet ps ↔
    ∀ l ∈ v.reach ps, (v.passed ps (k + 1)).get l = (v.passed ps k).get l := by
  rw [Quiet, ← passed_succ]
  refine ⟨fun quiet l _ => quiet l, fun quiet l => ?_⟩
  by_cases hl : l ∈ v.reach ps
  · exact quiet l hl
  · rw [(h.passed_off_reach ps (k + 1)).get_eq hl, (h.passed_off_reach ps k).get_eq hl]

/-- No letter of one list is linked to a letter of the other. -/
def Apart (v : Valuation) (ps qs : List Predicate) : Prop :=
  ∀ p ∈ ps, ∀ q ∈ qs, ∀ k ∈ p.letters, ∀ l ∈ q.letters, v.linked k l = false

instance : Decidable (v.Apart ps qs) :=
  inferInstanceAs (Decidable (∀ p ∈ ps, ∀ q ∈ qs, ∀ k ∈ p.letters, ∀ l ∈ q.letters, v.linked k l = false))

theorem Apart.symm (h : v.Apart ps qs) : v.Apart qs ps :=
  fun q hq p hp l hl k hk => (v.linked_comm l k).trans (h p hp q hq k hk l hl)

theorem Apart.not_mem_reach (h : v.Apart ps qs) : ∀ q ∈ qs, ∀ l ∈ q.letters, l ∉ v.reach ps := by
  rintro q hq l hl ⟨p, hp, k, hk, hlk⟩
  rw [linked_comm, h p hp q hq k hk l hl] at hlk
  cases hlk

theorem Apart.byLength (h : v.Apart ps qs) : v.Apart (Predicate.byLength ps) (Predicate.byLength qs) :=
  fun p hp q hq => h p (Predicate.mem_byLength.1 hp) q (Predicate.mem_byLength.1 hq)

theorem mem_reach_interleaving (interleaved : Interleaving ps qs rs) {k : Letter} :
    k ∈ v.reach rs ↔ k ∈ v.reach ps ∨ k ∈ v.reach qs := by
  simp only [mem_reach_iff, interleaved.mem_iff, or_and_right, exists_or]

section

variable (h : v.Rooted) (interleaved : Interleaving ps qs rs) (apart : v.Apart ps qs)
include h interleaved apart

theorem Rooted.passed_alike (k : ℕ) : Alike (v.reach ps) (v.passed rs k) (v.passed ps k) :=
  (h.splits_reach ps).alike.passed_interleaving interleaved (fun _ hp _ hl => mem_reach hp hl)
    apart.not_mem_reach k

theorem Rooted.get_passed_eq_iff (k : ℕ) : ∀ l ∈ v.reach ps,
    ((v.passed rs (k + 1)).get l = (v.passed rs k).get l ↔
      (v.passed ps (k + 1)).get l = (v.passed ps k).get l) := by
  intro l hl
  have alike := h.passed_alike interleaved apart
  rw [(alike (k + 1)).get_eq hl, (alike k).get_eq hl]

theorem Rooted.quiet_interleaving_iff (k : ℕ) :
    (v.passed rs k).Quiet rs ↔ (v.passed ps k).Quiet ps ∧ (v.passed qs k).Quiet qs := by
  rw [h.quiet_passed_iff, h.quiet_passed_iff, h.quiet_passed_iff]
  have first := h.get_passed_eq_iff interleaved apart k
  have second := h.get_passed_eq_iff interleaved.symm apart.symm k
  constructor
  · intro quiet
    exact ⟨fun l hl => (first l hl).1 (quiet l ((mem_reach_interleaving interleaved).2 (.inl hl))),
      fun l hl => (second l hl).1 (quiet l ((mem_reach_interleaving interleaved).2 (.inr hl)))⟩
  · rintro ⟨quiet_first, quiet_second⟩ l hl
    rcases (mem_reach_interleaving interleaved).1 hl with hl | hl
    · exact (first l hl).2 (quiet_first l hl)
    · exact (second l hl).2 (quiet_second l hl)

theorem Rooted.settle_passes_interleaving : (v.settle rs maxPasses).passes =
    max (v.settle ps maxPasses).passes (v.settle qs maxPasses).passes := by
  obtain ⟨a, ha, -⟩ := h.exists_last_pass ps
  obtain ⟨b, hb, -⟩ := h.exists_last_pass qs
  obtain ⟨c, hc, -⟩ := h.exists_last_pass rs
  -- Each list is quiet from its last pass on, so the interleaved one is from the later of the two.
  have bound : ∀ k, c + 1 ≤ k + 1 ↔ a + 1 ≤ k + 1 ∧ b + 1 ≤ k + 1 := by
    intro k
    rw [← ha, ← hb, ← hc, h.settle_passes_le_iff, h.settle_passes_le_iff, h.settle_passes_le_iff]
    exact h.quiet_interleaving_iff interleaved apart k
  have least := (bound c).1 le_rfl
  have enough := (bound (max a b)).2 (by omega)
  omega

theorem Rooted.settle_alike :
    Alike (v.reach ps) (v.settle rs maxPasses).valuation (v.settle ps maxPasses).valuation := by
  have both := h.settle_passes_interleaving interleaved apart
  rw [← h.passed_eq_settle le_rfl, ← h.passed_eq_settle (both ▸ le_max_left _ _)]
  exact h.passed_alike interleaved apart _

end

/-- All that two valuations keep for a letter, and all that is read of it, is the same. -/
structure SameAt (l : Letter) (v w : Valuation) : Prop where
  declared : v.isDeclared l = w.isDeclared l
  parent : v.parent.get l = w.parent.get l
  cell : v.cells.get l = w.cells.get l
  representative : v.representative l = w.representative l
  value : v.get l = w.get l

theorem Alike.sameAt (h : Alike A v w) {l : Letter} (hl : l ∈ A) : SameAt l v w :=
  ⟨h.declared l hl, h.parent l hl, h.cells l hl, h.representative_eq hl, h.get_eq hl⟩

theorem Rooted.infer_off_reach (h : v.Rooted) (ss : List String) :
    Alike (v.reach (Predicate.wellFormed ss))ᶜ (v.infer ss).1 v := by
  rw [infer_valuation, ← reach_byLength, ← h.passed_eq_settle le_rfl]
  exact h.passed_off_reach _ _

theorem Rooted.infer_alike (h : v.Rooted) {ss ts us : List String} (interleaved : Interleaving ss ts us)
    (apart : v.Apart (Predicate.wellFormed ss) (Predicate.wellFormed ts)) :
    Alike (v.reach (Predicate.wellFormed ss)) (v.infer us).1 (v.infer ss).1 := by
  rw [infer_valuation, infer_valuation, ← reach_byLength]
  exact h.settle_alike (interleaved.filterMap _).byLength apart.byLength

/-- Texts with unrelated predicates, interleaved in whatever way, do to the letters of either list what that
list does alone, and nothing to other letters, also where they lead to contradictions. They take as many
passes as the slower of the two lists. -/
theorem infer_interleaving (h : v.Reachable) {ss ts us : List String} (interleaved : Interleaving ss ts us)
    (apart : v.Apart (Predicate.wellFormed ss) (Predicate.wellFormed ts)) :
    (∀ l ∈ v.reach (Predicate.wellFormed ss), SameAt l (v.infer us).1 (v.infer ss).1) ∧
    (∀ l ∈ v.reach (Predicate.wellFormed ts), SameAt l (v.infer us).1 (v.infer ts).1) ∧
    (∀ l, l ∉ v.reach (Predicate.wellFormed ss) → l ∉ v.reach (Predicate.wellFormed ts) →
      SameAt l (v.infer us).1 v) ∧
    (v.infer us).2.passes = max (v.infer ss).2.passes (v.infer ts).2.passes := by
  have predicates : Interleaving (Predicate.wellFormed ss) (Predicate.wellFormed ts) (Predicate.wellFormed us) :=
    interleaved.filterMap _
  refine ⟨fun l hl => (h.rooted.infer_alike interleaved apart).sameAt hl,
    fun l hl => (h.rooted.infer_alike interleaved.symm apart.symm).sameAt hl, fun l hs ht => ?_, ?_⟩
  · have off : l ∉ v.reach (Predicate.wellFormed us) := by
      rw [mem_reach_interleaving predicates]
      exact not_or_intro hs ht
    exact (h.rooted.infer_off_reach us).sameAt off
  · rw [infer_passes, infer_passes, infer_passes]
    exact h.rooted.settle_passes_interleaving predicates.byLength apart.byLength

theorem infer_interleaving_contradictory :
    let v := empty.perform (.link ⟨0⟩ ⟨1⟩)
    let ss := ["~B", "A", "A>C"]
    let ts := ["E > F", "D>E", "d"]
    let us := ["E > F", "~B", "D>E", "A", "d", "A>C"]
    v.Reachable ∧ Interleaving ss ts us ∧ v.Apart (Predicate.wellFormed ss) (Predicate.wellFormed ts) ∧
    (v.infer us).1.get ⟨0⟩ = .invalid ∧
    (∀ l ∈ v.reach (Predicate.wellFormed ss), SameAt l (v.infer us).1 (v.infer ss).1) ∧
    (∀ l ∈ v.reach (Predicate.wellFormed ts), SameAt l (v.infer us).1 (v.infer ts).1) ∧
    (∀ l, l ∉ v.reach (Predicate.wellFormed ss) → l ∉ v.reach (Predicate.wellFormed ts) →
      SameAt l (v.infer us).1 v) ∧
    (v.infer us).2.passes = max (v.infer ss).2.passes (v.infer ts).2.passes := by
  intro v ss ts us
  have reachable : v.Reachable := .perform .empty (.link ⟨0⟩ ⟨1⟩)
  have interleaved : Interleaving ss ts us :=
    .right _ (.left _ (.right _ (.left _ (.right _ (.left _ .nil)))))
  have apart : v.Apart (Predicate.wellFormed ss) (Predicate.wellFormed ts) := by decide +kernel
  exact ⟨reachable, interleaved, apart, by decide +kernel, infer_interleaving reachable interleaved apart⟩

end Valuation

end FourValued
