import FourValued.Proofs.Reachability

/-!
# Inference stops at a fixpoint

A predicate is spent when its letters are declared and the values and links leave it nothing to add. To apply
a predicate spends it (`Rooted.spent_apply`), and to apply a spent predicate changes nothing in the whole
valuation (`Rooted.apply_eq_self`). A spent predicate stays spent while links and declarations are added, as
long as the values stay. So the last pass of an inference, which changes no value but may still link letters,
leaves all its predicates spent.
-/

namespace FourValued

namespace TruthValue

theorem join_self (a : TruthValue) : join a a = a := by cases a <;> rfl

theorem revise_eq (a b : TruthValue) : revise a b = b ∨ revise a b = invalid := by
  unfold revise
  split
  · exact .inl rfl
  · split
    · next hab => exact .inl hab
    · exact .inr rfl

theorem revise_eq_self {a b : TruthValue} (h : a = b ∨ a = invalid) : revise a b = a := by
  rcases h with rfl | rfl
  · unfold revise
    rw [if_pos rfl, ite_self]
  · cases b <;> rfl

end TruthValue

/-- The values and links leave the predicate nothing to add. -/
def Predicate.Idle (v : Valuation) : Predicate → Prop
  | assignment p => v.get p.letter = p.required ∨ v.get p.letter = .invalid
  | biconditional l r => v.linked l r = true
  | conditional a c => (v.get a.letter = a.required → v.get c.letter = c.required) ∧
      (v.get c.letter = c.negate.required → v.get a.letter = a.negate.required)

structure Predicate.Spent (v : Valuation) (p : Predicate) : Prop where
  declared : ∀ l ∈ p.letters, v.isDeclared l = true
  idle : p.Idle v

namespace Valuation

variable {v w : Valuation} {p : Predicate} {ps : List Predicate}

theorem declare_eq_self {l : Letter} (hl : v.isDeclared l = true) : v.declare l = v := by
  rw [declare, LetterMap.set_eq_self hl]

theorem put_eq_self {l : Letter} {x : TruthValue} (hl : v.isDeclared l = true) (hx : v.get l = x) :
    v.put l x = v := by
  rw [put, declare_eq_self hl, LetterMap.set_eq_self hx]

theorem Rooted.link_eq_self (h : v.Rooted) {a b : Letter} (ha : v.isDeclared a = true)
    (hb : v.isDeclared b = true) (hab : v.linked a b = true) : v.link a b = v := by
  have same : v.representative b = v.representative a := (linked_iff.1 hab).symm
  have oriented : v.orient a b = (v.representative a, v.representative a) := by
    rcases v.orient_cases a b with ho | ho <;> rw [ho, same]
  have joined : (v.get a).join (v.get b) = v.get a := by
    rw [get_eq_of_linked hab, TruthValue.join_self]
  have cell : v.cells.get (v.representative a) = v.get a := rfl
  rw [Valuation.link, linkThenGet, oriented, joined]
  dsimp only
  rw [LetterMap.set_eq_self ha, LetterMap.set_eq_self hb,
    LetterMap.set_eq_self (h.parent_representative a), LetterMap.set_eq_self cell]

theorem ponens_eq_self {a c : Literal} (h : v.get a.letter = a.required → v.get c.letter = c.required) :
    v.ponens a c = v := by
  rcases v.ponens_cases a c with ⟨he, -⟩ | ⟨-, ha, hc⟩ | ⟨-, ha, -, hc⟩
  · exact he
  · exact absurd ((h ha).symm.trans hc) c.required_ne_unknown
  · exact absurd (h ha) hc

theorem Rooted.apply_eq_self (h : v.Rooted) (spent : p.Spent v) : v.apply p = v := by
  obtain ⟨declared, idle⟩ := spent
  cases p with
  | assignment p =>
    exact put_eq_self (declared p.letter (.head _)) (TruthValue.revise_eq_self idle).symm
  | biconditional l r =>
    exact h.link_eq_self (declared l (.head _)) (declared r (.tail _ (.head _))) idle
  | conditional a c =>
    have ha := declared a.letter (.head _)
    have hc := declared c.letter (.tail _ (.head _))
    rw [apply_conditional, declare_eq_self ha, declare_eq_self hc, ponens_eq_self idle.1]
    exact ponens_eq_self idle.2

theorem get_clash_right (v : Valuation) (a c : Literal) : (v.clash a c).get c.letter = .invalid := by
  rw [clash, poison, get_put, if_pos rfl]

theorem get_clash_left (v : Valuation) (a c : Literal) : (v.clash a c).get a.letter = .invalid := by
  rw [clash_comm, get_clash_right]

theorem get_consequent_ponens {a c : Literal} (ha : (v.ponens a c).get a.letter = a.required) :
    (v.ponens a c).get c.letter = c.required := by
  rcases v.ponens_cases a c with ⟨he, h⟩ | ⟨he, -⟩ | ⟨he, -⟩ <;> rw [he] at ha ⊢
  · exact h ha
  · rw [get_put, if_pos rfl]
  · rw [get_clash_left] at ha
    exact absurd ha.symm a.required_ne_invalid

theorem get_consequent_contrapositive {a c : Literal}
    (h : v.get a.letter = a.required → v.get c.letter = c.required)
    (ha : (v.ponens c.negate a.negate).get a.letter = a.required) :
    (v.ponens c.negate a.negate).get c.letter = c.required := by
  rcases v.ponens_cases c.negate a.negate with ⟨he, -⟩ | ⟨he, -⟩ | ⟨he, -⟩ <;> rw [he] at ha ⊢
  · exact h ha
  · rw [show a.letter = a.negate.letter from rfl, get_put, if_pos rfl] at ha
    exact absurd ha a.negate_required_ne
  · rw [show a.letter = a.negate.letter from rfl, get_clash_right] at ha
    exact absurd ha.symm a.required_ne_invalid

theorem isDeclared_apply (v : Valuation) (p : Predicate) :
    ∀ l ∈ p.letters, (v.apply p).isDeclared l = true := by
  intro l hl
  cases p with
  | assignment p =>
    obtain rfl := List.mem_singleton.1 hl
    exact (isDeclared_put v _ _ _).trans (by simp)
  | biconditional a b =>
    have hl : l = a ∨ l = b := by simpa [Predicate.letters] using hl
    exact (isDeclared_link v a b l).trans (by rcases hl with rfl | rfl <;> simp)
  | conditional a c =>
    have hl : l = a.letter ∨ l = c.letter := by simpa [Predicate.letters] using hl
    rw [apply_conditional]
    refine (grows_ponens _ c.negate a.negate).declared l ((grows_ponens _ a c).declared l ?_)
    rw [isDeclared_declare, isDeclared_declare]
    rcases hl with rfl | rfl <;> simp

theorem Rooted.spent_apply (h : v.Rooted) (p : Predicate) : p.Spent (v.apply p) := by
  refine ⟨v.isDeclared_apply p, ?_⟩
  cases p with
  | assignment p =>
    have written : (v.apply (.assignment p)).get p.letter = (v.get p.letter).revise p.required :=
      (get_put v _ _ _).trans (if_pos rfl)
    rw [Predicate.Idle, written]
    exact TruthValue.revise_eq _ _
  | biconditional l r => exact (h.linked_link l r l r).2 (.inr (.inl ⟨linked_iff.2 rfl, linked_iff.2 rfl⟩))
  | conditional a c =>
    rw [apply_conditional]
    exact ⟨get_consequent_contrapositive get_consequent_ponens, get_consequent_ponens⟩

theorem Grows.spent (h : v.Grows w) (same : ∀ l, w.get l = v.get l) (spent : p.Spent v) : p.Spent w := by
  refine ⟨fun l hl => h.declared l (spent.declared l hl), ?_⟩
  have idle := spent.idle
  cases p with
  | assignment p => rwa [Predicate.Idle, same]
  | biconditional l r => exact h.linked l r idle
  | conditional a c => rwa [Predicate.Idle, same, same]

theorem Rooted.spent_applyAll (h : v.Rooted) (quiet : v.Quiet ps) : ∀ p ∈ ps, p.Spent (v.applyAll ps) := by
  intro p hp
  obtain ⟨before, after, rfl⟩ := List.append_of_mem hp
  rw [Quiet] at quiet
  rw [applyAll_append, applyAll_cons] at quiet ⊢
  -- The values at `p` lie between those before the pass and those after it, which are the same.
  have hbefore := h.applyAll before
  have start := (h.grows_applyAll before).trans (hbefore.grows_apply p)
  have rest := (hbefore.apply p).grows_applyAll after
  have at_p := start.get_eq_of_quiet rest quiet
  exact rest.spent (fun l => (quiet l).trans (at_p l).symm) (hbefore.spent_apply p)

theorem Rooted.spent_settle (h : v.Rooted) (ps : List Predicate) :
    ∀ p ∈ ps, p.Spent (v.settle ps maxPasses).valuation := by
  obtain ⟨k, -, last, quiet⟩ := h.exists_last_pass ps
  rw [last, passed_succ]
  exact (h.passed ps k).spent_applyAll quiet

theorem Rooted.spent_infer (h : v.Rooted) (ss : List String) :
    ∀ p ∈ Predicate.wellFormed ss, p.Spent (v.infer ss).1 := by
  intro p hp
  rw [infer_valuation]
  exact h.spent_settle _ p (Predicate.mem_byLength.2 hp)

theorem applyAll_eq_self (fixed : ∀ p ∈ ps, v.apply p = v) : v.applyAll ps = v :=
  applyAll_induction (P := fun u => u = v) (fun _ hu p hp => hu ▸ fixed p hp) rfl

theorem Rooted.applyAll_settle (h : v.Rooted) (ps : List Predicate) :
    (v.settle ps maxPasses).valuation.applyAll ps = (v.settle ps maxPasses).valuation := by
  have rooted : (v.settle ps maxPasses).valuation.Rooted :=
    settle_induction (fun _ hu p _ => hu.apply p) maxPasses h
  exact applyAll_eq_self fun p hp => rooted.apply_eq_self (h.spent_settle ps p hp)

theorem Rooted.passed_eq_settle (h : v.Rooted) {k : ℕ} (hk : (v.settle ps maxPasses).passes ≤ k) :
    v.passed ps k = (v.settle ps maxPasses).valuation := by
  obtain ⟨n, hn, last, -⟩ := h.exists_last_pass ps
  rw [hn] at hk
  induction k, hk using Nat.le_induction with
  | base => exact last.symm
  | succ k _ ih => rw [passed_succ, ih, h.applyAll_settle]

theorem Rooted.settle_passes_le_iff (h : v.Rooted) (ps : List Predicate) (k : ℕ) :
    (v.settle ps maxPasses).passes ≤ k + 1 ↔ (v.passed ps k).Quiet ps := by
  refine ⟨fun hk => ?_, fun quiet => settle_passes_le_of_quiet quiet maxPasses⟩
  obtain ⟨n, hn, -, quiet⟩ := h.exists_last_pass ps
  rcases Nat.eq_or_lt_of_le hk with hk | hk
  · obtain rfl : n = k := by omega
    exact quiet
  · rw [h.passed_eq_settle (Nat.le_of_lt_succ hk)]
    intro l
    rw [h.applyAll_settle]

theorem settle_of_fixed (fixed : v.applyAll ps = v) (n : ℕ) : v.settle ps (n + 1) = ⟨v, 1, true⟩ := by
  rw [settle]
  dsimp only
  rw [fixed, if_pos rfl]

theorem infer_of_fixed {ss : List String} (fixed : ∀ p ∈ Predicate.wellFormed ss, v.apply p = v) :
    v.infer ss = (v, ⟨1, true, Predicate.malformed ss⟩) := by
  have pass : v.applyAll (Predicate.byLength (Predicate.wellFormed ss)) = v :=
    applyAll_eq_self fun p hp => fixed p (Predicate.mem_byLength.1 hp)
  have settled : v.settle (Predicate.byLength (Predicate.wellFormed ss)) maxPasses = ⟨v, 1, true⟩ :=
    settle_of_fixed pass 63
  rw [infer, settled]

/-- After an inference its predicates change nothing any more, however often and in whatever order they are
applied, and an inference from some of its texts takes one pass. -/
theorem infer_fixed (h : v.Reachable) (ss : List String) :
    let w := (v.infer ss).1
    (∀ ps : List Predicate, ps ⊆ Predicate.wellFormed ss → w.applyAll ps = w) ∧
    ∀ ts : List String, ts ⊆ ss → w.infer ts = (w, ⟨1, true, Predicate.malformed ts⟩) := by
  intro w
  have fixed : ∀ p ∈ Predicate.wellFormed ss, w.apply p = w := fun p hp =>
    (h.rooted.infer ss).apply_eq_self (h.rooted.spent_infer ss p hp)
  constructor
  · intro ps some_of
    exact applyAll_eq_self fun p hp => fixed p (some_of hp)
  · intro ts some_of
    exact infer_of_fixed fun p hp => fixed p (List.filterMap_subset _ some_of hp)

theorem infer_fixed_contradictory :
    let v := (empty.perform (.assign ⟨0⟩ true)).perform (.link ⟨1⟩ ⟨2⟩)
    let ss := ["a > b", "~C", "A ? B", "D=A"]
    let w := (v.infer ss).1
    v.Reachable ∧ w.get ⟨0⟩ = .invalid ∧
    w.applyAll [.biconditional ⟨3⟩ ⟨0⟩, .assignment ⟨⟨2⟩, true⟩, .biconditional ⟨3⟩ ⟨0⟩] = w ∧
    w.infer ["A ? B", "~C", "~C"] = (w, ⟨1, true, [⟨"A ? B", .assignmentShape⟩]⟩) := by
  intro v ss w
  have reachable : v.Reachable := .perform (.perform .empty (.assign ⟨0⟩ true)) (.link ⟨1⟩ ⟨2⟩)
  obtain ⟨applied, inferred⟩ := infer_fixed reachable ss
  exact ⟨reachable, by decide +kernel, applied _ (by decide), inferred _ (by decide)⟩

end Valuation

end FourValued
