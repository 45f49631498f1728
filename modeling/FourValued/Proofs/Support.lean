import Mathlib.Data.Set.Basic
import FourValued.Proofs.Fixpoint

/-!
# Sets of literals that support a valuation

A set of literals is closed under a predicate when it holds whatever the predicate lets one infer from it. A
valuation is supported by a set when each value that is not unknown stands on a literal of the set, no value
is contradictory unless the set is, and linked letters are alike to the set. Support by a closed set is kept
by inference (`Supported.apply`). Conversely, where there is no contradiction, the literals that hold are
closed under every spent predicate (`closes_held`).
-/

namespace FourValued

def Predicate.Closes (S : Set Literal) : Predicate → Prop
  | assignment p => p ∈ S
  | biconditional l r => ∀ n, (⟨l, n⟩ : Literal) ∈ S ↔ (⟨r, n⟩ : Literal) ∈ S
  | conditional a c => (a ∈ S → c ∈ S) ∧ (c.negate ∈ S → a.negate ∈ S)

def Contradictory (S : Set Literal) : Prop := ∃ l, (⟨l, false⟩ : Literal) ∈ S ∧ (⟨l, true⟩ : Literal) ∈ S

/-- What a set must hold for a letter to have a value. -/
def Backs (S : Set Literal) (l : Letter) : TruthValue → Prop
  | .unknown => True
  | .tt => (⟨l, false⟩ : Literal) ∈ S
  | .ff => (⟨l, true⟩ : Literal) ∈ S
  | .invalid => ((⟨l, false⟩ : Literal) ∈ S ∨ (⟨l, true⟩ : Literal) ∈ S) ∧ Contradictory S

variable {S : Set Literal}

theorem backs_required (p : Literal) : Backs S p.letter p.required ↔ p ∈ S := by
  obtain ⟨l, n⟩ := p
  cases n <;> exact Iff.rfl

theorem backs_invalid {p : Literal} (hp : p ∈ S) (hS : Contradictory S) : Backs S p.letter .invalid := by
  obtain ⟨l, n⟩ := p
  cases n
  · exact ⟨.inl hp, hS⟩
  · exact ⟨.inr hp, hS⟩

theorem backs_congr {k l : Letter} {x : TruthValue}
    (alike : ∀ n, (⟨k, n⟩ : Literal) ∈ S ↔ (⟨l, n⟩ : Literal) ∈ S) (h : Backs S l x) : Backs S k x := by
  cases x with
  | unknown => trivial
  | tt => exact (alike false).2 h
  | ff => exact (alike true).2 h
  | invalid => exact ⟨h.1.imp (alike false).2 (alike true).2, h.2⟩

theorem backs_join {l : Letter} {x y : TruthValue} (hx : Backs S l x) (hy : Backs S l y) :
    Backs S l (x.join y) := by
  cases x <;> cases y <;> first
    | exact hx
    | exact hy
    | exact ⟨.inl hx, l, hx, hy⟩
    | exact ⟨.inl hy, l, hy, hx⟩

theorem contradictory_of_conflict {p : Literal} {x : TruthValue} (hp : p ∈ S) (hx : Backs S p.letter x)
    (known : x ≠ .unknown) (hne : x ≠ p.required) : Contradictory S := by
  obtain ⟨l, n⟩ := p
  cases x with
  | unknown => exact absurd rfl known
  | invalid => exact hx.2
  | tt =>
    cases n
    · exact absurd rfl hne
    · exact ⟨l, hx, hp⟩
  | ff =>
    cases n
    · exact ⟨l, hp, hx⟩
    · exact absurd rfl hne

namespace Valuation

structure Supported (S : Set Literal) (v : Valuation) : Prop where
  value : ∀ l, Backs S l (v.get l)
  linked : ∀ a b, v.linked a b = true → ∀ n, (⟨a, n⟩ : Literal) ∈ S ↔ (⟨b, n⟩ : Literal) ∈ S

variable {u v w : Valuation}

theorem Supported.mem_of_get_eq (h : v.Supported S) {p : Literal} (hp : v.get p.letter = p.required) :
    p ∈ S := (backs_required p).1 (hp ▸ h.value p.letter)

theorem Supported.declare (h : v.Supported S) (l : Letter) : (v.declare l).Supported S := by
  refine ⟨fun k => ?_, fun a b hab => h.linked a b ?_⟩
  · rw [get_declare]
    exact h.value k
  · rwa [linked_declare] at hab

theorem Supported.put (h : v.Supported S) {l : Letter} {x : TruthValue} (hx : Backs S l x) :
    (v.put l x).Supported S := by
  refine ⟨fun k => ?_, fun a b hab => h.linked a b ?_⟩
  · rw [get_put]
    split
    · next hk => exact backs_congr (h.linked k l (linked_iff.2 hk)) hx
    · exact h.value k
  · rwa [linked_put] at hab

theorem Supported.assertValue (h : v.Supported S) {p : Literal} (hp : p ∈ S) :
    (v.assertValue p.letter p.required).Supported S := by
  apply h.put
  rw [TruthValue.revise_eq_join _ p.required_ne_unknown]
  exact backs_join (h.value p.letter) ((backs_required p).2 hp)

theorem Supported.link (h : v.Supported S) (rooted : v.Rooted) {a b : Letter}
    (alike : ∀ n, (⟨a, n⟩ : Literal) ∈ S ↔ (⟨b, n⟩ : Literal) ∈ S) : (v.link a b).Supported S := by
  refine ⟨fun k => ?_, fun k l hkl n => ?_⟩
  · rw [rooted.get_link a b]
    split
    · next hk =>
      have joined : Backs S a ((v.get a).join (v.get b)) :=
        backs_join (h.value a) (backs_congr alike (h.value b))
      rcases hk with hk | hk
      · exact backs_congr (h.linked k a hk) joined
      · exact backs_congr (fun n => (h.linked k b hk n).trans (alike n).symm) joined
    · exact h.value k
  · have below : v.classes ≤ Setoid.ker fun k n => (⟨k, n⟩ : Literal) ∈ S :=
      fun k l hkl => funext fun n => propext (h.linked k l (classes_iff.1 hkl) n)
    have within := rooted.classes_link_le a b below (funext fun n => propext (alike n))
    exact Iff.of_eq (congrFun (within (classes_iff.2 hkl)) n)

theorem Supported.clash (h : v.Supported S) {a c : Literal} (ha : a ∈ S) (hc : c ∈ S)
    (hS : Contradictory S) : (v.clash a c).Supported S :=
  (h.put (backs_invalid ha hS)).put (backs_invalid hc hS)

theorem Supported.ponens (h : v.Supported S) {a c : Literal} (closed : a ∈ S → c ∈ S) :
    (v.ponens a c).Supported S := by
  rcases v.ponens_cases a c with ⟨he, -⟩ | ⟨he, ha, -⟩ | ⟨he, ha, known, hne⟩ <;> rw [he]
  · exact h
  · exact h.put ((backs_required c).2 (closed (h.mem_of_get_eq ha)))
  · have hc := closed (h.mem_of_get_eq ha)
    exact h.clash (h.mem_of_get_eq ha) hc (contradictory_of_conflict hc (h.value c.letter) known hne)

theorem Supported.apply (h : v.Supported S) (rooted : v.Rooted) {p : Predicate} (closed : p.Closes S) :
    (v.apply p).Supported S := by
  cases p with
  | assignment p => exact h.assertValue closed
  | biconditional l r => exact h.link rooted closed
  | conditional a c =>
    rw [apply_conditional]
    exact (((h.declare a.letter).declare c.letter).ponens closed.1).ponens closed.2

theorem Supported.infer (h : v.Supported S) (rooted : v.Rooted) {ss : List String}
    (closed : ∀ p ∈ Predicate.wellFormed ss, p.Closes S) : (v.infer ss).1.Supported S :=
  rooted.infer_induction (fun _ hu supported p hp => supported.apply hu (closed p hp)) h

theorem supported_declareAll_empty (S : Set Literal) (ls : List Letter) :
    (empty.declareAll ls).Supported S := by
  have rep : ∀ l, (empty.declareAll ls).representative l = l := by
    intro l
    rw [representative_congr (parent_declareAll empty ls), representative_empty]
  refine ⟨fun l => ?_, fun a b hab n => ?_⟩
  · rw [get, cells_declareAll, empty, LetterMap.get_const]
    trivial
  · rw [linked_iff, rep, rep] at hab
    rw [hab]

def held (v : Valuation) : Set Literal := {p | v.get p.letter = p.required}

theorem mem_held {p : Literal} : p ∈ v.held ↔ v.get p.letter = p.required := Iff.rfl

theorem mem_held_plain {l : Letter} : (⟨l, false⟩ : Literal) ∈ v.held ↔ v.get l = .tt := Iff.rfl

theorem mem_held_negated {l : Letter} : (⟨l, true⟩ : Literal) ∈ v.held ↔ v.get l = .ff := Iff.rfl

theorem not_contradictory_held (v : Valuation) : ¬ Contradictory v.held := by
  rintro ⟨l, htrue, hfalse⟩
  rw [mem_held_plain] at htrue
  rw [mem_held_negated, htrue] at hfalse
  cases hfalse

theorem closes_held {p : Predicate} (spent : p.Spent v) (consistent : ∀ l, v.get l ≠ .invalid) :
    p.Closes v.held := by
  have idle := spent.idle
  cases p with
  | assignment p => exact idle.resolve_right (consistent p.letter)
  | biconditional l r =>
    intro n
    simp only [mem_held, get_eq_of_linked idle, Literal.required]
  | conditional a c => exact idle

end Valuation

theorem Session.supported_inferAll {t : Session} (h : t.valuation.Supported S)
    (rooted : t.valuation.Rooted) {calls : List (List String)}
    (closed : ∀ ss ∈ calls, ∀ p ∈ Predicate.wellFormed ss, p.Closes S) :
    (t.inferAll calls).valuation.Supported S :=
  inferAll_induction_of_rooted rooted
    (fun _ hv supported ss hss p hp => supported.apply hv (closed ss hss p hp)) h

end FourValued
