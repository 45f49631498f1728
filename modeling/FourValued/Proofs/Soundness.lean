import FourValued.Proofs.Meaning
import FourValued.Proofs.Support

/-!
# Inference is sound

An assignment of Booleans to the letters satisfies a set of literals. If it satisfies the predicates, that
set is closed under them and not contradictory, so it supports all that a session infers: no letter becomes
contradictory, and letters and expressions that have a truth value have the one under the assignment.
-/

namespace FourValued

variable {σ : Letter → Bool}

def Literal.Holds (σ : Letter → Bool) (p : Literal) : Prop := σ p.letter = !p.negated

/-- A conditional between literals is a material one. -/
def Predicate.Holds (σ : Letter → Bool) : Predicate → Prop
  | assignment p => p.Holds σ
  | biconditional l r => σ l = σ r
  | conditional a c => a.Holds σ → c.Holds σ

instance (p : Literal) : Decidable (p.Holds σ) := inferInstanceAs (Decidable (σ p.letter = !p.negated))

instance : (p : Predicate) → Decidable (p.Holds σ)
  | .assignment p => inferInstanceAs (Decidable (p.Holds σ))
  | .biconditional l r => inferInstanceAs (Decidable (σ l = σ r))
  | .conditional a c => inferInstanceAs (Decidable (a.Holds σ → c.Holds σ))

def satisfied (σ : Letter → Bool) : Set Literal := {p | p.Holds σ}

theorem mem_satisfied {p : Literal} : p ∈ satisfied σ ↔ p.Holds σ := Iff.rfl

theorem Literal.holds_negate_iff (p : Literal) : p.negate.Holds σ ↔ ¬ p.Holds σ := by
  simp only [Holds, negate, Bool.not_not, Bool.not_eq_not]

theorem Predicate.Holds.closes {p : Predicate} (h : p.Holds σ) : p.Closes (satisfied σ) := by
  cases p with
  | assignment p => exact h
  | biconditional l r =>
    have alike : σ l = σ r := h
    intro n
    simp only [mem_satisfied, Literal.Holds, alike]
  | conditional a c =>
    refine ⟨h, fun hc => ?_⟩
    rw [mem_satisfied, Literal.holds_negate_iff] at hc ⊢
    exact fun ha => hc (h ha)

theorem not_contradictory_satisfied : ¬ Contradictory (satisfied σ) := by
  rintro ⟨l, htrue, hfalse⟩
  have ht : σ l = true := htrue
  have hf : σ l = false := hfalse
  rw [ht] at hf
  cases hf

theorem TruthValue.ofBool_injective {a b : Bool} (h : TruthValue.ofBool a = .ofBool b) : a = b := by
  revert h
  cases a <;> cases b <;> decide

theorem eq_of_backs_satisfied {l : Letter} {x : TruthValue} (h : Backs (satisfied σ) l x) :
    x ≠ .invalid ∧ ∀ b, x = .ofBool b → σ l = b := by
  constructor
  · rintro rfl
    exact not_contradictory_satisfied h.2
  · rintro b rfl
    cases b
    · exact h
    · exact h

namespace Session

theorem parse_eq_ok_iff {s : String} {t : Session} : parse s = .ok t ↔ ∃ e : Sentence,
    e.Derives s ∧ t = ⟨e.formula, Valuation.empty.declareAll e.formula.letters⟩ := by
  constructor
  · intro h
    rw [parse] at h
    split at h
    · next f v hp =>
      obtain ⟨e, he, rfl⟩ := Valuation.exists_derives_of_parse (congrArg Prod.fst hp)
      rw [he.parse_eq] at hp
      cases hp
      cases h
      exact ⟨e, he, rfl⟩
    · cases h
  · rintro ⟨e, he, rfl⟩
    rw [parse, he.parse_eq]

/-- A session infers only what holds under every assignment that satisfies its predicates. -/
theorem inferAll_sound {s : String} {t : Session} (parsed : parse s = .ok t) (calls : List (List String))
    {σ : Letter → Bool} (model : ∀ ss ∈ calls, ∀ p ∈ Predicate.wellFormed ss, p.Holds σ) :
    let u := t.inferAll calls
    (∀ l, u.value l ≠ .invalid) ∧ (∀ l b, u.value l = .ofBool b → σ l = b) ∧
    (∃! e : Sentence, e.Derives s) ∧
    ∀ e : Sentence, e.Derives s → ∀ b, u.evaluate = .ofBool b → e.truth σ = b := by
  intro u
  obtain ⟨e, he, rfl⟩ := parse_eq_ok_iff.1 parsed
  have supported : u.valuation.Supported (satisfied σ) := by
    refine supported_inferAll (Valuation.supported_declareAll_empty _ _) ?_
      fun ss hss p hp => (model ss hss p hp).closes
    exact Valuation.rooted_empty.congr (Valuation.parent_declareAll _ _).symm
  have root : u.root = e.formula := root_inferAll _ calls
  clear_value u
  have value : ∀ l, u.value l ≠ .invalid ∧ ∀ b, u.value l = .ofBool b → σ l = b :=
    fun l => eq_of_backs_satisfied (supported.value l)
  refine ⟨fun l => (value l).1, fun l => (value l).2, ⟨e, he, fun d hd => hd.unique he⟩, ?_⟩
  intro d hd b hb
  obtain rfl := hd.unique he
  rw [evaluate, root] at hb
  have agree : ∀ l ∈ d.formula.letters, (u.value l).isConcrete → TruthValue.ofBool (σ l) = u.value l := by
    intro l _ hc
    have known := (value l).2
    cases hv : u.value l with
    | tt => rw [known true hv]; rfl
    | ff => rw [known false hv]; rfl
    | unknown => rw [hv] at hc; cases hc
    | invalid => rw [hv] at hc; cases hc
  have classical := Formula.eval_of_concrete d.formula agree (TruthValue.isConcrete_of_eq hb)
  rw [d.eval_formula_ofBool, hb] at classical
  exact TruthValue.ofBool_injective classical

theorem inferAll_sound_twice :
    let s := "p > ~Q"
    let f := Formula.binary .or (.neg (.var ⟨15⟩)) (.neg (.var ⟨16⟩))
    let t : Session := ⟨f, Valuation.empty.declareAll f.letters⟩
    let calls := [["P"], ["P > ~Q", "P=Q=R"]]
    let σ := fun l : Letter => decide (l = ⟨15⟩)
    parse s = .ok t ∧ (∀ ss ∈ calls, ∀ p ∈ Predicate.wellFormed ss, p.Holds σ) ∧
    let u := t.inferAll calls
    (∀ l, u.value l ≠ .invalid) ∧ (∀ l b, u.value l = .ofBool b → σ l = b) ∧
    (∃! e : Sentence, e.Derives s) ∧
    ∀ e : Sentence, e.Derives s → ∀ b, u.evaluate = .ofBool b → e.truth σ = b := by
  intro s f t calls σ
  have derives : (Sentence.conditional (.single (.letter ⟨15⟩))
      (.single (.neg (.letter ⟨16⟩)))).Derives s := by decide
  have parsed : parse s = .ok t := parse_eq_ok_iff.2 ⟨_, derives, rfl⟩
  have model : ∀ ss ∈ calls, ∀ p ∈ Predicate.wellFormed ss, p.Holds σ := by decide
  exact ⟨parsed, model, inferAll_sound parsed calls model⟩

end Session

end FourValued
