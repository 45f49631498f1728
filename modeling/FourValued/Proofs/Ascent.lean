import FourValued.Proofs.Evidence
import FourValued.Proofs.Locality

/-!
# Values only rise

Every operation but the raw assignment keeps what is known, and so does every run of such operations. The
assignment keeps it only where it tells a letter nothing against what the letter already has. Inference and
reading an expression make no assignments: each is a run of direct operations (`DirectRun`), rule by rule and
letter by letter. So what writes and links keep, every operation keeps (`perform_induction`).
-/

namespace FourValued

namespace TruthValue

theorem le_iff {a b : TruthValue} : a ≤ b ↔
    (a = invalid → b = invalid) ∧ (a.isConcrete = true → b = a ∨ b = invalid) := by
  cases a <;> cases b <;> decide

theorem le_ofBool_iff {a : TruthValue} {b : Bool} : a ≤ ofBool b ↔ a = unknown ∨ a = ofBool b := by
  cases a <;> cases b <;> decide

end TruthValue

namespace Valuation

variable {u v w : Valuation} {os : List Operation} {o : Operation}

/-- Direct operations lead from one valuation to the other. -/
def DirectRun (v w : Valuation) : Prop := ∃ os : List Operation, (∀ o ∈ os, o.Direct) ∧ v.performAll os = w

theorem DirectRun.refl (v : Valuation) : v.DirectRun v := ⟨[], nofun, rfl⟩

theorem DirectRun.trans (h : u.DirectRun v) (k : v.DirectRun w) : u.DirectRun w := by
  obtain ⟨os, direct, rfl⟩ := h
  obtain ⟨os', direct', rfl⟩ := k
  exact ⟨os ++ os', List.forall_mem_append.2 ⟨direct, direct'⟩, performAll_append u os os'⟩

theorem DirectRun.perform (h : u.DirectRun v) (direct : o.Direct) : u.DirectRun (v.perform o) :=
  h.trans ⟨[o], List.forall_mem_singleton.2 direct, rfl⟩

theorem DirectRun.declareAll (h : u.DirectRun v) (ls : List Letter) : u.DirectRun (v.declareAll ls) := by
  induction ls generalizing v with
  | nil => exact h
  | cons l ls ih => exact ih (h.perform (.declare l))

theorem DirectRun.ponens (h : u.DirectRun v) (a c : Literal) : u.DirectRun (v.ponens a c) := by
  rcases v.ponens_cases a c with ⟨he, -⟩ | ⟨he, -, unknown⟩ | ⟨he, -⟩ <;> rw [he]
  · exact h
  · have asserted : v.put c.letter c.required = v.perform (.assertValue c.letter c.required) := by
      rw [Valuation.perform, assertValue_eq, unknown]
      rfl
    rw [asserted]
    exact h.perform (.assertValue c.letter c.required_ne_unknown)
  · exact (h.perform (.poison a.letter)).perform (.poison c.letter)

theorem DirectRun.apply (h : u.DirectRun v) (p : Predicate) : u.DirectRun (v.apply p) := by
  cases p with
  | assignment p => exact h.perform (.assertValue p.letter p.required_ne_unknown)
  | biconditional a b => exact h.perform (.link a b)
  | conditional a c =>
    rw [apply_conditional]
    have declared := (h.perform (.declare a.letter)).perform (.declare c.letter)
    exact (declared.ponens a c).ponens c.negate a.negate

theorem directRun_infer (v : Valuation) (ss : List String) : v.DirectRun (v.infer ss).1 :=
  infer_induction (fun _ run p _ => run.apply p) (.refl v)

theorem directRun_build (v : Valuation) (ts : Polish) : v.DirectRun (v.build ts).2 := by
  obtain ⟨ls, hls⟩ := v.exists_build_eq_declareAll ts
  rw [hls]
  exact (DirectRun.refl v).declareAll ls

theorem directRun_parse (v : Valuation) (s : String) : v.DirectRun (v.parse s).2 := by
  obtain ⟨ls, hls⟩ := v.exists_parse_eq_declareAll s
  rw [hls]
  exact (DirectRun.refl v).declareAll ls

section Induction

variable {P : Valuation → Prop} (put : ∀ v l x, P v → P (v.put l x)) (link : ∀ v a b, P v → P (v.link a b))
include put link

theorem DirectRun.induction (run : v.DirectRun w) (h : P v) : P w := by
  obtain ⟨os, direct, rfl⟩ := run
  refine performAll_induction (fun u hu o ho => ?_) h
  cases direct o ho with
  | declare l =>
    rw [Valuation.perform, declare_eq_put]
    exact put u l _ hu
  | assertValue l _ => exact put u l _ hu
  | poison l => exact put u l _ hu
  | link a b => exact link u a b hu

theorem perform_induction (h : P v) (o : Operation) : P (v.perform o) := by
  have along : ∀ {w}, v.DirectRun w → P w := fun run => run.induction put link h
  cases o with
  | declare l => exact along ((DirectRun.refl v).perform (.declare l))
  | assertValue l x => exact put v l _ h
  | poison l => exact put v l _ h
  | assign l b => exact put v l _ h
  | link a b => exact link v a b h
  | apply p => exact along ((DirectRun.refl v).apply p)
  | infer ss => exact along (v.directRun_infer ss)
  | build ts => exact along (v.directRun_build ts)
  | parse s => exact along (v.directRun_parse s)

end Induction

theorem grows_assign_iff (v : Valuation) (l : Letter) (b : Bool) :
    v.Grows (v.assign l b) ↔ v.get l = .unknown ∨ v.get l = .ofBool b := by
  rw [← TruthValue.le_ofBool_iff]
  constructor
  · intro grown
    have risen := grown.value l
    rwa [assign, get_put, if_pos rfl] at risen
  · exact grows_put

/-- Through operations other than assignments a contradiction stays, a truth value stays or becomes a
contradiction, and letters stay declared and linked. An assignment breaks this unless its letter was unknown
or had the value before; neither inference nor reading an expression contains one. -/
theorem values_only_rise (reachable : v.Reachable) :
    (∀ os : List Operation, (∀ o ∈ os, ∀ l b, o ≠ .assign l b) → ∀ l,
      (v.get l = .invalid → (v.performAll os).get l = .invalid) ∧
      ((v.get l).isConcrete = true →
        (v.performAll os).get l = v.get l ∨ (v.performAll os).get l = .invalid) ∧
      (v.isDeclared l = true → (v.performAll os).isDeclared l = true) ∧
      ∀ k, v.linked k l = true → (v.performAll os).linked k l = true) ∧
    (∀ l b, v.Grows (v.perform (.assign l b)) ↔ v.get l = .unknown ∨ v.get l = .ofBool b) ∧
    (∀ ss, v.DirectRun (v.infer ss).1) ∧
    ∀ s, v.DirectRun (v.parse s).2 := by
  refine ⟨fun os keeps l => ?_, v.grows_assign_iff, v.directRun_infer, v.directRun_parse⟩
  have grown := reachable.rooted.grows_performAll keeps
  obtain ⟨contradictory, concrete⟩ := TruthValue.le_iff.1 (grown.value l)
  exact ⟨contradictory, concrete, grown.declared l, fun k => grown.linked k l⟩

theorem values_only_rise_contradicted :
    let v := ((empty.perform (.assertValue ⟨0⟩ .tt)).perform (.link ⟨1⟩ ⟨0⟩)).perform (.poison ⟨3⟩)
    let os : List Operation := [.assertValue ⟨3⟩ .unknown, .infer ["A > ~C", "C"], .parse "E & (",
      .build [.binary .or, .var ⟨5⟩], .link ⟨6⟩ ⟨0⟩]
    let w := v.performAll os
    v.Reachable ∧ (∀ o ∈ os, ∀ l b, o ≠ .assign l b) ∧ v.get ⟨1⟩ = .tt ∧ w.get ⟨1⟩ = .invalid ∧
    (∀ l, (v.get l = .invalid → w.get l = .invalid) ∧
      ((v.get l).isConcrete = true → w.get l = v.get l ∨ w.get l = .invalid) ∧
      (v.isDeclared l = true → w.isDeclared l = true) ∧
      ∀ k, v.linked k l = true → w.linked k l = true) ∧
    ¬ v.Grows (v.perform (.assign ⟨1⟩ false)) := by
  intro v os w
  have reachable : v.Reachable :=
    .perform (.perform (.perform .empty (.assertValue ⟨0⟩ .tt)) (.link ⟨1⟩ ⟨0⟩)) (.poison ⟨3⟩)
  have keeps : ∀ o ∈ os, ∀ l b, o ≠ .assign l b := by
    simp only [os, List.forall_mem_cons]
    exact ⟨nofun, nofun, nofun, nofun, nofun, nofun⟩
  have before : v.get ⟨1⟩ = .tt := by decide +kernel
  have after : w.get ⟨1⟩ = .invalid := by decide +kernel
  obtain ⟨rise, assigns, -⟩ := values_only_rise reachable
  refine ⟨reachable, keeps, before, after, rise os keeps, fun grown => ?_⟩
  rcases (assigns ⟨1⟩ false).1 grown with h | h <;> rw [before] at h <;> cases h

end Valuation

end FourValued
