import FourValued.Proofs.Ascent
import FourValued.Proofs.Decisions

/-!
# Concrete results are robust

A formula that is true or false stays so whatever becomes of its letters that are neither
(`Formula.eval_of_concrete`). The rows of a truth table change no letter that is known, so a result that is true
or false is that of every row (`TruthTable.result_of_concrete`). Inference takes a letter that is true or false
nowhere but to a contradiction, so only a contradiction among such letters ends a result that is true or false.
-/

namespace FourValued

open Text

variable {t : Session}

theorem TruthValue.ne_unknown_of_isConcrete {x : TruthValue} (h : x.isConcrete = true) : x ≠ .unknown := by
  rintro rfl
  cases h

theorem TruthTable.result_of_concrete (rooted : t.valuation.Rooted) (concrete : t.evaluate.isConcrete = true)
    (i : ℕ) : ((full t).row i).result = t.evaluate := by
  rw [result_full]
  refine t.root.eval_of_concrete (fun l _ concrete_l => ?_) concrete
  exact get_assignment_known rooted (TruthValue.ne_unknown_of_isConcrete concrete_l) i

theorem Valuation.Grows.exists_contradicted {v w : Valuation} (h : v.Grows w) {f : Formula}
    (concrete : (f.eval v.get).isConcrete = true) (lost : f.eval w.get ≠ f.eval v.get) :
    ∃ l ∈ f.letters, (v.get l).isConcrete = true ∧ w.get l = .invalid := by
  by_contra consistent
  push Not at consistent
  refine lost (f.eval_of_concrete (fun l hl concrete_l => ?_) concrete)
  have risen := (TruthValue.le_iff.1 (h.value l)).2 concrete_l
  exact risen.resolve_right (consistent l hl concrete_l)

namespace Session

/-- A formula that is true or false under one valuation has the same value under each other that agrees on the
letters that are true or false. So a session with such a result has it in all rows of its truth table, and
loses it in further inferences only if a letter of the expression that was true or false becomes
contradictory. -/
theorem concrete_result_robust :
    (∀ (f : Formula) (v w : Valuation),
      (∀ l ∈ f.letters, (v.get l).isConcrete = true → w.get l = v.get l) →
      (f.eval v.get).isConcrete = true → f.eval w.get = f.eval v.get) ∧
    ∀ (s : String) (t : Session), parse s = .ok t → ∀ calls : List (List String),
      let u := t.inferAll calls
      u.evaluate.isConcrete = true →
        (∀ T, TruthTable.ofSession u = .ok T → ∀ r ∈ T.rows, r.result = u.evaluate) ∧
        ∀ more : List (List String), (u.inferAll more).evaluate ≠ u.evaluate →
          ∃ l : Letter, l.char ∈ canonical s ∧ (u.value l).isConcrete = true ∧
            (u.inferAll more).value l = .invalid := by
  refine ⟨fun f v w agree concrete => f.eval_of_concrete agree concrete, ?_⟩
  intro s t parsed calls u concrete
  obtain ⟨rooted, e, he, root, -⟩ := inferAll_of_parse parsed calls
  refine ⟨fun T tabulated r hr => ?_, fun more lost => ?_⟩
  · obtain rfl := TruthTable.eq_full_of_ofSession tabulated
    obtain ⟨i, -, rfl⟩ := List.mem_map.1 hr
    exact TruthTable.result_of_concrete rooted concrete i
  · rw [evaluate, root_inferAll] at lost
    obtain ⟨l, hl, before, after⟩ := (grows_inferAll rooted more).exists_contradicted concrete lost
    exact ⟨l, (he.mem_letters_iff l).1 (root ▸ hl), before, after⟩

theorem concrete_result_robust_until_contradiction :
    let s := "a & B"
    let f := Formula.binary .and (.var ⟨0⟩) (.var ⟨1⟩)
    let t : Session := ⟨f, Valuation.empty.declareAll f.letters⟩
    let u := t.inferAll [["~A"]]
    let T := TruthTable.full u
    let more := [["C"], ["C > A"]]
    parse s = .ok t ∧ TruthTable.ofSession u = .ok T ∧ u.evaluate = .ff ∧
    (u.inferAll more).evaluate = .invalid ∧
    f.eval (u.valuation.poison ⟨1⟩).get = .ff ∧
    (∀ r ∈ T.rows, r.result = .ff) ∧
    ∃ l : Letter, l.char ∈ canonical s ∧ (u.value l).isConcrete = true ∧
      (u.inferAll more).value l = .invalid := by
  intro s f t u T more
  have derives : (Sentence.plain (.binary .and (.letter ⟨0⟩) (.single (.letter ⟨1⟩)))).Derives s := by decide
  have parsed : parse s = .ok t := parse_eq_ok_iff.2 ⟨_, derives, rfl⟩
  obtain ⟨tabulated, result, later, agree⟩ : TruthTable.ofSession u = .ok T ∧ u.evaluate = .ff ∧
      (u.inferAll more).evaluate = .invalid ∧ ∀ l ∈ f.letters,
        (u.value l).isConcrete = true → (u.valuation.poison ⟨1⟩).get l = u.value l := by decide +kernel
  have concrete : u.evaluate.isConcrete = true := TruthValue.isConcrete_of_eq (b := false) result
  have lost : (u.inferAll more).evaluate ≠ u.evaluate := by
    rw [later, result]
    nofun
  obtain ⟨formulas, sessions⟩ := concrete_result_robust
  obtain ⟨rows, contradicted⟩ := sessions s t parsed [["~A"]] concrete
  refine ⟨parsed, tabulated, result, later, ?_, fun r hr => ?_, contradicted more lost⟩
  · exact (formulas f u.valuation _ agree concrete).trans result
  · exact (rows T tabulated r hr).trans result

end Session

end FourValued
