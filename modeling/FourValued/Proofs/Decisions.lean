import FourValued.Proofs.Rows

/-!
# Rows are decided

In a row of a truth table no declared letter is unknown, since the row decides each free class and the others
were known before. The letters of the formula are those that occur in the expression, and they are declared.
So the result of a row is not unknown either, and where no letter of the expression is contradictory it is
the classical truth value of the expression.
-/

namespace FourValued

open Text

theorem Formula.eval_ne {value : Letter → TruthValue} {x : TruthValue} (f : Formula)
    (hx : x.isConcrete = false) (h : ∀ l ∈ f.letters, value l ≠ x) : f.eval value ≠ x := by
  induction f with
  | var l => exact h l (List.mem_singleton_self l)
  | neg f ih => exact TruthValue.negate_ne hx (ih h)
  | binary c l r ihl ihr =>
    exact c.apply_ne hx (ihl fun k hk => h k (List.mem_append_left _ hk))
      (ihr fun k hk => h k (List.mem_append_right _ hk))

theorem TruthValue.exists_ofBool {x : TruthValue} (known : x ≠ .unknown) (consistent : x ≠ .invalid) :
    ∃ b, x = .ofBool b := by
  cases x with
  | tt => exact ⟨true, rfl⟩
  | ff => exact ⟨false, rfl⟩
  | unknown => exact absurd rfl known
  | invalid => exact absurd rfl consistent

namespace TruthTable

variable {t : Session} {c : Letter}

theorem get_assignment_known (rooted : t.valuation.Rooted) (known : t.valuation.get c ≠ .unknown) (i : ℕ) :
    ((full t).assignment i).get c = t.valuation.get c := by
  refine get_assignment_other rooted (fun l hl => Bool.eq_false_iff.2 fun linked => known ?_) i
  exact (Valuation.get_eq_of_linked linked).trans (Valuation.mem_leaders.1 hl).2.1

theorem get_assignment_cases (rooted : t.valuation.Rooted) (declared : t.valuation.isDeclared c = true)
    (i : ℕ) : (∃ b, ((full t).assignment i).get c = .ofBool b) ∨
      (((full t).assignment i).get c = t.valuation.get c ∧ t.valuation.get c ≠ .unknown) := by
  by_cases unknown : t.valuation.get c = .unknown
  · left
    obtain ⟨l, hl, linked⟩ := Valuation.exists_leader declared unknown
    obtain ⟨j, hj⟩ := List.getElem?_of_mem hl
    exact ⟨_, get_assignment_leader rooted hj linked i⟩
  · right
    exact ⟨get_assignment_known rooted unknown i, unknown⟩

theorem get_assignment_ne_unknown (rooted : t.valuation.Rooted) (declared : t.valuation.isDeclared c = true)
    (i : ℕ) : ((full t).assignment i).get c ≠ .unknown := by
  rcases get_assignment_cases rooted declared i with ⟨b, hb⟩ | ⟨same, known⟩
  · rw [hb]
    cases b <;> nofun
  · rwa [same]

theorem get_assignment_ne_invalid (rooted : t.valuation.Rooted) (declared : t.valuation.isDeclared c = true)
    (consistent : t.valuation.get c ≠ .invalid) (i : ℕ) : ((full t).assignment i).get c ≠ .invalid := by
  rcases get_assignment_cases rooted declared i with ⟨b, hb⟩ | ⟨same, -⟩
  · rw [hb]
    cases b <;> nofun
  · rwa [same]

theorem get_assignment_of_linked {a b : Letter} (linked : t.valuation.linked a b = true) (i : ℕ) :
    ((full t).assignment i).get a = ((full t).assignment i).get b := by
  apply Valuation.get_eq_of_linked
  have parents : ((full t).assignment i).parent = t.valuation.parent := by
    rw [assignment_full, Valuation.parent_assignAll]
  rw [Valuation.linked_iff, Valuation.representative_congr parents, Valuation.representative_congr parents]
  exact Valuation.linked_iff.1 linked

theorem unknown_not_mem_row (rooted : t.valuation.Rooted) (i : ℕ) :
    .unknown ∉ ((full t).row i).values := by
  intro mem
  obtain ⟨c, hc, unknown⟩ := List.mem_map.1 mem
  exact get_assignment_ne_unknown rooted (Valuation.mem_declaredLetters.1 hc) i unknown

/-- The columns of the letters that occur in the text hold the truth values `σ`. -/
def Shows (T : TruthTable) (r : Row) (s : String) (σ : Letter → Bool) : Prop :=
  ∀ l : Letter, l.char ∈ canonical s → T.column r l = some (.ofBool (σ l))

theorem exists_shows (rooted : t.valuation.Rooted) {s : String}
    (declared : ∀ l : Letter, l.char ∈ canonical s → t.valuation.isDeclared l = true)
    (consistent : ∀ l : Letter, l.char ∈ canonical s → t.valuation.get l ≠ .invalid) (i : ℕ) :
    ∃ σ, (full t).Shows ((full t).row i) s σ := by
  have decided : ∀ l : Letter, ∃ b, l.char ∈ canonical s →
      (full t).column ((full t).row i) l = some (.ofBool b) := by
    intro l
    by_cases hl : l.char ∈ canonical s
    · obtain ⟨b, hb⟩ := TruthValue.exists_ofBool (get_assignment_ne_unknown rooted (declared l hl) i)
        (get_assignment_ne_invalid rooted (declared l hl) (consistent l hl) i)
      exact ⟨b, fun _ => by rw [column_full (declared l hl), hb]⟩
    · exact ⟨false, fun h => absurd h hl⟩
  choose σ shows using decided
  exact ⟨σ, shows⟩

theorem result_of_shows {e : Sentence} {s : String} {σ : Letter → Bool} (he : e.Derives s)
    (root : t.root = e.formula) (declared : ∀ l ∈ e.formula.letters, t.valuation.isDeclared l = true) {i : ℕ}
    (shows_row : (full t).Shows ((full t).row i) s σ) : ((full t).row i).result = .ofBool (e.truth σ) := by
  have values : ∀ l ∈ e.formula.letters, ((full t).assignment i).get l = .ofBool (σ l) := by
    intro l hl
    have shown := shows_row l ((he.mem_letters_iff l).1 hl)
    rw [column_full (declared l hl)] at shown
    exact Option.some.inj shown
  rw [result_full, root, Formula.eval_congr _ values, Sentence.eval_formula_ofBool]

/-- In the rows of a table nothing is unknown, linked letters have one value, and unless a letter of the
expression is contradictory, the results are the classical truth values of the expression. -/
theorem rows_decided {s : String} {t : Session} (parsed : Session.parse s = .ok t) (calls : List (List String))
    {T : TruthTable} (tabulated : ofSession (t.inferAll calls) = .ok T) :
    let v := (t.inferAll calls).valuation
    (∃! e : Sentence, e.Derives s) ∧
    ∀ r ∈ T.rows, .unknown ∉ r.values ∧ r.result ≠ .unknown ∧
      (∀ a b, v.isDeclared a = true → v.isDeclared b = true → v.linked a b = true →
        ∃ x, T.column r a = some x ∧ T.column r b = some x) ∧
      ((∀ l : Letter, l.char ∈ canonical s → v.get l ≠ .invalid) →
        (∃ σ, T.Shows r s σ) ∧
        ∀ e : Sentence, e.Derives s → ∀ σ, T.Shows r s σ → r.result = .ofBool (e.truth σ)) := by
  intro v
  obtain ⟨rooted, e, he, root, declared⟩ := Session.inferAll_of_parse parsed calls
  refine ⟨⟨e, he, fun d hd => hd.unique he⟩, fun r hr => ?_⟩
  obtain rfl := eq_full_of_ofSession tabulated
  obtain ⟨i, -, rfl⟩ := List.mem_map.1 hr
  refine ⟨unknown_not_mem_row rooted i, ?_, fun a b ha hb linked => ?_, fun consistent => ⟨?_, ?_⟩⟩
  · apply Formula.eval_ne _ rfl
    intro l hl
    exact get_assignment_ne_unknown rooted (declared l (root ▸ hl)) i
  · exact ⟨_, column_full ha i, by rw [column_full hb, get_assignment_of_linked linked]⟩
  · exact exists_shows rooted (fun l hl => declared l ((he.mem_letters_iff l).2 hl)) consistent i
  · intro d hd σ shows_row
    obtain rfl := hd.unique he
    exact result_of_shows he root declared shows_row

theorem rows_decided_consistent_expression :
    let s := "a > ~(b & D)"
    let f := Formula.binary .or (.neg (.var ⟨0⟩)) (.binary .or (.neg (.var ⟨1⟩)) (.neg (.var ⟨3⟩)))
    let t : Session := ⟨f, Valuation.empty.declareAll f.letters⟩
    let calls := [["B = A", "C"], ["~C", "D > C"]]
    let v := (t.inferAll calls).valuation
    let T := full (t.inferAll calls)
    Session.parse s = .ok t ∧ ofSession (t.inferAll calls) = .ok T ∧ v.get ⟨2⟩ = .invalid ∧
    (∀ l : Letter, l.char ∈ canonical s → v.get l ≠ .invalid) ∧
    ∀ r ∈ T.rows, .unknown ∉ r.values ∧ r.result ≠ .unknown ∧
      (∃ x, T.column r ⟨0⟩ = some x ∧ T.column r ⟨1⟩ = some x) ∧ (∃ σ, T.Shows r s σ) ∧
      ∀ e : Sentence, e.Derives s → ∀ σ, T.Shows r s σ → r.result = .ofBool (e.truth σ) := by
  intro s f t calls v T
  let e : Sentence := .conditional (.single (.letter ⟨0⟩))
    (.single (.neg (.group (.binary .and (.letter ⟨1⟩) (.single (.letter ⟨3⟩))))))
  have derives : e.Derives s := by decide
  have parsed : Session.parse s = .ok t := Session.parse_eq_ok_iff.2 ⟨_, derives, rfl⟩
  obtain ⟨tabulated, contradiction, consistent, declared_a, declared_b, linked_ab⟩ :
      ofSession (t.inferAll calls) = .ok T ∧ v.get ⟨2⟩ = .invalid ∧
      (∀ l : Letter, l.char ∈ canonical s → v.get l ≠ .invalid) ∧
      v.isDeclared ⟨0⟩ = true ∧ v.isDeclared ⟨1⟩ = true ∧ v.linked ⟨0⟩ ⟨1⟩ = true := by decide +kernel
  refine ⟨parsed, tabulated, contradiction, consistent, fun r hr => ?_⟩
  obtain ⟨values, result, linked, classical_result⟩ := (rows_decided parsed calls tabulated).2 r hr
  exact ⟨values, result, linked ⟨0⟩ ⟨1⟩ declared_a declared_b linked_ab, classical_result consistent⟩

end TruthTable

end FourValued
