import Mathlib.Data.List.Pairwise
import FourValued.Proofs.Robustness

/-!
# Unknown is exact on read-once formulas

Where no letter occurs twice in a formula, the unknown letters of its operands can be decided independently, so
an unknown formula without contradictions is made true by one decision and false by another
(`Formula.exists_eval_decided`). The rows of a truth table are the decisions that treat linked letters alike
(`TruthTable.exists_row`). So where no two letters of the formula are linked either, the result is unknown just
when the rows differ in it.
-/

namespace FourValued

theorem TruthValue.eq_unknown_of_negate {a : TruthValue} (h : a.negate = .unknown) : a = .unknown := by
  revert h
  cases a <;> decide

def decided (value : Letter → TruthValue) (σ : Letter → Bool) (l : Letter) : TruthValue :=
  if value l = .unknown then .ofBool (σ l) else value l

namespace Connective

def neutral : Connective → Bool
  | and => true
  | or => false

theorem apply_neutral_left (c : Connective) (a : TruthValue) : c.apply (.ofBool c.neutral) a = a := by
  cases c <;> cases a <;> rfl

theorem apply_neutral_right (c : Connective) (a : TruthValue) : c.apply a (.ofBool c.neutral) = a := by
  cases c <;> cases a <;> rfl

theorem apply_ofBool_self (c : Connective) (b : Bool) : c.apply (.ofBool b) (.ofBool b) = .ofBool b := by
  cases c <;> cases b <;> rfl

theorem eq_unknown_of_apply {a b : TruthValue} (c : Connective) (ha : a ≠ .invalid) (hb : b ≠ .invalid)
    (h : c.apply a b = .unknown) : (a = .unknown ∧ b = .unknown) ∨
      (a = .unknown ∧ b = .ofBool c.neutral) ∨ (a = .ofBool c.neutral ∧ b = .unknown) := by
  revert ha hb h
  cases c <;> cases a <;> cases b <;> decide

end Connective

namespace Formula

variable {value : Letter → TruthValue} {f : Formula}

theorem eval_decided {b : Bool} (h : f.eval value = .ofBool b) (σ : Letter → Bool) :
    f.eval (decided value σ) = .ofBool b := by
  rw [← h]
  refine f.eval_of_concrete (fun l _ concrete_l => ?_) (TruthValue.isConcrete_of_eq h)
  exact if_neg (TruthValue.ne_unknown_of_isConcrete concrete_l)

theorem eval_decided_congr {σ τ : Letter → Bool} (f : Formula) (same : ∀ l ∈ f.letters, σ l = τ l) :
    f.eval (decided value σ) = f.eval (decided value τ) :=
  f.eval_congr fun l hl => by rw [decided, decided, same l hl]

theorem exists_eval_decided (once : f.letters.Nodup) (consistent : ∀ l ∈ f.letters, value l ≠ .invalid)
    (unknown : f.eval value = .unknown) (b : Bool) : ∃ σ, f.eval (decided value σ) = .ofBool b := by
  induction f generalizing b with
  | var l => exact ⟨fun _ => b, if_pos unknown⟩
  | neg f ih =>
    obtain ⟨σ, hσ⟩ := ih once consistent (TruthValue.eq_unknown_of_negate unknown) (!b)
    refine ⟨σ, ?_⟩
    rw [eval, hσ, ← TruthValue.ofBool_not, Bool.not_not]
  | binary c f g ihf ihg =>
    obtain ⟨once_f, once_g, apart⟩ := List.nodup_append.1 once
    have consistent_f : ∀ l ∈ f.letters, value l ≠ .invalid := fun l hl => consistent l (List.mem_append_left _ hl)
    have consistent_g : ∀ l ∈ g.letters, value l ≠ .invalid := fun l hl => consistent l (List.mem_append_right _ hl)
    rcases c.eq_unknown_of_apply (f.eval_ne rfl consistent_f) (g.eval_ne rfl consistent_g) unknown with
      ⟨unknown_f, unknown_g⟩ | ⟨unknown_f, neutral_g⟩ | ⟨neutral_f, unknown_g⟩
    · obtain ⟨σ, hσ⟩ := ihf once_f consistent_f unknown_f b
      obtain ⟨τ, hτ⟩ := ihg once_g consistent_g unknown_g b
      -- The operands share no letter, so each can be decided in its own way.
      let both : Letter → Bool := fun l => if l ∈ f.letters then σ l else τ l
      have left : f.eval (decided value both) = .ofBool b :=
        (f.eval_decided_congr fun l hl => if_pos hl).trans hσ
      have right : g.eval (decided value both) = .ofBool b :=
        (g.eval_decided_congr fun l hl => if_neg fun also => apart l also l hl rfl).trans hτ
      exact ⟨both, by rw [eval, left, right, c.apply_ofBool_self]⟩
    · obtain ⟨σ, hσ⟩ := ihf once_f consistent_f unknown_f b
      exact ⟨σ, by rw [eval, hσ, eval_decided neutral_g, c.apply_neutral_right]⟩
    · obtain ⟨τ, hτ⟩ := ihg once_g consistent_g unknown_g b
      exact ⟨τ, by rw [eval, hτ, eval_decided neutral_f, c.apply_neutral_left]⟩

end Formula

namespace Valuation

variable {v : Valuation} {ls : List Letter} {a b : Letter}

theorem nodup_of_unlinked (once : ls.Pairwise fun a b => v.linked a b = false) : ls.Nodup := by
  refine once.imp fun {a b} apart same => ?_
  rw [same, linked_iff.2 rfl] at apart
  cases apart

theorem eq_of_unlinked (once : ls.Pairwise fun a b => v.linked a b = false) (ha : a ∈ ls) (hb : b ∈ ls)
    (linked : v.linked a b = true) : a = b := by
  have : Std.Symm fun a b => v.linked a b = false := ⟨fun a b h => (v.linked_comm b a).trans h⟩
  by_contra differ
  rw [once.forall ha hb differ] at linked
  cases linked

end Valuation

namespace TruthTable

variable {t : Session}

theorem exists_digits (t : Session) (bit : Letter → Bool) : ∃ i < (full t).numRows,
    ∀ j l, t.valuation.leaders[j]? = some l → digit t i j = bit l := by
  let digits : Fin t.valuation.leaders.length → Bool := fun m => bit (t.valuation.leaders.get m.rev)
  refine ⟨Nat.ofBits digits, ?_, fun j l hl => ?_⟩
  · rw [numRows_full]
    exact Nat.ofBits_lt_two_pow digits
  · obtain ⟨hj, rfl⟩ := List.getElem?_eq_some_iff.1 hl
    have place : t.valuation.leaders.length - 1 - j < t.valuation.leaders.length := by omega
    have top : Fin.rev ⟨t.valuation.leaders.length - 1 - j, place⟩ = ⟨j, hj⟩ := by
      apply Fin.ext
      rw [Fin.val_rev]
      dsimp only
      omega
    rw [digit, Nat.testBit_ofBits_lt digits _ place]
    simp only [digits, top]
    rfl

theorem exists_row (rooted : t.valuation.Rooted) {ls : List Letter}
    (declared : ∀ l ∈ ls, t.valuation.isDeclared l = true) {σ : Letter → Bool}
    (alike : ∀ a ∈ ls, ∀ b ∈ ls, t.valuation.linked a b = true → σ a = σ b) :
    ∃ i < (full t).numRows, ∀ l ∈ ls, ((full t).assignment i).get l = decided t.valuation.get σ l := by
  have class_bit : ∀ k, ∃ b, ∀ l ∈ ls, t.valuation.linked l k = true → σ l = b := by
    intro k
    by_cases occurs : ∃ l ∈ ls, t.valuation.linked l k = true
    · obtain ⟨l, hl, linked⟩ := occurs
      refine ⟨σ l, fun m hm linked_m => alike m hm l hl ?_⟩
      exact Valuation.linked_iff.2 ((Valuation.linked_iff.1 linked_m).trans (Valuation.linked_iff.1 linked).symm)
    · exact ⟨false, fun l hl linked => absurd ⟨l, hl, linked⟩ occurs⟩
  choose bit hbit using class_bit
  obtain ⟨i, inside, digits⟩ := exists_digits t bit
  refine ⟨i, inside, fun l hl => ?_⟩
  unfold decided
  split
  · next unknown =>
    obtain ⟨k, hk, linked⟩ := Valuation.exists_leader (declared l hl) unknown
    obtain ⟨j, hj⟩ := List.getElem?_of_mem hk
    rw [get_assignment_leader rooted hj linked, digits j k hj, hbit k l hl linked]
  · next known => exact get_assignment_known rooted known i

theorem exists_row_of_unknown (rooted : t.valuation.Rooted)
    (declared : ∀ l ∈ t.root.letters, t.valuation.isDeclared l = true)
    (consistent : ∀ l ∈ t.root.letters, t.value l ≠ .invalid)
    (once : t.root.letters.Pairwise fun a b => t.valuation.linked a b = false) (unknown : t.evaluate = .unknown)
    (b : Bool) : ∃ r ∈ (full t).rows, r.result = .ofBool b := by
  obtain ⟨σ, hσ⟩ := t.root.exists_eval_decided (Valuation.nodup_of_unlinked once) consistent unknown b
  have alike : ∀ k ∈ t.root.letters, ∀ l ∈ t.root.letters, t.valuation.linked k l = true → σ k = σ l :=
    fun k hk l hl linked => congrArg σ (Valuation.eq_of_unlinked once hk hl linked)
  obtain ⟨i, inside, values⟩ := exists_row rooted declared alike
  refine ⟨(full t).row i, List.mem_map.2 ⟨i, List.mem_range.2 inside, rfl⟩, ?_⟩
  rw [result_full, ← hσ]
  exact Formula.eval_congr t.root values

end TruthTable

namespace Session

/-- In a session without contradictions among the letters of its formula, which are pairwise not linked and
therefore different, the formula is unknown just when it is true in one row of the truth table and false in
another. -/
theorem evaluate_unknown_iff_rows_differ {s : String} {t : Session} (parsed : parse s = .ok t)
    (calls : List (List String)) {T : TruthTable} (tabulated : TruthTable.ofSession (t.inferAll calls) = .ok T)
    (consistent : ∀ l ∈ (t.inferAll calls).root.letters, (t.inferAll calls).value l ≠ .invalid)
    (once : (t.inferAll calls).root.letters.Pairwise fun a b => (t.inferAll calls).valuation.linked a b = false) :
    (t.inferAll calls).evaluate = .unknown ↔
      (∃ r ∈ T.rows, r.result = .tt) ∧ ∃ r ∈ T.rows, r.result = .ff := by
  obtain ⟨rooted, e, -, root, declared⟩ := inferAll_of_parse parsed calls
  obtain rfl := TruthTable.eq_full_of_ofSession tabulated
  rw [← root] at declared
  constructor
  · intro unknown
    exact ⟨TruthTable.exists_row_of_unknown rooted declared consistent once unknown true,
      TruthTable.exists_row_of_unknown rooted declared consistent once unknown false⟩
  · rintro ⟨⟨r, hr, holds⟩, ⟨q, hq, fails⟩⟩
    by_contra known
    obtain ⟨b, hb⟩ := TruthValue.exists_ofBool known (Formula.eval_ne _ rfl consistent)
    obtain ⟨i, -, rfl⟩ := List.mem_map.1 hr
    obtain ⟨j, -, rfl⟩ := List.mem_map.1 hq
    -- A result that is true or false is that of every row.
    rw [TruthTable.result_of_concrete rooted (TruthValue.isConcrete_of_eq hb)] at holds fails
    cases holds.symm.trans fails

theorem evaluate_unknown_iff_rows_differ_outside_link :
    let s := "(a & ~b) ? C"
    let f := Formula.binary .or (.binary .and (.var ⟨0⟩) (.neg (.var ⟨1⟩))) (.var ⟨2⟩)
    let t : Session := ⟨f, Valuation.empty.declareAll f.letters⟩
    let u := t.inferAll [["D = B", "~C"]]
    let T := TruthTable.full u
    parse s = .ok t ∧ TruthTable.ofSession u = .ok T ∧ u.valuation.representative ⟨1⟩ = ⟨3⟩ ∧
    (∀ l ∈ u.root.letters, u.value l ≠ .invalid) ∧
    (u.root.letters.Pairwise fun a b => u.valuation.linked a b = false) ∧ u.evaluate = .unknown ∧
    (∃ r ∈ T.rows, r.result = .tt) ∧ ∃ r ∈ T.rows, r.result = .ff := by
  intro s f t u T
  have derives : (Sentence.plain (.binary .or (.group (.binary .and (.letter ⟨0⟩) (.single (.neg (.letter ⟨1⟩)))))
      (.single (.letter ⟨2⟩)))).Derives s := by decide
  have parsed : parse s = .ok t := parse_eq_ok_iff.2 ⟨_, derives, rfl⟩
  obtain ⟨tabulated, representative, consistent, once, unknown⟩ : TruthTable.ofSession u = .ok T ∧
      u.valuation.representative ⟨1⟩ = ⟨3⟩ ∧ (∀ l ∈ u.root.letters, u.value l ≠ .invalid) ∧
      (u.root.letters.Pairwise fun a b => u.valuation.linked a b = false) ∧ u.evaluate = .unknown := by
    decide +kernel
  exact ⟨parsed, tabulated, representative, consistent, once, unknown,
    (evaluate_unknown_iff_rows_differ parsed [["D = B", "~C"]] tabulated consistent once).1 unknown⟩

end Session

end FourValued
