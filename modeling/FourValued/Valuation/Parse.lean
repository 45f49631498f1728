import FourValued.Expression
import FourValued.Valuation

/-!
# Declaring the letters of an expression

`buildNode` takes one formula from the front of a list of tokens. An operator takes its operands from the tokens
right after it, one after the other, and a letter is declared when it is met, so letters stay declared when the
tokens end too early or when tokens are left over. `build` builds a formula of all the tokens, and `parse` that of
an expression.
-/

namespace FourValued.Valuation

structure Building (ts : Polish) where
  outcome : Except ExpressionError Formula
  rest : Polish
  valuation : Valuation
  rest_le : rest.length ≤ ts.length

def buildNode (v : Valuation) : (ts : Polish) → Building ts
  | [] => ⟨.error .truncated, [], v, Nat.le_refl 0⟩
  | .var l :: ts => ⟨.ok (.var l), ts, v.declare l, Nat.le_succ _⟩
  | .neg :: ts =>
    let operand := v.buildNode ts
    ⟨operand.outcome.map .neg, operand.rest, operand.valuation, Nat.le_succ_of_le operand.rest_le⟩
  | .binary c :: ts =>
    let left := v.buildNode ts
    match left.outcome with
    | .error e => ⟨.error e, left.rest, left.valuation, Nat.le_succ_of_le left.rest_le⟩
    | .ok l =>
      let right := left.valuation.buildNode left.rest
      ⟨right.outcome.map (.binary c l), right.rest, right.valuation,
        Nat.le_succ_of_le (Nat.le_trans right.rest_le left.rest_le)⟩
termination_by ts => ts.length
decreasing_by
  · exact Nat.lt_succ_self _
  · exact Nat.lt_succ_self _
  · exact Nat.lt_succ_of_le left.rest_le

def build (v : Valuation) (ts : Polish) : Except ExpressionError Formula × Valuation :=
  if ts = [] then (.error .empty, v)
  else
    let root := v.buildNode ts
    match root.outcome with
    | .error e => (.error e, root.valuation)
    | .ok f =>
      if root.rest = [] then (.ok f, root.valuation)
      else (.error (.malformed ts.text (.trailing root.rest)), root.valuation)

def parse (v : Valuation) (s : String) : Except ExpressionError Formula × Valuation :=
  match normalize s with
  | .error e => (.error e, v)
  | .ok ts => v.build ts

theorem declareAll_append (v : Valuation) (ks ls : List Letter) :
    v.declareAll (ks ++ ls) = (v.declareAll ks).declareAll ls := List.foldl_append

/-- Either the tokens begin with a formula, or they are what a formula begins with and end before it does. The
letters of the tokens that have been read are declared. -/
inductive Builds (v : Valuation) (ts : Polish) : Except ExpressionError Formula → Polish → Valuation → Prop
  | whole (f : Formula) (rest : Polish) : ts = f.encode ++ rest → Builds v ts (.ok f) rest (v.declareAll f.letters)
  | cutShort (f : Formula) (more : Polish) : more ≠ [] → ts ++ more = f.encode →
    Builds v ts (.error .truncated) [] (v.declareAll ts.letters)

namespace Builds

variable {v w w' : Valuation} {ts rest rest' : Polish} {outcome : Except ExpressionError Formula} {l : Formula}
  {e : ExpressionError}

theorem neg (operand : v.Builds ts outcome rest w) : v.Builds (.neg :: ts) (outcome.map .neg) rest w := by
  cases operand with
  | whole f _ read => exact .whole f.neg rest (by rw [read]; rfl)
  | cutShort f more missing continued =>
    exact .cutShort f.neg more missing (by rw [Formula.encode, ← continued]; rfl)

theorem left_error (c : Connective) (left : v.Builds ts (.error e) rest w) :
    v.Builds (.binary c :: ts) (.error e) rest w := by
  cases left with
  | cutShort f more missing continued =>
    have whole : (.binary c :: ts) ++ (more ++ f.encode) = (Formula.binary c f f).encode := by
      rw [Formula.encode, ← continued]
      simp
    exact .cutShort (.binary c f f) (more ++ f.encode) (by simp [missing]) whole

theorem binary (c : Connective) (left : v.Builds ts (.ok l) rest w) (right : w.Builds rest outcome rest' w') :
    v.Builds (.binary c :: ts) (outcome.map (.binary c l)) rest' w' := by
  cases left with
  | whole _ _ read =>
    cases right with
    | whole r _ read' =>
      rw [← declareAll_append]
      exact .whole (.binary c l r) rest' (by rw [read, read', Formula.encode]; simp)
    | cutShort r more missing continued =>
      have tokens : Polish.letters (.binary c :: ts) = l.letters ++ rest.letters := by
        rw [read, ← l.letters_encode]
        simp [Polish.letters, List.filterMap_cons, Token.letter?]
      have whole : (.binary c :: ts) ++ more = (Formula.binary c l r).encode := by
        rw [read, Formula.encode, ← continued]
        simp
      rw [← declareAll_append, ← tokens]
      exact .cutShort (.binary c l r) more missing whole

theorem eq_whole {f : Formula} (h : v.Builds (f.encode ++ rest) outcome rest' w) :
    outcome = .ok f ∧ rest' = rest ∧ w = v.declareAll f.letters := by
  cases h with
  | whole g _ front =>
    obtain ⟨rfl, rfl⟩ := Formula.encode_append_inj front
    exact ⟨rfl, rfl, rfl⟩
  | cutShort g more missing continued =>
    rw [List.append_assoc] at continued
    exact absurd (List.append_eq_nil_iff.1 (Formula.eq_nil_of_encode_append continued)).2 missing

theorem eq_cutShort {f : Formula} {more : Polish} (h : v.Builds ts outcome rest w) (missing : more ≠ [])
    (continued : ts ++ more = f.encode) : outcome = .error .truncated ∧ w = v.declareAll ts.letters := by
  cases h with
  | whole g _ front =>
    rw [front, List.append_assoc] at continued
    exact absurd (List.append_eq_nil_iff.1 (Formula.eq_nil_of_encode_append continued)).2 missing
  | cutShort => exact ⟨rfl, rfl⟩

end Builds

theorem buildNode_builds (v : Valuation) (ts : Polish) :
    v.Builds ts (v.buildNode ts).outcome (v.buildNode ts).rest (v.buildNode ts).valuation := by
  fun_induction buildNode v ts with
  | case1 v => exact .cutShort (.var ⟨0⟩) [.var ⟨0⟩] nofun rfl
  | case2 v l ts => exact .whole (.var l) ts rfl
  | case3 v ts operand ih => exact ih.neg
  | case4 v c ts left e failed ih =>
    rw [failed] at ih
    exact ih.left_error c
  | case5 v c ts left l built right ihl ihr =>
    rw [built] at ihl
    exact ihl.binary c ihr

theorem build_encode_append (v : Valuation) (f : Formula) (rest : Polish) : v.build (f.encode ++ rest) =
    (if rest = [] then .ok f else .error (.malformed (Polish.text (f.encode ++ rest)) (.trailing rest)),
      v.declareAll f.letters) := by
  obtain ⟨outcome, left, valuation⟩ := (v.buildNode_builds (f.encode ++ rest)).eq_whole
  simp only [build, List.append_eq_nil_iff, f.encode_ne_nil, false_and, outcome, left, valuation, if_false]
  split <;> rfl

theorem build_encode (v : Valuation) (f : Formula) : v.build f.encode = (.ok f, v.declareAll f.letters) := by
  simpa using v.build_encode_append f []

theorem build_cutShort (v : Valuation) {ts more : Polish} {f : Formula} (begun : ts ≠ []) (missing : more ≠ [])
    (continued : ts ++ more = f.encode) : v.build ts = (.error .truncated, v.declareAll ts.letters) := by
  obtain ⟨outcome, valuation⟩ := (v.buildNode_builds ts).eq_cutShort missing continued
  simp only [build, begun, outcome, valuation, if_false]

end FourValued.Valuation
