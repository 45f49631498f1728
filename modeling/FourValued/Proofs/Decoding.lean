import FourValued.Proofs.Classes
import FourValued.Proofs.Grammar

/-!
# Decoding Polish notation

A list of tokens has exactly one of four shapes (`existsUnique_hasShape`), and building from it is told by its
shape (`build_of_hasShape`). The tokens of an expression are one whole encoding, and reading an expression fails
before it declares anything.
-/

namespace FourValued

inductive Shape
  | empty
  | complete (f : Formula)
  | cutShort
  | trailing (f : Formula) (rest : Polish)

inductive HasShape : Polish → Shape → Prop
  | empty : HasShape [] .empty
  | complete (f : Formula) : HasShape f.encode (.complete f)
  | cutShort {ts : Polish} (f : Formula) : ts ≠ [] → ts <+: f.encode → ts ≠ f.encode → HasShape ts .cutShort
  | trailing (f : Formula) {rest : Polish} : rest ≠ [] → HasShape (f.encode ++ rest) (.trailing f rest)

namespace Shape

def outcome (ts : Polish) : Shape → Except ExpressionError Formula
  | empty => .error .empty
  | complete f => .ok f
  | cutShort => .error .truncated
  | trailing _ rest => .error (.malformed ts.text (.trailing rest))

/-- The tokens that are read before the outcome is known. -/
def consumed (ts : Polish) : Shape → Polish
  | trailing f _ => f.encode
  | _ => ts

end Shape

open Text Formula

theorem Polish.mem_letters {ts : Polish} {l : Letter} : l ∈ ts.letters ↔ .var l ∈ ts := by
  simp only [letters, List.mem_filterMap]
  constructor
  · rintro ⟨t, ht, hl⟩
    cases t with
    | var m =>
      cases hl
      exact ht
    | neg => cases hl
    | binary c => cases hl
  · intro h
    exact ⟨.var l, h, rfl⟩

variable {v : Valuation} {ts : Polish} {k k' : Shape}

theorem Valuation.build_of_hasShape (v : Valuation) (shape : HasShape ts k) :
    v.build ts = (k.outcome ts, v.declareAll (k.consumed ts).letters) := by
  cases shape with
  | empty => rfl
  | complete f => simp [build_encode, Shape.consumed, letters_encode, Shape.outcome]
  | cutShort f begun below proper =>
    obtain ⟨more, continued⟩ := below
    exact v.build_cutShort begun (fun nothing => proper (by simpa [nothing] using continued)) continued
  | trailing f hrest => rw [build_encode_append, if_neg hrest, Shape.consumed, letters_encode, Shape.outcome]

theorem exists_hasShape (ts : Polish) : ∃ k, HasShape ts k := by
  by_cases hne : ts = []
  · exact ⟨.empty, hne ▸ .empty⟩
  have built := Valuation.empty.buildNode_builds ts
  generalize (Valuation.empty.buildNode ts).outcome = outcome, (Valuation.empty.buildNode ts).rest = rest,
    (Valuation.empty.buildNode ts).valuation = w at built
  cases built with
  | whole f _ front =>
    rw [front]
    by_cases hrest : rest = []
    · rw [hrest, List.append_nil]
      exact ⟨_, .complete f⟩
    · exact ⟨_, .trailing f hrest⟩
  | cutShort f more missing continued =>
    refine ⟨_, .cutShort f hne ⟨more, continued⟩ fun whole => missing ?_⟩
    rwa [whole, List.append_right_eq_self] at continued

theorem Shape.eq_or_trailing (ts : Polish) (h : k.outcome ts = k'.outcome ts) :
    k = k' ∨ ∃ f f' rest, k = .trailing f rest ∧ k' = .trailing f' rest := by
  cases k <;> cases k' <;> simp_all [Shape.outcome]

theorem HasShape.eq_append {f : Formula} {rest : Polish} (shape : HasShape ts (.trailing f rest)) :
    ts = f.encode ++ rest := by
  cases shape with
  | trailing => rfl

theorem HasShape.unique (shape : HasShape ts k) (shape' : HasShape ts k') : k = k' := by
  have built := (Valuation.empty.build_of_hasShape shape).symm.trans (Valuation.empty.build_of_hasShape shape')
  obtain same | ⟨f, f', rest, rfl, rfl⟩ := Shape.eq_or_trailing ts (congrArg Prod.fst built)
  · exact same
  · rw [(encode_append_inj (shape.eq_append.symm.trans shape'.eq_append)).1]

theorem existsUnique_hasShape (ts : Polish) : ∃! k, HasShape ts k := by
  obtain ⟨k, shape⟩ := exists_hasShape ts
  exact ⟨k, shape, fun _ shape' => shape'.unique shape⟩

namespace Valuation

/-- A list of tokens is empty, the encoding of one formula, cut short before the end of one, or one with
tokens after it, and only one of these. By that, the outcome of building is told; only letters are declared,
those of the tokens that were read. -/
theorem build_classifies (v : Valuation) (ts : Polish) :
    (∃! k, HasShape ts k) ∧
    ∀ k, HasShape ts k →
      (v.build ts).1 = k.outcome ts ∧
      (∀ f rest, k = .trailing f rest → ∃ fault, (v.build ts).1 = .error (.malformed ts.text fault) ∧
        fault.reason = "trailing tokens `" ++ rest.text ++ "` after a complete expression") ∧
      (v.build ts).2.cells = v.cells ∧ (v.build ts).2.parent = v.parent ∧
      ∀ l, (v.build ts).2.isDeclared l = true ↔ .var l ∈ k.consumed ts ∨ v.isDeclared l = true := by
  refine ⟨existsUnique_hasShape ts, fun k shape => ?_⟩
  rw [v.build_of_hasShape shape]
  refine ⟨rfl, fun f rest hk => ?_, cells_declareAll _ _, parent_declareAll _ _, fun l => ?_⟩
  · rw [hk]
    exact ⟨.trailing rest, rfl, rfl⟩
  · rw [isDeclared_declareAll, Polish.mem_letters]

variable {s : String} {err : ExpressionError}

theorem parse_of_refused (v : Valuation) (h : normalize s = .error err) : v.parse s = (.error err, v) := by
  rw [parse, h]

theorem parse_ok_iff (v : Valuation) (s : String) :
    (∃ f, (v.parse s).1 = .ok f) ↔ ∃ ts, normalize s = .ok ts := by
  constructor
  · rintro ⟨f, hf⟩
    obtain ⟨t, ht, -⟩ := exists_derives_of_parse hf
    exact ⟨_, normalize_eq_ok_iff.2 ⟨t, ht, rfl⟩⟩
  · rintro ⟨ts, hts⟩
    obtain ⟨t, ht, -⟩ := normalize_eq_ok_iff.1 hts
    exact ⟨t.formula, by rw [ht.parse_eq v]⟩

theorem parse_error_iff (v : Valuation) : (v.parse s).1 = .error err ↔ normalize s = .error err := by
  constructor
  · intro h
    cases hn : normalize s with
    | ok ts =>
      obtain ⟨f, hf⟩ := (v.parse_ok_iff s).2 ⟨ts, hn⟩
      rw [hf] at h
      cases h
    | error e =>
      rw [v.parse_of_refused hn] at h
      cases h
      rfl
  · intro h
    rw [v.parse_of_refused h]

/-- An expression is parsed just when it can be normalized, and its tokens are then the encoding of the
formula that is parsed. Otherwise parsing fails with the error of normalizing, which is never one of tokens
that end too early or are left over, and changes nothing. Success declares the letters of the expression and
changes nothing else. -/
theorem parse_atomic (v : Valuation) (s : String) :
    ((∃ f, (v.parse s).1 = .ok f) ↔ ∃ ts, normalize s = .ok ts) ∧
    (∀ err, (v.parse s).1 = .error err ↔ normalize s = .error err) ∧
    (∀ err, (v.parse s).1 = .error err →
      (v.parse s).2 = v ∧ err ≠ .truncated ∧ ∀ input rest, err ≠ .malformed input (.trailing rest)) ∧
    ∀ f, (v.parse s).1 = .ok f →
      normalize s = .ok f.encode ∧ (v.parse s).2.cells = v.cells ∧ (v.parse s).2.parent = v.parent ∧
      ∀ l, (v.parse s).2.isDeclared l = true ↔
        (∃ c ∈ s.toList, Letter.ofChar? c = some l) ∨ v.isDeclared l = true := by
  refine ⟨v.parse_ok_iff s, fun err => v.parse_error_iff, fun err h => ?_, fun f h => ?_⟩
  · have refused := v.parse_error_iff.1 h
    refine ⟨by rw [v.parse_of_refused refused], ?_⟩
    rcases refuses_of_normalize refused with rfl | ⟨piece, fault, rfl, own⟩
    · exact ⟨nofun, nofun⟩
    · refine ⟨nofun, fun input rest same => own rest ?_⟩
      cases same
      rfl
  · obtain ⟨t, ht, rfl⟩ := exists_derives_of_parse h
    refine ⟨normalize_eq_ok_iff.2 ⟨t, ht, rfl⟩, ?_, ?_, fun l => ?_⟩
    · rw [ht.parse_eq v, cells_declareAll]
    · rw [ht.parse_eq v, parent_declareAll]
    · rw [ht.parse_eq v, isDeclared_declareAll, ht.mem_letters_iff, char_mem_canonical]

end Valuation

end FourValued
