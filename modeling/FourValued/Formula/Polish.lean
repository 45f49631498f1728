import FourValued.Formula
import FourValued.Polish

/-!
# Formulas in Polish notation

`encode` writes a formula with each operator before its operands. What it writes names the formula, whatever
tokens follow (`encode_append_inj`).
-/

namespace FourValued

namespace Formula

def encode : Formula → Polish
  | var l => [.var l]
  | neg f => .neg :: f.encode
  | binary c l r => .binary c :: (l.encode ++ r.encode)

theorem encode_ne_nil (f : Formula) : f.encode ≠ [] := by cases f <;> simp [encode]

theorem letters_encode (f : Formula) : f.encode.letters = f.letters := by
  induction f with
  | var l => rfl
  | neg f ih => simpa [encode, Polish.letters, letters, List.filterMap_cons, Token.letter?] using ih
  | binary c l r ihl ihr =>
    simp only [Polish.letters] at ihl ihr
    simp [encode, Polish.letters, letters, List.filterMap_cons, Token.letter?, ihl, ihr]

theorem length_encode (f : Formula) : f.encode.length = f.size := by
  induction f with
  | var l => rfl
  | neg f ih => simp [encode, size, ih]
  | binary c l r ihl ihr => simp [encode, size, ihl, ihr]

theorem encode_append_inj {f g : Formula} {rest rest' : Polish}
    (h : f.encode ++ rest = g.encode ++ rest') : f = g ∧ rest = rest' := by
  induction f generalizing g rest rest' with
  | var l =>
    cases g with
    | var m =>
      cases h
      exact ⟨rfl, rfl⟩
    | neg g => cases h
    | binary c g₁ g₂ => cases h
  | neg f ih =>
    cases g with
    | var m => cases h
    | neg g =>
      obtain ⟨rfl, rfl⟩ := ih (List.cons.inj h).2
      exact ⟨rfl, rfl⟩
    | binary c g₁ g₂ => cases h
  | binary c l r ihl ihr =>
    cases g with
    | var m => cases h
    | neg g => cases h
    | binary c' g₁ g₂ =>
      simp only [encode, List.cons_append, List.append_assoc, List.cons.injEq, Token.binary.injEq] at h
      obtain ⟨rfl, operands⟩ := h
      obtain ⟨rfl, right⟩ := ihl operands
      obtain ⟨rfl, rfl⟩ := ihr right
      exact ⟨rfl, rfl⟩

theorem eq_nil_of_encode_append {f g : Formula} {rest : Polish} (h : f.encode ++ rest = g.encode) : rest = [] :=
  (encode_append_inj (h.trans (List.append_nil _).symm)).2

end Formula

end FourValued
