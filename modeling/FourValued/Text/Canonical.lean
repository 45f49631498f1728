import FourValued.Text.Blank

/-!
# Canonical text

Expressions and predicates are read from their canonical text: blank characters dropped and ASCII letters
in upper case. Taking it of a concatenation concatenates, and a text of upper-case characters without blanks
is its own canonical text (`canonicalChars_eq_self`).
-/

namespace FourValued.Text

def canonicalChars (cs : List Char) : List Char :=
  (cs.filter fun c => !isBlank c).map Char.toUpper

def canonical (s : String) : List Char := canonicalChars s.toList

theorem canonicalChars_append (a b : List Char) :
    canonicalChars (a ++ b) = canonicalChars a ++ canonicalChars b := by
  simp [canonicalChars]

theorem canonical_append (s t : String) : canonical (s ++ t) = canonical s ++ canonical t := by
  rw [canonical, String.toList_append, canonicalChars_append]
  rfl

theorem canonical_eq_nil_iff {s : String} : canonical s = [] ↔ ∀ c ∈ s.toList, isBlank c = true := by
  simp [canonical, canonicalChars]

theorem canonicalChars_eq_self {cs : List Char}
    (h : ∀ c ∈ cs, isBlank c = false ∧ c.toUpper = c) : canonicalChars cs = cs := by
  have blanks : (cs.filter fun c => !isBlank c) = cs :=
    List.filter_eq_self.2 fun c hc => by simp [(h c hc).1]
  rw [canonicalChars, blanks]
  exact (List.map_congr_left fun c hc => (h c hc).2).trans (List.map_id' cs)

theorem toUpper_toNat (c : Char) :
    c.toUpper = c ∨ (97 ≤ c.toNat ∧ c.toNat ≤ 122 ∧ c.toUpper.toNat = c.toNat - 32) := by
  by_cases h : 97 ≤ c.toNat ∧ c.toNat ≤ 122
  · right
    refine ⟨h.1, h.2, ?_⟩
    have lower : ∀ n, 97 ≤ n ∧ n ≤ 122 → (Char.ofNat n).toUpper.toNat = n - 32 := by
      intro n hn
      have : n - 97 < 26 := by omega
      have key : ∀ k : Fin 26, (Char.ofNat (97 + k.val)).toUpper.toNat = 97 + k.val - 32 := by decide
      have := key ⟨n - 97, this⟩
      have e : 97 + (n - 97) = n := by omega
      simpa [e] using this
    simpa using lower c.toNat h
  · left
    unfold Char.toUpper
    rw [dif_neg]
    intro hc
    apply h
    have h1 := hc.1
    have h2 := hc.2
    simp only [UInt32.le_iff_toNat_le] at h1 h2
    exact ⟨h1, h2⟩

theorem isBlank_toUpper (c : Char) : isBlank c.toUpper = isBlank c := by
  rcases toUpper_toNat c with h | ⟨h1, h2, h3⟩
  · rw [h]
  · have low : ∀ k : Fin 26, isBlank (Char.ofNat (97 + k.val)).toUpper = isBlank (Char.ofNat (97 + k.val)) := by
      decide
    have := low ⟨c.toNat - 97, by omega⟩
    have e : 97 + (c.toNat - 97) = c.toNat := by omega
    simpa [e] using this

theorem toUpper_toUpper (c : Char) : c.toUpper.toUpper = c.toUpper := by
  rcases toUpper_toNat c with h | ⟨h1, h2, h3⟩
  · rw [h, h]
  · rcases toUpper_toNat c.toUpper with h | ⟨h4, _, _⟩
    · exact h
    · omega

end FourValued.Text
