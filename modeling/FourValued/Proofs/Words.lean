import Mathlib.Algebra.Ring.Int.Defs
import Mathlib.Algebra.Ring.Nat
import FourValued.Proofs.Balance

/-!
# Counting brackets in words

A word of 32 bits holds the depth of a text up to multiples of `2 ^ 32`, and holds it exactly while it lies between
`-2 ^ 31` and `2 ^ 31`. So a search that counts in words finds what a search that counts in integers finds, unless the
depth reaches `2 ^ 32` (`splitFrom_ofInt`), and the check of the brackets finds the same fault unless the text is nested
`2 ^ 31` deep (`bracketFault?_ofInt`). The word that has counted so many brackets is negative, and the check then says
that a bracket is closed which is not open (`bracketFault?_ofInt_of_deep`).
-/

namespace FourValued

open Text

variable {d : Int} {c : Char} {cs : List Char}

theorem depthOf_cases (c : Char) : (depthOf c : Int) = -1 ∨ (depthOf c : Int) = 0 ∨ (depthOf c : Int) = 1 := by
  unfold depthOf
  split
  · exact .inr (.inr rfl)
  split
  · exact .inl rfl
  · exact .inr (.inl rfl)

theorem Text.natAbs_depth_le (cs : List Char) : (depth cs).natAbs ≤ cs.length := by
  induction cs with
  | nil => exact Nat.le_refl 0
  | cons c cs ih =>
    have step := depthOf_cases c
    rw [depth, List.length_cons]
    omega

theorem Text.depth_append (a b : List Char) : depth (a ++ b) = depth a + depth b := by
  induction a with
  | nil => exact (Int.zero_add _).symm
  | cons c a ih => rw [List.cons_append, depth, depth, ih, Int.add_assoc]

theorem Text.depth_le_of_prefix_cons {b : Int} (start : 0 ≤ b) (h : ∀ p, p <+: cs → depthOf c + depth p ≤ b) :
    ∀ p, p <+: c :: cs → depth p ≤ b := by
  intro p hp
  rcases List.prefix_cons_iff.1 hp with rfl | ⟨q, rfl, hq⟩
  · exact start
  · exact h q hq

theorem Text.depth_le_of_prefix_brackets {b : Nat} (level : depth cs = 0) (h : ∀ p, p <+: cs → depth p ≤ b) :
    ∀ p, p <+: '(' :: (cs ++ [')']) → depth p ≤ b + 1 := by
  have opening : (depthOf '(' : Int) = 1 := rfl
  have closing : depth [')'] = -1 := rfl
  refine depth_le_of_prefix_cons (Int.natCast_nonneg (b + 1)) fun p hp => ?_
  rcases List.prefix_concat_iff.1 hp with rfl | within
  · rw [depth_append, level, closing]
    omega
  · have below := h p within
    omega

theorem ofInt_add_depthOf (d : Int) (c : Char) : Int32.ofInt d + depthOf c = Int32.ofInt (d + depthOf c) := by
  rw [Int32.ofInt_add]
  congr 1
  unfold depthOf
  split
  · rfl
  split <;> rfl

theorem ofInt_eq_zero_iff_dvd : Int32.ofInt d = 0 ↔ (2 ^ 32 : Int) ∣ d := by
  rw [← Int32.toInt_inj, Int32.toInt_ofInt, Int32.toInt_zero]
  exact ⟨Int.dvd_of_bmod_eq_zero, Int.bmod_eq_zero_of_dvd⟩

theorem ofInt_eq_zero_iff (near : d.natAbs < 2 ^ 32) : Int32.ofInt d = 0 ↔ d = 0 := by
  rw [ofInt_eq_zero_iff_dvd]
  omega

theorem ofInt_lt_zero_iff (low : -2 ^ 31 ≤ d) (high : d ≤ 2 ^ 31) : Int32.ofInt d < 0 ↔ d < 0 ∨ d = 2 ^ 31 := by
  rw [Int32.lt_iff_toInt_lt, Int32.toInt_zero]
  by_cases top : d = 2 ^ 31
  · rw [top]
    decide
  · rw [Int32.toInt_ofInt_of_le low (by omega)]
    omega

theorem forall_prefix_cons (P : Int → Prop) (h : ∀ p, p <+: c :: cs → P (d + depth p)) :
    P d ∧ ∀ p, p <+: cs → P (d + depthOf c + depth p) := by
  refine ⟨Int.add_zero d ▸ h [] List.nil_prefix, fun p hp => ?_⟩
  rw [Int.add_assoc]
  exact h (c :: p) (List.cons_prefix_cons.2 ⟨rfl, hp⟩)

theorem splitFrom_ofInt (near : ∀ p, p <+: cs → (d + depth p).natAbs < 2 ^ 32) :
    splitFrom (Int32.ofInt d) cs = splitFrom d cs := by
  induction cs generalizing d with
  | nil => rfl
  | cons c cs ih =>
    obtain ⟨here, later⟩ := forall_prefix_cons (fun n => n.natAbs < 2 ^ 32) near
    rw [splitFrom, splitFrom, ofInt_add_depthOf, ih later]
    simp only [ofInt_eq_zero_iff here]

theorem nestsConditional_ofInt (near : ∀ p, p <+: cs → (d + depth p).natAbs < 2 ^ 32) :
    nestsConditional (Int32.ofInt d) cs = nestsConditional d cs := by
  induction cs generalizing d with
  | nil => rfl
  | cons c cs ih =>
    obtain ⟨here, later⟩ := forall_prefix_cons (fun n => n.natAbs < 2 ^ 32) near
    have same : (Int32.ofInt d != 0) = (d != 0) := by
      rw [Bool.eq_iff_iff, bne_iff_ne, bne_iff_ne, Ne, ofInt_eq_zero_iff here]
    rw [nestsConditional, nestsConditional, ofInt_add_depthOf, ih later, same]

theorem bracketFault?_ofInt (opened : 0 ≤ d) (shallow : ∀ p, p <+: cs → d + depth p < 2 ^ 31) :
    bracketFault? (Int32.ofInt d) cs = bracketFault? d cs := by
  induction cs generalizing d with
  | nil =>
    have here : d + depth [] < 2 ^ 31 := shallow [] (List.prefix_refl [])
    rw [depth] at here
    simp only [bracketFault?, ofInt_eq_zero_iff (show d.natAbs < 2 ^ 32 by omega)]
  | cons c cs ih =>
    obtain ⟨-, later⟩ := forall_prefix_cons (· < 2 ^ 31) shallow
    have next : d + depthOf c + depth [] < 2 ^ 31 := later [] List.nil_prefix
    have step := depthOf_cases c
    rw [depth] at next
    have sunk : Int32.ofInt (d + depthOf c) < 0 ↔ d + depthOf c < 0 := by
      rw [ofInt_lt_zero_iff (by omega) (by omega)]
      omega
    rw [bracketFault?, bracketFault?, ofInt_add_depthOf]
    simp only [sunk]
    split
    · rfl
    · next above => exact ih (Int.not_lt.1 above) later

theorem bracketFault?_ofInt_of_deep (opened : 0 ≤ d) (fits : d < 2 ^ 31)
    (deep : ∃ p, p <+: cs ∧ 2 ^ 31 ≤ d + depth p) : bracketFault? (Int32.ofInt d) cs = some .unmatchedClose := by
  obtain ⟨p, hp, deep⟩ := deep
  induction cs generalizing d p with
  | nil =>
    rw [List.prefix_nil.1 hp, depth] at deep
    omega
  | cons c cs ih =>
    rcases List.prefix_cons_iff.1 hp with rfl | ⟨q, rfl, hq⟩
    · rw [depth] at deep
      omega
    rw [depth, ← Int.add_assoc] at deep
    have step := depthOf_cases c
    rw [bracketFault?, ofInt_add_depthOf]
    split
    · rfl
    · next above =>
      rw [ofInt_lt_zero_iff (by omega) (by omega)] at above
      exact ih (by omega) (by omega) q hq deep

/-- No beginning of the text leaves so many brackets open that a word of 32 bits cannot count them. -/
def Shallow (cs : List Char) : Prop := ∀ p, p <+: cs → depth p < 2 ^ 31

theorem shallow_of_length (short : cs.length < 2 ^ 31) : Shallow cs := by
  intro p hp
  have counted := natAbs_depth_le p
  have shorter := hp.length_le
  omega

theorem wholeFault?_ofInt (shallow : Shallow cs) : wholeFault? (0 : Int32) cs = wholeFault? (0 : Int) cs := by
  have from_zero : ∀ p, p <+: cs → (0 : Int) + depth p < 2 ^ 31 := fun p hp => (Int.zero_add _).symm ▸ shallow p hp
  have brackets : bracketFault? (0 : Int32) cs = bracketFault? (0 : Int) cs :=
    bracketFault?_ofInt (Int.le_refl 0) from_zero
  rw [wholeFault?, wholeFault?, brackets]
  cases closed : bracketFault? (0 : Int) cs with
  | some fault => rfl
  | none =>
    have inside := (balanced_iff.1 (show Balanced 0 cs from closed)).1
    have near : ∀ p, p <+: cs → ((0 : Int) + depth p).natAbs < 2 ^ 32 := by
      intro p hp
      have above := inside p hp
      have below := from_zero p hp
      omega
    have nested : nestsConditional (0 : Int32) cs = nestsConditional (0 : Int) cs := nestsConditional_ofInt near
    rw [nested]

theorem exists_wholeFault?_of_deep (deep : ¬ Shallow cs) : ∃ fault, wholeFault? (0 : Int32) cs = some fault := by
  have reached : ∃ p, p <+: cs ∧ (2 : Int) ^ 31 ≤ 0 + depth p := by
    simpa [Shallow] using deep
  have brackets : bracketFault? (0 : Int32) cs = some .unmatchedClose :=
    bracketFault?_ofInt_of_deep (Int.le_refl 0) (by decide) reached
  rw [wholeFault?, brackets]
  split
  · exact ⟨_, rfl⟩
  · exact ⟨_, rfl⟩

end FourValued
