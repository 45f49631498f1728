import FourValued.Expression

/-!
# Balanced brackets

A text is balanced after `d` open brackets when it closes them all, its own too, and closes none that is not
open. The main connective of a balanced text cuts it into two balanced texts, of which the first has no main
connective. What one pair of brackets encloses is balanced and has its connectives hidden, and a balanced text
in brackets is enclosed by them. Whether a text is balanced is told by the depths of its beginnings (`balanced_iff`).
-/

namespace FourValued

open Text

/-- The text closes the `d` brackets that are open before it and every bracket that it opens. -/
def Balanced (d : Nat) (cs : List Char) : Prop := bracketFault? (d : Int) cs = none

section

variable {d : Nat} {c : Char} {k : Connective} {a cs inner rest l r : List Char}

theorem depth_openAfter (h : ¬ (c = ')' ∧ d = 0)) : (d : Int) + depthOf c = (openAfter d c : Nat) := by
  unfold depthOf openAfter
  split
  · rfl
  split
  · next hc =>
    have : d ≠ 0 := fun hd => h ⟨hc, hd⟩
    omega
  · exact Int.add_zero _

theorem balanced_nil_iff : Balanced d [] ↔ d = 0 := by
  rw [Balanced, bracketFault?]
  split
  · next hd => simp [Int.ofNat_eq_zero.1 hd]
  · next hd => simpa using hd

theorem balanced_cons_iff : Balanced d (c :: cs) ↔ ¬ (c = ')' ∧ d = 0) ∧ Balanced (openAfter d c) cs := by
  rw [Balanced, bracketFault?]
  by_cases hc : c = ')' ∧ d = 0
  · have sunk : (d : Int) + depthOf c < 0 := by
      rw [hc.1, hc.2]
      decide
    rw [if_pos sunk]
    exact iff_of_false nofun fun h => h.1 hc
  · rw [depth_openAfter hc, if_neg (Int.not_lt.2 (Int.natCast_nonneg _))]
    simp [hc, Balanced]

theorem balanced_of_closeAt (h : closeAt d cs = some (inner, rest)) : Balanced d inner := by
  induction cs generalizing d inner with
  | nil => cases h
  | cons c cs ih =>
    rw [closeAt] at h
    split at h
    · next hc =>
      cases h
      exact balanced_nil_iff.2 hc.2
    · next hc =>
      obtain ⟨⟨i, r⟩, hi, he⟩ := Option.map_eq_some_iff.1 h
      cases he
      exact balanced_cons_iff.2 ⟨hc, ih hi⟩

theorem closeAt_append (h : Balanced d a) : closeAt d (a ++ ')' :: rest) = some (a, rest) := by
  induction a generalizing d with
  | nil =>
    rw [balanced_nil_iff.1 h]
    rfl
  | cons c a ih =>
    obtain ⟨hc, ha⟩ := balanced_cons_iff.1 h
    rw [List.cons_append, closeAt, if_neg hc, ih ha]
    rfl

theorem balanced_of_enclosed (h : enclosed cs = some inner) : Balanced 0 inner := by
  cases cs with
  | nil => cases h
  | cons c cs =>
    rw [enclosed] at h
    split at h
    · split at h
      · next i hi =>
        cases h
        exact balanced_of_closeAt hi
      · cases h
    · cases h

theorem enclosed_brackets (h : Balanced 0 a) : enclosed ('(' :: (a ++ [')'])) = some a := by
  rw [enclosed, if_pos rfl, closeAt_append h]

theorem balanced_brackets (h : Balanced d a) : Balanced (d + 1) (a ++ [')']) := by
  induction a generalizing d with
  | nil =>
    rw [balanced_nil_iff.1 h]
    rfl
  | cons c a ih =>
    obtain ⟨hc, ha⟩ := balanced_cons_iff.1 h
    have next : openAfter (d + 1) c = openAfter d c + 1 := by
      unfold openAfter
      split
      · rfl
      split
      · next close =>
        have : d ≠ 0 := fun hd => hc ⟨close, hd⟩
        omega
      · rfl
    rw [List.cons_append, balanced_cons_iff, next]
    exact ⟨fun close => absurd close.2 (Nat.succ_ne_zero d), ih ha⟩

theorem splitFrom_inside (h : Balanced d a) : splitFrom ((d : Int) + 1) (a ++ [')']) = none := by
  induction a generalizing d with
  | nil =>
    rw [balanced_nil_iff.1 h]
    rfl
  | cons c a ih =>
    obtain ⟨hc, ha⟩ := balanced_cons_iff.1 h
    have inside : (d : Int) + 1 ≠ 0 := by omega
    have next : (d : Int) + 1 + depthOf c = (openAfter d c : Nat) + 1 := by
      rw [← depth_openAfter hc]
      omega
    rw [List.cons_append, splitFrom, if_neg inside]
    dsimp only
    rw [next, ih ha]
    rfl

theorem splitMain_of_enclosed (h : enclosed cs = some inner) : splitMain cs = none := by
  have hidden := splitFrom_inside (balanced_of_enclosed h)
  rw [eq_of_enclosed h, splitMain, splitFrom, if_pos rfl]
  exact Option.map_eq_none_iff.2 hidden

theorem splitFrom_append (h : Balanced d a) (hidden : splitFrom (d : Int) a = none) :
    splitFrom (d : Int) (a ++ rest) = (splitFrom (0 : Int) rest).map fun (before, k, after) => (a ++ before, k, after) := by
  induction a generalizing d with
  | nil =>
    rw [balanced_nil_iff.1 h]
    simp
  | cons c a ih =>
    obtain ⟨hc, ha⟩ := balanced_cons_iff.1 h
    rw [splitFrom] at hidden
    rw [List.cons_append, splitFrom]
    split at hidden
    · cases hidden
    · rw [depth_openAfter hc] at hidden ⊢
      rw [ih ha (Option.map_eq_none_iff.1 hidden)]
      exact Option.map_map ..

theorem balanced_of_splitFrom (h : Balanced d cs) (cut : splitFrom (d : Int) cs = some (l, k, r)) :
    Balanced d l ∧ Balanced 0 r ∧ splitFrom (d : Int) l = none := by
  induction cs generalizing d l with
  | nil => cases cut
  | cons c cs ih =>
    obtain ⟨hc, hcs⟩ := balanced_cons_iff.1 h
    rw [splitFrom] at cut
    split at cut
    · next k' sign =>
      cases cut
      split at sign
      · next outside =>
        have plain : k.char ≠ '(' ∧ k.char ≠ ')' := by cases k <;> decide
        have hd : d = 0 := by exact_mod_cast outside
        have hk : c = k.char := Connective.ofChar?_eq_some_iff.1 sign
        rw [hk, hd, openAfter, if_neg plain.1, if_neg plain.2] at hcs
        exact ⟨balanced_nil_iff.2 hd, hcs, rfl⟩
      · cases sign
    · next no_sign =>
      rw [depth_openAfter hc] at cut
      obtain ⟨⟨l', k', r'⟩, cut', he⟩ := Option.map_eq_some_iff.1 cut
      cases he
      obtain ⟨hl, hr, hidden⟩ := ih hcs cut'
      refine ⟨balanced_cons_iff.2 ⟨hc, hl⟩, hr, ?_⟩
      rw [splitFrom, no_sign]
      dsimp only
      rw [depth_openAfter hc, hidden]
      rfl

theorem balanced_of_splitMain (h : Balanced 0 cs) (cut : splitMain cs = some (l, k, r)) :
    Balanced 0 l ∧ Balanced 0 r ∧ splitMain l = none := balanced_of_splitFrom h cut

theorem balanced_of_wholeFault? (h : wholeFault? (0 : Int) cs = none) : Balanced 0 cs := by
  rw [wholeFault?] at h
  split at h
  · cases h
  split at h
  · cases h
  · next balanced => exact balanced

theorem nestsConditional_of_wholeFault? (h : wholeFault? (0 : Int) cs = none) : nestsConditional (0 : Int) cs = false := by
  rw [wholeFault?] at h
  split at h
  · cases h
  split at h
  · cases h
  split at h
  · cases h
  · next outside => exact Bool.eq_false_iff.2 outside

theorem balanced_sides (h : Balanced d (a ++ '>' :: cs)) (outside : nestsConditional (d : Int) (a ++ '>' :: cs) = false) :
    Balanced d a ∧ Balanced 0 cs := by
  induction a generalizing d with
  | nil =>
    have hd : d = 0 := by
      simp only [List.nil_append, nestsConditional] at outside
      simp at outside
      exact outside.1
    refine ⟨balanced_nil_iff.2 hd, ?_⟩
    rw [hd] at h
    exact (balanced_cons_iff.1 h).2
  | cons c a ih =>
    rw [List.cons_append] at h outside
    obtain ⟨hc, ha⟩ := balanced_cons_iff.1 h
    rw [nestsConditional, Bool.or_eq_false_iff, depth_openAfter hc] at outside
    obtain ⟨sides, after⟩ := ih ha outside.2
    exact ⟨balanced_cons_iff.2 ⟨hc, sides⟩, after⟩

theorem balanced_iff : Balanced d cs ↔ (∀ p, p <+: cs → 0 ≤ d + depth p) ∧ d + depth cs = 0 := by
  induction cs generalizing d with
  | nil => simp [balanced_nil_iff, depth]
  | cons c cs ih =>
    rw [balanced_cons_iff, ih]
    -- A bracket that is not open cannot be closed first, and past the first character the two depths agree.
    constructor
    · rintro ⟨opened, inside, total⟩
      rw [← depth_openAfter opened, Int.add_assoc] at total
      refine ⟨fun p hp => ?_, total⟩
      rcases List.prefix_cons_iff.1 hp with rfl | ⟨q, rfl, hq⟩
      · rw [depth]
        omega
      · have later := inside q hq
        rwa [← depth_openAfter opened, Int.add_assoc] at later
    · rintro ⟨inside, total⟩
      have opened : ¬ (c = ')' ∧ d = 0) := by
        rintro ⟨rfl, rfl⟩
        have first := inside [')'] (List.cons_prefix_cons.2 ⟨rfl, List.nil_prefix⟩)
        exact absurd first (by decide)
      refine ⟨opened, fun p hp => ?_, ?_⟩
      · rw [← depth_openAfter opened, Int.add_assoc]
        exact inside (c :: p) (List.cons_prefix_cons.2 ⟨rfl, hp⟩)
      · rwa [← depth_openAfter opened, Int.add_assoc]

end

end FourValued
