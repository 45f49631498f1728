import FourValued.Inference
import FourValued.Proofs.Grammar

/-!
# The spelling of predicates

A text is read as a predicate just when its canonical text is the text of the predicate
(`Predicate.read_eq_some_iff`). So the predicate has as many characters as the canonical text, and the
predicates of some length are those among the texts of that length.
-/

namespace FourValued

open Text

namespace Literal

variable {cs : List Char} {l : Letter} {p : Literal}

theorem eq_of_readLetter (upper : ∀ c ∈ cs, c.toUpper = c) (h : readLetter cs = some l) : cs = [l.char] := by
  unfold readLetter at h
  split at h
  · next c =>
    have written := Letter.ofChar?_eq_some_iff.1 h
    rw [upper c List.mem_cons_self] at written
    rw [written]
  · cases h

theorem eq_of_read (upper : ∀ c ∈ cs, c.toUpper = c) (h : read cs = some p) : cs = p.chars := by
  cases cs with
  | nil => cases h
  | cons c cs =>
    rw [read] at h
    split at h
    · next tilde =>
      obtain ⟨l, hl, rfl⟩ := Option.map_eq_some_iff.1 h
      rw [eq_of_readLetter (fun x hx => upper x (List.mem_cons_of_mem c hx)) hl, tilde]
      rfl
    · obtain ⟨l, hl, rfl⟩ := Option.map_eq_some_iff.1 h
      exact eq_of_readLetter upper hl

end Literal

namespace Predicate

variable {cs : List Char} {p : Predicate}

theorem eq_of_readChars (upper : ∀ c ∈ cs, c.toUpper = c) (h : readChars cs = .ok p) : cs = p.chars := by
  have sides : ∀ {x : Char} {a b : List Char}, cutOnce x cs = some (a, b) →
      cs = a ++ x :: b ∧ (∀ c ∈ a, c.toUpper = c) ∧ ∀ c ∈ b, c.toUpper = c := by
    intro x a b cut
    have whole := (cutOnce_eq_some_iff.1 cut).1
    exact ⟨whole, fun c hc => upper c (by simp [whole, hc]), fun c hc => upper c (by simp [whole, hc])⟩
  unfold readChars at h
  split at h
  · unfold readConditional at h
    split at h
    · cases h
    next a c cut =>
    obtain ⟨whole, left, right⟩ := sides cut
    split at h
    · next a c ha hc =>
      cases h
      rw [chars, ← Literal.eq_of_read left ha, ← Literal.eq_of_read right hc, whole]
    · cases h
  split at h
  · unfold readBiconditional at h
    split at h
    · cases h
    next l r cut =>
    obtain ⟨whole, left, right⟩ := sides cut
    split at h
    · next l r hl hr =>
      cases h
      rw [whole, Literal.eq_of_readLetter left hl, Literal.eq_of_readLetter right hr]
      rfl
    · cases h
  · unfold readAssignment at h
    split at h
    · next q hq =>
      cases h
      exact Literal.eq_of_read upper hq
    · cases h

theorem chars_ne_nil (p : Predicate) : p.chars ≠ [] := by
  cases p with
  | assignment p =>
    obtain ⟨l, n⟩ := p
    cases n <;> exact List.cons_ne_nil _ _
  | biconditional l r => exact List.cons_ne_nil _ _
  | conditional a c => exact List.append_ne_nil_of_right_ne_nil _ (List.cons_ne_nil _ _)

theorem read_eq_some_iff {s : String} : read s = .ok (some p) ↔ canonical s = p.chars := by
  constructor
  · intro h
    rw [read] at h
    split at h
    · cases h
    split at h
    · next q hq =>
      cases h
      exact eq_of_readChars toUpper_of_mem_canonical hq
    · cases h
  · intro h
    rw [read, h, if_neg p.chars_ne_nil, readChars_chars]

def ofText? (s : String) : Option Predicate :=
  match read s with
  | .ok p => p
  | .error _ => none

theorem ofText?_eq_some_iff {s : String} : ofText? s = some p ↔ canonical s = p.chars := by
  rw [← read_eq_some_iff, ofText?]
  split
  · next q hq => simp [hq]
  · next m hm => simp [hm]

theorem wellFormed_eq (ss : List String) : wellFormed ss = ss.filterMap ofText? := rfl

theorem mem_wellFormed {ss : List String} : p ∈ wellFormed ss ↔ ∃ s ∈ ss, canonical s = p.chars := by
  simp only [wellFormed_eq, List.mem_filterMap, ofText?_eq_some_iff]

theorem length_of_read {s : String} (h : read s = .ok (some p)) : (canonical s).length = p.length := by
  rw [read_eq_some_iff.1 h]
  rfl

theorem wellFormed_filter_length (ss : List String) (n : Nat) :
    wellFormed (ss.filter fun s => (canonical s).length = n) = (wellFormed ss).filter fun p => p.length = n := by
  rw [wellFormed, wellFormed, List.filterMap_filter, List.filter_filterMap]
  refine congrArg (List.filterMap · ss) (funext fun s => ?_)
  cases h : read s with
  | error m => exact ite_self none
  | ok q =>
    cases q with
    | none => exact ite_self none
    | some p => rw [length_of_read h, Option.filter_some]

end Predicate

end FourValued
