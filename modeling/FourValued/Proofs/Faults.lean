import FourValued.Proofs.Spelling

/-!
# Texts that are no predicates

A blank text holds no predicate, and a text whose canonical text is that of a predicate holds it. Every other
text is refused with its outer blanks removed, and how often the conditional and the biconditional sign occur in
it decides what is wrong with it (`Predicate.read_eq_error_iff`).
-/

namespace FourValued

open Text

def PredicateFault.ofSigns : Nat → Nat → PredicateFault
  | 0, 0 => .assignmentShape
  | 0, 1 => .biconditionalSide
  | 0, _ + 2 => .biconditionalShape
  | 1, _ => .conditionalSide
  | _ + 2, _ => .conditionalShape

/-- A malformed text is neither blank nor the spelling of a predicate. -/
def Malformed (s : String) : Prop := canonical s ≠ [] ∧ ∀ p : Predicate, canonical s ≠ p.chars

def MalformedPredicate.ofText (s : String) : MalformedPredicate :=
  ⟨trim s, .ofSigns ((canonical s).count '>') ((canonical s).count '=')⟩

namespace Predicate

variable {cs : List Char} {fault : PredicateFault} {s : String}

theorem eq_ofSigns_of_readConditional (mem : '>' ∈ cs) (h : readConditional cs = .error fault) :
    fault = .ofSigns (cs.count '>') (cs.count '=') := by
  unfold readConditional at h
  split at h
  · next cut =>
    obtain ⟨n, several⟩ := exists_count_of_cutOnce cut mem
    cases h
    rw [several]
    rfl
  next a c cut =>
  rw [count_eq_one_of_cutOnce cut]
  split at h
  · cases h
  · cases h
    rfl

theorem eq_ofSigns_of_readBiconditional (plain : '>' ∉ cs) (mem : '=' ∈ cs)
    (h : readBiconditional cs = .error fault) : fault = .ofSigns (cs.count '>') (cs.count '=') := by
  rw [List.count_eq_zero.2 plain]
  unfold readBiconditional at h
  split at h
  · next cut =>
    obtain ⟨n, several⟩ := exists_count_of_cutOnce cut mem
    cases h
    rw [several]
    rfl
  next l r cut =>
  rw [count_eq_one_of_cutOnce cut]
  split at h
  · cases h
  · cases h
    rfl

theorem eq_ofSigns_of_readChars (h : readChars cs = .error fault) :
    fault = .ofSigns (cs.count '>') (cs.count '=') := by
  unfold readChars at h
  split at h
  · next mem => exact eq_ofSigns_of_readConditional mem h
  next plain =>
  split at h
  · next mem => exact eq_ofSigns_of_readBiconditional plain mem h
  · next plain' =>
    unfold readAssignment at h
    split at h
    · cases h
    · cases h
      rw [List.count_eq_zero.2 plain, List.count_eq_zero.2 plain']
      rfl

theorem read_eq_none_iff : read s = .ok none ↔ canonical s = [] := by
  rw [read]
  split
  · next blank => simp [blank]
  · next written =>
    split <;> simp [written]

theorem eq_ofText_of_read {m : MalformedPredicate} (h : read s = .error m) : m = .ofText s := by
  rw [read] at h
  split at h
  · cases h
  split at h
  · cases h
  · next fault hf =>
    cases h
    rw [eq_ofSigns_of_readChars hf]
    rfl

theorem malformed_of_read {m : MalformedPredicate} (h : read s = .error m) : Malformed s := by
  refine ⟨fun blank => ?_, fun p spelled => ?_⟩
  · rw [read_eq_none_iff.2 blank] at h
    cases h
  · rw [read_eq_some_iff.2 spelled] at h
    cases h

theorem read_of_malformed (h : Malformed s) : read s = .error (.ofText s) := by
  cases hs : read s with
  | error m => rw [eq_ofText_of_read hs]
  | ok q =>
    cases q with
    | none => exact absurd (read_eq_none_iff.1 hs) h.1
    | some p => exact absurd (read_eq_some_iff.1 hs) (h.2 p)

theorem read_eq_error_iff {m : MalformedPredicate} : read s = .error m ↔ Malformed s ∧ m = .ofText s := by
  constructor
  · exact fun h => ⟨malformed_of_read h, eq_ofText_of_read h⟩
  · rintro ⟨h, rfl⟩
    exact read_of_malformed h

instance : DecidablePred Malformed := fun s =>
  decidable_of_iff ((read s).isOk = false) <| by
    cases h : read s with
    | error m => exact iff_of_true rfl (malformed_of_read h)
    | ok q =>
      refine iff_of_false nofun fun malformed => ?_
      rw [read_of_malformed malformed] at h
      cases h

/-- Reading a predicate inverts writing it, up to blanks and case. A blank text holds none, and every other text is
refused with the text that stands between its outer blanks and with the fault that its signs decide. -/
theorem read_inverts_text (s : String) :
    (∀ p : Predicate, read s = .ok (some p) ↔ String.ofList (canonical s) = p.text) ∧
    (read s = .ok none ↔ ∀ c ∈ s.toList, isBlank c = true) ∧
    ∀ m : MalformedPredicate, read s = .error m ↔
      (∃ c ∈ s.toList, isBlank c = false) ∧ (∀ p : Predicate, String.ofList (canonical s) ≠ p.text) ∧
      m.predicate = trim s ∧ m.fault = .ofSigns ((canonical s).count '>') ((canonical s).count '=') := by
  have spelled : ∀ p : Predicate, String.ofList (canonical s) = p.text ↔ canonical s = p.chars :=
    fun p => String.ofList_inj
  have blank : canonical s ≠ [] ↔ ∃ c ∈ s.toList, isBlank c = false := by
    rw [Ne, canonical_eq_nil_iff]
    simp
  refine ⟨fun p => ?_, ?_, fun m => ?_⟩
  · rw [read_eq_some_iff, spelled]
  · rw [read_eq_none_iff, canonical_eq_nil_iff]
  · obtain ⟨predicate, fault⟩ := m
    rw [read_eq_error_iff, Malformed, blank, and_assoc]
    simp only [Ne, spelled, MalformedPredicate.ofText, MalformedPredicate.mk.injEq]

end Predicate

end FourValued
