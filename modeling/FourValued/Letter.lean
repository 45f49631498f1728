/-!
# Letters

The propositional variables are the twenty-six letters `A` to `Z`. A letter is read from a character of
either case and written in upper case. Reading inverts writing (`ofChar?_char`), a character stands for
the letter that its upper case writes (`ofChar?_eq_some_iff`), and `all` lists every letter (`mem_all`).
-/

namespace FourValued

structure Letter where
  index : Fin 26
  deriving DecidableEq, Repr

namespace Letter

def count : Nat := 26

def char (l : Letter) : Char := Char.ofNat (65 + l.index.val)

def text (l : Letter) : String := l.char.toString

def ofChar? (c : Char) : Option Letter :=
  let n := c.toUpper.toNat
  if h : 65 ≤ n ∧ n ≤ 90 then some ⟨⟨n - 65, by omega⟩⟩ else none

def all : List Letter := (List.finRange 26).map mk

theorem forall_iff {p : Letter → Prop} : (∀ l, p l) ↔ ∀ i : Fin 26, p ⟨i⟩ :=
  ⟨fun h i => h ⟨i⟩, fun h l => h l.index⟩

instance (p : Letter → Prop) [DecidablePred p] : Decidable (∀ l, p l) :=
  decidable_of_iff _ forall_iff.symm

theorem ofChar?_char : ∀ l : Letter, ofChar? l.char = some l := by decide

theorem toUpper_char : ∀ l : Letter, l.char.toUpper = l.char := by decide

theorem ofChar?_eq_some_iff {c : Char} {l : Letter} : ofChar? c = some l ↔ c.toUpper = l.char := by
  constructor
  · intro h
    simp only [ofChar?] at h
    split at h
    · next hn =>
      obtain rfl := Option.some.inj h
      have e : 65 + (c.toUpper.toNat - 65) = c.toUpper.toNat := by omega
      simp [char, e]
    · simp at h
  · intro h
    have : ofChar? c = ofChar? l.char := by simp only [ofChar?, h, toUpper_char]
    rw [this, ofChar?_char]

theorem mem_all (l : Letter) : l ∈ all :=
  List.mem_map.2 ⟨l.index, List.mem_finRange _, rfl⟩

theorem char_injective {a b : Letter} (h : a.char = b.char) : a = b :=
  Option.some.inj (by rw [← ofChar?_char a, ← ofChar?_char b, h])

end Letter

end FourValued
