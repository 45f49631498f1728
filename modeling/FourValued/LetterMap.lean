import FourValued.Letter

/-!
# Total maps on letters

A `LetterMap` holds one entry for each letter. It is known through `get`: a constant map, a map given by a
function and a map with one entry replaced have the entries that their names say, and maps with equal
entries are equal (`LetterMap.ext`).
-/

namespace FourValued

structure LetterMap (α : Type) where
  entries : Vector α 26
  deriving DecidableEq, Repr

namespace LetterMap

variable {α : Type}

def get (m : LetterMap α) (l : Letter) : α := m.entries[l.index.val]

def ofFn (f : Letter → α) : LetterMap α := ⟨Vector.ofFn fun i => f ⟨i⟩⟩

def const (a : α) : LetterMap α := ofFn fun _ => a

def set (m : LetterMap α) (l : Letter) (a : α) : LetterMap α := ⟨m.entries.set l.index.val a⟩

@[simp] theorem get_ofFn (f : Letter → α) (l : Letter) : (ofFn f).get l = f l := by
  simp [get, ofFn]

@[simp] theorem get_const (a : α) (l : Letter) : (const a).get l = a := get_ofFn _ l

theorem get_set (m : LetterMap α) (l k : Letter) (a : α) :
    (m.set l a).get k = if k = l then a else m.get k := by
  obtain ⟨i⟩ := l
  obtain ⟨j⟩ := k
  simp only [get, set, Vector.getElem_set, Letter.mk.injEq, Fin.ext_iff]
  split <;> split <;> first | rfl | omega

@[simp] theorem get_set_self (m : LetterMap α) (l : Letter) (a : α) : (m.set l a).get l = a := by
  simp [get_set]

theorem get_set_of_ne {l k : Letter} (h : k ≠ l) (m : LetterMap α) (a : α) :
    (m.set l a).get k = m.get k := by
  simp [get_set, h]

theorem ext {m n : LetterMap α} (h : ∀ l, m.get l = n.get l) : m = n := by
  obtain ⟨v⟩ := m
  obtain ⟨w⟩ := n
  congr 1
  exact Vector.ext fun i hi => h ⟨⟨i, hi⟩⟩

theorem set_eq_self {m : LetterMap α} {l : Letter} {a : α} (h : m.get l = a) : m.set l a = m := by
  apply ext
  intro k
  rw [get_set]
  split
  · next hk => rw [hk, h]
  · rfl

theorem get_set_congr {m n : LetterMap α} {k : Letter} (h : m.get k = n.get k) (l : Letter) (a : α) :
    (m.set l a).get k = (n.set l a).get k := by
  rw [get_set, get_set, h]

end LetterMap

end FourValued
