import FourValued.Connective

/-!
# Brackets and the main connective

The depth of a text is the number of its opening brackets less the number of its closing ones. It can be
counted in integers, or in words of 32 bits, which wrap around. The main connective of a text is its first
connective before which the depth is zero; `splitMain` cuts the text there, and `mainOffset` counts in words
where that is. `enclosed` gives the content of a text that is one bracketed group. What is cut can be put
together again (`eq_of_splitFrom`, `eq_of_enclosed`), so the pieces are shorter than the text.
-/

namespace FourValued.Text

section Counting

variable {D : Type} [OfNat D 0] [OfNat D 1] [Neg D]

def depthOf (c : Char) : D := if c = '(' then 1 else if c = ')' then -1 else 0

variable [Add D] [DecidableEq D]

/-- The text before the first connective at depth zero, that connective, and the text after it, where the
text begins at depth `d`. -/
def splitFrom (d : D) : List Char → Option (List Char × Connective × List Char)
  | [] => none
  | c :: cs =>
    match if d = 0 then Connective.ofChar? c else none with
    | some k => some ([], k, cs)
    | none => (splitFrom (d + depthOf c) cs).map fun (before, k, after) => (c :: before, k, after)

theorem eq_of_splitFrom {d : D} {cs l r : List Char} {k : Connective}
    (h : splitFrom d cs = some (l, k, r)) : cs = l ++ k.char :: r := by
  induction cs generalizing d l with
  | nil => simp [splitFrom] at h
  | cons c cs ih =>
    rw [splitFrom] at h
    split at h
    · next k' hk =>
      simp only [Option.some.injEq, Prod.mk.injEq] at h
      obtain ⟨rfl, rfl, rfl⟩ := h
      split at hk
      · simpa using Connective.ofChar?_eq_some_iff.1 hk
      · simp at hk
    · obtain ⟨⟨l', k', r'⟩, hl, he⟩ := Option.map_eq_some_iff.1 h
      simp only [Prod.mk.injEq] at he
      obtain ⟨rfl, rfl, rfl⟩ := he
      simp [ih hl]

end Counting

def depth : List Char → Int
  | [] => 0
  | c :: cs => depthOf c + depth cs

def splitMain (cs : List Char) : Option (List Char × Connective × List Char) := splitFrom (0 : Int) cs

def byteLength : List Char → Nat
  | [] => 0
  | c :: cs => c.utf8Size + byteLength cs

/-- The byte offset of the main connective, found by counting in words of 32 bits. -/
def mainOffset (s : String) : Option Nat :=
  (splitFrom (0 : Int32) s.toList).map fun (before, _, _) => byteLength before

def openAfter (d : Nat) (c : Char) : Nat := if c = '(' then d + 1 else if c = ')' then d - 1 else d

/-- Cuts the text after an opening bracket at the bracket that closes it, when `d` more brackets are open. -/
def closeAt (d : Nat) : List Char → Option (List Char × List Char)
  | [] => none
  | c :: cs =>
    if c = ')' ∧ d = 0 then some ([], cs)
    else (closeAt (openAfter d c) cs).map fun (inner, rest) => (c :: inner, rest)

def enclosed : List Char → Option (List Char)
  | [] => none
  | c :: cs =>
    if c = '(' then
      match closeAt 0 cs with
      | some (inner, []) => some inner
      | _ => none
    else none

def stripOuter (s : String) : String :=
  match enclosed s.toList with
  | some inner => String.ofList inner
  | none => s

theorem eq_of_splitMain {cs l r : List Char} {k : Connective} (h : splitMain cs = some (l, k, r)) :
    cs = l ++ k.char :: r := eq_of_splitFrom h

theorem eq_of_closeAt {d : Nat} {cs inner rest : List Char} (h : closeAt d cs = some (inner, rest)) :
    cs = inner ++ ')' :: rest := by
  induction cs generalizing d inner with
  | nil => simp [closeAt] at h
  | cons c cs ih =>
    rw [closeAt] at h
    split at h
    · next hc =>
      simp only [Option.some.injEq, Prod.mk.injEq] at h
      simp [← h.1, ← h.2, hc.1]
    · obtain ⟨⟨i, r⟩, hi, he⟩ := Option.map_eq_some_iff.1 h
      simp only [Prod.mk.injEq] at he
      obtain ⟨rfl, rfl⟩ := he
      simp [ih hi]

theorem eq_of_enclosed {cs inner : List Char} (h : enclosed cs = some inner) :
    cs = '(' :: (inner ++ [')']) := by
  cases cs with
  | nil => simp [enclosed] at h
  | cons c cs =>
    rw [enclosed] at h
    split at h
    · next hc =>
      split at h
      · next i hi =>
        simp only [Option.some.injEq] at h
        rw [hc, eq_of_closeAt hi, h]
      · simp at h
    · simp at h

end FourValued.Text
