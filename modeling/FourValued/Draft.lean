import FourValued.Expression

/-!
# Moving negations on the text

Negations can be moved inwards on the text of an expression, before it is read: `~(P&Q)` is written as the dual
connective of `~P` and `~Q`, and a conditional as a disjunction with the negated antecedent. The texts that come
up on the way hold signs that nobody wrote. A draft is such a text with each character marked as given or as
added (`Glyph`). Drafts are cut where their characters are (`cutMain_eq`, `content_eq`, `cutConditional_eq`), and
what is cut is shorter by more than the signs that are added to it, so the rewriting ends. The depth of brackets is
counted in `D`, in integers or in words that wrap around.
-/

namespace FourValued

open Text

/-- A character of a text that is being rewritten: a character of the text as it was given, or an added one. -/
structure Glyph where
  char : Char
  added : Bool
  deriving DecidableEq, Repr

abbrev Draft := List Glyph

namespace Draft

def given (cs : List Char) : Draft := cs.map (⟨·, false⟩)

def chars (m : Draft) : List Char := m.map Glyph.char

def sign (c : Char) : Glyph := ⟨c, true⟩

def cutConditional (m : Draft) : Option (Draft × Draft) :=
  (cutOnce '>' m.chars).map fun (before, _) => (m.take before.length, m.drop (before.length + 1))

def content (m : Draft) : Option Draft := (enclosed m.chars).map fun inner => (m.drop 1).take inner.length

def negatedContent : Draft → Option Draft
  | [] => none
  | g :: m => if g.char = '~' then content m else none

def letter? : Draft → Option Letter
  | [g] => Letter.ofChar? g.char
  | _ => none

def withoutBrackets (m : Draft) : Draft := m.content.getD m

section Counting

variable (D : Type) [OfNat D 0] [OfNat D 1] [Neg D] [Add D] [DecidableEq D]

def cutMain (m : Draft) : Option (Draft × Connective × Draft) :=
  (splitFrom (0 : D) m.chars).map fun (before, c, _) => (m.take before.length, c, m.drop (before.length + 1))

def negate (m : Draft) : Draft :=
  if (splitFrom (0 : D) m.chars).isSome then sign '~' :: sign '(' :: (m ++ [sign ')']) else sign '~' :: m

end Counting

variable {m l r inner rest : Draft} {c : Connective} {g : Glyph}

theorem chars_given (cs : List Char) : (given cs).chars = cs := by
  rw [given, chars, List.map_map]
  exact List.map_id' cs

theorem not_added_of_mem_given {cs : List Char} (h : g ∈ given cs) : g.added = false := by
  obtain ⟨c, -, rfl⟩ := List.mem_map.1 h
  rfl

theorem chars_append (l r : Draft) : chars (l ++ r) = l.chars ++ r.chars := List.map_append

theorem chars_eq_nil_iff : m.chars = [] ↔ m = [] := List.map_eq_nil_iff

theorem chars_cons_of_sign (tilde : g.char = '~') : chars (g :: rest) = '~' :: rest.chars := by
  rw [chars, List.map_cons, tilde]
  rfl

theorem exists_cut {before after : List Char} {x : Char} (h : m.chars = before ++ x :: after) :
    chars (m.take before.length) = before ∧ chars (m.drop (before.length + 1)) = after ∧
    ∃ g, m = m.take before.length ++ g :: m.drop (before.length + 1) := by
  have inside : before.length < m.length := by
    rw [← List.length_map Glyph.char, ← chars, h]
    simp
  refine ⟨?_, ?_, m[before.length], ?_⟩
  · rw [chars, List.map_take, ← chars, h, List.take_left]
  · rw [chars, List.map_drop, ← chars, h, List.drop_append]
    simp
  · rw [← List.drop_eq_getElem_cons inside, List.take_append_drop]

theorem cutConditional_eq (h : m.cutConditional = some (l, r)) :
    cutOnce '>' m.chars = some (l.chars, r.chars) ∧ ∃ g, m = l ++ g :: r := by
  obtain ⟨⟨before, after⟩, cut, he⟩ := Option.map_eq_some_iff.1 h
  obtain ⟨left, right, whole⟩ := exists_cut (cutOnce_eq_some_iff.1 cut).1
  cases he
  rw [left, right]
  exact ⟨cut, whole⟩

theorem content_eq (h : m.content = some inner) :
    enclosed m.chars = some inner.chars ∧ ∃ g g', m = g :: (inner ++ [g']) := by
  obtain ⟨cs, closed, he⟩ := Option.map_eq_some_iff.1 h
  obtain ⟨g, m', rfl, -, hrest⟩ := List.map_eq_cons_iff.1 (eq_of_enclosed closed)
  have closing : chars m' = cs ++ ')' :: [] := hrest
  obtain ⟨left, right, g', whole⟩ := exists_cut closing
  rw [List.drop_succ_cons, List.drop_zero] at he
  rw [he] at left whole
  rw [chars_eq_nil_iff.1 right] at whole
  rw [left]
  exact ⟨closed, g, g', congrArg (g :: ·) whole⟩

theorem negatedContent_of_sign (tilde : g.char = '~') : negatedContent (g :: rest) = content rest := if_pos tilde

theorem negatedContent_eq (h : m.negatedContent = some inner) :
    ∃ g rest, m = g :: rest ∧ g.char = '~' ∧ content rest = some inner := by
  cases m with
  | nil => cases h
  | cons g rest =>
    rw [negatedContent] at h
    split at h
    · next tilde => exact ⟨g, rest, rfl, tilde, h⟩
    · cases h

theorem content_eq_none_iff : m.content = none ↔ enclosed m.chars = none := Option.map_eq_none_iff

theorem cutConditional_eq_none_iff : m.cutConditional = none ↔ cutOnce '>' m.chars = none := Option.map_eq_none_iff

theorem length_of_content (h : m.content = some inner) : m.length = inner.length + 2 := by
  obtain ⟨-, g, g', rfl⟩ := content_eq h
  rw [List.length_cons, List.length_append, List.length_singleton]

theorem length_of_negatedContent (h : m.negatedContent = some inner) : m.length = inner.length + 3 := by
  obtain ⟨g, rest, rfl, -, closed⟩ := negatedContent_eq h
  rw [List.length_cons, length_of_content closed]

theorem length_withoutBrackets_le (m : Draft) : m.withoutBrackets.length ≤ m.length := by
  unfold withoutBrackets
  cases h : m.content with
  | none => exact Nat.le_refl _
  | some inner =>
    have length := length_of_content h
    exact length ▸ Nat.le_add_right _ _

theorem isInfix_of_cutConditional (h : m.cutConditional = some (l, r)) : l <:+: m ∧ r <:+: m := by
  obtain ⟨-, g, rfl⟩ := cutConditional_eq h
  exact ⟨⟨[], g :: r, rfl⟩, l ++ [g], [], by simp⟩

theorem isInfix_of_content (h : m.content = some inner) : inner <:+: m := by
  obtain ⟨-, g, g', rfl⟩ := content_eq h
  exact ⟨[g], [g'], rfl⟩

theorem chars_brackets (m : Draft) : chars (sign '(' :: (m ++ [sign ')'])) = '(' :: (m.chars ++ [')']) := by
  simp [chars, sign]

section Counting

variable {D : Type} [OfNat D 0] [OfNat D 1] [Neg D] [Add D] [DecidableEq D]

theorem cutMain_eq (h : m.cutMain D = some (l, c, r)) :
    splitFrom (0 : D) m.chars = some (l.chars, c, r.chars) ∧ ∃ g, m = l ++ g :: r := by
  obtain ⟨⟨before, c', after⟩, cut, he⟩ := Option.map_eq_some_iff.1 h
  obtain ⟨left, right, whole⟩ := exists_cut (eq_of_splitFrom cut)
  cases he
  rw [left, right]
  exact ⟨cut, whole⟩

theorem cutMain_eq_none_iff : m.cutMain D = none ↔ splitFrom (0 : D) m.chars = none := Option.map_eq_none_iff

theorem length_of_cutMain (h : m.cutMain D = some (l, c, r)) : m.length = l.length + r.length + 1 := by
  obtain ⟨-, g, rfl⟩ := cutMain_eq h
  rw [List.length_append, List.length_cons, Nat.add_assoc]

theorem isInfix_of_cutMain (h : m.cutMain D = some (l, c, r)) : l <:+: m ∧ r <:+: m := by
  obtain ⟨-, g, rfl⟩ := cutMain_eq h
  exact ⟨⟨[], g :: r, rfl⟩, l ++ [g], [], by simp⟩

theorem negate_of_cutMain {pieces : Draft × Connective × Draft} (cut : m.cutMain D = some pieces) :
    m.negate D = sign '~' :: sign '(' :: (m ++ [sign ')']) := by
  obtain ⟨split, -⟩ := cutMain_eq cut
  rw [negate, split]
  rfl

theorem negate_of_hidden (hidden : m.cutMain D = none) : m.negate D = sign '~' :: m := by
  rw [negate, cutMain_eq_none_iff.1 hidden]
  rfl

variable (D)

theorem length_negate_le (m : Draft) : (m.negate D).length ≤ m.length + 3 := by
  unfold negate
  split <;> simp

theorem negate_ne_nil (m : Draft) : m.negate D ≠ [] := by
  unfold negate
  split <;> exact List.cons_ne_nil _ _

theorem withoutBrackets_negate (m : Draft) : (m.negate D).withoutBrackets = m.negate D := by
  have bare : (m.negate D).content = none := by
    unfold negate
    split <;> rfl
  rw [withoutBrackets, bare]
  rfl

end Counting

end Draft

structure Refusal where
  piece : Draft
  fault : Fault
  deriving DecidableEq, Repr

def Refusal.error (r : Refusal) : ExpressionError := .at r.piece.chars r.fault

namespace Draft

section Counting

variable (D : Type) [OfNat D 0] [OfNat D 1] [Neg D] [Add D] [LT D] [DecidableEq D] [DecidableLT D]

/-- Writes a text in Polish notation. A negated group with a main connective becomes the dual connective of its
two negated sides, whose signs are part of the texts that are written next. -/
def rewrite (m : Draft) : Except Refusal Polish :=
  match _h : m.negatedContent with
  | some inner =>
    match _h' : inner.cutMain D with
    | some (l, c, r) =>
      if l = [] ∨ r = [] then .error ⟨inner, .missingSide c⟩
      else do
        let ls ← rewrite (l.negate D)
        let rs ← rewrite (r.negate D)
        return .binary c.dual :: (ls ++ rs)
    | none => (rewrite inner).map (.neg :: ·)
  | none =>
    match _h' : m.cutMain D with
    | some (l, c, r) =>
      if l = [] ∨ r = [] then .error ⟨m, .missingSide c⟩
      else do
        let ls ← rewrite l.withoutBrackets
        let rs ← rewrite r.withoutBrackets
        return .binary c :: (ls ++ rs)
    | none =>
      match m with
      | [] => .error ⟨[], .missingOperand⟩
      | g :: rest =>
        if g.char = '~' then (rewrite rest).map (.neg :: ·)
        else
          match _h'' : content (g :: rest) with
          | some inner => rewrite inner
          | none =>
            match letter? (g :: rest) with
            | some l => .ok [.var l]
            | none => .error ⟨g :: rest, .notAVariable⟩
termination_by m.length
decreasing_by
  · have := length_of_negatedContent _h
    have := length_of_cutMain _h'
    have := l.length_negate_le D
    omega
  · have := length_of_negatedContent _h
    have := length_of_cutMain _h'
    have := r.length_negate_le D
    omega
  · have := length_of_negatedContent _h
    omega
  · have := length_of_cutMain _h'
    have := l.length_withoutBrackets_le
    omega
  · have := length_of_cutMain _h'
    have := r.length_withoutBrackets_le
    omega
  · exact Nat.lt_succ_self _
  · have := length_of_content _h''
    omega

/-- Writes a text in Polish notation after the checks of the whole text; a conditional is written as the
disjunction of its negated antecedent and its consequent. -/
def normalize (m : Draft) : Except Refusal Polish :=
  match wholeFault? (0 : D) m.chars with
  | some fault => .error ⟨m, fault⟩
  | none =>
    if '>' ∈ m.chars then
      match m.cutConditional with
      | none => .error ⟨m, .conditionalShape⟩
      | some (l, r) =>
        if l = [] ∨ r = [] then .error ⟨m, .conditionalShape⟩
        else (l.negate D ++ sign '?' :: r).rewrite D
    else m.rewrite D

end Counting

variable {D : Type} [OfNat D 0] [OfNat D 1] [Neg D] [Add D] [DecidableEq D]
  {m l r inner rest : Draft} {c : Connective} {g : Glyph}

theorem rewrite_nil : rewrite D [] = .error ⟨[], .missingOperand⟩ := by
  rw [rewrite]
  rfl

theorem rewrite_group_cut (h : m.negatedContent = some inner) (cut : inner.cutMain D = some (l, c, r)) :
    m.rewrite D =
      if l = [] ∨ r = [] then .error ⟨inner, .missingSide c⟩
      else do
        let ls ← (l.negate D).rewrite D
        let rs ← (r.negate D).rewrite D
        return .binary c.dual :: (ls ++ rs) := by
  rw [rewrite]
  split
  · next inner' h' =>
    obtain rfl : inner' = inner := by simpa [h'] using h
    split
    · next l' c' r' cut' =>
      obtain ⟨rfl, rfl, rfl⟩ : l' = l ∧ c' = c ∧ r' = r := by simpa [cut'] using cut
      rfl
    · simp_all
  · simp_all

theorem rewrite_group (h : m.negatedContent = some inner) (hidden : inner.cutMain D = none) :
    m.rewrite D = (inner.rewrite D).map (.neg :: ·) := by
  rw [rewrite]
  split
  · next inner' h' =>
    obtain rfl : inner' = inner := by simpa [h'] using h
    split
    · simp_all
    · rfl
  · simp_all

theorem rewrite_cut (ungrouped : m.negatedContent = none) (cut : m.cutMain D = some (l, c, r)) :
    m.rewrite D =
      if l = [] ∨ r = [] then .error ⟨m, .missingSide c⟩
      else do
        let ls ← l.withoutBrackets.rewrite D
        let rs ← r.withoutBrackets.rewrite D
        return .binary c :: (ls ++ rs) := by
  rw [rewrite]
  split
  · simp_all
  · split
    · next l' c' r' cut' =>
      obtain ⟨rfl, rfl, rfl⟩ : l' = l ∧ c' = c ∧ r' = r := by simpa [cut'] using cut
      rfl
    · simp_all

theorem rewrite_sign (bare : content rest = none) (hidden : cutMain D (g :: rest) = none) (tilde : g.char = '~') :
    rewrite D (g :: rest) = (rewrite D rest).map (.neg :: ·) := by
  rw [rewrite]
  split
  · simp_all [negatedContent]
  · split
    · simp_all
    · dsimp only
      rw [if_pos tilde]

section

variable (other : g.char ≠ '~') (hidden : cutMain D (g :: rest) = none)
include other hidden

theorem rewrite_brackets (closed : content (g :: rest) = some inner) : rewrite D (g :: rest) = rewrite D inner := by
  rw [rewrite]
  split
  · simp_all [negatedContent]
  · split
    · simp_all
    · dsimp only
      rw [if_neg other]
      split
      · next inner' closed' =>
        obtain rfl : inner' = inner := by simpa [closed'] using closed
        rfl
      · simp_all

theorem rewrite_plain (bare : content (g :: rest) = none) : rewrite D (g :: rest) =
    match letter? (g :: rest) with
    | some l => .ok [.var l]
    | none => .error ⟨g :: rest, .notAVariable⟩ := by
  rw [rewrite]
  split
  · simp_all [negatedContent]
  · split
    · simp_all
    · dsimp only
      rw [if_neg other]
      split
      · simp_all
      · rfl

end

end Draft

def normalizeText (D : Type) [OfNat D 0] [OfNat D 1] [Neg D] [Add D] [LT D] [DecidableEq D] [DecidableLT D]
    (s : String) : Except ExpressionError Polish :=
  if canonical s = [] then .error .empty
  else ((Draft.given (canonical s)).normalize D).mapError Refusal.error

end FourValued
