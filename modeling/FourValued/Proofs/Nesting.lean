import FourValued.Proofs.Rewriting
import FourValued.Proofs.Words

/-!
# Deeply nested expressions

The text of an expression is rewritten in the same way whether the depth of its brackets is counted in integers or in
words of 32 bits, as long as no word counts `2 ^ 32` open brackets (`Draft.rewrite_word`). The check of the whole text
sees to that: it passes only texts that are nested less than `2 ^ 31` deep, and the rewriting opens at most one more
bracket than the text it is given (`Draft.Sound.negate`). So with words an expression is accepted exactly when the
grammar derives it and it is not nested `2 ^ 31` deep, and what becomes of it is what `normalize` makes of it.
-/

namespace FourValued

open Text

namespace Draft

/-- The brackets of the text match and are nested at most `b` deep. -/
structure Sound (b : Nat) (m : Draft) : Prop where
  balanced : Balanced 0 m.chars
  nested : ∀ p, p <+: m.chars → depth p ≤ b

namespace Sound

variable {b b' : Nat} {m l r inner rest : Draft} {c : Connective} {g : Glyph}

theorem mono (h : m.Sound b) (le : b ≤ b') : m.Sound b' :=
  ⟨h.balanced, fun p hp => Int.le_trans (h.nested p hp) (Int.ofNat_le.2 le)⟩

theorem depth_eq_zero (h : m.Sound b) : depth m.chars = 0 := by
  have total := (balanced_iff.1 h.balanced).2
  omega

theorem near (h : m.Sound b) (fits : b < 2 ^ 32) : ∀ p, p <+: m.chars → ((0 : Int) + depth p).natAbs < 2 ^ 32 := by
  intro p hp
  have above := (balanced_iff.1 h.balanced).1 p hp
  have below := h.nested p hp
  omega

theorem cutMain_word (h : m.Sound b) (fits : b < 2 ^ 32) : m.cutMain Int32 = m.cutMain Int :=
  congrArg (Option.map _) (splitFrom_ofInt (h.near fits))

theorem negate_word (h : m.Sound b) (fits : b < 2 ^ 32) : m.negate Int32 = m.negate Int := by
  have same : splitFrom (0 : Int32) m.chars = splitFrom (0 : Int) m.chars := splitFrom_ofInt (h.near fits)
  rw [negate, negate, same]

theorem parts (h : m.Sound b) {x : Char} (text : m.chars = l.chars ++ x :: r.chars) (plain : (depthOf x : Int) = 0)
    (left : Balanced 0 l.chars) (right : Balanced 0 r.chars) : l.Sound b ∧ r.Sound b := by
  refine ⟨⟨left, fun p hp => h.nested p (text ▸ hp.trans (List.prefix_append _ _))⟩, right, fun p hp => ?_⟩
  have later := h.nested (l.chars ++ x :: p) (text ▸ (List.prefix_append_right_inj _).2
    (List.cons_prefix_cons.2 ⟨rfl, hp⟩))
  have level := (balanced_iff.1 left).2
  rw [depth_append, depth, plain] at later
  omega

theorem sides (h : m.Sound b) (cut : m.cutMain Int = some (l, c, r)) : l.Sound b ∧ r.Sound b := by
  obtain ⟨left, right, -⟩ := balanced_of_cutMain h.balanced cut
  exact h.parts (eq_of_splitFrom (cutMain_eq cut).1) (by cases c <;> rfl) left right

theorem conditional (h : m.Sound b) (outside : nestsConditional (0 : Int) m.chars = false)
    (cut : m.cutConditional = some (l, r)) : l.Sound b ∧ r.Sound b := by
  have text := (cutOnce_eq_some_iff.1 (cutConditional_eq cut).1).1
  have balanced := h.balanced
  rw [text] at balanced outside
  obtain ⟨left, right⟩ := balanced_sides balanced outside
  exact h.parts text rfl left right

theorem content (h : m.Sound b) (closed : m.content = some inner) : inner.Sound (b - 1) ∧ 1 ≤ b := by
  have text := eq_of_enclosed (content_eq closed).1
  have deeper : ∀ p, p <+: inner.chars → 1 + depth p ≤ b := fun p hp =>
    h.nested ('(' :: p) (text ▸ List.cons_prefix_cons.2 ⟨rfl, hp.trans (List.prefix_append _ _)⟩)
  have once := deeper [] List.nil_prefix
  rw [depth] at once
  refine ⟨⟨balanced_of_content closed, fun p hp => ?_⟩, by omega⟩
  have below := deeper p hp
  omega

theorem tail (tilde : g.char = '~') (h : Sound b (g :: rest)) : rest.Sound b := by
  obtain ⟨balanced, nested⟩ := h
  rw [chars_cons_of_sign tilde] at balanced nested
  refine ⟨(balanced_cons_iff.1 balanced).2, fun p hp => ?_⟩
  have below := nested ('~' :: p) (List.cons_prefix_cons.2 ⟨rfl, hp⟩)
  have plain : (depthOf '~' : Int) = 0 := rfl
  rw [depth, plain] at below
  omega

theorem negatedContent (h : m.Sound b) (group : m.negatedContent = some inner) : inner.Sound (b - 1) ∧ 1 ≤ b := by
  obtain ⟨g, rest, rfl, tilde, closed⟩ := negatedContent_eq group
  exact (h.tail tilde).content closed

theorem withoutBrackets (h : m.Sound b) : m.withoutBrackets.Sound b := by
  rw [Draft.withoutBrackets]
  cases closed : m.content with
  | none => exact h
  | some inner => exact (h.content closed).1.mono (Nat.sub_le b 1)

theorem negate (h : m.Sound b) : (m.negate Int).Sound (b + 1) := by
  have plain : (depthOf '~' : Int) = 0 := rfl
  have start : (0 : Int) ≤ b + 1 := Int.natCast_nonneg (b + 1)
  refine ⟨balanced_negate h.balanced, ?_⟩
  cases cut : m.cutMain Int with
  | some pieces =>
    rw [negate_of_cutMain cut, chars_cons_of_sign rfl, chars_brackets]
    refine depth_le_of_prefix_cons start fun p hp => ?_
    rw [plain, Int.zero_add]
    exact depth_le_of_prefix_brackets h.depth_eq_zero h.nested p hp
  | none =>
    rw [negate_of_hidden cut, chars_cons_of_sign rfl]
    refine depth_le_of_prefix_cons start fun p hp => ?_
    have below := h.nested p hp
    omega

theorem append (left : l.Sound b) (right : r.Sound b) (plain : (depthOf g.char : Int) = 0) :
    Sound b (l ++ g :: r) := by
  have text : chars (l ++ g :: r) = l.chars ++ g.char :: r.chars := chars_append l (g :: r)
  have inside : ∀ p, p <+: chars (l ++ g :: r) → 0 ≤ depth p ∧ depth p ≤ b := by
    intro p hp
    rw [text] at hp
    rcases List.prefix_or_prefix_of_prefix hp (List.prefix_append l.chars _) with before | ⟨q, rfl⟩
    · have above := (balanced_iff.1 left.balanced).1 p before
      have below := left.nested p before
      omega
    rw [depth_append, left.depth_eq_zero]
    rcases List.prefix_cons_iff.1 ((List.prefix_append_right_inj _).1 hp) with rfl | ⟨q, rfl, hq⟩
    · rw [depth]
      omega
    have above := (balanced_iff.1 right.balanced).1 q hq
    have below := right.nested q hq
    rw [depth, plain]
    omega
  refine ⟨balanced_iff.2 ⟨fun p hp => ?_, ?_⟩, fun p hp => (inside p hp).2⟩
  · have above := (inside p hp).1
    omega
  · rw [text, depth_append, depth, left.depth_eq_zero, right.depth_eq_zero, plain]
    rfl

end Sound

variable {b : Nat} {m : Draft}

theorem rewrite_word (fits : b < 2 ^ 32) (h : m.Sound b) : m.rewrite Int32 = m.rewrite Int := by
  fun_induction Draft.rewrite Int m with
  | case1 m inner group l c r cut empty =>
    rw [rewrite_group_cut group (((h.negatedContent group).1.cutMain_word (by omega)).trans cut), if_pos empty]
  | case2 m inner group l c r cut written ihl ihr =>
    obtain ⟨inside, deep⟩ := h.negatedContent group
    obtain ⟨left, right⟩ := inside.sides cut
    have cut_word := (inside.cutMain_word (by omega)).trans cut
    have same : b - 1 + 1 = b := Nat.sub_add_cancel deep
    rw [rewrite_group_cut group cut_word, if_neg written, left.negate_word (by omega), right.negate_word (by omega),
      ihl (same ▸ left.negate), ihr (same ▸ right.negate)]
  | case3 m inner group hidden ih =>
    have inside := (h.negatedContent group).1
    rw [rewrite_group group ((inside.cutMain_word (by omega)).trans hidden), ih (inside.mono (Nat.sub_le b 1))]
  | case4 m ungrouped l c r cut empty => rw [rewrite_cut ungrouped ((h.cutMain_word fits).trans cut), if_pos empty]
  | case5 m ungrouped l c r cut written ihl ihr =>
    obtain ⟨left, right⟩ := h.sides cut
    rw [rewrite_cut ungrouped ((h.cutMain_word fits).trans cut), if_neg written, ihl left.withoutBrackets,
      ihr right.withoutBrackets]
  | case6 => rw [rewrite_nil]
  | case7 g rest ungrouped hidden tilde ih =>
    rw [negatedContent_of_sign tilde] at ungrouped
    rw [rewrite_sign ungrouped ((h.cutMain_word fits).trans hidden) tilde, ih (h.tail tilde)]
  | case8 g rest ungrouped hidden other inner closed ih =>
    rw [rewrite_brackets other ((h.cutMain_word fits).trans hidden) closed,
      ih ((h.content closed).1.mono (Nat.sub_le b 1))]
  | case9 g rest ungrouped hidden other bare l read =>
    rw [rewrite_plain other ((h.cutMain_word fits).trans hidden) bare, read]
  | case10 g rest ungrouped hidden other bare unread =>
    rw [rewrite_plain other ((h.cutMain_word fits).trans hidden) bare, unread]

theorem normalize_word (shallow : Shallow m.chars) : m.normalize Int32 = m.normalize Int := by
  rw [normalize, normalize, wholeFault?_ofInt shallow]
  cases whole : wholeFault? (0 : Int) m.chars with
  | some fault => rfl
  | none =>
    have sound : m.Sound (2 ^ 31 - 1) := by
      refine ⟨balanced_of_wholeFault? whole, fun p hp => ?_⟩
      have below := shallow p hp
      omega
    dsimp only
    rw [rewrite_word (by decide) sound]
    split
    · cases cut : m.cutConditional with
      | none => rfl
      | some sides =>
        obtain ⟨l, r⟩ := sides
        obtain ⟨left, right⟩ := sound.conditional (nestsConditional_of_wholeFault? whole) cut
        have joined : Sound (2 ^ 31) (l.negate Int ++ sign '?' :: r) :=
          left.negate.append (right.mono (by decide)) rfl
        dsimp only
        rw [left.negate_word (by decide), rewrite_word (by decide) joined]
    · rfl

theorem exists_normalize_of_deep (deep : ¬ Shallow m.chars) : ∃ fault, m.normalize Int32 = .error ⟨m, fault⟩ := by
  obtain ⟨fault, whole⟩ := exists_wholeFault?_of_deep deep
  exact ⟨fault, by rw [normalize, whole]⟩

end Draft

theorem normalizeText_word {s : String} (shallow : Shallow (canonical s)) : normalizeText Int32 s = normalize s := by
  rw [← Draft.chars_given (canonical s)] at shallow
  rw [← normalizeText_eq, normalizeText, normalizeText, Draft.normalize_word shallow]

theorem exists_normalizeText_of_deep {s : String} (deep : ¬ Shallow (canonical s)) :
    ∃ fault, normalizeText Int32 s = .error (.at (canonical s) fault) := by
  have written : canonical s ≠ [] := by
    intro blank
    rw [blank] at deep
    exact deep (shallow_of_length (by decide))
  rw [← Draft.chars_given (canonical s)] at deep
  obtain ⟨fault, refused⟩ := Draft.exists_normalize_of_deep deep
  refine ⟨fault, ?_⟩
  rw [normalizeText, if_neg written, refused]
  exact congrArg (fun cs => Except.error (ExpressionError.at cs fault)) (Draft.chars_given (canonical s))

theorem normalizeText_accepted_iff (s : String) : (∃ ts, normalizeText Int32 s = .ok ts) ↔
    (∃ t : Sentence, t.Derives s) ∧ Shallow (canonical s) := by
  by_cases shallow : Shallow (canonical s)
  · rw [normalizeText_word shallow, normalize_accepted_iff]
    exact (and_iff_left shallow).symm
  · obtain ⟨fault, refused⟩ := exists_normalizeText_of_deep shallow
    rw [refused]
    exact iff_of_false nofun fun h => shallow h.2

namespace Surface

def nested (l : Letter) : Nat → Surface .operand
  | 0 => .letter l
  | n + 1 => .group (.single (nested l n))

variable {l : Letter} {n : Nat}

theorem depthOf_letter : ∀ l : Letter, (depthOf l.char : Int) = 0 := by decide

theorem depth_nested (l : Letter) (n : Nat) : depth (nested l n).text = 0 := by
  induction n with
  | zero => simp [nested, text, depth, depthOf_letter]
  | succ n ih =>
    rw [nested, text, text, depth, depth_append, ih]
    rfl

theorem exists_prefix_nested (l : Letter) (n : Nat) : ∃ p, p <+: (nested l n).text ∧ depth p = n := by
  induction n with
  | zero => exact ⟨[], List.nil_prefix, rfl⟩
  | succ n ih =>
    obtain ⟨p, hp, deep⟩ := ih
    refine ⟨'(' :: p, List.cons_prefix_cons.2 ⟨rfl, hp.trans (List.prefix_append _ _)⟩, ?_⟩
    rw [depth, deep, Int.add_comm]
    rfl

theorem depth_le_of_prefix_nested (l : Letter) (n : Nat) : ∀ p, p <+: (nested l n).text → depth p ≤ n := by
  induction n with
  | zero =>
    refine depth_le_of_prefix_cons (Int.le_refl 0) fun p hp => ?_
    rw [List.prefix_nil.1 hp, depthOf_letter]
    exact Int.le_refl 0
  | succ n ih => exact depth_le_of_prefix_brackets (depth_nested l n) ih

theorem shallow_nested_iff : Shallow (nested l n).text ↔ n < 2 ^ 31 := by
  constructor
  · intro shallow
    obtain ⟨p, hp, deep⟩ := exists_prefix_nested l n
    have below := shallow p hp
    omega
  · intro few p hp
    have below := depth_le_of_prefix_nested l n p hp
    omega

end Surface

/-- The grammar puts a letter in any number of brackets, and the expression is refused from `2 ^ 31` on. -/
theorem normalizeText_nested (l : Letter) (n : Nat) :
    (∃ t : Sentence, t.Derives (String.ofList (Surface.nested l n).text)) ∧
    ((∃ ts, normalizeText Int32 (String.ofList (Surface.nested l n).text) = .ok ts) ↔ n < 2 ^ 31) := by
  have derived : Sentence.Derives (.plain (.single (.nested l n))) (String.ofList (Surface.nested l n).text) :=
    Sentence.derives_text (.plain (.single (.nested l n)))
  refine ⟨⟨_, derived⟩, ?_⟩
  rw [normalizeText_accepted_iff, ← derived]
  exact (and_iff_right ⟨_, derived⟩).trans Surface.shallow_nested_iff

end FourValued
