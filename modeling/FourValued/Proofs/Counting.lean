import FourValued.Proofs.Grammar

/-!
# What normalization keeps

Normalization moves negations inwards and leaves all else in its place. Each of its steps keeps a relation
between a formula and the text that it comes from (`Keeps`): the letters come out in order, each as often as it
is written, there is a connective for each sign of one, and the negations are those that are written with at
most one more for each connective, since a negation that passes a connective becomes two. So the Polish
notation of an expression is no longer than its letters and negation signs and twice its connectives
(`normalize_keeps`).
-/

namespace FourValued

open Text

def isConnectiveSign (c : Char) : Bool := c == '&' || c == '?' || c == '>'

namespace Formula

def negations : Formula → Nat
  | var _ => 0
  | neg f => f.negations + 1
  | binary _ l r => l.negations + r.negations

def connectives : Formula → Nat
  | var _ => 0
  | neg f => f.connectives
  | binary _ l r => l.connectives + r.connectives + 1

theorem count_neg_encode (f : Formula) : f.encode.count .neg = f.negations := by
  induction f with
  | var l => rfl
  | neg f ih => simp [encode, negations, ih]
  | binary c l r ihl ihr => simp [encode, negations, ihl, ihr]

theorem countP_isBinary_encode (f : Formula) : f.encode.countP Token.isBinary = f.connectives := by
  induction f with
  | var l => rfl
  | neg f ih => simp [encode, connectives, ih, Token.isBinary]
  | binary c l r ihl ihr => simp [encode, connectives, List.countP_cons, ihl, ihr, Token.isBinary]

theorem size_eq_add (f : Formula) : f.size = f.letters.length + f.connectives + f.negations := by
  induction f with
  | var l => rfl
  | neg f ih =>
    rw [size, letters, connectives, negations]
    omega
  | binary c l r ihl ihr =>
    rw [size, letters, connectives, negations, List.length_append]
    omega

end Formula

/-- What the formula of a text, or of its negation, keeps of the text. -/
structure Keeps (negated : Bool) (f : Formula) (cs : List Char) : Prop where
  letters : f.letters.map Letter.char = cs.filter Char.isUpper
  connectives : f.connectives = cs.countP isConnectiveSign
  least : cs.count '~' + negated.toNat ≤ f.negations
  most : f.negations ≤ cs.count '~' + cs.countP isConnectiveSign + negated.toNat

namespace Keeps

variable {negated : Bool} {f g : Formula} {cs ds : List Char}

theorem letter_signs : ∀ l : Letter,
    l.char.isUpper = true ∧ isConnectiveSign l.char = false ∧ l.char ≠ '~' := by decide

theorem letter (l : Letter) : Keeps false (.var l) [l.char] := by
  have signs := letter_signs l
  constructor <;> simp [Formula.letters, Formula.connectives, Formula.negations, signs]

theorem sign (h : Keeps true f cs) : Keeps false f ('~' :: cs) where
  letters := h.letters
  connectives := h.connectives
  least := by
    have least := h.least
    rw [List.count_cons_self]
    exact least
  most := by
    have most := h.most
    have same : ('~' :: cs).countP isConnectiveSign = cs.countP isConnectiveSign := rfl
    rw [List.count_cons_self, same]
    simp only [Bool.toNat_true, Bool.toNat_false] at most ⊢
    omega

theorem outside (h : Keeps false f cs) : Keeps true (.neg f) cs where
  letters := h.letters
  connectives := h.connectives
  least := Nat.succ_le_succ h.least
  most := Nat.succ_le_succ h.most

theorem brackets (h : Keeps negated f cs) : Keeps negated f ('(' :: (cs ++ [')'])) := by
  have upper : ('(' :: (cs ++ [')'])).filter Char.isUpper = cs.filter Char.isUpper := by simp
  have signs : ('(' :: (cs ++ [')'])).countP isConnectiveSign = cs.countP isConnectiveSign := by
    simp [isConnectiveSign]
  have tildes : ('(' :: (cs ++ [')'])).count '~' = cs.count '~' := by simp
  refine ⟨upper ▸ h.letters, signs ▸ h.connectives, tildes ▸ h.least, ?_⟩
  rw [tildes, signs]
  exact h.most

theorem counts_joined {s : Char} (hs : isConnectiveSign s = true) (cs ds : List Char) :
    (cs ++ s :: ds).filter Char.isUpper = cs.filter Char.isUpper ++ ds.filter Char.isUpper ∧
    (cs ++ s :: ds).countP isConnectiveSign = cs.countP isConnectiveSign + ds.countP isConnectiveSign + 1 ∧
    (cs ++ s :: ds).count '~' = cs.count '~' + ds.count '~' := by
  have cases : s = '&' ∨ s = '?' ∨ s = '>' := by
    simpa [isConnectiveSign, or_assoc] using hs
  have plain : s.isUpper = false ∧ s ≠ '~' := by
    rcases cases with rfl | rfl | rfl <;> decide
  refine ⟨?_, ?_, ?_⟩
  · rw [List.filter_append, List.filter_cons_of_neg (by simp [plain.1])]
  · rw [List.countP_append, List.countP_cons_of_pos hs]
    omega
  · rw [List.count_append, List.count_cons_of_ne plain.2]

theorem binary (c : Connective) {s : Char} (hs : isConnectiveSign s = true) (h : Keeps negated f cs)
    (k : Keeps negated g ds) : Keeps negated (.binary c f g) (cs ++ s :: ds) := by
  obtain ⟨upper, signs, tildes⟩ := counts_joined hs cs ds
  have least := h.least
  have most := h.most
  have least' := k.least
  have most' := k.most
  have once : negated.toNat ≤ 1 := negated.toNat_le
  refine ⟨?_, ?_, ?_, ?_⟩
  · rw [upper, Formula.letters, List.map_append, h.letters, k.letters]
  · rw [signs, Formula.connectives, h.connectives, k.connectives]
  · rw [tildes, Formula.negations]
    omega
  · rw [tildes, signs, Formula.negations]
    omega

end Keeps

theorem isConnectiveSign_char (c : Connective) : isConnectiveSign c.char = true := by cases c <;> rfl

theorem Surface.keeps_formula {k : Level} (t : Surface k) (negated : Bool) :
    Keeps negated (t.formula negated) t.text := by
  fun_induction formula negated t with
  | case1 l => exact (Keeps.letter l).outside
  | case2 negated l plain =>
    rw [Bool.not_eq_true] at plain
    exact plain ▸ .letter l
  | case3 u ih => exact ih.sign.outside
  | case4 negated u plain ih =>
    rw [Bool.not_eq_true] at plain
    exact plain ▸ ih.sign
  | case5 u ih => exact ih.brackets.outside
  | case6 negated u plain ih =>
    rw [Bool.not_eq_true] at plain
    exact plain ▸ ih.brackets
  | case7 negated c u e ihu ihe => exact (ihu.binary _ (isConnectiveSign_char c) ihe).brackets
  | case8 negated u ih => exact ih
  | case9 negated c u e ihu ihe => exact ihu.binary _ (isConnectiveSign_char c) ihe

theorem Sentence.keeps_formula (t : Sentence) :
    t.formula.letters.map Letter.char = t.text.filter Char.isUpper ∧
    t.formula.connectives = t.text.countP isConnectiveSign ∧
    t.text.count '~' + (if '>' ∈ t.text then 1 else 0) ≤ t.formula.negations ∧
    t.formula.negations ≤ t.text.count '~' + t.text.countP isConnectiveSign := by
  cases t with
  | plain e =>
    have whole := e.keeps_formula false
    have none : '>' ∉ (plain e).text := e.not_mem_text_conditional
    rw [if_neg none]
    exact ⟨whole.letters, whole.connectives, whole.least, whole.most⟩
  | conditional a c =>
    have antecedent := a.keeps_formula true
    have consequent := c.keeps_formula false
    have some : '>' ∈ (conditional a c).text := by simp [text]
    obtain ⟨upper, signs, tildes⟩ := Keeps.counts_joined (s := '>') rfl a.text c.text
    have least := antecedent.least
    have most := antecedent.most
    have least' := consequent.least
    have most' := consequent.most
    rw [if_pos some, formula, text, upper, signs, tildes, Formula.letters, Formula.connectives,
      Formula.negations, List.map_append, antecedent.letters, consequent.letters, antecedent.connectives,
      consequent.connectives]
    simp only [Bool.toNat_true, Bool.toNat_false] at least most least' most'
    refine ⟨rfl, rfl, ?_, ?_⟩ <;> omega

/-- The letters of an accepted expression come out of normalization in order, each as often as it is written,
and its connectives and conditional signs come out as connectives. Negations are added for a conditional and
for connectives that are negated, at most one for each. -/
theorem normalize_keeps {s : String} {ts : Polish} (h : normalize s = .ok ts) :
    let f := canonical s
    let n := f.count '~'
    let b := f.countP isConnectiveSign
    let c := if '>' ∈ f then 1 else 0
    ts.letters.map Letter.char = f.filter Char.isUpper ∧
    ts.countP Token.isBinary = b ∧
    n + c ≤ ts.count .neg ∧ ts.count .neg ≤ n + b ∧
    ts.length ≤ (f.filter Char.isUpper).length + n + 2 * b := by
  intro f n b c
  obtain ⟨t, derives, rfl⟩ := normalize_eq_ok_iff.1 h
  have text : t.text = f := derives
  obtain ⟨letters, connectives, least, most⟩ := t.keeps_formula
  rw [text] at letters connectives least most
  have length := t.formula.size_eq_add
  have written := congrArg List.length letters
  rw [List.length_map] at written
  rw [Formula.letters_encode, Formula.countP_isBinary_encode, Formula.count_neg_encode, Formula.length_encode]
  exact ⟨letters, connectives, least, most, by omega⟩

theorem normalize_keeps_conditional :
    let s := "(a & ~b) > ~(c ? ~d)"
    let ts : Polish := [.binary .or, .binary .or, .neg, .var ⟨0⟩, .neg, .neg, .var ⟨1⟩, .binary .and, .neg, .var ⟨2⟩,
      .neg, .neg, .var ⟨3⟩]
    let f := canonical s
    let n := f.count '~'
    let b := f.countP isConnectiveSign
    let c := if '>' ∈ f then 1 else 0
    normalize s = .ok ts ∧
    ts.letters.map Letter.char = f.filter Char.isUpper ∧
    ts.countP Token.isBinary = b ∧
    n + c ≤ ts.count .neg ∧ ts.count .neg ≤ n + b ∧
    ts.length ≤ (f.filter Char.isUpper).length + n + 2 * b := by
  intro s ts f n b c
  have derives : (Sentence.conditional (.single (.group (.binary .and (.letter ⟨0⟩) (.single (.neg (.letter ⟨1⟩))))))
      (.single (.neg (.group (.binary .or (.letter ⟨2⟩) (.single (.neg (.letter ⟨3⟩)))))))).Derives s := by decide
  have accepted : normalize s = .ok ts := normalize_eq_ok_iff.2 ⟨_, derives, rfl⟩
  exact ⟨accepted, normalize_keeps accepted⟩

end FourValued
