import FourValued.Surface.Reader

/-!
# Reading and writing the surface grammar

Text that a derivation derives is read as that derivation (`read_text`), and what is read from upper-case
text derives it (`text_of_read`). So each text has at most one derivation, and the reader accepts exactly
the texts that have one. The main steps are that the text of an operand hides its connectives and that the
text of an expression closes every bracket it opens.
-/

namespace FourValued.Surface

open Text

theorem letter_char_plain : ∀ l : Letter,
    Connective.ofChar? l.char = none ∧ l.char ≠ '(' ∧ l.char ≠ ')' ∧ l.char ≠ '~' := by decide

theorem splitFrom_text_append {k : Level} (t : Surface k) {d : Int}
    (h : 0 < d ∨ (k = .operand ∧ d = 0)) (rest : List Char) :
    splitFrom d (t.text ++ rest) =
      (splitFrom d rest).map fun (before, c, after) => (t.text ++ before, c, after) := by
  induction t generalizing d rest with
  | letter l =>
    have hl := letter_char_plain l
    have step : depthOf l.char = 0 := by simp [depthOf, hl.2.1, hl.2.2.1]
    simp [text, splitFrom, hl.1, step]
  | neg u ih =>
    have sign : Connective.ofChar? '~' = none := by decide
    have step : depthOf '~' = 0 := by decide
    simp [text, splitFrom, sign, step, ih (h.imp id fun x => ⟨rfl, x.2⟩), Function.comp_def]
  | group e ih =>
    have signs : Connective.ofChar? '(' = none ∧ Connective.ofChar? ')' = none := by decide
    have steps : depthOf '(' = 1 ∧ depthOf ')' = -1 := by decide
    have inner : 0 < d + 1 := by omega
    have back : d + 1 + -1 = d := by omega
    simp [text, splitFrom, signs, steps, ih (.inl inner), back, Function.comp_def]
  | single u ih =>
    have : 0 < d := by simpa using h
    simpa [text] using ih (.inl this) rest
  | binary c u e ihu ihe =>
    have hd : 0 < d := by simpa using h
    have h0 : d ≠ 0 := by omega
    have step : depthOf c.char = 0 := by cases c <;> decide
    simp [text, ihu (.inl hd), splitFrom, h0, step, ihe (.inl hd), Function.comp_def]

theorem closeAt_text_append {k : Level} (t : Surface k) (d : Nat) (rest : List Char) :
    closeAt d (t.text ++ rest) =
      (closeAt d rest).map fun (inner, after) => (t.text ++ inner, after) := by
  induction t generalizing d rest with
  | letter l =>
    have hl := letter_char_plain l
    simp [text, closeAt, openAfter, hl]
  | neg u ih => simp [text, closeAt, openAfter, ih, Function.comp_def]
  | group e ih => simp [text, closeAt, openAfter, ih, Function.comp_def]
  | single u ih => simpa [text] using ih d rest
  | binary c u e ihu ihe =>
    have : c.char ≠ '(' ∧ c.char ≠ ')' := by cases c <;> decide
    simp [text, closeAt, openAfter, ihu, ihe, this, Function.comp_def]

theorem text_ne_nil {k : Level} (t : Surface k) : t.text ≠ [] := by
  induction t <;> simp_all [text]

theorem splitMain_text (u : Surface .operand) : splitMain u.text = none := by
  simpa [splitMain, splitFrom] using splitFrom_text_append u (.inr ⟨rfl, rfl⟩) []

theorem splitMain_binary (c : Connective) (u : Surface .operand) (e : Surface .expression) :
    splitMain (binary c u e).text = some (u.text, c, e.text) := by
  have hc : Connective.ofChar? c.char = some c := Connective.ofChar?_eq_some_iff.2 rfl
  have := splitFrom_text_append u (.inr ⟨rfl, rfl⟩) (c.char :: e.text)
  simpa [splitMain, text, splitFrom, hc] using this

theorem enclosed_group (e : Surface .expression) : enclosed (group e).text = some e.text := by
  have := closeAt_text_append e 0 [')']
  simp [closeAt] at this
  simp [text, enclosed, this]

theorem read_text {k : Level} (t : Surface k) : read k t.text = .ok t := by
  induction t with
  | letter l =>
    have hl := letter_char_plain l
    have henc : enclosed [l.char] = none := by simp [enclosed, hl]
    rw [text, read]
    simp [hl, Letter.ofChar?_char]
    split
    · simp_all
    · rfl
  | neg u ih => simp [text, read, ih, Except.map]
  | group e ih =>
    have h := enclosed_group e
    rw [text] at h ⊢
    rw [read]
    have : '(' ≠ '~' := by decide
    simp only [this, if_false]
    split
    · next inner hi =>
      rw [hi] at h
      cases h
      simp [ih, Except.map]
    · simp_all
  | single u ih =>
    rw [text, read]
    split
    · simp [ih, Except.map]
    · simp_all [splitMain_text]
  | binary c u e ihu ihe =>
    have h := splitMain_binary c u e
    rw [read]
    split
    · simp_all
    · next l c' r hs =>
      rw [hs] at h
      cases h
      simp [text_ne_nil, ihu, ihe]
      rfl

theorem exists_of_map_eq_ok {ε α β : Type} {x : Except ε α} {f : α → β} {b : β} (h : x.map f = .ok b) :
    ∃ a, x = .ok a ∧ f a = b := by
  cases x with
  | error e => simp [Except.map] at h
  | ok a => exact ⟨a, rfl, by simpa [Except.map] using h⟩

theorem text_of_read {k : Level} {cs : List Char} {t : Surface k} (upper : ∀ c ∈ cs, c.toUpper = c)
    (h : read k cs = .ok t) : t.text = cs := by
  fun_induction read k cs with
  | case1 cs hn ih =>
    obtain ⟨u, hu, rfl⟩ := exists_of_map_eq_ok h
    exact ih upper hu
  | case2 => simp at h
  | case3 cs l c r hs hne ihl ihr =>
    have cut := eq_of_splitMain hs
    cases hl : read .operand l with
    | error e => rw [hl] at h; cases h
    | ok u =>
      cases hr : read .expression r with
      | error e => rw [hl, hr] at h; cases h
      | ok e =>
        rw [hl, hr] at h
        cases h
        rw [text, ihl (fun x hx => upper x (by simp [cut, hx])) hl,
          ihr (fun x hx => upper x (by simp [cut, hx])) hr, cut]
  | case4 => simp at h
  | case5 cs ih =>
    obtain ⟨u, hu, rfl⟩ := exists_of_map_eq_ok h
    rw [text, ih (fun x hx => upper x (by simp [hx])) hu]
  | case6 c cs hc inner hi ih =>
    obtain ⟨e, he, rfl⟩ := exists_of_map_eq_ok h
    have group := eq_of_enclosed hi
    rw [text, ih (fun x hx => upper x (by simp [group, hx])) he, group]
  | case7 c hc hi l hl =>
    cases h
    have := Letter.ofChar?_eq_some_iff.1 hl
    rw [upper c (by simp)] at this
    rw [text, this]
  | case8 => simp at h

end FourValued.Surface
