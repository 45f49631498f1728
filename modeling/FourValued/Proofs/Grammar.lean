import FourValued.Surface.RoundTrip
import FourValued.Valuation.Parse

/-!
# Which texts are sentences

The reader first looks at a text as a whole and then cuts it at its connectives. Here this is compared with
the grammar alone: the text that a sentence derives has no fault as a whole and is read as that sentence
(`Sentence.read_text`), and a sentence that is read derives its text (`Sentence.text_of_read`). So a text has
at most one derivation, and an expression is accepted exactly when its canonical text has one. An error of
the reader quotes a piece of the text that is at fault itself (`ExpressionError.Refuses`); tokens that are left
over are no fault of a text.
-/

namespace FourValued

open Text

theorem Text.toUpper_of_mem_canonical {s : String} : ∀ c ∈ canonical s, c.toUpper = c := by
  intro c hc
  obtain ⟨d, -, rfl⟩ := List.mem_map.1 hc
  exact toUpper_toUpper d

theorem Text.char_mem_canonical {s : String} {l : Letter} :
    l.char ∈ canonical s ↔ ∃ c ∈ s.toList, Letter.ofChar? c = some l := by
  have visible : ∀ l : Letter, isBlank l.char = false := by decide
  simp only [canonical, canonicalChars, List.mem_map, List.mem_filter, Letter.ofChar?_eq_some_iff]
  constructor
  · rintro ⟨c, ⟨hc, -⟩, hl⟩
    exact ⟨c, hc, hl⟩
  · rintro ⟨c, hc, hl⟩
    have seen : isBlank c = false := by rw [← isBlank_toUpper, hl, visible]
    exact ⟨c, ⟨hc, by rw [seen]; rfl⟩, hl⟩

theorem Letter.char_eq_iff {k l : Letter} : k.char = l.char ↔ k = l := ⟨char_injective, congrArg char⟩

theorem Letter.char_ne_connective (l : Letter) (c : Connective) : l.char ≠ c.char := by
  intro h
  have plain := (Surface.letter_char_plain l).1
  rw [h, Connective.ofChar?_eq_some_iff.2 rfl] at plain
  cases plain

section Outcomes

variable {ε α β γ : Type} {x : Except ε α} {y : Except ε β} {err : ε}

theorem eq_error_of_map {f : α → γ} (h : x.map f = .error err) : x = .error err := by
  cases x with
  | error e => cases h; rfl
  | ok a => cases h

theorem exists_of_both_eq_ok {f : α → β → γ} {c : γ}
    (h : (do let a ← x; let b ← y; return f a b) = .ok c) : ∃ a b, x = .ok a ∧ y = .ok b ∧ f a b = c := by
  cases x with
  | error e => cases h
  | ok a =>
    cases y with
    | error e => cases h
    | ok b => cases h; exact ⟨a, b, rfl, rfl, rfl⟩

theorem eq_error_of_both {f : α → β → γ}
    (h : (do let a ← x; let b ← y; return f a b) = .error err) : x = .error err ∨ y = .error err := by
  cases x with
  | error e => cases h; exact .inl rfl
  | ok a =>
    cases y with
    | error e => cases h; exact .inr rfl
    | ok b => cases h

end Outcomes

/-- The error quotes a piece of a text, which is at fault itself and not followed by surplus tokens. -/
def ExpressionError.Refuses (err : ExpressionError) : Prop :=
  ∃ piece fault, err = .at piece fault ∧ ∀ rest, fault ≠ .trailing rest

theorem bracketFault?_ne_trailing {d : Int} {cs : List Char} {fault : Fault}
    (h : bracketFault? d cs = some fault) (rest : Polish) : fault ≠ .trailing rest := by
  induction cs generalizing d with
  | nil =>
    rw [bracketFault?] at h
    split at h <;> cases h
    nofun
  | cons c cs ih =>
    rw [bracketFault?] at h
    split at h
    · cases h
      nofun
    · exact ih h

theorem wholeFault?_ne_trailing {d : Int} {cs : List Char} {fault : Fault}
    (h : wholeFault? d cs = some fault) (rest : Polish) : fault ≠ .trailing rest := by
  rw [wholeFault?] at h
  split at h
  · cases h
    nofun
  split at h
  · next hb =>
    cases h
    exact bracketFault?_ne_trailing hb rest
  split at h <;> cases h
  nofun

theorem canonical_of_isSurfaceChar {c : Char} (h : isSurfaceChar c = true) : isBlank c = false ∧ c.toUpper = c := by
  have visible : ∀ n : Fin 128, isSurfaceChar (Char.ofNat n) = true →
      isBlank (Char.ofNat n) = false ∧ (Char.ofNat n).toUpper = Char.ofNat n := by decide
  have small : c.toNat < 128 := by
    simp only [isSurfaceChar, Bool.or_eq_true, beq_iff_eq] at h
    rcases h with (((((upper | rfl) | rfl) | rfl) | rfl) | rfl) | rfl
    · have below : c.val ≤ 90 := (of_decide_eq_true upper).2
      exact Nat.lt_of_le_of_lt (UInt32.le_iff_toNat_le.1 below) (by decide)
    all_goals decide
  simpa using visible ⟨c.toNat, small⟩ (by simpa using h)

namespace Surface

theorem isSurfaceChar_of_mem_text {k : Level} (t : Surface k) :
    ∀ c ∈ t.text, isSurfaceChar c = true ∧ c ≠ '>' := by
  induction t with
  | letter l =>
    have hl : ∀ l : Letter, isSurfaceChar l.char = true ∧ l.char ≠ '>' := by decide
    intro c hc
    rw [text, List.mem_singleton] at hc
    exact hc ▸ hl l
  | neg u ih =>
    intro c hc
    rcases List.mem_cons.1 hc with rfl | hc
    · decide
    · exact ih c hc
  | group e ih =>
    intro c hc
    rcases List.mem_cons.1 hc with rfl | hc
    · decide
    rcases List.mem_append.1 hc with hc | hc
    · exact ih c hc
    · rw [List.mem_singleton.1 hc]
      decide
  | single u ih => exact ih
  | binary k u e ihu ihe =>
    intro c hc
    rcases List.mem_append.1 hc with hc | hc
    · exact ihu c hc
    rcases List.mem_cons.1 hc with rfl | hc
    · cases k <;> decide
    · exact ihe c hc

theorem not_mem_text_conditional {k : Level} (t : Surface k) : '>' ∉ t.text :=
  fun h => (isSurfaceChar_of_mem_text t _ h).2 rfl

theorem bracketFault?_text_append {k : Level} (t : Surface k) {d : Int} (opened : 0 ≤ d) (rest : List Char) :
    bracketFault? d (t.text ++ rest) = bracketFault? d rest := by
  have outside : ¬ d < 0 := Int.not_lt.2 opened
  induction t generalizing d rest with
  | letter l =>
    have hl := letter_char_plain l
    simp [text, bracketFault?, depthOf, hl, outside]
  | neg u ih => simp [text, bracketFault?, depthOf, outside, ih opened]
  | group e ih =>
    have inside : 0 ≤ d + 1 := by omega
    have back : d + 1 + -1 = d := by omega
    simp [text, bracketFault?, depthOf, outside, ih inside, Int.not_lt.2 inside, back]
  | single u ih => exact ih opened rest outside
  | binary c u e ihu ihe =>
    have hc : c.char ≠ '(' ∧ c.char ≠ ')' := by cases c <;> decide
    simp [text, bracketFault?, depthOf, ihu opened, ihe opened, hc, outside]

theorem nestsConditional_text_append {k : Level} (t : Surface k) (d : Int) (rest : List Char) :
    nestsConditional d (t.text ++ rest) = nestsConditional d rest := by
  induction t generalizing d rest with
  | letter l =>
    have hl := letter_char_plain l
    have hc : l.char ≠ '>' := (isSurfaceChar_of_mem_text (letter l) l.char (by simp [text])).2
    simp [text, nestsConditional, depthOf, hl, hc]
  | neg u ih => simp [text, nestsConditional, depthOf, ih]
  | group e ih =>
    have back : d + 1 + -1 = d := by omega
    simp [text, nestsConditional, depthOf, ih, back]
  | single u ih => exact ih d rest
  | binary c u e ihu ihe =>
    have hc : c.char ≠ '(' ∧ c.char ≠ ')' ∧ c.char ≠ '>' := by cases c <;> decide
    simp [text, nestsConditional, depthOf, ihu, ihe, hc]

theorem refuses_of_read {k : Level} {cs : List Char} {err : ExpressionError}
    (h : read k cs = .error err) : err.Refuses := by
  fun_induction read k cs with
  | case1 cs hn ih => exact ih (eq_error_of_map h)
  | case2 => cases h; exact ⟨_, _, rfl, by simp⟩
  | case3 cs l c r hs hne ihl ihr =>
    rcases eq_error_of_both h with h | h
    · exact ihl h
    · exact ihr h
  | case4 => cases h; exact ⟨_, _, rfl, by simp⟩
  | case5 cs ih => exact ih (eq_error_of_map h)
  | case6 c cs hc inner hi ih => exact ih (eq_error_of_map h)
  | case7 => cases h
  | case8 => cases h; exact ⟨_, _, rfl, by simp⟩

theorem mem_letters_formula {k : Level} (t : Surface k) (negated : Bool) (l : Letter) :
    l ∈ (t.formula negated).letters ↔ l.char ∈ t.text := by
  induction t generalizing negated with
  | letter m => cases negated <;> simp [formula, Formula.letters, text, Letter.char_eq_iff]
  | neg u ih =>
    have plain := (letter_char_plain l).2.2.2
    cases negated <;> simp [formula, Formula.letters, text, ih, plain]
  | group e ih =>
    have plain := letter_char_plain l
    have inner := ih negated
    cases e with
    | single u =>
      have kept := ih false
      simp only [formula, text] at kept inner
      cases negated <;> simp [formula, Formula.letters, text, kept, plain]
    | binary c u e => simpa [formula, Formula.letters, text, plain] using inner
  | single u ih => exact ih negated
  | binary c u e ihu ihe => simp [formula, Formula.letters, text, ihu, ihe, l.char_ne_connective c]

end Surface

namespace Sentence

theorem text_ne_nil (t : Sentence) : t.text ≠ [] := by
  cases t with
  | plain e => exact Surface.text_ne_nil e
  | conditional a c => simp [text]

theorem isSurfaceChar_of_mem_text (t : Sentence) : ∀ c ∈ t.text, isSurfaceChar c = true := by
  intro c hc
  cases t with
  | plain e => exact (Surface.isSurfaceChar_of_mem_text e c hc).1
  | conditional a b =>
    rcases List.mem_append.1 hc with hc | hc
    · exact (Surface.isSurfaceChar_of_mem_text a c hc).1
    rcases List.mem_cons.1 hc with rfl | hc
    · decide
    · exact (Surface.isSurfaceChar_of_mem_text b c hc).1

theorem bracketFault?_text (t : Sentence) : bracketFault? (0 : Int) t.text = none := by
  have level : (0 : Int) ≤ 0 := Int.le_refl 0
  cases t with
  | plain e =>
    have h := Surface.bracketFault?_text_append e level []
    simpa [text, bracketFault?] using h
  | conditional a c =>
    have h := Surface.bracketFault?_text_append c level []
    simpa [text, Surface.bracketFault?_text_append, bracketFault?, depthOf] using h

theorem nestsConditional_text (t : Sentence) : nestsConditional (0 : Int) t.text = false := by
  cases t with
  | plain e =>
    have h := Surface.nestsConditional_text_append e 0 []
    simpa [text, nestsConditional] using h
  | conditional a c =>
    have h := Surface.nestsConditional_text_append c 0 []
    simpa [text, Surface.nestsConditional_text_append, nestsConditional, depthOf] using h

theorem wholeFault?_text (t : Sentence) : wholeFault? (0 : Int) t.text = none := by
  have chars : t.text.find? (fun c => !isSurfaceChar c) = none := by
    rw [List.find?_eq_none]
    intro c hc
    simp [isSurfaceChar_of_mem_text t c hc]
  simp [wholeFault?, chars, bracketFault?_text, nestsConditional_text]

theorem readSound_text (t : Sentence) : readSound t.text = .ok t := by
  cases t with
  | plain e =>
    have hc := Surface.not_mem_text_conditional e
    simp [readSound, text, hc, Surface.read_text, Except.map]
  | conditional a c =>
    have cut : cutOnce '>' (a.text ++ '>' :: c.text) = some (a.text, c.text) :=
      cutOnce_eq_some_iff.2
        ⟨rfl, Surface.not_mem_text_conditional a, Surface.not_mem_text_conditional c⟩
    simp only [readSound, text, List.mem_append, List.mem_cons, true_or, or_true, if_true, cut,
      Surface.text_ne_nil, or_self, if_false, Surface.read_text]
    rfl

theorem read_text (t : Sentence) : read t.text = .ok t := by
  simp [read, text_ne_nil, wholeFault?_text, readSound_text]

theorem text_of_readSound {cs : List Char} {t : Sentence} (upper : ∀ c ∈ cs, c.toUpper = c)
    (h : readSound cs = .ok t) : t.text = cs := by
  rw [readSound] at h
  split at h
  · split at h
    · cases h
    next before after hcut =>
    have whole := (cutOnce_eq_some_iff.1 hcut).1
    split at h
    · cases h
    obtain ⟨a, c, ha, hc, rfl⟩ := exists_of_both_eq_ok h
    rw [text, Surface.text_of_read (fun x hx => upper x (by simp [whole, hx])) ha,
      Surface.text_of_read (fun x hx => upper x (by simp [whole, hx])) hc, whole]
  · obtain ⟨e, he, rfl⟩ := Surface.exists_of_map_eq_ok h
    exact Surface.text_of_read upper he

theorem text_of_read {cs : List Char} {t : Sentence} (upper : ∀ c ∈ cs, c.toUpper = c)
    (h : read cs = .ok t) : t.text = cs := by
  rw [read] at h
  split at h
  · cases h
  · split at h
    · cases h
    · exact text_of_readSound upper h

theorem refuses_of_readSound {cs : List Char} {err : ExpressionError}
    (h : readSound cs = .error err) : err.Refuses := by
  rw [readSound] at h
  split at h
  · split at h
    · cases h; exact ⟨_, _, rfl, nofun⟩
    split at h
    · cases h; exact ⟨_, _, rfl, nofun⟩
    rcases eq_error_of_both h with h | h
    · exact Surface.refuses_of_read h
    · exact Surface.refuses_of_read h
  · exact Surface.refuses_of_read (eq_error_of_map h)

theorem refuses_of_read {cs : List Char} {err : ExpressionError} (hne : cs ≠ [])
    (h : read cs = .error err) : err.Refuses := by
  rw [read, if_neg hne] at h
  split at h
  · next hw =>
    cases h
    exact ⟨_, _, rfl, wholeFault?_ne_trailing hw⟩
  · exact refuses_of_readSound h

theorem malformed_of_read {cs : List Char} {err : ExpressionError} (hne : cs ≠ [])
    (h : read cs = .error err) : ∃ input fault, err = .malformed input fault := by
  obtain ⟨piece, fault, rfl, -⟩ := refuses_of_read hne h
  exact ⟨_, fault, rfl⟩

theorem mem_letters_formula (t : Sentence) (l : Letter) :
    l ∈ t.formula.letters ↔ l.char ∈ t.text := by
  cases t with
  | plain e => exact e.mem_letters_formula false l
  | conditional a c =>
    have plain : l.char ≠ '>' := by revert l; decide
    simp [formula, Formula.letters, text, Surface.mem_letters_formula, plain]

/-- The sentence derives the expression, blanks and the case of letters aside. -/
def Derives (t : Sentence) (s : String) : Prop := t.text = canonical s

instance (t : Sentence) (s : String) : Decidable (t.Derives s) :=
  inferInstanceAs (Decidable (t.text = canonical s))

theorem derives_text (t : Sentence) : t.Derives (String.ofList t.text) := by
  rw [Derives, canonical, String.toList_ofList, canonicalChars_eq_self]
  exact fun c hc => canonical_of_isSurfaceChar (t.isSurfaceChar_of_mem_text c hc)

theorem Derives.mem_letters_iff {t : Sentence} {s : String} (h : t.Derives s) (l : Letter) :
    l ∈ t.formula.letters ↔ l.char ∈ canonical s := by
  rw [← h]
  exact t.mem_letters_formula l

theorem read_canonical_eq_ok_iff {s : String} {t : Sentence} :
    read (canonical s) = .ok t ↔ t.Derives s :=
  ⟨text_of_read toUpper_of_mem_canonical, fun h => h ▸ read_text t⟩

theorem Derives.unique {s : String} {t u : Sentence} (ht : t.Derives s) (hu : u.Derives s) : t = u := by
  have h := (read_canonical_eq_ok_iff.2 ht).symm.trans (read_canonical_eq_ok_iff.2 hu)
  exact Except.ok.inj h

end Sentence

theorem normalize_eq_ok_iff {s : String} {ts : Polish} :
    normalize s = .ok ts ↔ ∃ t : Sentence, t.Derives s ∧ ts = t.formula.encode := by
  constructor
  · intro h
    obtain ⟨t, ht, rfl⟩ := Surface.exists_of_map_eq_ok h
    exact ⟨t, Sentence.read_canonical_eq_ok_iff.1 ht, rfl⟩
  · rintro ⟨t, ht, rfl⟩
    rw [normalize, Sentence.read_canonical_eq_ok_iff.2 ht]
    rfl

theorem normalize_eq_error_iff {s : String} {err : ExpressionError} :
    normalize s = .error err ↔ Sentence.read (canonical s) = .error err := by
  rw [normalize]
  cases Sentence.read (canonical s) <;> simp [Except.map]

theorem refuses_of_normalize {s : String} {err : ExpressionError} (h : normalize s = .error err) :
    err = .empty ∨ err.Refuses := by
  rw [normalize_eq_error_iff] at h
  by_cases hne : canonical s = []
  · rw [Sentence.read, if_pos hne] at h
    cases h
    exact .inl rfl
  · exact .inr (Sentence.refuses_of_read hne h)

theorem Sentence.Derives.parse_eq {s : String} {t : Sentence} (h : t.Derives s) (v : Valuation) :
    v.parse s = (.ok t.formula, v.declareAll t.formula.letters) := by
  have hn := normalize_eq_ok_iff.2 ⟨t, h, rfl⟩
  simp only [Valuation.parse, hn, Valuation.build_encode]

theorem Valuation.exists_derives_of_parse {s : String} {v : Valuation} {f : Formula}
    (h : (v.parse s).1 = .ok f) : ∃ t : Sentence, t.Derives s ∧ f = t.formula := by
  cases hn : normalize s with
  | error err => simp [Valuation.parse, hn] at h
  | ok ts =>
    obtain ⟨t, ht, -⟩ := normalize_eq_ok_iff.1 hn
    rw [ht.parse_eq v] at h
    exact ⟨t, ht, (Except.ok.inj h).symm⟩

theorem normalize_accepted_iff (s : String) : (∃ ts, normalize s = .ok ts) ↔ ∃ t : Sentence, t.Derives s := by
  simp only [normalize_eq_ok_iff]
  exact ⟨fun ⟨_, t, ht, _⟩ => ⟨t, ht⟩, fun ⟨t, ht⟩ => ⟨_, t, ht, rfl⟩⟩

theorem normalize_eq_empty_iff {s : String} : normalize s = .error .empty ↔ canonical s = [] := by
  rw [normalize_eq_error_iff]
  constructor
  · intro h
    refine Decidable.byContradiction fun written => ?_
    obtain ⟨_, _, he⟩ := Sentence.malformed_of_read written h
    cases he
  · exact fun blank => if_pos blank

end FourValued
