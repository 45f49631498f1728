import FourValued.Proofs.Evidence
import FourValued.Proofs.Faults
import FourValued.Proofs.Rows

/-!
# Declared letters

A predicate declares the letters that it is written with and no others, whichever of its rules apply
(`Valuation.isDeclared_apply_iff`). So an inference declares the letters of its predicates, and a session the letters
of its expression and of all the predicates that it was given (`Session.isDeclared_inferAll`). Of a malformed text
nothing is declared.
-/

namespace FourValued

open Text

namespace Literal

theorem char_mem_chars (p : Literal) (l : Letter) : l.char ∈ p.chars ↔ l = p.letter := by
  obtain ⟨k, n⟩ := p
  cases n <;> simp [chars, char_ne_tilde, Letter.char_eq_iff]

end Literal

namespace Predicate

variable {l : Letter} {ss : List String}

theorem mem_letters_iff (p : Predicate) (l : Letter) : l ∈ p.letters ↔ l.char ∈ p.chars := by
  have signs := letter_char_ne l
  cases p with
  | assignment p => simp [letters, chars, p.char_mem_chars]
  | biconditional a b => simp [letters, chars, signs, Letter.char_eq_iff]
  | conditional a c => simp [letters, chars, signs, a.char_mem_chars, c.char_mem_chars]

theorem exists_mem_letters_iff : (∃ p ∈ wellFormed ss, l ∈ p.letters) ↔
    ∃ r ∈ ss, ¬ Malformed r ∧ l.char ∈ canonical r := by
  constructor
  · rintro ⟨p, hp, hl⟩
    obtain ⟨r, hr, spelled⟩ := mem_wellFormed.1 hp
    exact ⟨r, hr, fun bad => bad.2 p spelled, spelled ▸ (p.mem_letters_iff l).1 hl⟩
  · rintro ⟨r, hr, good, hl⟩
    have written : canonical r ≠ [] := List.ne_nil_of_mem hl
    obtain ⟨p, spelled⟩ : ∃ p : Predicate, canonical r = p.chars := by
      by_contra unspelled
      exact good ⟨written, not_exists.1 unspelled⟩
    exact ⟨p, mem_wellFormed.2 ⟨r, hr, spelled⟩, (p.mem_letters_iff l).2 (spelled ▸ hl)⟩

end Predicate

namespace Valuation

variable {v : Valuation} {l : Letter}

theorem isDeclared_ponens {a c : Literal} (ha : v.isDeclared a.letter = true)
    (hc : v.isDeclared c.letter = true) (l : Letter) : (v.ponens a c).isDeclared l = v.isDeclared l := by
  have put_declared : ∀ {u : Valuation} {k : Letter} {x : TruthValue}, u.isDeclared k = true →
      (u.put k x).isDeclared l = u.isDeclared l := by
    intro u k x hk
    rw [isDeclared_put]
    by_cases hl : l = k
    · rw [hl, hk, Bool.or_true]
    · simp [hl]
  rcases v.ponens_cases a c with ⟨he, -⟩ | ⟨he, -⟩ | ⟨he, -⟩ <;> rw [he]
  · exact put_declared hc
  · have hc' : (v.poison a.letter).isDeclared c.letter = true := (grows_poison v a.letter).declared _ hc
    exact (put_declared hc').trans (put_declared ha)

theorem isDeclared_apply_iff (v : Valuation) (p : Predicate) (l : Letter) :
    (v.apply p).isDeclared l = true ↔ l ∈ p.letters ∨ v.isDeclared l = true := by
  cases p with
  | assignment p => simp [apply, assertValue_eq, Predicate.letters]
  | biconditional a b =>
    simp only [apply, isDeclared_link, Bool.or_eq_true, decide_eq_true_eq, Predicate.letters, List.mem_cons,
      List.not_mem_nil, or_false]
    tauto
  | conditional a c =>
    let u := (v.declare a.letter).declare c.letter
    have ha : u.isDeclared a.letter = true := by simp [u]
    have hc : u.isDeclared c.letter = true := by simp [u]
    have forwards := isDeclared_ponens (a := a) (c := c) ha hc
    have backwards := isDeclared_ponens (a := c.negate) (c := a.negate) ((forwards _).trans hc) ((forwards _).trans ha)
    rw [apply_conditional, backwards, forwards]
    simp only [u, isDeclared_declare, Bool.or_eq_true, decide_eq_true_eq, Predicate.letters, List.mem_cons,
      List.not_mem_nil, or_false]
    tauto

theorem Rooted.isDeclared_infer (h : v.Rooted) (ss : List String) (l : Letter) :
    (v.infer ss).1.isDeclared l = true ↔
      (∃ p ∈ Predicate.wellFormed ss, l ∈ p.letters) ∨ v.isDeclared l = true := by
  constructor
  · refine Valuation.infer_induction (P := fun u => u.isDeclared l = true →
      (∃ p ∈ Predicate.wellFormed ss, l ∈ p.letters) ∨ v.isDeclared l = true) (fun u hu p hp declared => ?_) .inr
    rcases (u.isDeclared_apply_iff p l).1 declared with hl | declared
    · exact .inl ⟨p, hp, hl⟩
    · exact hu declared
  · rintro (⟨p, hp, hl⟩ | declared)
    · exact (h.spent_infer ss p hp).declared l hl
    · exact (h.grows_infer ss).declared l declared

end Valuation

namespace Session

theorem isDeclared_inferAll {t : Session} (h : t.valuation.Rooted) (calls : List (List String)) (l : Letter) :
    (t.inferAll calls).valuation.isDeclared l = true ↔
      (∃ ss ∈ calls, ∃ p ∈ Predicate.wellFormed ss, l ∈ p.letters) ∨ t.valuation.isDeclared l = true := by
  induction calls generalizing t with
  | nil => simp [inferAll]
  | cons ss calls ih =>
    have rooted := h.infer ss
    have first := h.isDeclared_infer ss l
    rw [inferAll_cons, infer_fst]
    generalize (t.valuation.infer ss).1 = v at rooted first ⊢
    rw [ih (t := ⟨t.root, v⟩) rooted, first, List.exists_mem_cons_iff, or_left_comm, or_assoc]

theorem mem_values_iff {t : Session} {l : Letter} {x : TruthValue} : (l, x) ∈ t.values ↔
    t.valuation.isDeclared l = true ∧ x = t.valuation.cells.get (t.valuation.representative l) := by
  simp only [values, List.mem_map, Valuation.mem_declaredLetters, Prod.mk.injEq]
  constructor
  · rintro ⟨k, declared, rfl, rfl⟩
    exact ⟨declared, rfl⟩
  · rintro ⟨declared, rfl⟩
    exact ⟨l, declared, rfl, rfl⟩

theorem map_fst_values (t : Session) : t.values.map Prod.fst = t.valuation.declaredLetters := by
  rw [values, List.map_map]
  exact List.map_id _

/-- Whatever a session has inferred, the letters that are declared in it are those that occur in its expression or in
a text that spells one of its predicates, and not those that occur in malformed texts only. The letters of its formula
are among them, and its values are those of the classes of these letters, once for each and in alphabetical order. -/
theorem declared_iff_mentioned {s : String} {t : Session} (parsed : parse s = .ok t)
    (calls : List (List String)) :
    let u := t.inferAll calls
    (∀ l, u.valuation.isDeclared l = true ↔
      l.char ∈ canonical s ∨ ∃ ss ∈ calls, ∃ r ∈ ss, ¬ Malformed r ∧ l.char ∈ canonical r) ∧
    (∀ l, l.char ∉ canonical s → (∀ ss ∈ calls, ∀ r ∈ ss, l.char ∈ canonical r → Malformed r) →
      u.valuation.isDeclared l = false) ∧
    (∀ l ∈ u.root.letters, u.valuation.isDeclared l = true) ∧
    (u.values.map Prod.fst).Pairwise (fun a b => a.index < b.index) ∧
    ∀ l x, (l, x) ∈ u.values ↔ u.valuation.isDeclared l = true ∧
      x = u.valuation.cells.get (u.valuation.representative l) := by
  intro u
  have declared : ∀ l, u.valuation.isDeclared l = true ↔
      l.char ∈ canonical s ∨ ∃ ss ∈ calls, ∃ r ∈ ss, ¬ Malformed r ∧ l.char ∈ canonical r := by
    intro l
    obtain ⟨e, he, rfl⟩ := parse_eq_ok_iff.1 parsed
    have rooted : (Valuation.empty.declareAll e.formula.letters).Rooted := Valuation.rooted_empty.declareAll _
    have start : (Valuation.empty.declareAll e.formula.letters).isDeclared l = true ↔ l.char ∈ canonical s := by
      rw [Valuation.isDeclared_declareAll, Valuation.isDeclared_empty, he.mem_letters_iff]
      simp
    rw [isDeclared_inferAll rooted, start, or_comm]
    simp only [Predicate.exists_mem_letters_iff]
  obtain ⟨-, e, he, root, leaves⟩ := inferAll_of_parse parsed calls
  refine ⟨declared, fun l absent malformed => ?_, root ▸ leaves, ?_, fun l x => mem_values_iff⟩
  · rw [Bool.eq_false_iff, Ne, declared]
    rintro (hl | ⟨ss, hss, r, hr, good, hl⟩)
    · exact absent hl
    · exact good (malformed ss hss r hr hl)
  · rw [map_fst_values]
    exact u.valuation.sorted_declaredLetters

theorem declared_iff_mentioned_idle_conditional :
    let s := "p > ~Q"
    let f := Formula.binary .or (.neg (.var ⟨15⟩)) (.neg (.var ⟨16⟩))
    let t : Session := ⟨f, Valuation.empty.declareAll f.letters⟩
    let calls := [["X > ~y", " ", "R = S = P"], ["b=A", "~A"]]
    parse s = .ok t ∧
    let u := t.inferAll calls
    (u.valuation.isDeclared ⟨24⟩ = true ∧ u.valuation.isDeclared ⟨17⟩ = false) ∧
    (∀ l, u.valuation.isDeclared l = true ↔
      l.char ∈ canonical s ∨ ∃ ss ∈ calls, ∃ r ∈ ss, ¬ Malformed r ∧ l.char ∈ canonical r) ∧
    (∀ l, l.char ∉ canonical s → (∀ ss ∈ calls, ∀ r ∈ ss, l.char ∈ canonical r → Malformed r) →
      u.valuation.isDeclared l = false) ∧
    (∀ l ∈ u.root.letters, u.valuation.isDeclared l = true) ∧
    (u.values.map Prod.fst).Pairwise (fun a b => a.index < b.index) ∧
    ∀ l x, (l, x) ∈ u.values ↔ u.valuation.isDeclared l = true ∧
      x = u.valuation.cells.get (u.valuation.representative l) := by
  intro s f t calls
  have derives : (Sentence.conditional (.single (.letter ⟨15⟩))
      (.single (.neg (.letter ⟨16⟩)))).Derives s := by decide
  have parsed : parse s = .ok t := parse_eq_ok_iff.2 ⟨_, derives, rfl⟩
  obtain ⟨declared, absent, rest⟩ := declared_iff_mentioned parsed calls
  exact ⟨parsed, ⟨(declared ⟨24⟩).2 (.inr (by decide)), absent ⟨17⟩ (by decide) (by decide)⟩, declared, absent, rest⟩

end Session

end FourValued
