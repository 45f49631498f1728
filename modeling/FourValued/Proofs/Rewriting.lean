import Mathlib.Data.List.Infix
import FourValued.Proofs.Draft
import FourValued.Proofs.Grammar

/-!
# Errors quote the text as it was given

Reading an expression and moving the negations of what is read leads where moving the negations on the text
leads: to the same tokens, or to the same error about a piece of the text as it was given (`Agrees`). This holds
of a balanced text as it stands and negated, and both are shown together by induction on its length, since
the rewriting of a text negates its parts (`Draft.Faithful`). The signs that the rewriting adds are therefore
never quoted: a negation sign is taken off before anything is checked, and added brackets enclose a balanced
text with a main connective, so that they are taken off again. What `normalize` makes of an expression is thus what
the rewriting of its text comes to (`normalizeText_eq`).
-/

namespace FourValued

open Text

namespace Surface

variable {cs inner l r : List Char} {c : Connective} {x : Char}

theorem read_of_hidden (h : splitMain cs = none) : read .expression cs = (read .operand cs).map single := by
  rw [read]
  split
  · rfl
  · simp_all

theorem read_of_cut (h : splitMain cs = some (l, c, r)) : read .expression cs =
    if l = [] ∨ r = [] then .error (.at cs (.missingSide c))
    else do
      let u ← read .operand l
      let e ← read .expression r
      return .binary c u e := by
  rw [read]
  split
  · simp_all
  · next l' c' r' cut =>
    obtain ⟨rfl, rfl, rfl⟩ : l' = l ∧ c' = c ∧ r' = r := by simpa [cut] using h
    rfl

theorem read_nil : read .expression [] = .error (.at [] .missingOperand) := by
  have hidden : splitMain [] = none := rfl
  rw [read_of_hidden hidden, read]
  rfl

theorem read_sign (cs : List Char) : read .operand ('~' :: cs) = (read .operand cs).map neg := by
  rw [read, if_pos rfl]

theorem read_of_enclosed (h : enclosed cs = some inner) :
    read .operand cs = (read .expression inner).map group := by
  have shape := eq_of_enclosed h
  subst shape
  have other : '(' ≠ '~' := by decide
  conv =>
    lhs
    rw [read, if_neg other]
  split
  · next inner' closed =>
    obtain rfl : inner' = inner := by simpa [closed] using h
    rfl
  · simp_all

theorem read_of_plain (other : x ≠ '~') (bare : enclosed (x :: cs) = none) :
    read .operand (x :: cs) =
      match Letter.ofChar? x, cs with
      | some l, [] => .ok (.letter l)
      | _, _ => .error (.at (x :: cs) .notAVariable) := by
  rw [read, if_neg other]
  split
  · simp_all
  · rfl

theorem read_of_brackets (h : enclosed cs = some inner) :
    read .expression cs = ((read .expression inner).map group).map single := by
  rw [read_of_hidden (splitMain_of_enclosed h), read_of_enclosed h]

theorem read_of_sign (h : splitMain cs = none) :
    read .expression ('~' :: cs) = ((read .operand cs).map neg).map single := by
  have hidden : splitMain ('~' :: cs) = none := Option.map_eq_none_iff.2 h
  rw [read_of_hidden hidden, read_sign]

theorem exists_binary_of_cut {t : Surface .expression} (cut : splitMain cs = some (l, c, r))
    (h : read .expression cs = .ok t) : ∃ u e, t = .binary c u e := by
  rw [read_of_cut cut] at h
  split at h
  · cases h
  · obtain ⟨u, e, -, -, rfl⟩ := exists_of_both_eq_ok h
    exact ⟨u, e, rfl⟩

def tokens {k : Level} (negated : Bool) (t : Surface k) : Polish := (t.formula negated).encode

theorem tokens_group (e : Surface .expression) : (group e).tokens false = e.tokens false := by
  cases e <;> rfl

theorem tokens_of_read {u : Surface .operand} (h : read .operand cs = .ok u) (bare : enclosed cs = none) :
    u.tokens true = .neg :: u.tokens false := by
  cases u with
  | letter l => rfl
  | neg u => rfl
  | group e =>
    cases cs with
    | nil =>
      rw [read] at h
      cases h
    | cons c cs =>
      rw [read] at h
      split at h
      · obtain ⟨_, -, other⟩ := exists_of_map_eq_ok h
        cases other
      split at h
      · next closed =>
        rw [bare] at closed
        cases closed
      · split at h <;> cases h

end Surface

/-- The rewriting of a text and the reading of it come to the same: to the tokens of what is read, or to the same
error about a piece of the text. -/
inductive Agrees {α : Type} (m : Draft) (tokens : α → Polish) :
    Except Refusal Polish → Except ExpressionError α → Prop
  | accepted (a : α) : Agrees m tokens (.ok (tokens a)) (.ok a)
  | refused (r : Refusal) : r.piece <:+: m → Agrees m tokens (.error r) (.error r.error)

namespace Agrees

variable {α β γ : Type} {m m' l r : Draft} {p : α → Polish} {q : β → Polish} {s : γ → Polish}
  {x y : Except Refusal Polish} {a : Except ExpressionError α} {b : Except ExpressionError β}

theorem refused_at (m : Draft) (fault : Fault) : Agrees m p (.error ⟨m, fault⟩) (.error (.at m.chars fault)) :=
  .refused ⟨m, fault⟩ (List.infix_refl m)

theorem mapError_eq {a : Except ExpressionError Polish} (h : Agrees m id x a) : x.mapError Refusal.error = a := by
  cases h <;> rfl

theorem map {f : α → β} {g : Polish → Polish} (h : Agrees m p x a) (part : m <:+: m')
    (keeps : ∀ t, a = .ok t → g (p t) = q (f t)) : Agrees m' q (x.map g) (a.map f) := by
  cases h with
  | accepted t =>
    have same : (Except.ok (p t) : Except Refusal Polish).map g = .ok (q (f t)) := congrArg Except.ok (keeps t rfl)
    rw [same]
    exact .accepted (f t)
  | refused r inside => exact .refused r (inside.trans part)

theorem map_right {f : α → β} (h : Agrees m p x a) (part : m <:+: m') (keeps : ∀ t, p t = q (f t)) :
    Agrees m' q x (a.map f) := by
  have mapped : Agrees m' q (x.map id) (a.map f) := h.map part fun t _ => keeps t
  cases x <;> exact mapped

theorem of_map_right {f : α → β} (h : Agrees m q x (a.map f)) (keeps : ∀ t, a = .ok t → q (f t) = p t) :
    Agrees m p x a := by
  cases a with
  | ok t =>
    have written : q (f t) = p t := keeps t rfl
    cases h with
    | accepted => exact written ▸ .accepted t
  | error e =>
    cases h with
    | refused r inside => exact .refused r inside

theorem both {f : α → β → γ} {g : Polish → Polish → Polish} (h : Agrees l p x a) (k : Agrees r q y b)
    (part : l <:+: m) (part' : r <:+: m) (keeps : ∀ t u, g (p t) (q u) = s (f t u)) :
    Agrees m s
      (do
        let ls ← x
        let rs ← y
        return g ls rs)
      (do
        let t ← a
        let u ← b
        return f t u) := by
  cases h with
  | refused r inside => exact .refused r (inside.trans part)
  | accepted t =>
    cases k with
    | refused r inside => exact .refused r (inside.trans part')
    | accepted u =>
      have joined : Agrees m s (.ok (g (p t) (q u))) (.ok (f t u)) := (keeps t u).symm ▸ .accepted (f t u)
      exact joined

end Agrees

namespace Draft

variable {m l r inner rest : Draft} {c : Connective} {g : Glyph}

/-- Both rewritings of a text, as it stands and negated, agree with the reading of it. -/
structure Faithful (m : Draft) : Prop where
  plain : Agrees m (Surface.tokens false) (m.rewrite Int) (Surface.read .expression m.chars)
  negated : Agrees m (Surface.tokens true) ((m.negate Int).rewrite Int) (Surface.read .expression m.chars)

def FaithfulBelow (n : Nat) : Prop := ∀ m : Draft, m.length < n → Balanced 0 m.chars → m.Faithful

theorem FaithfulBelow.mono {i n : Nat} (h : FaithfulBelow n) (le : i ≤ n) : FaithfulBelow i :=
  fun m hm => h m (Nat.lt_of_lt_of_le hm le)

theorem FaithfulBelow.sides (shorter : FaithfulBelow m.length) (balanced : Balanced 0 m.chars)
    (cut : m.cutMain Int = some (l, c, r)) : l.Faithful ∧ r.Faithful := by
  have length := length_of_cutMain cut
  obtain ⟨left, right, -⟩ := balanced_of_cutMain balanced cut
  exact ⟨shorter l (by omega) left, shorter r (by omega) right⟩

theorem FaithfulBelow.content (shorter : FaithfulBelow m.length) (closed : m.content = some inner) :
    inner.Faithful ∧ FaithfulBelow inner.length := by
  have length := length_of_content closed
  exact ⟨shorter inner (by omega) (balanced_of_content closed), shorter.mono (by omega)⟩

theorem agrees_brackets (closed : m.content = some inner) (faithful : inner.Faithful) :
    Agrees m (Surface.tokens false) (inner.rewrite Int) (Surface.read .expression m.chars) := by
  have group := faithful.plain.map_right (isInfix_of_content closed) fun e => (Surface.tokens_group e).symm
  rw [Surface.read_of_brackets (content_eq closed).1]
  exact group.map_right (List.infix_refl m) fun _ => rfl

theorem agrees_sign (tilde : g.char = '~') (hidden : cutMain Int (g :: rest) = none) (bare : content rest = none)
    (plain : Agrees rest (Surface.tokens false) (rest.rewrite Int) (Surface.read .expression rest.chars)) :
    Agrees rest (Surface.tokens true) (rewrite Int (g :: rest)) (Surface.read .operand rest.chars) := by
  have hidden_rest : splitMain rest.chars = none := by
    rw [cutMain_eq_none_iff, chars_cons_of_sign tilde] at hidden
    exact Option.map_eq_none_iff.1 hidden
  rw [Surface.read_of_hidden hidden_rest] at plain
  have operand : Agrees rest (Surface.tokens false) (rest.rewrite Int) (Surface.read .operand rest.chars) :=
    plain.of_map_right fun _ _ => rfl
  have negated := operand.map (f := id) (g := (.neg :: ·)) (q := Surface.tokens true) (List.infix_refl rest)
    fun u hu => (Surface.tokens_of_read hu (content_eq_none_iff.1 bare)).symm
  rw [rewrite_sign bare hidden tilde]
  cases h : Surface.read .operand rest.chars <;> rw [h] at negated <;> exact negated

section

variable (shorter : FaithfulBelow m.length)
include shorter

theorem agrees_withoutBrackets (faithful : m.Faithful) :
    Agrees m (Surface.tokens false) (m.withoutBrackets.rewrite Int) (Surface.read .expression m.chars) := by
  cases closed : m.content with
  | none =>
    rw [withoutBrackets, closed]
    exact faithful.plain
  | some inner =>
    rw [withoutBrackets, closed]
    exact agrees_brackets closed (shorter.content closed).1

theorem agrees_group (h : l.negatedContent = some m) (balanced : Balanced 0 m.chars)
    (plain : Agrees m (Surface.tokens false) (m.rewrite Int) (Surface.read .expression m.chars)) :
    Agrees m (Surface.tokens true) (l.rewrite Int) ((Surface.read .expression m.chars).map .group) := by
  cases cut : m.cutMain Int with
  | none =>
    rw [rewrite_group h cut, Surface.read_of_hidden (cutMain_eq_none_iff.1 cut)]
    rw [Surface.read_of_hidden (cutMain_eq_none_iff.1 cut)] at plain
    refine plain.map (List.infix_refl m) fun t ht => ?_
    obtain ⟨u, -, rfl⟩ := Surface.exists_of_map_eq_ok ht
    rfl
  | some pieces =>
    obtain ⟨a, c, b⟩ := pieces
    obtain ⟨left, right⟩ := shorter.sides balanced cut
    obtain ⟨part, part'⟩ := isInfix_of_cutMain cut
    have split := (cutMain_eq cut).1
    rw [rewrite_group_cut h cut, Surface.read_of_cut split]
    simp only [chars_eq_nil_iff]
    by_cases empty : a = [] ∨ b = []
    · rw [if_pos empty, if_pos empty]
      exact .refused_at m (.missingSide c)
    · rw [if_neg empty, if_neg empty]
      have operand := left.negated
      rw [Surface.read_of_hidden (balanced_of_cutMain balanced cut).2.2] at operand
      have joined := (operand.of_map_right (p := Surface.tokens true) fun _ _ => rfl).both right.negated part part'
        (s := fun e => Surface.tokens true (.group e)) (g := fun us es => .binary c.dual :: (us ++ es))
        (f := fun u e => .binary c u e) fun _ _ => rfl
      exact joined.map_right (List.infix_refl m) fun _ => rfl

theorem agrees_of_cutMain (balanced : Balanced 0 m.chars) (cut : m.cutMain Int = some (l, c, r)) :
    Agrees m (Surface.tokens false) (m.rewrite Int) (Surface.read .expression m.chars) := by
  obtain ⟨part, part'⟩ := isInfix_of_cutMain cut
  obtain ⟨left, right⟩ := shorter.sides balanced cut
  have length := length_of_cutMain cut
  rw [rewrite_cut (negatedContent_of_cutMain cut) cut, Surface.read_of_cut (cutMain_eq cut).1]
  simp only [chars_eq_nil_iff]
  by_cases empty : l = [] ∨ r = []
  · rw [if_pos empty, if_pos empty]
    exact .refused_at m (.missingSide c)
  · rw [if_neg empty, if_neg empty]
    have first := agrees_withoutBrackets (shorter.mono (by omega)) left
    have second := agrees_withoutBrackets (shorter.mono (by omega)) right
    rw [Surface.read_of_hidden (balanced_of_cutMain balanced cut).2.2] at first
    exact (first.of_map_right (p := Surface.tokens false) fun _ _ => rfl).both second part part' fun _ _ => rfl

theorem agrees_of_negatedContent (h : m.negatedContent = some inner) :
    Agrees m (Surface.tokens false) (m.rewrite Int) (Surface.read .expression m.chars) := by
  obtain ⟨g, rest, rfl, tilde, closed⟩ := negatedContent_eq h
  have below : FaithfulBelow (List.length rest) := shorter.mono (Nat.le_succ _)
  obtain ⟨faithful, below_inner⟩ := below.content closed
  have enclosed := (content_eq closed).1
  have group := agrees_group below_inner h (balanced_of_content closed) faithful.plain
  have part : inner <:+: g :: rest := (isInfix_of_content closed).trans (List.infix_cons (List.infix_refl rest))
  have signed := group.map_right (f := .neg) (q := Surface.tokens false) part fun _ => rfl
  rw [chars_cons_of_sign tilde, Surface.read_of_sign (splitMain_of_enclosed enclosed),
    Surface.read_of_enclosed enclosed]
  exact signed.map_right (List.infix_refl _) fun _ => rfl

end

theorem agrees_of_operand (shorter : FaithfulBelow m.length) (balanced : Balanced 0 m.chars)
    (ungrouped : m.negatedContent = none) (hidden : m.cutMain Int = none) :
    Agrees m (Surface.tokens false) (m.rewrite Int) (Surface.read .expression m.chars) := by
  cases m with
  | nil =>
    have start : chars [] = [] := rfl
    rw [rewrite_nil, start, Surface.read_nil]
    exact .refused_at [] .missingOperand
  | cons g rest =>
    by_cases tilde : g.char = '~'
    · rw [negatedContent_of_sign tilde] at ungrouped
      have balanced_rest : Balanced 0 (chars rest) := by
        rw [chars_cons_of_sign tilde] at balanced
        exact (balanced_cons_iff.1 balanced).2
      have operand := agrees_sign tilde hidden ungrouped (shorter rest (Nat.lt_succ_self _) balanced_rest).plain
      rw [cutMain_eq_none_iff, chars_cons_of_sign tilde] at hidden
      have part : rest <:+: g :: rest := List.infix_cons (List.infix_refl rest)
      have signed := operand.map_right (f := .neg) (q := Surface.tokens false) part fun _ => rfl
      rw [chars_cons_of_sign tilde, Surface.read_of_hidden hidden, Surface.read_sign]
      exact signed.map_right (List.infix_refl _) fun _ => rfl
    cases closed : content (g :: rest) with
    | some inner =>
      rw [rewrite_brackets tilde hidden closed]
      exact agrees_brackets closed (shorter.content closed).1
    | none =>
      have unread := Surface.read_of_plain tilde (content_eq_none_iff.1 closed)
      rw [rewrite_plain tilde hidden closed, Surface.read_of_hidden (cutMain_eq_none_iff.1 hidden), chars,
        List.map_cons, unread]
      cases rest with
      | nil =>
        rw [letter?]
        cases Letter.ofChar? g.char with
        | none => exact .refused_at [g] .notAVariable
        | some l => exact .accepted (Surface.single (.letter l))
      | cons g' rest =>
        cases Letter.ofChar? g.char with
        | none => exact .refused_at (g :: g' :: rest) .notAVariable
        | some l => exact .refused_at (g :: g' :: rest) .notAVariable

theorem agrees_plain (shorter : FaithfulBelow m.length) (balanced : Balanced 0 m.chars) :
    Agrees m (Surface.tokens false) (m.rewrite Int) (Surface.read .expression m.chars) := by
  cases negated : m.negatedContent with
  | some inner => exact agrees_of_negatedContent shorter negated
  | none =>
    cases cut : m.cutMain Int with
    | some pieces => exact agrees_of_cutMain shorter balanced cut
    | none => exact agrees_of_operand shorter balanced negated cut

theorem agrees_negate (shorter : FaithfulBelow m.length) (balanced : Balanced 0 m.chars)
    (plain : Agrees m (Surface.tokens false) (m.rewrite Int) (Surface.read .expression m.chars)) :
    Agrees m (Surface.tokens true) ((m.negate Int).rewrite Int) (Surface.read .expression m.chars) := by
  cases cut : m.cutMain Int with
  | some pieces =>
    obtain ⟨l, c, r⟩ := pieces
    have inside : (m.negate Int).negatedContent = some m := by
      rw [negate_of_cutMain cut, negatedContent_of_sign rfl, content_brackets balanced]
    refine (agrees_group shorter inside balanced plain).of_map_right fun t ht => ?_
    obtain ⟨u, e, rfl⟩ := Surface.exists_binary_of_cut (cutMain_eq cut).1 ht
    rfl
  | none =>
    rw [negate_of_hidden cut]
    cases closed : m.content with
    | some inner =>
      obtain ⟨faithful, below⟩ := shorter.content closed
      have inside : negatedContent (sign '~' :: m) = some inner := (negatedContent_of_sign rfl).trans closed
      have group := agrees_group below inside (balanced_of_content closed) faithful.plain
      rw [Surface.read_of_brackets (content_eq closed).1]
      exact group.map_right (isInfix_of_content closed) fun _ => rfl
    | none =>
      have hidden : cutMain Int (sign '~' :: m) = none := by
        rw [cutMain_eq_none_iff, chars_cons_of_sign rfl]
        exact Option.map_eq_none_iff.2 (cutMain_eq_none_iff.1 cut)
      rw [Surface.read_of_hidden (cutMain_eq_none_iff.1 cut)]
      exact (agrees_sign rfl hidden closed plain).map_right (List.infix_refl m) fun _ => rfl

theorem faithful_of_balanced (m : Draft) (balanced : Balanced 0 m.chars) : m.Faithful := by
  -- By induction on the length, since added signs make a text longer and it is no part of the text it comes from.
  have below : ∀ n, FaithfulBelow n := by
    intro n
    induction n with
    | zero => exact fun m' hm' => absurd hm' (Nat.not_lt_zero _)
    | succ n ih =>
      intro m' hm' balanced
      have shorter : FaithfulBelow m'.length := ih.mono (Nat.le_of_lt_succ hm')
      have plain := agrees_plain shorter balanced
      exact ⟨plain, agrees_negate shorter balanced plain⟩
  exact below (m.length + 1) m (Nat.lt_succ_self _) balanced

theorem rewrite_conditional (balanced : Balanced 0 l.chars) (empty : r ≠ []) :
    rewrite Int (l.negate Int ++ sign '?' :: r) = do
      let ls ← (l.negate Int).rewrite Int
      let rs ← r.withoutBrackets.rewrite Int
      return .binary .or :: (ls ++ rs) := by
  have cut : cutMain Int (l.negate Int ++ sign '?' :: r) = some (l.negate Int, .or, r) :=
    cutMain_append (balanced_negate balanced) (splitMain_negate balanced) rfl
  have sides : ¬ (l.negate Int = [] ∨ r = []) := by
    rintro (h | h)
    · exact l.negate_ne_nil Int h
    · exact empty h
  rw [rewrite_cut (negatedContent_of_cutMain cut) cut, if_neg sides, withoutBrackets_negate]

theorem agrees_conditional (whole : wholeFault? (0 : Int) m.chars = none) (cut : m.cutConditional = some (l, r))
    (empty : ¬ (l = [] ∨ r = [])) :
    Agrees m (fun t : Sentence => t.formula.encode) (rewrite Int (l.negate Int ++ sign '?' :: r))
      (do
        let a ← Surface.read .expression l.chars
        let c ← Surface.read .expression r.chars
        return .conditional a c) := by
  obtain ⟨part, part'⟩ := isInfix_of_cutConditional cut
  have text := (cutOnce_eq_some_iff.1 (cutConditional_eq cut).1).1
  have balanced := balanced_of_wholeFault? whole
  have outside := nestsConditional_of_wholeFault? whole
  rw [text] at balanced outside
  obtain ⟨left, right⟩ := balanced_sides balanced outside
  have antecedent := (faithful_of_balanced l left).negated
  have consequent := agrees_withoutBrackets (fun m' _ => faithful_of_balanced m') (faithful_of_balanced r right)
  rw [rewrite_conditional left fun h => empty (.inr h)]
  exact antecedent.both consequent part part' fun _ _ => rfl

theorem agrees_normalize (m : Draft) (written : m ≠ []) :
    Agrees m (fun t : Sentence => t.formula.encode) (m.normalize Int) (Sentence.read m.chars) := by
  have written_chars : m.chars ≠ [] := fun h => written (chars_eq_nil_iff.1 h)
  rw [normalize, Sentence.read, if_neg written_chars]
  cases whole : wholeFault? (0 : Int) m.chars with
  | some fault => exact .refused_at m fault
  | none =>
    dsimp only
    rw [Sentence.readSound]
    by_cases conditional : '>' ∈ m.chars
    · rw [if_pos conditional, if_pos conditional]
      cases cut : m.cutConditional with
      | none =>
        rw [cutConditional_eq_none_iff.1 cut]
        exact .refused_at m .conditionalShape
      | some sides =>
        obtain ⟨l, r⟩ := sides
        rw [(cutConditional_eq cut).1]
        simp only [chars_eq_nil_iff]
        by_cases empty : l = [] ∨ r = []
        · rw [if_pos empty, if_pos empty]
          exact .refused_at m .conditionalShape
        · rw [if_neg empty, if_neg empty]
          exact agrees_conditional whole cut empty
    · rw [if_neg conditional, if_neg conditional]
      have plain := (faithful_of_balanced m (balanced_of_wholeFault? whole)).plain
      exact plain.map_right (List.infix_refl m) fun _ => rfl

end Draft

/-- Reading an expression and moving the negations of what is read comes to the same as moving them on its
text. -/
theorem agrees_normalize_given (s : String) (written : canonical s ≠ []) :
    Agrees (Draft.given (canonical s)) id ((Draft.given (canonical s)).normalize Int) (normalize s) := by
  have agrees := (Draft.given (canonical s)).agrees_normalize fun h => written (List.map_eq_nil_iff.1 h)
  rw [Draft.chars_given] at agrees
  exact agrees.map_right (List.infix_refl _) fun _ => rfl

theorem normalizeText_eq (s : String) : normalizeText Int s = normalize s := by
  rw [normalizeText]
  split
  · next blank => exact (normalize_eq_empty_iff.2 blank).symm
  · next written => exact (agrees_normalize_given s written).mapError_eq

/-- What a malformed expression is refused with quotes a piece of its text as it was given, blanks and the case
of letters aside: the same refusal comes out of the rewriting of the text, where the quoted piece stands in the
text and holds no added sign. -/
theorem normalize_error_quotes_given {s input : String} {fault : Fault}
    (h : normalize s = .error (.malformed input fault)) :
    input.toList <:+: canonical s ∧
    ∃ r : Refusal, (Draft.given (canonical s)).normalize Int = .error r ∧ r.error = .malformed input fault ∧
      r.piece <:+: Draft.given (canonical s) ∧ ∀ g ∈ r.piece, g.added = false := by
  have written : canonical s ≠ [] := by
    intro empty
    rw [normalize_eq_empty_iff.2 empty] at h
    cases h
  have agrees := agrees_normalize_given s written
  rw [h] at agrees
  generalize rewritten : (Draft.given (canonical s)).normalize Int = x at agrees
  generalize refused : Except.error (ExpressionError.malformed input fault) = y at agrees
  cases agrees with
  | accepted => cases refused
  | refused r inside =>
    have quoted : r.error = .malformed input fault := (Except.error.inj refused).symm
    have text : input = String.ofList r.piece.chars := (ExpressionError.malformed.inj quoted).1.symm
    refine ⟨?_, r, rfl, quoted, inside, fun g hg => Draft.not_added_of_mem_given (inside.subset hg)⟩
    rw [text, String.toList_ofList, ← Draft.chars_given (canonical s)]
    exact inside.map Glyph.char

theorem normalize_error_quotes_given_group :
    let s := "(p & q?r) > ~(S ? t&)"
    normalize s = .error (.malformed "T&" (.missingSide .and)) ∧
    "T&".toList <:+: canonical s ∧
    ∃ r : Refusal, (Draft.given (canonical s)).normalize Int = .error r ∧
      r.error = .malformed "T&" (.missingSide .and) ∧
      r.piece <:+: Draft.given (canonical s) ∧ ∀ g ∈ r.piece, g.added = false := by
  intro s
  have refused : normalize s = .error (.malformed "T&" (.missingSide .and)) := by decide +kernel
  exact ⟨refused, normalize_error_quotes_given refused⟩

end FourValued
