import FourValued.Polish.Reader
import FourValued.Proofs.Grammar

/-!
# Polish notation as text

A character stands for the token that its upper case writes (`Token.ofChar?_eq_some_iff`). So a text is read as the
tokens that its canonical text writes, whether they are written compactly or with spaces (`Polish.read_eq_ok_iff`), and
otherwise reading stops at the first character that is foreign, which is neither blank nor stands for a token
(`Polish.read_eq_error_iff`).
-/

namespace FourValued

open Text

namespace Text

theorem toUpper_eq_iff {c x : Char} (sign : x.toNat < 65 ∨ 122 < x.toNat) : c.toUpper = x ↔ c = x := by
  rcases toUpper_toNat c with same | ⟨low, high, upper⟩
  · rw [same]
  · constructor
    · rintro rfl
      omega
    · rintro rfl
      omega

end Text

namespace Token

variable {c : Char} {t : Token}

theorem ofChar?_toUpper (c : Char) : ofChar? c.toUpper = ofChar? c := by
  have neg : c.toUpper = '~' ↔ c = '~' := toUpper_eq_iff (by decide)
  have and : c.toUpper = '&' ↔ c = '&' := toUpper_eq_iff (by decide)
  have or : c.toUpper = '?' ↔ c = '?' := toUpper_eq_iff (by decide)
  simp only [ofChar?, Connective.ofChar?, Letter.ofChar?, neg, and, or, toUpper_toUpper]

theorem toUpper_char (t : Token) : t.char.toUpper = t.char := by
  cases t with
  | neg => decide
  | binary c => cases c <;> decide
  | var l => exact l.toUpper_char

theorem isBlank_char (t : Token) : isBlank t.char = false := by
  cases t with
  | neg => decide
  | binary c => cases c <;> decide
  | var l => revert l; decide

theorem ofChar?_eq_some_iff : ofChar? c = some t ↔ c.toUpper = t.char := by
  constructor
  · intro h
    unfold ofChar? at h
    split at h
    · next tilde =>
      cases h
      rw [tilde]
      exact neg.toUpper_char
    split at h
    · next k hk =>
      cases h
      rw [Connective.ofChar?_eq_some_iff.1 hk]
      exact (binary k).toUpper_char
    · obtain ⟨l, hl, rfl⟩ := Option.map_eq_some_iff.1 h
      exact Letter.ofChar?_eq_some_iff.1 hl
  · intro h
    rw [← ofChar?_toUpper, h, ofChar?_char]

theorem ofChar?_eq_none_iff : ofChar? c = none ↔ ∀ t : Token, c.toUpper ≠ t.char := by
  simp only [Option.eq_none_iff_forall_ne_some, ne_eq, ofChar?_eq_some_iff]

end Token

namespace Polish

variable {cs : List Char} {c : Char} {t : Token} {ts : Polish} {s : String} {err : ExpressionError}

def Foreign (c : Char) : Prop := isBlank c = false ∧ ∀ t : Token, c.toUpper ≠ t.char

instance : DecidablePred Foreign := fun _ =>
  decidable_of_iff _ (and_congr_right fun _ => Token.ofChar?_eq_none_iff)

def FirstForeign (cs : List Char) (c : Char) : Prop :=
  Foreign c ∧ ∃ before after, cs = before ++ c :: after ∧ ∀ b ∈ before, ¬ Foreign b

theorem firstForeign_iff : FirstForeign cs c ↔ cs.find? (fun x => decide (Foreign x)) = some c := by
  simp only [FirstForeign, List.find?_eq_some_iff_append, Bool.not_eq_true', decide_eq_true_eq, decide_eq_false_iff_not]

theorem readChars_cons_of_token (h : c.toUpper = t.char) : readChars (c :: cs) = (readChars cs).map (t :: ·) := by
  rw [readChars, Token.ofChar?_eq_some_iff.2 h]

theorem readChars_cons_of_none (h : ∀ t : Token, c.toUpper ≠ t.char) : readChars (c :: cs) = .error c := by
  rw [readChars, Token.ofChar?_eq_none_iff.2 h]

theorem eq_chars_of_readChars (h : readChars cs = .ok ts) : cs.map Char.toUpper = ts.chars := by
  induction cs generalizing ts with
  | nil =>
    cases h
    rfl
  | cons c cs ih =>
    by_cases stands : ∃ t : Token, c.toUpper = t.char
    · obtain ⟨t, ht⟩ := stands
      rw [readChars_cons_of_token ht] at h
      obtain ⟨us, hus, rfl⟩ := Surface.exists_of_map_eq_ok h
      rw [List.map_cons, ih hus, ht]
      rfl
    · rw [readChars_cons_of_none (not_exists.1 stands)] at h
      cases h

theorem readChars_of_eq_chars (h : cs.map Char.toUpper = ts.chars) : readChars cs = .ok ts := by
  induction ts generalizing cs with
  | nil =>
    rw [List.map_eq_nil_iff.1 h]
    rfl
  | cons t ts ih =>
    obtain ⟨c, cs, rfl, written, rest⟩ := List.map_eq_cons_iff.1 h
    rw [readChars_cons_of_token written, ih rest]
    rfl

theorem readChars_eq_error_iff :
    readChars (cs.filter fun x => !isBlank x) = .error c ↔ cs.find? (fun x => decide (Foreign x)) = some c := by
  induction cs with
  | nil => exact iff_of_false nofun nofun
  | cons x cs ih =>
    by_cases blank : isBlank x = true
    · have familiar : ¬ Foreign x := fun foreign => absurd (foreign.1.symm.trans blank) nofun
      rw [List.filter_cons_of_neg (by simp [blank]), List.find?_cons_of_neg (by simp [familiar]), ih]
    rw [List.filter_cons_of_pos (by simp [blank])]
    by_cases stands : ∃ t : Token, x.toUpper = t.char
    · obtain ⟨t, ht⟩ := stands
      have familiar : ¬ Foreign x := fun foreign => foreign.2 t ht
      rw [readChars_cons_of_token ht, List.find?_cons_of_neg (by simp [familiar]), ← ih]
      exact ⟨eq_error_of_map, fun h => by rw [h]; rfl⟩
    · have foreign : Foreign x := ⟨Bool.eq_false_iff.2 blank, not_exists.1 stands⟩
      rw [readChars_cons_of_none foreign.2, List.find?_cons_of_pos (by simp [foreign]), Except.error.injEq,
        Option.some.injEq]

theorem read_eq_ok_iff : read s = .ok ts ↔ canonical s = ts.chars := by
  have chars_read : readChars (s.toList.filter fun x => !isBlank x) = .ok ts ↔ canonical s = ts.chars :=
    ⟨eq_chars_of_readChars, readChars_of_eq_chars⟩
  rw [← chars_read, read]
  cases readChars (s.toList.filter fun x => !isBlank x) with
  | ok us => simp
  | error c => simp

theorem read_eq_error_iff :
    read s = .error err ↔ ∃ c, FirstForeign s.toList c ∧ err = .malformed s (.notAToken c) := by
  simp only [firstForeign_iff, ← readChars_eq_error_iff, read]
  cases readChars (s.toList.filter fun x => !isBlank x) with
  | ok us => simp
  | error c => simp [eq_comm]

theorem exists_firstForeign_iff : (∃ c, FirstForeign s.toList c) ↔ ∀ ts : Polish, canonical s ≠ ts.chars := by
  simp only [ne_eq, ← read_eq_ok_iff]
  cases h : read s with
  | ok us =>
    refine iff_of_false ?_ fun unread => unread us rfl
    rintro ⟨c, hc⟩
    rw [read_eq_error_iff.2 ⟨c, hc, rfl⟩] at h
    cases h
  | error err =>
    obtain ⟨c, hc, -⟩ := read_eq_error_iff.1 h
    exact iff_of_true ⟨c, hc⟩ nofun

theorem canonical_text (ts : Polish) : canonical ts.text = ts.chars := by
  rw [canonical, text, String.toList_ofList]
  refine canonicalChars_eq_self fun c hc => ?_
  obtain ⟨t, -, rfl⟩ := List.mem_map.1 hc
  exact ⟨t.isBlank_char, t.toUpper_char⟩

theorem canonical_spaced (ts : Polish) : canonical ts.spaced = ts.chars := by
  induction ts with
  | nil => rfl
  | cons t ts ih =>
    have first : canonical t.text = [t.char] := canonical_text [t]
    -- A space stands between two tokens only, so the last token is a case of its own.
    cases ts with
    | nil =>
      have alone : spaced [t] = t.text := String.intercalate_singleton
      rw [alone, first]
      rfl
    | cons u ts =>
      have joined : spaced (t :: u :: ts) = t.text ++ " " ++ spaced (u :: ts) := String.intercalate_cons_cons
      rw [joined, canonical_append, canonical_append, first, ih]
      rfl

/-- A text is read as some tokens just when its canonical text is what they are written as, compactly; written
compactly or with spaces, tokens are read back. Every other text has a first foreign character, and the error quotes
the text as it was given and names that character. -/
theorem read_inverts_writing (s : String) :
    (∀ ts : Polish, read s = .ok ts ↔ String.ofList (canonical s) = ts.text) ∧
    (∀ ts : Polish, read ts.text = .ok ts ∧ read ts.spaced = .ok ts) ∧
    ((∀ ts : Polish, String.ofList (canonical s) ≠ ts.text) ↔ ∃ c, FirstForeign s.toList c) ∧
    (∀ err, read s = .error err ↔ ∃ c, FirstForeign s.toList c ∧ err = .malformed s (.notAToken c)) ∧
    ∀ c, (Fault.notAToken c).reason = "'" ++ c.toString ++ "' is not a preorder token" := by
  have written : ∀ ts : Polish, String.ofList (canonical s) = ts.text ↔ canonical s = ts.chars :=
    fun ts => String.ofList_inj
  refine ⟨fun ts => ?_, fun ts => ⟨read_eq_ok_iff.2 ts.canonical_text, read_eq_ok_iff.2 ts.canonical_spaced⟩, ?_,
    fun err => read_eq_error_iff, fun c => rfl⟩
  · rw [read_eq_ok_iff, written]
  · rw [exists_firstForeign_iff]
    simp only [ne_eq, written]

end Polish

end FourValued
