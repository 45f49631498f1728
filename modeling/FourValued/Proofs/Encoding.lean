import Mathlib.Data.List.Basic
import FourValued.Text.Lines

/-!
# Encoded text and its lines

Decoding inverts the encoding of text in UTF-8 (`decodeUtf8_eq_some_iff`). The encoding has the bytes of line feeds and
carriage returns only where the text has these characters, so the lines of encoded text are those of the text. A line
that is ended by a line feed is what stands before it, less at most one carriage return (`exists_lines_eq_cons`).
-/

namespace FourValued.Text

section Encoding

variable {s : String} {b : UInt8} {bs : List UInt8}

def encodeUtf8 (s : String) : List UInt8 := s.toUTF8.data.toList

theorem encodeUtf8_eq (s : String) : encodeUtf8 s = s.toList.flatMap String.utf8EncodeChar := by
  rw [encodeUtf8, String.toUTF8_eq_toByteArray, ← String.utf8Encode_toList, List.utf8Encode, List.data_toByteArray]

theorem encodeUtf8_append (s t : String) : encodeUtf8 (s ++ t) = encodeUtf8 s ++ encodeUtf8 t := by
  simp only [encodeUtf8_eq, String.toList_append, List.flatMap_append]

theorem encodeUtf8_return : encodeUtf8 "\r" = [carriageReturn] := by
  rw [encodeUtf8_eq]
  rfl

theorem decodeUtf8_eq_some_iff : decodeUtf8 bs = some s ↔ encodeUtf8 s = bs := by
  rw [decodeUtf8, String.fromUTF8?]
  constructor
  · intro h
    split at h
    · obtain rfl := Option.some.inj h
      rfl
    · simp at h
  · rintro rfl
    exact dif_pos s.isValidUTF8

theorem decodeUtf8_eq_none_iff : decodeUtf8 bs = none ↔ ∀ s, encodeUtf8 s ≠ bs := by
  simp only [Option.eq_none_iff_forall_ne_some, ne_eq, decodeUtf8_eq_some_iff]

theorem decodeUtf8_encodeUtf8 (s : String) : decodeUtf8 (encodeUtf8 s) = some s := decodeUtf8_eq_some_iff.2 rfl

theorem encodeUtf8_eq_nil_iff : encodeUtf8 s = [] ↔ s = "" := by
  rw [← decodeUtf8_eq_some_iff]
  exact ⟨fun h => Option.some.inj (h.symm.trans (decodeUtf8_encodeUtf8 "")), fun h => h ▸ decodeUtf8_encodeUtf8 ""⟩

theorem le_toNat_of_mem {c : Char} (wide : 127 < c.toNat) : ∀ b ∈ String.utf8EncodeChar c, 128 ≤ b.toNat := by
  have single : ¬ c.val.toNat ≤ 127 := Nat.not_le.2 wide
  rw [String.utf8EncodeChar]
  simp only [single, if_false]
  split_ifs <;>
    simp only [List.forall_mem_cons, List.not_mem_nil, false_imp_iff, implies_true, and_true, UInt8.toNat_ofNat'] <;>
    omega

theorem eq_ofNat_of_mem {c : Char} (ascii : b.toNat < 128) (h : b ∈ String.utf8EncodeChar c) :
    c = Char.ofNat b.toNat := by
  have narrow : c.val.toNat ≤ 127 := by
    by_contra wide
    have := le_toNat_of_mem (Nat.lt_of_not_le wide) b h
    omega
  rw [String.utf8EncodeChar, if_pos narrow, List.mem_singleton] at h
  rw [h, UInt8.toNat_ofNat', Nat.mod_eq_of_lt (by omega), ← Char.toNat, Char.ofNat_toNat]

theorem mem_of_mem_encodeUtf8 (ascii : b.toNat < 128) (h : b ∈ encodeUtf8 s) : Char.ofNat b.toNat ∈ s.toList := by
  rw [encodeUtf8_eq] at h
  obtain ⟨c, hc, hb⟩ := List.mem_flatMap.1 h
  rwa [← eq_ofNat_of_mem ascii hb]

theorem lineFeed_notMem_encodeUtf8 (h : '\n' ∉ s.toList) : lineFeed ∉ encodeUtf8 s :=
  fun mem => h (mem_of_mem_encodeUtf8 (by decide) mem)

theorem eq_append_of_encodeUtf8_eq (h : encodeUtf8 s = bs ++ [carriageReturn]) :
    ∃ t, s = t ++ "\r" ∧ encodeUtf8 t = bs := by
  rcases s.toList.eq_nil_or_concat' with empty | ⟨cs, c, split⟩
  · rw [encodeUtf8_eq, empty] at h
    simp at h
  · have bytes : cs.flatMap String.utf8EncodeChar ++ String.utf8EncodeChar c = bs ++ [carriageReturn] := by
      rw [← h, encodeUtf8_eq, split]
      simp
    have last : carriageReturn ∈ String.utf8EncodeChar c := by
      have ends := congrArg List.getLast? bytes
      rw [List.getLast?_append_of_ne_nil _ String.utf8EncodeChar_ne_nil, List.getLast?_concat] at ends
      exact List.mem_of_getLast? ends
    obtain rfl : c = '\r' := eq_ofNat_of_mem (by decide) last
    have same : s = String.ofList cs ++ "\r" := by
      rw [← String.toList_inj, split]
      simp
    refine ⟨String.ofList cs, same, ?_⟩
    rw [same, encodeUtf8_append, encodeUtf8_return] at h
    exact List.append_cancel_right h

end Encoding

inductive LineEnd
  | lineFeed
  | returnLineFeed
  deriving DecidableEq, Repr

def LineEnd.bytes : LineEnd → List UInt8
  | lineFeed => [Text.lineFeed]
  | returnLineFeed => [carriageReturn, Text.lineFeed]

def EndsLine (rest : List UInt8) : Prop := rest = [] ∨ ∃ (z : LineEnd) (more : List UInt8), rest = z.bytes ++ more

section Lines

variable {s : String} {bs rest : List UInt8}

theorem dropReturn_reverse (bs : List UInt8) :
    (dropReturn bs.reverse).reverse = bs ∨ bs = (dropReturn bs.reverse).reverse ++ [carriageReturn] := by
  rcases bs.eq_nil_or_concat' with rfl | ⟨cs, b, rfl⟩
  · exact .inl rfl
  · by_cases hb : b = carriageReturn
    · exact .inr (by simp [dropReturn, hb])
    · exact .inl (by simp [dropReturn, hb])

theorem exists_lines_eq_cons (h : lineFeed ∉ bs) (z : LineEnd) (rest : List UInt8) :
    ∃ l, (l = bs ∨ bs = l ++ [carriageReturn]) ∧ lines (bs ++ (z.bytes ++ rest)) = l :: lines rest := by
  cases z with
  | lineFeed => exact ⟨_, dropReturn_reverse bs, lines_append h rest⟩
  | returnLineFeed =>
    have noFeed : lineFeed ∉ bs ++ [carriageReturn] := by
      rw [List.mem_append, not_or]
      exact ⟨h, by decide⟩
    refine ⟨bs, .inl rfl, ?_⟩
    simpa [LineEnd.bytes, dropReturn] using lines_append noFeed rest

theorem lines_eq_singleton (h : lineFeed ∉ bs) (nonempty : bs ≠ []) : lines bs = [bs] := by
  have last := linesFrom_append h [] []
  simpa [lines, linesFrom, nonempty] using last

theorem EndsLine.exists_lines_eq_cons (ends : EndsLine rest) (h : lineFeed ∉ bs) (nonempty : bs ≠ []) :
    ∃ l ls, (l = bs ∨ bs = l ++ [carriageReturn]) ∧ lines (bs ++ rest) = l :: ls := by
  rcases ends with rfl | ⟨z, more, rfl⟩
  · exact ⟨bs, [], .inl rfl, by rw [List.append_nil, lines_eq_singleton h nonempty]⟩
  · obtain ⟨l, hl, cut⟩ := Text.exists_lines_eq_cons h z more
    exact ⟨l, lines more, hl, cut⟩

/-- A text that can be a line of its own: its last character would not be taken for a part of the line end. -/
def IsLine (s : String) : Prop := '\n' ∉ s.toList ∧ s.toList.getLast? ≠ some '\r'

instance (s : String) : Decidable (IsLine s) := inferInstanceAs (Decidable (_ ∧ _))

theorem IsLine.lines_append (h : IsLine s) (z : LineEnd) (rest : List UInt8) :
    lines (encodeUtf8 s ++ (z.bytes ++ rest)) = encodeUtf8 s :: lines rest := by
  obtain ⟨l, rfl | ends, cut⟩ := Text.exists_lines_eq_cons (lineFeed_notMem_encodeUtf8 h.1) z rest
  · exact cut
  · obtain ⟨t, rfl, -⟩ := eq_append_of_encodeUtf8_eq ends
    exact absurd (by simp) h.2

def typed (entries : List (String × LineEnd)) : List UInt8 := entries.flatMap fun e => encodeUtf8 e.1 ++ e.2.bytes

theorem lines_typed_append {entries : List (String × LineEnd)} (h : ∀ e ∈ entries, IsLine e.1) (rest : List UInt8) :
    lines (typed entries ++ rest) = entries.map (fun e => encodeUtf8 e.1) ++ lines rest := by
  induction entries with
  | nil => rfl
  | cons e entries ih =>
    rw [List.forall_mem_cons] at h
    rw [typed, List.flatMap_cons, List.append_assoc, List.append_assoc, h.1.lines_append, ← typed, ih h.2,
      List.map_cons, List.cons_append]

theorem decodeUtf8_eq_none_of_append {l : List UInt8} (invalid : ∀ s, encodeUtf8 s ≠ bs)
    (h : l = bs ∨ bs = l ++ [carriageReturn]) : decodeUtf8 l = none := by
  rw [decodeUtf8_eq_none_iff]
  rintro s rfl
  rcases h with same | rfl
  · exact invalid s same
  · exact invalid (s ++ "\r") (by rw [encodeUtf8_append, encodeUtf8_return])

end Lines

end FourValued.Text
