import Mathlib.Data.List.Induction
import FourValued.Dialogue
import FourValued.Proofs.Encoding

/-!
# What a dialogue is told

A dialogue that has heard some lines waits for the next one (`Dialogue.awaiting`), and what it has printed depends on
their number only (`Dialogue.prompts`). Hearing one more line keeps this up (`Dialogue.resume_some`), so it holds after
all lines that are typed, whichever way each of them is ended (`Dialogue.hold_typed`). From there the dialogue closes
with what was typed, or breaks off at the first line that is not UTF-8 (`Dialogue.hold_recovers`).
-/

namespace FourValued.Dialogue

open Text

def resume (printed : String) (d : Dialogue) (ls : List (Option String)) : Outcome × String :=
  ((d.converse ls).1, printed ++ (d.converse ls).2)

def awaiting : List String → Dialogue
  | [] => expression
  | e :: ps => predicates e ps

/-- What is printed before the line number `n` is heard; number zero is the expression. -/
def prompts (n : ℕ) : String :=
  opening ++ (if n = 0 then "" else instruction) ++ String.join ((List.range n).map fun i => request (i + 1))

section Hearing

variable {printed e : String} {ps es : List String} {ls : List (Option String)} {l : String}

theorem prompts_succ (n : ℕ) :
    prompts (n + 1) = prompts n ++ ((if n = 0 then instruction else "") ++ request (n + 1)) := by
  rw [← String.toList_inj]
  cases n with
  | zero => simp [prompts]
  | succ n => simp [prompts, String.toList_join, List.range_succ]

theorem hear_awaiting (h : es = [] ∨ isDone l = false) :
    (awaiting es).hear (some l) =
      (awaiting (es ++ [l]), (if es.length = 0 then instruction else "") ++ request (es.length + 1)) := by
  cases es with
  | nil => simp [awaiting, hear]
  | cons e ps =>
    have more : isDone l = false := h.resolve_left (List.cons_ne_nil e ps)
    simp [awaiting, hear, more]

theorem resume_cons (d : Dialogue) (line : Option String) :
    resume printed d (line :: ls) = resume (printed ++ (d.hear line).2) (d.hear line).1 ls := by
  simp only [resume, converse, String.append_assoc]

theorem resume_some (h : es = [] ∨ isDone l = false) :
    resume (prompts es.length) (awaiting es) (some l :: ls) =
      resume (prompts (es ++ [l]).length) (awaiting (es ++ [l])) ls := by
  rw [resume_cons, hear_awaiting h, List.length_append, List.length_singleton, prompts_succ]

theorem resume_map_some (es : List String) (h : ∀ p ∈ es.tail, isDone p = false) :
    resume (prompts 0) (awaiting []) (es.map some ++ ls) = resume (prompts es.length) (awaiting es) ls := by
  -- The induction is from the first lines to all of them: what has been heard is what the dialogue waits after.
  induction es using List.reverseRecOn generalizing ls with
  | nil => rfl
  | append_singleton es l ih =>
    have before : ∀ p ∈ es.tail, isDone p = false := by
      intro p hp
      cases es with
      | nil => simp at hp
      | cons e ps => exact h p (List.mem_append_left _ hp)
    have last : es = [] ∨ isDone l = false := by
      cases es with
      | nil => exact .inl rfl
      | cons e ps => exact .inr (h l (by simp))
    rw [List.map_append, List.append_assoc, ih before, List.map_singleton, List.singleton_append, resume_some last]

theorem resume_nil : resume printed (predicates e ps) [] = (.entered e ps, printed ++ closing) := rfl

theorem resume_done (h : isDone l = true) :
    resume printed (predicates e ps) (some l :: ls) = (.entered e ps, printed ++ closing) := by
  rw [resume_cons]
  simp [hear, h, resume, converse_closed]

theorem resume_none : resume printed (awaiting es) (none :: ls) = (.garbled, printed) := by
  rw [resume_cons]
  cases es <;> simp [awaiting, hear, resume, converse_closed]

end Hearing

section Bytes

variable {entries : List (String × LineEnd)} {e printed : String} {ps : List String} {rest tail : List UInt8}

theorem hold_eq (input : List UInt8) :
    hold input = resume (prompts 0) (awaiting []) ((lines input).map decodeUtf8) := by
  simp [hold, resume, prompts, awaiting, String.join]

theorem hold_typed (text : ∀ e ∈ entries, IsLine e.1) (more : ∀ e ∈ entries.tail, isDone e.1 = false)
    (rest : List UInt8) :
    hold (typed entries ++ rest) =
      resume (prompts entries.length) (awaiting (entries.map Prod.fst)) ((lines rest).map decodeUtf8) := by
  have decoded : (entries.map fun e => encodeUtf8 e.1).map decodeUtf8 = (entries.map Prod.fst).map some := by
    simp [decodeUtf8_encodeUtf8]
  have heard : ∀ p ∈ (entries.map Prod.fst).tail, isDone p = false := by
    rw [← List.map_tail, List.forall_mem_map]
    exact more
  rw [hold_eq, lines_typed_append text, List.map_append, decoded, resume_map_some _ heard, List.length_map]

theorem isDone_append_return (s : String) : isDone (s ++ "\r") = isDone s := by
  have blank : isBlank '\r' = true := by decide
  have same : trim (s ++ "\r") = trim s := by
    rw [trim, trim, String.toList_append, List.dropWhile_append]
    cases rest : s.toList.dropWhile isBlank with
    | nil => simp [blank]
    | cons c cs => simp [blank]
  rw [isDone, same, isDone]

def EndsEntry (tail : List UInt8) : Prop :=
  tail = [] ∨ ∃ (d : String) (rest : List UInt8), '\n' ∉ d.toList ∧ isDone d = true ∧ EndsLine rest ∧
    tail = encodeUtf8 d ++ rest

theorem EndsEntry.resume_eq (ends : EndsEntry tail) :
    resume printed (predicates e ps) ((lines tail).map decodeUtf8) = (.entered e ps, printed ++ closing) := by
  rcases ends with rfl | ⟨d, rest, noFeed, done, endsLine, rfl⟩
  · exact resume_nil
  · have nonempty : encodeUtf8 d ≠ [] := by
      rw [ne_eq, encodeUtf8_eq_nil_iff]
      rintro rfl
      exact absurd done (by decide)
    obtain ⟨l, ls, rfl | dropped, cut⟩ := endsLine.exists_lines_eq_cons (lineFeed_notMem_encodeUtf8 noFeed) nonempty
    · rw [cut, List.map_cons, decodeUtf8_encodeUtf8, resume_done done]
    · obtain ⟨d, rfl, rfl⟩ := eq_append_of_encodeUtf8_eq dropped
      rw [isDone_append_return] at done
      rw [cut, List.map_cons, decodeUtf8_encodeUtf8, resume_done done]

theorem resume_garbage {garbage : List UInt8} {es : List String} (noFeed : lineFeed ∉ garbage)
    (invalid : ∀ s, encodeUtf8 s ≠ garbage) (ends : EndsLine rest) :
    resume printed (awaiting es) ((lines (garbage ++ rest)).map decodeUtf8) = (.garbled, printed) := by
  have nonempty : garbage ≠ [] := fun empty => invalid "" (empty ▸ encodeUtf8_eq_nil_iff.2 rfl)
  obtain ⟨l, ls, hl, cut⟩ := ends.exists_lines_eq_cons noFeed nonempty
  rw [cut, List.map_cons, decodeUtf8_eq_none_of_append invalid hl, resume_none]

end Bytes

/-- Lines that are typed are what the dialogue returns, and what it prints depends on their number only. If one of them,
or the one that says that this is all, is not UTF-8, then the dialogue breaks off at the first such line. -/
theorem hold_recovers (e : String × LineEnd) (ps : List (String × LineEnd)) (text : ∀ l ∈ e :: ps, IsLine l.1)
    (more : ∀ p ∈ ps, isDone p.1 = false) :
    (∀ tail, EndsEntry tail →
      hold (typed (e :: ps) ++ tail) =
        (.entered e.1 (ps.map Prod.fst), prompts (ps.length + 1) ++ closing)) ∧
    (∀ k ≤ (e :: ps).length, ∀ garbage rest, lineFeed ∉ garbage → (∀ s, encodeUtf8 s ≠ garbage) → EndsLine rest →
      hold (typed ((e :: ps).take k) ++ (garbage ++ rest)) = (.garbled, prompts k)) := by
  constructor
  · intro tail ends
    rw [hold_typed text more, List.length_cons]
    exact ends.resume_eq
  · intro k hk garbage rest noFeed invalid ends
    have textBefore : ∀ l ∈ (e :: ps).take k, IsLine l.1 := fun l hl => text l (List.mem_of_mem_take hl)
    have moreBefore : ∀ p ∈ ((e :: ps).take k).tail, isDone p.1 = false := by
      intro p hp
      cases k with
      | zero => simp at hp
      | succ k => exact more p (List.mem_of_mem_take hp)
    rw [hold_typed textBefore moreBefore, List.length_take_of_le hk]
    exact resume_garbage noFeed invalid ends

theorem hold_recovers_padded :
    hold (typed [("P & Q", .returnLineFeed), ("  ", .lineFeed), (" ~P ", .returnLineFeed)] ++
        (encodeUtf8 "\tDonE " ++ [10, 255])) =
      (.entered "P & Q" ["  ", " ~P "], prompts 3 ++ closing) ∧
    hold (typed [("P & Q", .returnLineFeed), ("  ", .lineFeed)] ++ ([255] ++ [13, 10])) = (.garbled, prompts 2) := by
  have entered := hold_recovers ("P & Q", .returnLineFeed) [("  ", .lineFeed), (" ~P ", .returnLineFeed)] (by decide)
    (by decide)
  have invalid : ∀ s, encodeUtf8 s ≠ [255] := decodeUtf8_eq_none_iff.1 (by decide +kernel)
  constructor
  · exact entered.1 _ (.inr ⟨"\tDonE ", [10, 255], by decide, by decide, .inr ⟨.lineFeed, [255], rfl⟩, rfl⟩)
  · exact entered.2 2 (by decide) [255] [13, 10] (by decide) invalid (.inr ⟨.returnLineFeed, [], rfl⟩)

end FourValued.Dialogue
