import FourValued.ExpressionError
import FourValued.Text.Canonical

/-!
# Reading Polish notation

Blank characters are skipped and letters may have either case. The first other character that is no token
is reported, together with the whole text as it was given. Reading inverts writing (`readChars_chars`).
-/

namespace FourValued.Polish

def readChars : List Char → Except Char Polish
  | [] => .ok []
  | c :: cs =>
    match Token.ofChar? c with
    | none => .error c
    | some t => (readChars cs).map (t :: ·)

def read (s : String) : Except ExpressionError Polish :=
  match readChars (s.toList.filter fun c => !Text.isBlank c) with
  | .ok ts => .ok ts
  | .error c => .error (.malformed s (.notAToken c))

theorem readChars_chars (ts : Polish) : readChars ts.chars = .ok ts := by
  induction ts with
  | nil => rfl
  | cons t ts ih =>
    simp only [chars] at ih
    simp [chars, readChars, Token.ofChar?_char, ih, Except.map]

end FourValued.Polish
