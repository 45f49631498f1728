/-!
# Lines of bytes

An input is cut into lines at its line feeds. A carriage return right before a line feed belongs to the line
end, and an input that ends without a line feed ends with a line that keeps all its bytes, unless it is
empty.
-/

namespace FourValued.Text

def lineFeed : UInt8 := 10

def carriageReturn : UInt8 := 13

/-- The bytes of a terminated line, last byte first, without the carriage return of its end. -/
def dropReturn : List UInt8 → List UInt8
  | [] => []
  | b :: bs => if b = carriageReturn then bs else b :: bs

def linesFrom (line : List UInt8) : List UInt8 → List (List UInt8)
  | [] => if line = [] then [] else [line.reverse]
  | b :: bs =>
    if b = lineFeed then (dropReturn line).reverse :: linesFrom [] bs else linesFrom (b :: line) bs

def lines (bs : List UInt8) : List (List UInt8) := linesFrom [] bs

def decodeUtf8 (bs : List UInt8) : Option String := String.fromUTF8? ⟨bs.toArray⟩

theorem linesFrom_append {l : List UInt8} (h : lineFeed ∉ l) (line bs : List UInt8) :
    linesFrom line (l ++ bs) = linesFrom (l.reverse ++ line) bs := by
  induction l generalizing line with
  | nil => rfl
  | cons b l ih =>
    have hb : b ≠ lineFeed := fun e => h (by simp [e])
    have hl : lineFeed ∉ l := fun e => h (by simp [e])
    simp [linesFrom, hb, ih hl]

theorem lines_append {l : List UInt8} (h : lineFeed ∉ l) (bs : List UInt8) :
    lines (l ++ lineFeed :: bs) = (dropReturn l.reverse).reverse :: lines bs := by
  simp [lines, linesFrom_append h, linesFrom]

end FourValued.Text
