import QueryStats.Text

/-! # Texts cut into lines -/

namespace QueryStats

/-- A line of a text; only the last line can lack the newline. -/
structure Line where
  content : Text
  terminated : Bool
deriving DecidableEq, Repr

namespace Line

/-- The bytes that the line takes up in the text. -/
def raw (l : Line) : Text := if l.terminated then l.content ++ [Byte.newline] else l.content

@[simp] theorem raw_terminated (t : Text) : raw ⟨t, true⟩ = t ++ [Byte.newline] := rfl
@[simp] theorem raw_unterminated (t : Text) : raw ⟨t, false⟩ = t := rfl

/-- The content without one carriage return at its end. -/
def body (l : Line) : Text :=
  if l.content.getLast? = some Byte.carriageReturn then l.content.dropLast else l.content

/-- The line with one more byte in front. -/
def push (b : UInt8) (l : Line) : Line := { l with content := b :: l.content }

@[simp] theorem content_push (b : UInt8) (l : Line) : (l.push b).content = b :: l.content := rfl
@[simp] theorem terminated_push (b : UInt8) (l : Line) :
    (l.push b).terminated = l.terminated := rfl
@[simp] theorem raw_push (b : UInt8) (l : Line) : (l.push b).raw = b :: l.raw := by
  cases l with
  | mk t e => cases e <;> rfl

end Line

namespace Text

/-- The lines after a byte is put in front of a text that has lines `ls`. -/
def consByte (b : UInt8) (ls : List Line) : List Line :=
  if b = Byte.newline then ⟨[], true⟩ :: ls
  else match ls with
    | [] => [⟨[b], false⟩]
    | l :: ls => l.push b :: ls

/-- The lines of a text.  What follows the last newline is a line only if it is not empty. -/
def lines (t : Text) : List Line := t.foldr consByte []

@[simp] theorem lines_nil : lines [] = [] := rfl
@[simp] theorem lines_cons (b : UInt8) (t : Text) : lines (b :: t) = consByte b (lines t) := rfl

/-- The bytes that a list of lines takes up. -/
def unlines (ls : List Line) : Text := ls.flatMap Line.raw

@[simp] theorem unlines_nil : unlines [] = [] := rfl
@[simp] theorem unlines_cons (l : Line) (ls : List Line) :
    unlines (l :: ls) = l.raw ++ unlines ls := rfl

/-- A byte in front of the first line is in front of the text. -/
theorem unlines_consByte (b : UInt8) (ls : List Line) :
    unlines (consByte b ls) = b :: unlines ls := by
  by_cases h : b = Byte.newline
  · simp [consByte, h]
  · cases ls with
    | nil => simp [consByte, h]
    | cons l ls => simp [consByte, h]

/-- Cutting into lines loses no byte. -/
@[simp] theorem unlines_lines (t : Text) : unlines (lines t) = t := by
  induction t with
  | nil => rfl
  | cons b t ih => rw [lines_cons, unlines_consByte, ih]

end Text

end QueryStats
