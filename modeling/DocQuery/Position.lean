/-!
# DocQuery.Position

Places in the text of an expression. Lines and columns count from one and columns
count characters; the offset counts bytes from zero.
-/

namespace DocQuery

/-- A place in a text. -/
structure Position where
  /-- The line, counted without limit. A number of 32 bits holds it in every text of fewer than
  `2 ^ 32 - 1` line ends. -/
  line : Nat := 1
  column : Nat := 1
  /-- Bytes before the place. -/
  offset : Nat := 0
deriving DecidableEq, Repr, Inhabited

namespace Position

/-- The beginning of every text. -/
def start : Position := {}

/-- The place after one more character. -/
def advance (p : Position) (c : Char) : Position :=
  if c = '\n' then ⟨p.line + 1, 1, p.offset + c.utf8Size⟩
  else ⟨p.line, p.column + 1, p.offset + c.utf8Size⟩

/-- The place after some more characters. -/
def advanceOver (p : Position) (chars : List Char) : Position :=
  chars.foldl advance p

/-- The offset behind some more characters. -/
def offsetOver (offset : Nat) (chars : List Char) : Nat :=
  chars.foldl (fun n c => n + c.utf8Size) offset

/-- The place as many columns on as there are characters, in the same line even
where the characters hold line ends. -/
def shiftOver (p : Position) (chars : List Char) : Position :=
  ⟨p.line, p.column + chars.length, offsetOver p.offset chars⟩

@[simp] theorem advanceOver_nil (p : Position) : p.advanceOver [] = p := rfl

@[simp] theorem advanceOver_cons (p : Position) (c : Char) (chars : List Char) :
    p.advanceOver (c :: chars) = (p.advance c).advanceOver chars := rfl

theorem advanceOver_append (p : Position) (a b : List Char) :
    p.advanceOver (a ++ b) = (p.advanceOver a).advanceOver b := by
  simp [advanceOver]

/-- The offset grows by the bytes of the characters. -/
theorem offset_advanceOver (p : Position) (chars : List Char) :
    (p.advanceOver chars).offset = offsetOver p.offset chars := by
  induction chars generalizing p with
  | nil => rfl
  | cons c rest ih =>
    have hc : (p.advance c).offset = p.offset + c.utf8Size := by
      unfold advance
      split <;> rfl
    rw [advanceOver_cons, ih, hc]
    rfl

end Position

/-- A part of a text between two places. -/
structure Range where
  start : Position
  stop : Position
deriving DecidableEq, Repr, Inhabited

namespace Range

/-- The number of bytes between the two places; none if they stand the wrong way
round. -/
def length (r : Range) : Nat := r.stop.offset - r.start.offset

/-- There is nothing between the two places. -/
def isEmpty (r : Range) : Bool := r.length == 0

/-- The place lies between the two, or is one of them. -/
def contains (r : Range) (p : Position) : Bool :=
  decide (r.start.offset ≤ p.offset) && decide (p.offset ≤ r.stop.offset)

/-- The empty part at one place. -/
def point (p : Position) : Range := ⟨p, p⟩

end Range

end DocQuery
