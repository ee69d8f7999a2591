import DocQuery.Node
import DocQuery.Text.Glob
/-!
# DocQuery.Pool

Expressions as lists of instructions. An instruction refers to its parts by their
places in the list, and every part stands in front of what it is a part of. A
comparison with a pattern that is written out takes one instruction: the pattern is
read once, when the list is made.
-/

namespace DocQuery

/-- The place of an instruction, counted without limit. A number of 32 bits holds the places of
every pool of at most `2 ^ 32` instructions; what is said of larger pools is said of this count. -/
abbrev OpRef := Nat

/-- What is done with the parts of an expression. -/
inductive Action (ν : Type) where
  /-- One layer of an expression. -/
  | layer (form : Form ν)
  /-- The comparison of a text, or of the texts of a sequence, with a pattern. -/
  | like (quantifier : Option Quantifier) (left : ν) (pattern : Text.Glob)

/-- What an instruction does. Its parts are other instructions. -/
abbrev Op := Action OpRef

namespace Op

/-- The instructions that an operation refers to. -/
def references : Op → List OpRef
  | .layer form => form.children
  | .like _ left _ => [left]

end Op

/-- An instruction. -/
structure Instruction where
  op : Op
  /-- It yields one value. -/
  isScalar : Bool
  /-- The canonical text of what it stands for. -/
  source : String

/-- Instructions, the latest first. The place of an instruction is the number of
those behind it in this list. -/
abbrev Pool := List Instruction

namespace Pool

/-- The instruction at a place. -/
def get? (pool : Pool) (ref : OpRef) : Option Instruction := pool.reverse[ref]?

/-- The instructions in the order of their places. -/
def inOrder (pool : Pool) : List Instruction := pool.reverse

/-- The place of the last instruction. -/
def root (pool : Pool) : OpRef := pool.length - 1

end Pool

end DocQuery
