import DocQuery.Proofs.Canonical
/-!
# DocQuery.Proofs.Rows

Canonical text of terms joined by operators. The tree of a row of phrases stands for the tree of
the nodes that its leaves stand for (`OpTree.nodes`), and the row for what that tree is built to
(`Phrase.node_ofTree`).

The tree of a canonical row is that of the row as it was read, with a call in the place of every
left side that a quantified operator has made a sequence of (`exists_tree`). Nothing else changes
the row, except that bounds which have been made a sequence are no longer behind the operator
that asked for them. What the row stands for then is of no interest: the operator refuses it.
-/

namespace DocQuery

namespace OpTree

open Phrase (tailNodes)

/-- The tree of the nodes that the leaves stand for. Behind an operator that asks for bounds
there have to be bounds. -/
def nodes (scope : Scope) : OpTree Phrase → Option (OpTree Node)
  | .leaf e => (e.node scope).map .leaf
  | .node op left right =>
    if op.isBetween && !right.first.isBounds then none
    else do return .node op (← left.nodes scope) (← right.nodes scope)

/-- Rows behind one another stand for the rows of nodes behind one another. -/
theorem tailNodes_append {ν : Type} (isBounds : ν → Bool) (f : ν → Scope → Option Node)
    (scope : Scope) (a b : List (Operator × ν)) :
    tailNodes isBounds f scope (a ++ b) = do
      return (← tailNodes isBounds f scope a) ++ (← tailNodes isBounds f scope b) := by
  induction a with
  | nil => cases h : tailNodes isBounds f scope b <;> simp [tailNodes, h]
  | cons entry rest ih =>
      simp only [List.cons_append, tailNodes, ih]
      split
      · rfl
      · cases f entry.2 scope <;> cases tailNodes isBounds f scope rest <;>
          cases tailNodes isBounds f scope b <;> rfl

theorem nodes_node_eq_some {op : Operator} {left right : OpTree Phrase} {scope : Scope}
    {u : OpTree Node} :
    nodes scope (.node op left right) = some u ↔
      (op.isBetween && !right.first.isBounds) = false ∧ ∃ l, left.nodes scope = some l ∧
        ∃ r, right.nodes scope = some r ∧ .node op l r = u := by
  rw [nodes]
  split
  · rename_i hno
    simp [hno]
  · rename_i hno
    simp only [Option.bind_eq_bind, Option.bind_eq_some_iff, Option.pure_def, Option.some.injEq,
      Bool.eq_false_iff.mpr hno, true_and]

/-- The nodes of a row are the row of the tree of nodes. -/
theorem row_nodes (t : OpTree Phrase) (scope : Scope) :
    (do return (← t.first.node scope, ← tailNodes Phrase.isBounds Phrase.node scope t.tail)) =
      (t.nodes scope).map fun u => (u.first, u.tail) := by
  induction t with
  | leaf e =>
      simp only [first, tail, tailNodes, nodes]
      cases e.node scope <;> rfl
  | node op left right ihl ihr =>
      -- The row of a tree is that of its left side, the operator and the row of its right side.
      simp only [first, tail, tailNodes_append, nodes]
      rw [tailNodes]
      split
      · cases left.first.node scope <;>
          cases tailNodes Phrase.isBounds Phrase.node scope left.tail <;> rfl
      · revert ihl ihr
        cases left.first.node scope <;>
          cases tailNodes Phrase.isBounds Phrase.node scope left.tail <;>
          cases right.first.node scope <;>
          cases tailNodes Phrase.isBounds Phrase.node scope right.tail <;>
          cases left.nodes scope <;> cases right.nodes scope <;>
          simp +contextual [first, tail, ← eq_comm]

/-- The tree of nodes has the operators of the tree of phrases, hence their order. -/
theorem nodes_ordered {t : OpTree Phrase} {scope : Scope} {u : OpTree Node}
    (h : t.nodes scope = some u) :
    (∀ k, t.Below k → u.Below k) ∧ (t.Ordered → u.Ordered) := by
  induction t generalizing u with
  | leaf e =>
      obtain ⟨n, -, rfl⟩ := Option.map_eq_some_iff.mp h
      exact ⟨fun _ => id, id⟩
  | node op left right ihl ihr =>
      obtain ⟨-, l, hl, r, hr, rfl⟩ := nodes_node_eq_some.mp h
      obtain ⟨hlBelow, hlOrdered⟩ := ihl hl
      obtain ⟨hrBelow, hrOrdered⟩ := ihr hr
      exact ⟨fun k h => ⟨h.1, hlBelow k h.2.1, hrBelow k h.2.2⟩,
        fun h => ⟨hlBelow _ h.1, hrBelow _ h.2.1, hlOrdered h.2.2.1, hrOrdered h.2.2.2⟩⟩

end OpTree

namespace Phrase

/-- The row of a tree as a phrase. -/
def ofTree : OpTree Phrase → Phrase
  | .leaf e => e
  | .node op left right =>
    mk (.joined (OpTree.node op left right).first (OpTree.node op left right).tail)

/-- The row of an ordered tree stands for what the tree of its nodes is built to. -/
theorem node_ofTree {t : OpTree Phrase} (h : t.Ordered) (scope : Scope) :
    (ofTree t).node scope = t.nodes scope >>= OpTree.build := by
  cases t with
  | leaf e =>
      simp only [ofTree, OpTree.nodes]
      cases e.node scope <;> rfl
  | node op left right =>
      rw [ofTree, node_eq, layer, Layer.node]
      have hrow := OpTree.row_nodes (.node op left right) scope
      -- The row stands for a row of nodes, and this is reduced to what its tree is built to.
      calc _ = (do
            let p ← (do
              return (← (OpTree.node op left right).first.node scope,
                ← tailNodes isBounds node scope (OpTree.node op left right).tail))
            (Precedence.reduce p.1 p.2).toOption) := by
            simp only [bind_assoc, pure_bind]
        _ = (OpTree.nodes scope (.node op left right)) >>= OpTree.build := by
            rw [hrow]
            cases hnodes : OpTree.nodes scope (.node op left right) with
            | none => rfl
            | some u => exact Precedence.reduce_eq_build ((OpTree.nodes_ordered hnodes).2 h)

/-- The marks of the row of a tree. -/
theorem marks_ofTree (t : OpTree Phrase) :
    (ofTree t).marks = t.first.marks ++ t.tail.flatMap (tailMarks marks) := by
  cases t with
  | leaf e => exact (List.append_nil _).symm
  | node op left right => exact marks_eq _

theorem isPlain_ofTree (t : OpTree Phrase) : (ofTree t).isPlain = t.first.isPlain := by
  cases t with
  | leaf e => rfl
  | node op left right => exact isPlain_eq _

/-! ### Operators -/

theorem marksWrite_comparison (op : ComparisonOp) :
    MarksWrite op.marks (BinaryOp.comparison op).separator.toList := by
  cases op with
  | like | between | isIn => exact .blank (.keyword rfl (.blank .nil))
  | _ => exact .symbol false _ .nil

/-- The text of an operator is how it stands between two terms. -/
theorem marksWrite_operator (op : Operator) : MarksWrite op.marks op.separator.toList := by
  cases op with
  | binary op =>
      cases op with
      | arithmetic op => cases op <;> exact .symbol false _ .nil
      | comparison op => exact marksWrite_comparison op
  | quantified quantifier op =>
      have hquantifier : MarksWrite [.blank, .keyword quantifier.text]
          (" " ++ quantifier.text).toList := by
        cases quantifier <;> exact .blank (.keyword rfl .nil)
      have h := hquantifier.append (marksWrite_comparison op)
      rw [← String.toList_append] at h
      exact h
  | logic op => cases op <;> exact .blank (.keyword rfl (.blank .nil))

/-! ### Rows that are written -/

/-- A pair of bounds stands for an array of two. -/
theorem exists_bounds {e : Phrase} (h : e.isBounds = true) {scope : Scope} {n : Node}
    (hn : e.node scope = some n) : ∃ lower upper, n = Node.bounds lower upper := by
  rw [node_eq] at hn
  obtain ⟨layer⟩ := e
  cases layer with
  | bounds lower upper =>
      obtain ⟨l, -, u, -, -, rfl⟩ := Layer.node_bounds_eq_some.mp hn
      exact ⟨l, u, rfl⟩
  | _ => cases h

/-- Whether bounds follow where they are asked for shows in each entry and the one behind it; a row
behind a row adds none in between. -/
theorem Bounded.append {a b : List (Operator × Phrase)} (ha : Bounded a) (hb : Bounded b) :
    Bounded (a ++ b) := by
  induction a with
  | nil => exact hb
  | cons entry rest ih =>
      obtain ⟨op, e⟩ := entry
      refine ⟨fun hbetween => (ha.1 hbetween).imp id fun hnext => ?_, ih ha.2⟩
      cases rest with
      | nil => cases hnext
      | cons next rest => exact hnext

end Phrase

namespace OpTree

open Phrase (MarksWrite Bounded tailMarks)

/-- The first leaf is a term, or a pair of bounds if it stands behind an operator that asks for
them; the same holds for all others. -/
def Fits (opens : Bool) : OpTree Phrase → Prop
  | .leaf e => e.isBounds = opens ∧ (opens = false → e.isTerm = true)
  | .node op left right => left.Fits opens ∧ right.Fits op.isBetween

/-- All leaves of a tree, in the order of its row. -/
theorem fits_iff {t : OpTree Phrase} {opens : Bool} :
    t.Fits opens ↔ (t.first.isBounds = opens ∧ (opens = false → t.first.isTerm = true)) ∧
      ∀ entry ∈ t.tail, entry.2.isBounds = entry.1.isBetween ∧
        (entry.1.isBetween = false → entry.2.isTerm = true) := by
  induction t generalizing opens with
  | leaf e => simp [Fits, first, tail]
  | node op left right ihl ihr =>
      simp only [Fits, first, tail, ihl, ihr, List.forall_mem_append, List.forall_mem_cons]
      tauto

/-- The leaves of the tree can be written in a row. -/
structure IsRow (t : OpTree Phrase) : Prop where
  first : t.first.isTerm = true ∨ t.first.isBounds = true
  tail : ∀ entry ∈ t.tail,
    entry.2.isTerm = true ∨ entry.1.isBetween = true ∧ entry.2.isBounds = true
  bounded : Bounded t.tail
  wellFormed : t.All Phrase.WellFormed

theorem IsRow.leaf {e : Phrase} (h : e.WellFormed)
    (hclass : e.isTerm = true ∨ e.isBounds = true) : (OpTree.leaf e).IsRow :=
  ⟨hclass, List.forall_mem_nil _, trivial, h⟩

/-- Two rows with an operator between them are a row. -/
theorem IsRow.node {op : Operator} {left right : OpTree Phrase} (hleft : left.IsRow)
    (hright : right.IsRow) (hbounds : right.first.isBounds = true → op.isBetween = true)
    (hbetween : op.isBetween = true → right.first.isBounds = true ∨
      right.tail.head?.any (fun next => Precedence.isQuantified next.1) = true) :
    (OpTree.node op left right).IsRow where
  first := hleft.first
  tail := by
    refine List.forall_mem_append.mpr ⟨hleft.tail, List.forall_mem_cons.mpr ⟨?_, hright.tail⟩⟩
    exact hright.first.imp id fun h => ⟨hbounds h, h⟩
  bounded := hleft.bounded.append ⟨hbetween, hright.bounded⟩
  wellFormed := ⟨hleft.wellFormed, hright.wellFormed⟩

/-- The row of the tree has this text. -/
def WritesRow (t : OpTree Phrase) (source : String) : Prop :=
  MarksWrite (t.first.marks ++ t.tail.flatMap (tailMarks Phrase.marks)) source.toList

theorem WritesRow.leaf {e : Phrase} {source : String} (h : e.Writes source) :
    (OpTree.leaf e).WritesRow source := by
  have hmarks := h.marks
  rw [← List.append_nil e.marks] at hmarks
  exact hmarks

/-- The text of a row is put together at any of its operators. -/
theorem WritesRow.node {op : Operator} {left right : OpTree Phrase} {l r : String}
    (hleft : left.WritesRow l) (hright : right.WritesRow r) :
    (OpTree.node op left right).WritesRow (l ++ op.separator ++ r) := by
  have h := (hleft.append (Phrase.marksWrite_operator op)).append hright
  unfold WritesRow
  simp only [first, tail, List.flatMap_append, List.flatMap_cons, tailMarks,
    String.toList_append, List.append_assoc] at h ⊢
  exact h

/-- A row that begins with a term is written. -/
theorem IsRow.writes {t : OpTree Phrase} (h : t.IsRow) (hfirst : t.first.isBounds = false)
    {source : String} (hsource : t.WritesRow source) :
    Phrase.WritesItem (Phrase.ofTree t) source := by
  have hterm : t.first.isTerm = true := h.first.resolve_right fun hbounds => by
    rw [hfirst] at hbounds
    cases hbounds
  have hmarks : MarksWrite (Phrase.ofTree t).marks source.toList := by
    rw [Phrase.marks_ofTree]
    exact hsource
  cases t with
  | leaf e => exact ⟨⟨h.wellFormed, hmarks⟩, hfirst⟩
  | node op left right =>
      have hne : (OpTree.node op left right).tail ≠ [] := by simp [OpTree.tail]
      obtain ⟨hleaf, hleaves⟩ := all_iff.mp h.wellFormed
      refine ⟨⟨.mk ⟨hterm, hne, h.tail, h.bounded⟩ ?_, hmarks⟩, rfl⟩
      exact List.forall_mem_cons.mpr ⟨hleaf, hleaves⟩

/-- Bounds at the beginning of a row are written like their terms joined by `AND`. -/
theorem IsRow.exists_item {t : OpTree Phrase} (h : t.IsRow) (hfirst : t.first.isBounds = true)
    {source : String} (hsource : t.WritesRow source) : ∃ e, Phrase.WritesItem e source := by
  obtain ⟨lower, upper, hbounds⟩ : ∃ lower upper, t.first = .mk (.bounds lower upper) := by
    cases hlayer : t.first with
    | mk layer =>
        rw [hlayer] at hfirst
        cases layer with
        | bounds lower upper => exact ⟨lower, upper, rfl⟩
        | _ => cases hfirst
  obtain ⟨hleaf, hleaves⟩ := all_iff.mp h.wellFormed
  rw [hbounds] at hleaf
  -- `AND` between bounds becomes an operator between terms, and the rest of the row stays.
  refine ⟨.mk (.joined lower ((.logic .and, upper) :: t.tail)),
    ⟨.mk ⟨hleaf.layer.1, by rintro ⟨⟩, ?_, ?_⟩ ?_, ?_⟩, rfl⟩
  · exact List.forall_mem_cons.mpr ⟨.inl hleaf.layer.2, h.tail⟩
  · exact ⟨by rintro ⟨⟩, h.bounded⟩
  · exact List.forall_mem_cons.mpr ⟨hleaf.part (List.mem_cons_self ..),
      List.forall_mem_cons.mpr
        ⟨hleaf.part (List.mem_cons_of_mem _ (List.mem_singleton_self _)), hleaves⟩⟩
  · have hmarks := hsource
    rw [WritesRow, hbounds, Phrase.marks_eq (.mk (.bounds lower upper))] at hmarks
    rw [Phrase.marks_eq]
    simpa [Phrase.layer, Phrase.Layer.marks, tailMarks, Operator.marks, LogicOp.text] using hmarks

end OpTree

/-! ### Quantified operators -/

namespace Precedence

/-- Up to the operators on truth values, what binds looser than a quantified operator is
quantified. -/
theorem isQuantified_of_level_le {op op' : Operator} (hle : op.level ≤ op'.level)
    (hop' : op'.level < (Operator.logic .and).level) (h : isQuantified op = true) :
    isQuantified op' = true := by
  -- `ANY LIKE` binds tightest of all quantified operators.
  have hlow : (Operator.quantified .any .like).level ≤ op.level := by
    cases op with
    | quantified quantifier op => cases quantifier <;> cases op <;> decide
    | _ => cases h
  have hlevel := Nat.le_trans hlow hle
  cases op' with
  | quantified quantifier op => rfl
  | binary op =>
      refine absurd hlevel ?_
      rcases op with op | op <;> cases op <;> decide
  | logic op =>
      refine absurd hop' ?_
      cases op <;> decide

end Precedence

namespace Node

@[simp] theorem isScalar_operation (op : Operator) (left right : Node) :
    (operation op left right).isScalar = true := by
  cases op <;> rfl

@[simp] theorem isQuantified_operation (op : Operator) (left right : Node) :
    (operation op left right).isQuantified = Precedence.isQuantified op := by
  cases op <;> rfl

@[simp] theorem isOpenPath_operation (op : Operator) (left right : Node) :
    (operation op left right).isOpenPath = false := by
  cases op <;> rfl

@[simp] theorem source_operation (op : Operator) (left right : Node) :
    (operation op left right).source = left.source ++ op.separator ++ right.source := by
  cases op <;> rfl

theorem rereadSequence_operation (op : Operator) (left right : Node) :
    (operation op left right).rereadSequence = operation op left right := by
  cases op <;> rfl

end Node

namespace OpTree

open Phrase (Renders Restates RestatesItem RestatesAs Extends ofTree)
open Node (Kept)

variable {named exact : Prop} {scope : Scope} {opens : Bool}

/-- The tree `t` restates what the tree `read` has been built to. If the row begins with bounds
that have been made a sequence, it only has the right text. -/
structure RestatesTree (named exact : Prop) (scope : Scope) (opens : Bool) (read : OpTree Phrase)
    (n : Node) (t : OpTree Phrase) : Prop where
  below : ∀ k, read.Below k → t.Below k
  ordered : t.Ordered
  isRow : t.IsRow
  writes : t.WritesRow n.source
  first : t.first.isBounds = (opens && !n.isQuantified)
  next : opens = true → n.isQuantified = true →
    t.tail.head?.any (fun next => Precedence.isQuantified next.1) = true
  again : (opens && n.isQuantified) = false → ∀ scope',
    Again n.keepsBounds (Kept named (scope' = scope) exact n.reread) (t.nodes scope' >>= build)
  extend : opens = false → Extends n (ofTree t)
  isTerm : opens = false → n.isScalar = false → (ofTree t).isTerm = true
  closed : opens = true → n.isScalar = true ∧ n.isOpenPath = false
  isPlain : read.first.isPlain = true → t.first.isPlain = true
  isParameter : (ofTree t).isParameter = (ofTree read).isParameter

/-- The row of the tree as a phrase, where it does not begin with bounds. -/
theorem RestatesTree.item {read t : OpTree Phrase} {n : Node}
    (h : RestatesTree named exact scope false read n t) :
    RestatesItem named exact scope n (ofTree t) := by
  have hwrites := h.isRow.writes h.first h.writes
  refine ⟨⟨hwrites.1, fun scope' => ?_⟩, hwrites.2⟩
  rw [Phrase.node_ofTree h.ordered]
  exact h.again rfl scope'

/-- Bounds, and what is built from a tree that begins with them, are no quantified comparison
unless the tree has a quantified operator. -/
theorem isQuantified_build {read : OpTree Phrase} {u : OpTree Node} {n : Node} {op : Operator}
    (hu : read.nodes scope = some u) (hn : u.build = some n) (hfits : read.Fits true)
    (hbelow : read.Below (op.level + 1)) (hop : op.level < (Operator.logic .and).level)
    (hquantified : Precedence.isQuantified op = false) : n.isQuantified = false := by
  -- Bounds are a node of their own; otherwise the outermost operator of the tree decides.
  cases read with
  | leaf e =>
      obtain ⟨m, hm, rfl⟩ := Option.map_eq_some_iff.mp hu
      cases hn
      obtain ⟨lower, upper, rfl⟩ := Phrase.exists_bounds hfits.1 hm
      rfl
  | node op' left right =>
      obtain ⟨-, l, -, r, -, rfl⟩ := nodes_node_eq_some.mp hu
      obtain ⟨l, -, r, -, hcombine⟩ := build_node_eq_some.mp hn
      obtain ⟨-, -, rfl⟩ := Precedence.combine_eq_ok.mp hcombine
      rw [Node.isQuantified_operation]
      refine Bool.eq_false_iff.mpr fun h => ?_
      rw [Precedence.isQuantified_of_level_le (Nat.le_of_lt_succ hbelow.1) hop h] at hquantified
      cases hquantified

/-- A leaf is built to what its phrase stands for. -/
theorem build_leaf (e : Phrase) (scope : Scope) :
    nodes scope (.leaf e) >>= build = e.node scope := by
  rw [nodes]
  cases e.node scope <;> rfl

/-- A tree is built from what its sides are built to, if there are bounds where the operator asks
for them. -/
theorem build_nodes (op : Operator) (left right : OpTree Phrase) (scope : Scope) :
    nodes scope (.node op left right) >>= build =
      if op.isBetween && !right.first.isBounds then none
      else (do join op (← left.nodes scope >>= build) (← right.nodes scope >>= build)) := by
  rw [nodes]
  split
  · rfl
  · cases left.nodes scope with
    | none => rfl
    | some l =>
        cases right.nodes scope with
        | none =>
            simp only [Option.bind_eq_bind, Option.bind_some, Option.bind_none]
            cases l.build <;> rfl
        | some r => rfl

/-- What two phrases stand for is joined as the nodes have been. -/
theorem again_join {op : Operator} {keepsLeft keepsRight : Bool} {same : Prop} {l r : Node}
    {x y : Option Node} (hl : l.isScalar = !Precedence.isQuantified op) (hr : r.isScalar = true)
    (hx : Again keepsLeft (Kept named same exact l) x)
    (hy : Again keepsRight (Kept named same exact r) y) :
    Again (keepsLeft && keepsRight) (Kept named same exact (Node.operation op l r))
      (do join op (← x) (← y)) := by
  refine hx.bind fun a ha => ?_
  rw [← Bool.and_true keepsRight]
  refine hy.bind fun b hb => ?_
  have hscalar : a.isScalar = !Precedence.isQuantified op := ha.isScalar.trans hl
  -- Both sides are taken as they are: the left one is a sequence already where it has to be.
  have htaken : Precedence.takenLeft op a = a := by
    cases op with
    | quantified quantifier op =>
        rw [Precedence.takenLeft, Node.asSequence, hscalar, if_neg (by rintro ⟨⟩)]
    | _ => rfl
  have hjoin : join op a b = some (Node.operation op a b) := by
    refine Precedence.toOption_eq_some.mpr (Precedence.combine_eq_ok.mpr ⟨fun h => ?_, ?_, ?_⟩)
    · rw [hscalar, h]
      rfl
    · exact hb.isScalar.trans hr
    · rw [htaken]
  rw [hjoin]
  exact .some (.operation op ha hb)

/-- A call that makes a sequence of the left side of a quantified operator, where that side begins
with bounds. -/
theorem RestatesTree.exists_items {read t : OpTree Phrase} {n : Node}
    (h : RestatesTree named exact scope true read n t) :
    ∃ e : Phrase, e.Writes n.asSequence.source ∧ e.isTerm = true ∧ e.isPlain = true := by
  obtain ⟨hscalar, hclosed⟩ := h.closed rfl
  -- With bounds in front the row is written as terms joined by `AND`.
  obtain ⟨e, he⟩ : ∃ e, Phrase.WritesItem e n.source := by
    cases hfirst : t.first.isBounds with
    | true => exact h.isRow.exists_item hfirst h.writes
    | false => exact ⟨_, h.isRow.writes hfirst h.writes⟩
  obtain ⟨-, hword, hconstant, hsequence, -⟩ := (Callable.builtin .items).isNamed
  have hwrites := Phrase.writes_call hword hconstant hsequence 0 (.cons he .nil)
  rw [Node.asSequence, hscalar, if_pos rfl, Node.spread_of_not_isOpenPath hclosed]
  refine ⟨.mk (.call (Callable.builtin .items).signature.name 0 [e]), ?_, rfl, rfl⟩
  have hsource : n.itemsCall.source =
      (Callable.builtin .items).signature.name ++ "(" ++ ",".intercalate [n.source] ++ ")" := by
    rw [← String.toList_inj]
    simp [Node.itemsCall, Node.compose, Node.source, Node.info, Callable.signature,
      Builtin.signature]
  rw [hsource]
  exact hwrites

/-- A term for what a quantified operator makes of its left side. -/
theorem RestatesTree.exists_sequence {read t : OpTree Phrase} {n : Node}
    (h : RestatesTree named exact scope opens read n t) :
    ∃ e : Phrase, e.Writes n.asSequence.source ∧ e.isTerm = true ∧
      (read.first.isPlain = true → e.isPlain = true) ∧
      (opens = false → ∀ scope', Again n.asSequence.keepsBounds
        (Kept named (scope' = scope) exact n.asSequence.reread.rereadSequence)
        (e.node scope')) := by
  cases opens with
  | true =>
      obtain ⟨e, hwrites, hterm, hplain⟩ := h.exists_items
      exact ⟨e, hwrites, hterm, fun _ => hplain, by rintro ⟨⟩⟩
  | false =>
      obtain ⟨e, hrestates, hterm, hplain⟩ :=
        Phrase.exists_asSequence h.item (h.extend rfl) (h.isTerm rfl)
      refine ⟨e, hrestates.writes, hterm, fun hfirst => hplain ?_, fun _ => hrestates.again⟩
      rw [Phrase.isPlain_ofTree]
      exact h.isPlain hfirst

/-- The phrase for a leaf is a tree for it. -/
theorem RestatesTree.leaf {e e' : Phrase} {n : Node}
    (hfits : e.isBounds = opens ∧ (opens = false → e.isTerm = true)) (hn : e.node scope = some n)
    (h : Renders named exact scope e n e') :
    RestatesTree named exact scope opens (.leaf e) n (.leaf e') := by
  have hbounds (hopens : opens = true) : ∃ lower upper, n = Node.bounds lower upper :=
    Phrase.exists_bounds (hfits.1.trans hopens) hn
  -- Bounds are no comparison, so what is said of quantified ones does not arise.
  have hquantified (hopens : opens = true) : n.isQuantified = false := by
    obtain ⟨lower, upper, rfl⟩ := hbounds hopens
    rfl
  have hfirst : e'.isBounds = opens := h.isBounds.trans hfits.1
  exact {
    below := fun _ _ => trivial
    ordered := trivial
    isRow := by
      refine .leaf h.restates.writes.wellFormed ?_
      cases opens with
      | true => exact .inr hfirst
      | false => exact .inl (h.isTerm (hfits.2 rfl))
    writes := .leaf h.restates.writes
    first := by
      refine hfirst.trans ?_
      cases opens with
      | true => rw [hquantified rfl]; rfl
      | false => rfl
    next := by
      intro hopens hn
      rw [hquantified hopens] at hn
      cases hn
    again := by
      intro _ scope'
      rw [build_leaf]
      exact h.restates.again scope'
    extend := fun _ => h.extend
    isTerm := fun hopens _ => h.isTerm (hfits.2 hopens)
    closed := by
      intro hopens
      obtain ⟨lower, upper, rfl⟩ := hbounds hopens
      exact ⟨rfl, rfl⟩
    isPlain := h.isPlain
    isParameter := h.isParameter }

/-- `BETWEEN` binds tighter than the operators on truth values. -/
theorem level_lt_of_isBetween {op : Operator} (h : op.isBetween = true) :
    op.level < (Operator.logic .and).level := by
  cases op with
  | binary op =>
      cases op with
      | arithmetic op => cases h
      | comparison op => cases op <;> decide
  | quantified quantifier op => cases quantifier <;> cases op <;> decide
  | logic op => cases h

section

variable {op : Operator} {left right : OpTree Phrase} {l r : Node}

/-- Where the right side stands behind an operator that asks for bounds but no longer begins with
them, a quantified comparison has taken them, so the operator is quantified itself. -/
theorem RestatesTree.isQuantified_op (hread : (OpTree.node op left right).Ordered)
    (hfits : right.Fits op.isBetween) {v : OpTree Node} (hnodes : right.nodes scope = some v)
    (hbuild : v.build = some r) {tr : OpTree Phrase}
    (hr : RestatesTree named exact scope op.isBetween right r tr)
    (hbetween : op.isBetween = true) (hno : tr.first.isBounds = false) :
    r.isQuantified = true ∧ Precedence.isQuantified op = true := by
  have hquantified : r.isQuantified = true := by
    have hno := hr.first.symm.trans hno
    rw [hbetween] at hno
    simpa using hno
  refine ⟨hquantified, ?_⟩
  -- Behind an operator that is not quantified nothing quantified could have taken the bounds.
  by_contra hop
  rw [hbetween] at hfits
  rw [isQuantified_build hnodes hbuild hfits (hread.2.1.mono (Nat.le_succ _))
    (level_lt_of_isBetween hbetween) (Bool.eq_false_iff.mpr hop)] at hquantified
  cases hquantified

/-- What the two sides stand for is joined as the nodes have been. -/
theorem RestatesTree.again_node (hread : (OpTree.node op left right).Ordered)
    (hfits : right.Fits op.isBetween) {v : OpTree Node} (hnodes : right.nodes scope = some v)
    (hbuild : v.build = some r)
    (hlscalar : (Precedence.takenLeft op l).isScalar = !Precedence.isQuantified op)
    (hrscalar : r.isScalar = true) {tl tr : OpTree Phrase}
    (hr : RestatesTree named exact scope op.isBetween right r tr) (scope' : Scope)
    (hagain : Again (Precedence.takenLeft op l).keepsBounds
      (Kept named (scope' = scope) exact
        (Node.rereadLeft op (Precedence.takenLeft op l).reread)) (tl.nodes scope' >>= build)) :
    Again (Node.operation op (Precedence.takenLeft op l) r).keepsBounds
      (Kept named (scope' = scope) exact
        (Node.operation op (Precedence.takenLeft op l) r).reread)
      ((OpTree.node op tl tr).nodes scope' >>= build) := by
  rw [build_nodes, Node.keepsBounds_operation, Node.reread_operation]
  -- If bounds are missing, the text fails to be read, and the node is one that does not keep its
  -- bounds; so nothing is claimed of it.
  cases hbounds : op.isBetween && !tr.first.isBounds with
  | true =>
      obtain ⟨hbetween, hno⟩ := Bool.and_eq_true_iff.mp hbounds
      obtain ⟨hquantified, hop⟩ :=
        hr.isQuantified_op hread hfits hnodes hbuild hbetween (Bool.not_eq_true' _ ▸ hno)
      rw [if_pos rfl, hop, hbetween, hquantified]
      rfl
  | false =>
      have hkept : (op.isBetween && r.isQuantified) = false := by
        rw [hr.first] at hbounds
        revert hbounds
        cases op.isBetween <;> cases r.isQuantified <;> simp
      rw [if_neg Bool.false_ne_true, Bool.and_assoc, hkept, Bool.and_false, Bool.not_false,
        Bool.true_and]
      refine again_join ?_ (r.isScalar_reread.trans hrscalar) hagain (hr.again hkept scope')
      rw [← hlscalar]
      cases op with
      | quantified quantifier op =>
          exact (congrArg NodeInfo.isScalar (Node.info_rereadSequence _)).trans
            (Node.isScalar_reread _)
      | _ => exact Node.isScalar_reread _

/-- An operator between a tree for its left side, as the operator takes it, and one for its right
side. -/
theorem RestatesTree.node (hread : (OpTree.node op left right).Ordered)
    (hfits : right.Fits op.isBetween) {v : OpTree Node} (hnodes : right.nodes scope = some v)
    (hbuild : v.build = some r)
    (hlscalar : (Precedence.takenLeft op l).isScalar = !Precedence.isQuantified op)
    (hrscalar : r.isScalar = true) {tl tr : OpTree Phrase}
    (hr : RestatesTree named exact scope op.isBetween right r tr)
    (hbelow : ∀ k, left.Below k → tl.Below k) (hordered : tl.Ordered) (hrow : tl.IsRow)
    (hwrites : tl.WritesRow (Precedence.takenLeft op l).source)
    (hfirst : tl.first.isBounds = (opens && !Precedence.isQuantified op))
    (hleaf : Precedence.isQuantified op = true → tl.tail = [])
    (hagain : (opens && Precedence.isQuantified op) = false → ∀ scope',
      Again (Precedence.takenLeft op l).keepsBounds
        (Kept named (scope' = scope) exact
          (Node.rereadLeft op (Precedence.takenLeft op l).reread)) (tl.nodes scope' >>= build))
    (hplain : left.first.isPlain = true → tl.first.isPlain = true) :
    RestatesTree named exact scope opens (.node op left right)
      (Node.operation op (Precedence.takenLeft op l) r) (.node op tl tr) where
  below k h := ⟨h.1, hbelow k h.2.1, hr.below k h.2.2⟩
  ordered := ⟨hbelow _ hread.1, hr.below _ hread.2.1, hordered, hr.ordered⟩
  isRow := by
    refine hrow.node hr.isRow (fun h => ?_) fun h => ?_
    · rw [hr.first, Bool.and_eq_true] at h
      exact h.1
    · cases hquantified : r.isQuantified with
      | true => exact .inr (hr.next h hquantified)
      | false =>
          refine .inl ?_
          rw [hr.first, h, hquantified]
          rfl
  writes := by
    rw [Node.source_operation]
    exact hwrites.node hr.writes
  first := by
    rw [Node.isQuantified_operation]
    exact hfirst
  next := by
    intro _ hquantified
    rw [Node.isQuantified_operation] at hquantified
    rw [tail, hleaf hquantified]
    exact hquantified
  again := by
    intro hopens scope'
    rw [Node.isQuantified_operation] at hopens
    exact hr.again_node hread hfits hnodes hbuild hlscalar hrscalar scope' (hagain hopens scope')
  extend := by
    intro _
    refine ⟨fun hopen => ?_, ?_⟩
    · rw [Node.isOpenPath_operation] at hopen
      cases hopen
    · rw [Node.reread_operation, Node.rereadSequence_operation]
  isTerm := by
    intro _ hscalar
    rw [Node.isScalar_operation] at hscalar
    cases hscalar
  closed _ := ⟨Node.isScalar_operation .., Node.isOpenPath_operation ..⟩
  isPlain := hplain
  isParameter := rfl

end

/-- What a row of phrases is reduced to is restated by a row, if every phrase is by itself. -/
theorem exists_tree {read : OpTree Phrase} (hordered : read.Ordered) (hfits : read.Fits opens)
    (hbelow : opens = true → read.Below (Operator.logic .and).level)
    (hleaves : read.All fun e => ∀ n, e.node scope = some n →
      ∃ e', Renders named exact scope e n e')
    {u : OpTree Node} (hu : read.nodes scope = some u) {n : Node} (hn : u.build = some n) :
    ∃ t, RestatesTree named exact scope opens read n t := by
  induction read generalizing opens u n with
  | leaf e =>
      obtain ⟨m, hm, rfl⟩ := Option.map_eq_some_iff.mp hu
      cases hn
      obtain ⟨e', h⟩ := hleaves n hm
      exact ⟨.leaf e', .leaf hfits hm h⟩
  | node op left right ihl ihr =>
      obtain ⟨-, v, hv, w, hw, rfl⟩ := nodes_node_eq_some.mp hu
      obtain ⟨l, hl, r, hr, hcombine⟩ := build_node_eq_some.mp hn
      obtain ⟨hlscalar, hrscalar, rfl⟩ := Precedence.combine_eq_ok.mp hcombine
      obtain ⟨tr, htr⟩ := ihr hordered.2.2.2 hfits.2
        (fun h => hordered.2.1.mono (Nat.le_of_lt (level_lt_of_isBetween h))) hleaves.2 hw hr
      obtain ⟨tl, htl⟩ := ihl hordered.2.2.1 hfits.1 (fun h => (hbelow h).2.1) hleaves.1 hv hl
      -- A quantified operator has made a sequence of its left side, which is then written as one
      -- call: the tree on the left is cut down to a leaf.
      cases hop : Precedence.isQuantified op with
      | false =>
          have htaken : Precedence.takenLeft op l = l := by cases op <;> first | rfl | cases hop
          have hreread : Node.rereadLeft op l.reread = l.reread := by
            cases op <;> first | rfl | cases hop
          -- Bounds at the beginning are still bounds: what binds tighter than this operator and
          -- is quantified would make this one quantified as well.
          have hquantified (hopens : opens = true) : l.isQuantified = false :=
            isQuantified_build hv hl (hopens ▸ hfits.1) hordered.1 (hbelow hopens).1 hop
          refine ⟨.node op tl tr, .node hordered hfits.2 hw hr ?_ hrscalar htr htl.below htl.ordered
            htl.isRow ?_ ?_ ?_ ?_ htl.isPlain⟩
          · rw [htaken, hop, hlscalar hop]
            rfl
          · rw [htaken]
            exact htl.writes
          · rw [htl.first, hop]
            cases opens with
            | true => rw [hquantified rfl]
            | false => rfl
          · rw [hop]
            rintro ⟨⟩
          · rw [htaken, hreread]
            refine fun _ => htl.again ?_
            cases opens with
            | true => rw [hquantified rfl]; rfl
            | false => rfl
      | true =>
          have htaken : Precedence.takenLeft op l = l.asSequence := by
            cases op <;> first | rfl | cases hop
          have hreread (m : Node) : Node.rereadLeft op m = m.rereadSequence := by
            cases op <;> first | rfl | cases hop
          obtain ⟨e, hwrites, hterm, hplain, hagain⟩ := htl.exists_sequence
          have hclass : e.isBounds = false := Phrase.isBounds_of_isTerm hterm
          refine ⟨.node op (.leaf e) tr, .node hordered hfits.2 hw hr ?_ hrscalar htr
            (fun _ _ => trivial) trivial (.leaf hwrites.wellFormed (.inl hterm)) ?_ ?_
            (fun _ => rfl) ?_ hplain⟩
          · rw [htaken, hop, Node.isScalar_asSequence]
            rfl
          · rw [htaken]
            exact .leaf hwrites
          · rw [hop, Bool.not_true, Bool.and_false]
            exact hclass
          · rw [hop, Bool.and_true, htaken, hreread]
            intro hopens scope'
            rw [build_leaf]
            exact hagain hopens scope'

end OpTree

namespace Phrase

/-- Behind an operator that asks for bounds there are bounds, if the row stands for anything. -/
theorem isBounds_of_tailNodes {scope : Scope} {row : List (Operator × Phrase)}
    {tail : Precedence.Tail} (h : tailNodes isBounds node scope row = some tail) :
    ∀ entry ∈ row, entry.1.isBetween = true → entry.2.isBounds = true := by
  induction row generalizing tail with
  | nil => rintro _ ⟨⟩
  | cons entry rest ih =>
      obtain ⟨hbounds, _, -, tail, htail, -⟩ := tailNodes_cons_eq_some.mp h
      exact List.forall_mem_cons.mpr ⟨hbounds, ih htail⟩

/-- What terms joined by operators stand for is restated by such terms. -/
theorem exists_joined {named exact : Prop} {scope : Scope} {first : Phrase}
    {row : List (Operator × Phrase)} {n : Node} (hwf : (mk (.joined first row)).WellFormed)
    (hn : (mk (.joined first row)).node scope = some n)
    (h : ∀ e ∈ (mk (.joined first row)).children, ∀ n, e.node scope = some n →
      ∃ e', Renders named exact scope e n e') :
    ∃ e', Renders named exact scope (mk (.joined first row)) n e' := by
  obtain ⟨hfirst, hne, hrow, -⟩ := hwf.layer
  have hordered := OpTree.ordered_ofRow first row
  -- With an operator in it the row is the phrase of its own tree.
  have hofTree : ofTree (.ofRow first row) = mk (.joined first row) := by
    have hfirst := OpTree.first_ofRow first row
    have htail := OpTree.tail_ofRow first row
    cases htree : OpTree.ofRow first row with
    | leaf e =>
        rw [htree] at htail
        exact absurd htail.symm hne
    | node op left right =>
        rw [htree] at hfirst htail
        rw [ofTree, hfirst, htail]
  rw [← hofTree, node_ofTree hordered] at hn
  simp only [Option.bind_eq_bind, Option.bind_eq_some_iff] at hn
  obtain ⟨u, hu, hbuild⟩ := hn
  -- Bounds stand behind the operators that ask for them and nowhere else, or nothing would be read.
  have hfits : (OpTree.ofRow first row).Fits false := by
    have hnodes := OpTree.row_nodes (.ofRow first row) scope
    rw [hu, OpTree.first_ofRow, OpTree.tail_ofRow] at hnodes
    simp only [Option.bind_eq_bind, Option.map_some, Option.bind_eq_some_iff] at hnodes
    obtain ⟨_, -, tail, htail, -⟩ := hnodes
    rw [OpTree.fits_iff, OpTree.first_ofRow, OpTree.tail_ofRow]
    refine ⟨⟨isBounds_of_isTerm hfirst, fun _ => hfirst⟩, fun entry hentry => ?_⟩
    rcases hrow entry hentry with hterm | ⟨hbetween, hbounds⟩
    · have hno := isBounds_of_isTerm hterm
      refine ⟨hno.trans (Eq.symm (Bool.eq_false_iff.mpr fun hbetween => ?_)), fun _ => hterm⟩
      rw [isBounds_of_tailNodes htail entry hentry hbetween] at hno
      cases hno
    · rw [hbetween, hbounds]
      exact ⟨rfl, by rintro ⟨⟩⟩
  have hleaves : (OpTree.ofRow first row).All fun e => ∀ n, e.node scope = some n →
      ∃ e', Renders named exact scope e n e' := by
    rw [OpTree.all_iff, OpTree.first_ofRow, OpTree.tail_ofRow]
    exact List.forall_mem_cons.mp h
  obtain ⟨t, ht⟩ := OpTree.exists_tree hordered hfits (by rintro ⟨⟩) hleaves hu hbuild
  have hitem := ht.item
  refine ⟨ofTree t, hitem.1, hitem.2, by rintro ⟨⟩, fun hplain => ?_, ?_, ht.extend rfl⟩
  · rw [isPlain_ofTree]
    refine ht.isPlain ?_
    rw [OpTree.first_ofRow]
    rwa [isPlain_eq] at hplain
  · rw [ht.isParameter, hofTree]

end Phrase

end DocQuery
