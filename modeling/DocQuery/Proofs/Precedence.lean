import DocQuery.Parser.Precedence
import Mathlib.Data.Option.Basic
/-!
# DocQuery.Proofs.Precedence

Terms joined by operators as trees. A tree says in which order the operators are
applied; read from left to right it gives the terms and operators back (`OpTree.first`,
`OpTree.tail`). It is `Ordered` if an operator that binds tighter is never above one that
binds looser, and operators of one level are applied from left to right.

Every row of terms is that of an ordered tree (`OpTree.ofRow`), and reducing a row level
by level builds that tree (`reduce_eq_build`). The link is `OpTree.cut`: the row of those
subtrees whose operators are below a level. Reducing one more level turns the row cut at
that level into the row cut at the next.
-/

namespace DocQuery

/-- Terms joined by operators, in the order in which the operators are applied. -/
inductive OpTree (α : Type) where
  | leaf (a : α)
  | node (op : Operator) (left right : OpTree α)

namespace OpTree

variable {α β : Type}

/-! ### Rows and order

A tree says more than its row: the same row has a tree for each way to put parentheses. `Ordered`
picks one of them by two bounds for each operator, which are not the same for its sides, since
operators of one level are applied from the left. -/

/-- The first term of the row. -/
def first : OpTree α → α
  | .leaf a => a
  | .node _ left _ => left.first

/-- The operators of the row, each with the term behind it. -/
def tail : OpTree α → List (Operator × α)
  | .leaf _ => []
  | .node op left right => left.tail ++ (op, right.first) :: right.tail

/-- All operators bind tighter than this level. -/
def Below (level : Nat) : OpTree α → Prop
  | .leaf _ => True
  | .node op left right => op.level < level ∧ left.Below level ∧ right.Below level

/-- No operator is above one that binds looser, or above one of its own level on its
right. -/
def Ordered : OpTree α → Prop
  | .leaf _ => True
  | .node op left right =>
    left.Below (op.level + 1) ∧ right.Below op.level ∧ left.Ordered ∧ right.Ordered

theorem Below.mono {t : OpTree α} {k k' : Nat} (h : t.Below k) (hk : k ≤ k') : t.Below k' := by
  induction t with
  | leaf a => trivial
  | node op left right ihl ihr => exact ⟨Nat.lt_of_lt_of_le h.1 hk, ihl h.2.1, ihr h.2.2⟩

/-- The operators of a tree are all below the number of levels. -/
theorem below_levels (t : OpTree α) : t.Below Operator.levels := by
  induction t with
  | leaf a => trivial
  | node op left right ihl ihr => exact ⟨op.level_lt_levels, ihl, ihr⟩

/-- Something holds of every leaf. -/
def All (P : α → Prop) : OpTree α → Prop
  | .leaf a => P a
  | .node _ left right => left.All P ∧ right.All P

/-- What holds of the leaves holds of the row, and the other way round. -/
theorem all_iff {P : α → Prop} {t : OpTree α} :
    t.All P ↔ P t.first ∧ ∀ a ∈ t.tail.map Prod.snd, P a := by
  induction t with
  | leaf a => simp [All, first, tail]
  | node op left right ihl ihr =>
      simp only [All, first, tail, ihl, ihr, List.map_append, List.map_cons, List.mem_append,
        List.mem_cons]
      constructor
      · rintro ⟨⟨hfirst, hl⟩, hr, htail⟩
        refine ⟨hfirst, fun a ha => ?_⟩
        rcases ha with ha | rfl | ha
        · exact hl a ha
        · exact hr
        · exact htail a ha
      · rintro ⟨hfirst, h⟩
        exact ⟨⟨hfirst, fun a ha => h a (.inl ha)⟩, h _ (.inr (.inl rfl)),
          fun a ha => h a (.inr (.inr ha))⟩

/-! ### The tree of a row

The tree is made from left to right. An operator that is added goes down the right edge of the tree
as long as the operators there bind looser, and takes what is below as its left side. -/

/-- The tree with one more operator and term at the end of its row. -/
def snoc (op : Operator) (a : α) : OpTree α → OpTree α
  | .leaf b => .node op (.leaf b) (.leaf a)
  | .node o left right =>
    if o.level ≤ op.level then .node op (.node o left right) (.leaf a)
    else .node o left (right.snoc op a)

/-- The ordered tree of a row. -/
def ofRow (first : α) (tail : List (Operator × α)) : OpTree α :=
  tail.foldl (fun t (op, a) => t.snoc op a) (.leaf first)

@[simp] theorem first_snoc (t : OpTree α) (op : Operator) (a : α) :
    (t.snoc op a).first = t.first := by
  cases t with
  | leaf b => rfl
  | node o left right =>
      unfold snoc
      split <;> rfl

@[simp] theorem tail_snoc (t : OpTree α) (op : Operator) (a : α) :
    (t.snoc op a).tail = t.tail ++ [(op, a)] := by
  induction t with
  | leaf b => rfl
  | node o left right _ ihr =>
      unfold snoc
      split
      · rfl
      · simp [tail, ihr]

theorem Below.snoc {t : OpTree α} {k : Nat} (h : t.Below k) {op : Operator} (hop : op.level < k)
    (a : α) : (t.snoc op a).Below k := by
  induction t with
  | leaf b => exact ⟨hop, trivial, trivial⟩
  | node o left right _ ihr =>
      unfold OpTree.snoc
      split
      · exact ⟨hop, h, trivial⟩
      · exact ⟨h.1, h.2.1, ihr h.2.2⟩

/-- An ordered tree without an operator above `op` is all below the next level. -/
theorem Ordered.below {o : Operator} {left right : OpTree α}
    (h : (OpTree.node o left right).Ordered) {k : Nat} (hk : o.level < k) :
    (OpTree.node o left right).Below k :=
  ⟨hk, h.1.mono hk, h.2.1.mono (Nat.le_of_lt hk)⟩

theorem Ordered.snoc {t : OpTree α} (h : t.Ordered) (op : Operator) (a : α) :
    (t.snoc op a).Ordered := by
  induction t with
  | leaf b => exact ⟨trivial, trivial, trivial, trivial⟩
  | node o left right _ ihr =>
      unfold OpTree.snoc
      split
      · rename_i hle
        exact ⟨h.below (Nat.lt_succ_of_le hle), trivial, h, trivial⟩
      · rename_i hle
        exact ⟨h.1, h.2.1.snoc (Nat.lt_of_not_le hle) a, h.2.2.1, ihr h.2.2.2⟩

theorem ofRow_spec (t : OpTree α) (h : t.Ordered) (row : List (Operator × α)) :
    (row.foldl (fun t (op, a) => t.snoc op a) t).first = t.first ∧
      (row.foldl (fun t (op, a) => t.snoc op a) t).tail = t.tail ++ row ∧
      (row.foldl (fun t (op, a) => t.snoc op a) t).Ordered := by
  induction row generalizing t with
  | nil => exact ⟨rfl, (List.append_nil _).symm, h⟩
  | cons entry rest ih =>
      obtain ⟨hfirst, htail, hordered⟩ := ih (t.snoc entry.1 entry.2) (h.snoc _ _)
      refine ⟨hfirst.trans (first_snoc ..), htail.trans ?_, hordered⟩
      simp

@[simp] theorem first_ofRow (first : α) (tail : List (Operator × α)) :
    (ofRow first tail).first = first :=
  (ofRow_spec (.leaf first) trivial tail).1

@[simp] theorem tail_ofRow (first : α) (tail : List (Operator × α)) :
    (ofRow first tail).tail = tail :=
  (ofRow_spec (.leaf first) trivial tail).2.1

theorem ordered_ofRow (first : α) (tail : List (Operator × α)) : (ofRow first tail).Ordered :=
  (ofRow_spec (.leaf first) trivial tail).2.2

/-! ### Cutting a tree at a level

A tree that is cut at a level is a row of subtrees: the operators from this level on are left
between them, and the ones below it are inside. Cut at level zero it is its own row, and cut above
all levels it is in one piece. -/

/-- The row of the largest subtrees whose operators are all below the level. -/
def cut (k : Nat) : OpTree α → OpTree α × List (Operator × OpTree α)
  | .leaf a => (.leaf a, [])
  | .node op left right =>
    if op.level < k then (.node op left right, [])
    else ((left.cut k).1, (left.cut k).2 ++ (op, (right.cut k).1) :: (right.cut k).2)

/-- A tree below the level is not cut. -/
theorem cut_of_below {t : OpTree α} {k : Nat} (h : t.Below k) : t.cut k = (t, []) := by
  cases t with
  | leaf a => rfl
  | node op left right => exact if_pos h.1

/-- Cut at the lowest level, a tree falls apart into its leaves. -/
theorem cut_zero (t : OpTree α) :
    t.cut 0 = (.leaf t.first, t.tail.map fun (op, a) => (op, .leaf a)) := by
  induction t with
  | leaf a => rfl
  | node op left right ihl ihr => simp [cut, ihl, ihr, first, tail]

/-- Where a tree is cut, the operators are not below the level. -/
theorem le_level_of_mem_cut {t : OpTree α} {k : Nat} {entry : Operator × OpTree α}
    (h : entry ∈ (t.cut k).2) : k ≤ entry.1.level := by
  induction t with
  | leaf a => simp [cut] at h
  | node op left right ihl ihr =>
      unfold cut at h
      split at h
      · simp at h
      · rename_i hop
        simp only [List.mem_append, List.mem_cons] at h
        rcases h with h | rfl | h
        · exact ihl h
        · exact Nat.le_of_not_lt hop
        · exact ihr h

theorem level_lt_of_mem_cut {t : OpTree α} {k k' : Nat} (ht : t.Below k')
    {entry : Operator × OpTree α} (h : entry ∈ (t.cut k).2) : entry.1.level < k' := by
  induction t with
  | leaf a => simp [cut] at h
  | node op left right ihl ihr =>
      unfold cut at h
      split at h
      · simp at h
      · simp only [List.mem_append, List.mem_cons] at h
        rcases h with h | rfl | h
        · exact ihl ht.2.1 h
        · exact ht.1
        · exact ihr ht.2.2 h

/-! ### Building a tree -/

/-- The node that two nodes are combined to, if they can be. -/
def join (op : Operator) (left right : Node) : Option Node :=
  (Precedence.combine op left right).toOption

/-- The node of a tree: its operators applied in its order. -/
def build : OpTree Node → Option Node
  | .leaf n => some n
  | .node op left right => do join op (← left.build) (← right.build)

/-- The nodes of the trees of a row. -/
def buildTail : List (Operator × OpTree Node) → Option Precedence.Tail
  | [] => some []
  | (op, t) :: rest => do return (op, ← t.build) :: (← buildTail rest)

/-- The row of nodes of a row of trees. -/
def buildRow (row : OpTree Node × List (Operator × OpTree Node)) :
    Option (Node × Precedence.Tail) := do
  return (← row.1.build, ← buildTail row.2)

theorem buildTail_append (a b : List (Operator × OpTree Node)) :
    buildTail (a ++ b) = do return (← buildTail a) ++ (← buildTail b) := by
  induction a with
  | nil => simp [buildTail]
  | cons entry rest ih =>
      simp only [List.cons_append, buildTail, ih]
      cases entry.2.build <;> cases buildTail rest <;> cases buildTail b <;> rfl

/-- Two rows with an operator between them are built one after the other. -/
theorem buildRow_append (a b : OpTree Node × List (Operator × OpTree Node)) (op : Operator) :
    buildRow (a.1, a.2 ++ (op, b.1) :: b.2) = do
      let (x, tail) ← buildRow a
      let (y, rest) ← buildRow b
      return (x, tail ++ (op, y) :: rest) := by
  simp only [buildRow, buildTail_append, buildTail]
  cases a.1.build <;> cases buildTail a.2 <;> cases b.1.build <;> cases buildTail b.2 <;> rfl

theorem buildRow_single (t : OpTree Node) : buildRow (t, []) = t.build.map fun n => (n, []) := by
  simp only [buildRow, buildTail]
  cases t.build <;> rfl

/-- Cut at the level of the operator at its root, a tree is the row of its left side and then its
right side as one piece. -/
theorem buildRow_cut_root {op : Operator} (left : OpTree Node) {right : OpTree Node}
    (hright : right.Below op.level) :
    buildRow ((node op left right).cut op.level) = do
      let row ← buildRow (left.cut op.level)
      return (row.1, row.2 ++ [(op, ← right.build)]) := by
  rw [cut, if_neg (Nat.lt_irrefl _), cut_of_below hright,
    buildRow_append (left.cut op.level) (right, []), buildRow_single]
  cases buildRow (left.cut op.level) <;> cases right.build <;> rfl

theorem buildTail_levels {row : List (Operator × OpTree Node)} {tail : Precedence.Tail}
    (h : buildTail row = some tail) : tail.map Prod.fst = row.map Prod.fst := by
  induction row generalizing tail with
  | nil =>
      cases h
      rfl
  | cons entry rest ih =>
      simp only [buildTail, Option.bind_eq_bind, Option.bind_eq_some_iff] at h
      obtain ⟨n, -, others, hrest, heq⟩ := h
      cases heq
      exact congrArg (entry.1 :: ·) (ih hrest)

end OpTree

namespace Precedence

open OpTree (buildRow buildTail)

/-! ### Passes

One pass applies the operators of one level. What it does to a row that is put together depends on
the operator in the middle: either this one is applied too, or the pass goes on behind it as if a
new row began there. -/

@[simp] theorem toOption_ok {α : Type} (a : α) :
    (Except.ok a : Except ParseError α).toOption = some a := rfl

@[simp] theorem toOption_error {α : Type} (e : ParseError) :
    (Except.error e : Except ParseError α).toOption = none := rfl

theorem toOption_bind {α β : Type} (x : Except ParseError α) (f : α → Except ParseError β) :
    (x >>= f).toOption = x.toOption >>= fun a => (f a).toOption := by
  cases x <;> rfl

theorem toOption_eq_some {ε α : Type} {x : Except ε α} {a : α} :
    x.toOption = some a ↔ x = .ok a := by
  cases x with
  | error e => exact ⟨by rintro ⟨⟩, by rintro ⟨⟩⟩
  | ok b =>
      exact ⟨fun h => congrArg Except.ok (Option.some.inj h),
        fun h => congrArg some (Except.ok.inj h)⟩

/-- A pass over operators of its own level alone leaves one node in front of the rest. -/
theorem pass_append_level {level : Nat} {tail : Tail}
    (h : ∀ op ∈ tail.map Prod.fst, op.level = level)
    (first : Node) (rest : Tail) :
    (pass level first (tail ++ rest)).toOption =
      (pass level first tail).toOption >>= fun p => (pass level p.1 rest).toOption := by
  induction tail generalizing first with
  | nil => rfl
  | cons entry others ih =>
      have hop : entry.1.level = level := h _ (List.mem_cons_self ..)
      have hothers := ih fun op hop => h op (List.mem_cons_of_mem _ hop)
      simp only [List.cons_append, pass, hop, if_true, toOption_bind, bind_assoc, hothers]

/-- A pass of another level goes past an operator. -/
theorem pass_append_other {level : Nat} {op : Operator} (h : op.level ≠ level) (first : Node)
    (tail : Tail) (term : Node) (rest : Tail) :
    (pass level first (tail ++ (op, term) :: rest)).toOption = do
      let (first, tail) ← (pass level first tail).toOption
      let (term, rest) ← (pass level term rest).toOption
      return (first, tail ++ (op, term) :: rest) := by
  induction tail generalizing first with
  | nil =>
      simp only [List.nil_append, pass, h, if_false, toOption_bind]
      rfl
  | cons entry others ih =>
      by_cases hop : entry.1.level = level
      · simp only [List.cons_append, pass, hop, if_true, toOption_bind, bind_assoc, ih]
      · simp only [List.cons_append, pass, hop, if_false, toOption_bind, ih]
        cases (pass level entry.2 others).toOption <;>
          cases (pass level term rest).toOption <;> rfl

/-- The operators of a row cut at a level are of that level, if the tree has no looser
ones. -/
theorem level_of_buildRow_cut {t : OpTree Node} {level : Nat} (h : t.Below (level + 1))
    {row : Node × Tail} (hrow : buildRow (t.cut level) = some row) :
    ∀ op ∈ row.2.map Prod.fst, op.level = level := by
  intro op hop
  have htail : buildTail (t.cut level).2 = some row.2 := by
    simp only [buildRow, Option.bind_eq_bind, Option.bind_eq_some_iff] at hrow
    obtain ⟨_, -, tail, htail, heq⟩ := hrow
    cases heq
    exact htail
  rw [OpTree.buildTail_levels htail] at hop
  obtain ⟨entry, hentry, rfl⟩ := List.mem_map.mp hop
  exact Nat.le_antisymm (Nat.le_of_lt_succ (OpTree.level_lt_of_mem_cut h hentry))
    (OpTree.le_level_of_mem_cut hentry)

/-- One more operator of the level is applied to what the pass over those in front of it leaves. -/
theorem pass_snoc {op : Operator} {tail : Tail}
    (h : ∀ other ∈ tail.map Prod.fst, other.level = op.level) (first term : Node) :
    (pass op.level first (tail ++ [(op, term)])).toOption =
      (pass op.level first tail).toOption >>= fun p =>
        (OpTree.join op p.1 term).map fun n => (n, []) := by
  rw [pass_append_level h]
  congr 1
  funext p
  simp only [pass, if_true, toOption_bind, OpTree.join]
  cases (combine op p.1 term).toOption <;> rfl

/-- Where the operator at the root is of the level, the row of the left subtree becomes one node,
the right subtree is one already, and then the operator is applied. -/
theorem pass_cut_root {op : Operator} {left right : OpTree Node}
    (hleft : left.Below (op.level + 1)) (hright : right.Below op.level)
    (hl : (buildRow (left.cut op.level) >>= fun row =>
      (pass op.level row.1 row.2).toOption) = left.build.map fun n => (n, [])) :
    (buildRow ((OpTree.node op left right).cut op.level) >>= fun row =>
      (pass op.level row.1 row.2).toOption) =
      (OpTree.node op left right).build.map fun n => (n, []) := by
  rw [OpTree.buildRow_cut_root left hright]
  -- If the left side is built to nothing then so is the whole; otherwise the pass has one node for
  -- it.
  cases hrow : buildRow (left.cut op.level) with
  | none =>
      have hnone : left.build = none := by
        rw [hrow] at hl
        simpa using hl.symm
      simp [OpTree.build, hnone]
  | some row =>
      have hlevels := level_of_buildRow_cut hleft hrow
      rw [hrow] at hl
      simp only [Option.bind_eq_bind, Option.bind_some] at hl
      cases hr : right.build with
      | none => simp [OpTree.build, hr]
      | some r =>
          simp only [Option.bind_eq_bind, Option.bind_some, Option.pure_def, pass_snoc hlevels, hl,
            OpTree.build, hr]
          cases left.build <;> rfl

/-- A pass turns the row cut at its level into the row cut at the next. -/
theorem pass_cut {t : OpTree Node} (h : t.Ordered) (level : Nat) :
    (buildRow (t.cut level) >>= fun row => (pass level row.1 row.2).toOption) =
      buildRow (t.cut (level + 1)) := by
  induction t with
  | leaf n => rfl
  | node op left right ihl ihr =>
      have hl := ihl h.2.2.1
      have hr := ihr h.2.2.2
      rcases Nat.lt_trichotomy op.level level with hlt | rfl | hgt
      · -- The tree is in one piece already.
        rw [OpTree.cut, if_pos hlt, OpTree.cut, if_pos (Nat.lt_succ_of_lt hlt),
          OpTree.buildRow_single]
        cases (OpTree.node op left right).build <;> rfl
      · -- The whole tree becomes one piece.
        rw [OpTree.cut_of_below h.1, OpTree.buildRow_single] at hl
        rw [pass_cut_root h.1 h.2.1 hl, OpTree.cut, if_pos (Nat.lt_succ_self _),
          OpTree.buildRow_single]
      · -- The operator is of a later level: both sides are passed by themselves.
        rw [OpTree.cut, if_neg (Nat.not_lt_of_gt hgt), OpTree.cut,
          if_neg (Nat.not_lt_of_le hgt), OpTree.buildRow_append, OpTree.buildRow_append, ← hl, ← hr]
        cases buildRow (left.cut level) with
        | none => rfl
        | some row =>
            cases buildRow (right.cut level) with
            | none =>
                simp only [Option.bind_eq_bind, Option.bind_some, Option.bind_none]
                cases (pass level row.1 row.2).toOption <;> rfl
            | some row' =>
                exact pass_append_other (Nat.ne_of_gt hgt) row.1 row.2 row'.1 row'.2

theorem buildTail_leaves (row : Tail) :
    buildTail (row.map fun (op, n) => (op, OpTree.leaf n)) = some row := by
  induction row with
  | nil => rfl
  | cons entry rest ih => simp [buildTail, ih, OpTree.build]

/-- Passing the levels below `k` makes a row of the tree cut at `k`. -/
theorem passes_cut {t : OpTree Node} (h : t.Ordered) (k : Nat) :
    ((List.range k).foldlM (fun (first, tail) level => pass level first tail)
      (t.first, t.tail)).toOption = buildRow (t.cut k) := by
  induction k with
  | zero =>
      rw [OpTree.cut_zero]
      simp only [buildRow, buildTail_leaves, OpTree.build]
      rfl
  | succ k ih =>
      rw [List.range_succ, List.foldlM_append, toOption_bind, ih, ← pass_cut h k]
      cases buildRow (t.cut k) with
      | none => rfl
      | some row =>
          simp only [Option.bind_eq_bind, Option.bind_some, List.foldlM_cons, List.foldlM_nil,
            toOption_bind]
          cases (pass k row.1 row.2).toOption <;> rfl

/-- Reducing a row builds its ordered tree. -/
theorem reduce_eq_build {t : OpTree Node} (h : t.Ordered) :
    (reduce t.first t.tail).toOption = t.build := by
  unfold reduce
  rw [toOption_bind, passes_cut h, OpTree.cut_of_below t.below_levels, OpTree.buildRow_single]
  cases t.build <;> rfl

/-- The left term as the operator takes it. -/
def takenLeft (op : Operator) (left : Node) : Node :=
  match op with
  | .quantified _ _ => left.asSequence
  | _ => left

/-- The operator takes a sequence on its left. -/
def isQuantified : Operator → Bool
  | .quantified _ _ => true
  | _ => false

theorem combine_eq_ok {op : Operator} {left right n : Node} :
    combine op left right = .ok n ↔
      (isQuantified op = false → left.isScalar = true) ∧ right.isScalar = true ∧
        Node.operation op (takenLeft op left) right = n := by
  have hright (left : Node) : (if right.isScalar then return Node.operation op left right
      else throw (.rightNotScalar right.source) : Except ParseError Node) = .ok n ↔
        right.isScalar = true ∧ Node.operation op left right = n := by
    split
    · rename_i h
      rw [and_iff_right h]
      exact ⟨Except.ok.inj, congrArg Except.ok⟩
    · rename_i h
      exact ⟨by rintro ⟨⟩, fun hn => absurd hn.1 h⟩
  cases op with
  | quantified quantifier op =>
      exact (hright left.asSequence).trans (by simp [isQuantified, takenLeft])
  | binary op | logic op =>
      unfold combine
      cases hleft : left.isScalar with
      | false => exact ⟨by rintro ⟨⟩, fun h => absurd (h.1 rfl) (by simp)⟩
      | true => exact (hright left).trans (by simp [takenLeft])

end Precedence

/-- A tree is built to what its operator makes of its sides. -/
theorem OpTree.build_node_eq_some {op : Operator} {left right : OpTree Node} {n : Node} :
    (OpTree.node op left right).build = some n ↔ ∃ l, left.build = some l ∧
      ∃ r, right.build = some r ∧ Precedence.combine op l r = .ok n := by
  simp only [OpTree.build, OpTree.join, Option.bind_eq_bind, Option.bind_eq_some_iff,
    Precedence.toOption_eq_some]

namespace Precedence

/-- A row with an operator in it is reduced to two nodes joined by one of its operators. -/
theorem combine_of_reduce {first n : Node} {tail : Tail} (htail : tail ≠ [])
    (h : reduce first tail = .ok n) :
    ∃ op left right, combine op left right = .ok n := by
  have hbuild := reduce_eq_build (OpTree.ordered_ofRow first tail)
  rw [OpTree.first_ofRow, OpTree.tail_ofRow, h, toOption_ok] at hbuild
  cases htree : OpTree.ofRow first tail with
  | leaf a =>
      have hrow := OpTree.tail_ofRow first tail
      rw [htree] at hrow
      exact absurd hrow.symm htail
  | node op left right =>
      rw [htree] at hbuild
      obtain ⟨l, -, r, -, hcombine⟩ := OpTree.build_node_eq_some.mp hbuild.symm
      exact ⟨op, l, r, hcombine⟩

end Precedence

end DocQuery
