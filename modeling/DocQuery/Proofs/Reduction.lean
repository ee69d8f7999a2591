import DocQuery.Proofs.Precedence
import Mathlib.Data.List.Forall2
/-!
# DocQuery.Proofs.Reduction

What reducing a row yields, said without levels and passes. The tree that precedence
gives a row (`PrecedenceTree`) is found from the top: its root is the right-most operator
of the loosest level in the row, and the sides are found in the same way in what stands
to the left and to the right of it. Reducing the row applies the operators of that tree,
and if it fails, then with the error of one of them.

A row may also be kept as two lists, the values and the operators between them. Then an
operator is applied by taking it out of the one list and the two values beside it out of
the other, and by putting the result in their place (`Splice.reduce`). All places are
counted, so a place might be out of range; that none ever is follows from the agreement
with `Precedence.reduce`, which has no places.
-/

namespace DocQuery

/-! ### Splitting a row at its loosest operator -/

/-- The tree that precedence gives a row. A single term is itself; otherwise the root is
the right-most operator of the loosest level. -/
inductive PrecedenceTree {α : Type} : α → List (Operator × α) → OpTree α → Prop where
  | term (a : α) : PrecedenceTree a [] (.leaf a)
  | split {first a : α} {before after : List (Operator × α)} {op : Operator}
      {left right : OpTree α}
      (hbefore : ∀ entry ∈ before, entry.1.level ≤ op.level)
      (hafter : ∀ entry ∈ after, entry.1.level < op.level)
      (hleft : PrecedenceTree first before left) (hright : PrecedenceTree a after right) :
      PrecedenceTree first (before ++ (op, a) :: after) (.node op left right)

namespace OpTree

variable {α : Type}

theorem below_iff {t : OpTree α} {k : Nat} : t.Below k ↔ ∀ entry ∈ t.tail, entry.1.level < k := by
  induction t with
  | leaf a => simp [Below, tail]
  | node op left right ihl ihr =>
      simp only [Below, tail, ihl, ihr, List.mem_append, List.mem_cons]
      constructor
      · rintro ⟨hop, hl, hr⟩ entry (h | rfl | h)
        · exact hl entry h
        · exact hop
        · exact hr entry h
      · intro h
        exact ⟨h _ (.inr (.inl rfl)), fun entry he => h entry (.inl he),
          fun entry he => h entry (.inr (.inr he))⟩

/-- An ordered tree is the one that precedence gives its row. -/
theorem Ordered.precedenceTree {t : OpTree α} (h : t.Ordered) :
    PrecedenceTree t.first t.tail t := by
  induction t with
  | leaf a => exact .term a
  | node op left right ihl ihr =>
      obtain ⟨hleft, hright, hl, hr⟩ := h
      exact .split (fun entry he => Nat.le_of_lt_succ (below_iff.mp hleft entry he))
        (below_iff.mp hright) (ihl hl) (ihr hr)

end OpTree

/-- A row has one right-most operator of the loosest level. -/
theorem split_unique {α : Type} {before before' after after' : List (Operator × α)}
    {e e' : Operator × α} (h : before ++ e :: after = before' ++ e' :: after')
    (hbefore : ∀ entry ∈ before, entry.1.level ≤ e.1.level)
    (hafter : ∀ entry ∈ after, entry.1.level < e.1.level)
    (hbefore' : ∀ entry ∈ before', entry.1.level ≤ e'.1.level)
    (hafter' : ∀ entry ∈ after', entry.1.level < e'.1.level) :
    before = before' ∧ e = e' ∧ after = after' := by
  -- If one of the two stood further to the right, it would be both looser and not looser.
  obtain ⟨between, hb, ha⟩ | ⟨between, hb, ha⟩ := List.append_eq_append_iff.mp h
  · cases between with
    | nil => simp_all
    | cons x rest =>
        obtain ⟨rfl, rfl⟩ := List.cons.inj ha
        have hle := hbefore' e (by simp [hb])
        have hlt := hafter e' (by simp)
        omega
  · cases between with
    | nil => simp_all
    | cons x rest =>
        obtain ⟨rfl, rfl⟩ := List.cons.inj ha
        have hle := hbefore e' (by simp [hb])
        have hlt := hafter' e (by simp)
        omega

/-- A row has one tree only. -/
theorem PrecedenceTree.unique {α : Type} {first : α} {row : List (Operator × α)}
    {t t' : OpTree α} (h : PrecedenceTree first row t) (h' : PrecedenceTree first row t') :
    t' = t := by
  induction h generalizing t' with
  | term a =>
      generalize hrow : ([] : List (Operator × α)) = row at h'
      cases h' with
      | term => rfl
      | split => simp at hrow
  | @split first a before after op left right hbefore hafter _ _ ihl ihr =>
      generalize hrow : before ++ (op, a) :: after = row at h'
      cases h' with
      | term => simp at hrow
      | split hbefore' hafter' hleft' hright' =>
          obtain ⟨rfl, heq, rfl⟩ := split_unique hrow hbefore hafter hbefore' hafter'
          cases heq
          rw [ihl hleft', ihr hright']

/-! ### Where reducing fails

A tree is built unless an operator of it fails, and a pass that fails does so with the error of one
of the operators. The error is the one that the pass meets first, so it is followed through the
rows. -/

namespace OpTree

/-- Somewhere in the tree the sides can be built and cannot be combined, for this
reason. -/
def FailsWith (e : ParseError) : OpTree Node → Prop
  | .leaf _ => False
  | .node op left right =>
    left.FailsWith e ∨ right.FailsWith e ∨
      ∃ l r, left.build = some l ∧ right.build = some r ∧ Precedence.combine op l r = .error e

/-- What has no node fails somewhere. -/
theorem build_eq_none_iff {t : OpTree Node} : t.build = none ↔ ∃ e, t.FailsWith e := by
  induction t with
  | leaf n => simp [build, FailsWith]
  | node op left right ihl ihr =>
      simp only [FailsWith, exists_or, ← ihl, ← ihr]
      cases hl : left.build with
      | none => simp [build, hl]
      | some l =>
          cases hr : right.build with
          | none => simp [build, hl, hr]
          | some r => cases hc : Precedence.combine op l r <;> simp [build, join, hl, hr, hc]

end OpTree

namespace Precedence

open OpTree (buildRow buildTail)

/-- What is done one after the other fails where the first fails, or the second after
it. -/
theorem bind_eq_error {ε α β : Type} {x : Except ε α} {f : α → Except ε β} {e : ε} :
    x >>= f = .error e ↔ x = .error e ∨ ∃ a, x = .ok a ∧ f a = .error e := by
  cases x with
  | error e' => exact ⟨fun h => .inl (by cases h; rfl), by rintro (h | ⟨a, h, -⟩) <;> cases h; rfl⟩
  | ok a => exact ⟨fun h => .inr ⟨a, rfl, h⟩, by rintro (h | ⟨a', h, h'⟩) <;> cases h; exact h'⟩

theorem pure_ne_error {ε α : Type} {a : α} {e : ε} : (pure a : Except ε α) ≠ .error e := by
  rintro ⟨⟩

/-- An error of a pass over operators of its own level and what follows them is one of
the operators' or one of what follows. -/
theorem pass_append_level_error {level : Nat} {tail : Tail}
    (h : ∀ op ∈ tail.map Prod.fst, op.level = level) {first : Node} {rest : Tail}
    {e : ParseError} (he : pass level first (tail ++ rest) = .error e) :
    pass level first tail = .error e ∨
      ∃ n, pass level first tail = .ok (n, []) ∧ pass level n rest = .error e := by
  induction tail generalizing first with
  | nil => exact .inr ⟨first, rfl, he⟩
  | cons entry others ih =>
      have hop : entry.1.level = level := h _ (List.mem_cons_self ..)
      simp only [List.cons_append, pass, hop, if_true] at he ⊢
      obtain hc | ⟨n, hc, he⟩ := bind_eq_error.mp he
      · exact .inl (bind_eq_error.mpr (.inl hc))
      · rw [hc]
        exact ih (fun op hop => h op (List.mem_cons_of_mem _ hop)) he

/-- An error of a pass that goes past an operator is from one of its sides. -/
theorem pass_append_other_error {level : Nat} {op : Operator} (h : op.level ≠ level)
    {first : Node} {tail : Tail} {term : Node} {rest : Tail} {e : ParseError}
    (he : pass level first (tail ++ (op, term) :: rest) = .error e) :
    pass level first tail = .error e ∨ pass level term rest = .error e := by
  induction tail generalizing first with
  | nil =>
      simp only [List.nil_append, pass, h, if_false] at he
      obtain he | ⟨_, -, he⟩ := bind_eq_error.mp he
      · exact .inr he
      · exact absurd he pure_ne_error
  | cons entry others ih =>
      by_cases hop : entry.1.level = level
      · simp only [List.cons_append, pass, hop, if_true] at he ⊢
        obtain hc | ⟨n, hc, he⟩ := bind_eq_error.mp he
        · exact .inl (bind_eq_error.mpr (.inl hc))
        · rw [hc]
          exact ih he
      · simp only [List.cons_append, pass, hop, if_false] at he ⊢
        obtain he | ⟨_, -, he⟩ := bind_eq_error.mp he
        · exact (ih he).imp_left fun hleft => bind_eq_error.mpr (.inl hleft)
        · exact absurd he pure_ne_error

/-- The error of a pass over a row cut from a tree is the error of one of its
operators. -/
theorem failsWith_of_pass {t : OpTree Node} (h : t.Ordered) {level : Nat}
    {row : Node × Tail} (hrow : buildRow (t.cut level) = some row) {e : ParseError}
    (he : pass level row.1 row.2 = .error e) : t.FailsWith e := by
  induction t generalizing row with
  | leaf n =>
      cases hrow
      cases he
  | node op left right ihl ihr =>
      rcases Nat.lt_trichotomy op.level level with hlt | heq | hgt
      · -- The tree is one node already, and nothing is left to fail.
        rw [OpTree.cut, if_pos hlt, OpTree.buildRow_single] at hrow
        obtain ⟨n, -, rfl⟩ := Option.map_eq_some_iff.mp hrow
        cases he
      · -- The left row fails, or the operator itself does.
        subst heq
        have hpass := pass_cut h.2.2.1 op.level
        rw [OpTree.cut_of_below h.1, OpTree.buildRow_single] at hpass
        rw [OpTree.buildRow_cut_root left h.2.1] at hrow
        simp only [Option.bind_eq_bind, Option.bind_eq_some_iff] at hrow
        obtain ⟨row, hrow, r, hr, heq⟩ := hrow
        cases heq
        rw [hrow] at hpass
        obtain he | ⟨n, hn, he⟩ :=
          pass_append_level_error (level_of_buildRow_cut h.1 hrow) he
        · exact .inl (ihl h.2.2.1 hrow he)
        · have hleft : left.build = some n := by
            simp only [Option.bind_eq_bind, Option.bind_some, hn, toOption_ok] at hpass
            obtain ⟨_, hl, heq⟩ := Option.map_eq_some_iff.mp hpass.symm
            cases heq
            exact hl
          simp only [pass, if_true] at he
          obtain hc | ⟨_, -, he⟩ := bind_eq_error.mp he
          · exact .inr (.inr ⟨n, r, hleft, hr, hc⟩)
          · exact absurd he pure_ne_error
      · -- The pass goes past the operator.
        rw [OpTree.cut, if_neg (Nat.not_lt_of_gt hgt), OpTree.buildRow_append] at hrow
        simp only [Option.bind_eq_bind, Option.bind_eq_some_iff] at hrow
        obtain ⟨row, hrow, row', hrow', heq⟩ := hrow
        cases heq
        rcases pass_append_other_error (Nat.ne_of_gt hgt) he with he | he
        · exact .inl (ihl h.2.2.1 hrow he)
        · exact .inr (.inl (ihr h.2.2.2 hrow' he))

/-- The error of the passes below a level is the error of one of the operators. -/
theorem failsWith_of_passes {t : OpTree Node} (h : t.Ordered) {k : Nat} {e : ParseError}
    (he : (List.range k).foldlM (fun (first, tail) level => pass level first tail)
      (t.first, t.tail) = .error e) : t.FailsWith e := by
  induction k with
  | zero => cases he
  | succ k ih =>
      rw [List.range_succ, List.foldlM_append] at he
      obtain he | ⟨row, hrow, he⟩ := bind_eq_error.mp he
      · exact ih he
      · have hcut := passes_cut h k
        rw [hrow, toOption_ok] at hcut
        simp only [List.foldlM_cons, List.foldlM_nil, bind_pure] at he
        exact failsWith_of_pass h hcut.symm he

/-- Reducing a row fails only with the error of one of the operators of its tree. -/
theorem failsWith_of_reduce {t : OpTree Node} (h : t.Ordered) {e : ParseError}
    (he : reduce t.first t.tail = .error e) : t.FailsWith e := by
  obtain he | ⟨_, -, he⟩ := bind_eq_error.mp he
  · exact failsWith_of_passes h he
  · exact absurd he pure_ne_error

end Precedence

/-! ### The operands of what is built

The terms can be read back off what has been built: the sides of an operator are the parts of its
node, up to the call or the step that a quantified operator has put around the left one. -/

namespace Node

/-- A sequence of the elements of one value: that value. Any other node: itself. -/
def underItems : Node → Node
  | .mk _ (.call .items [n]) => n
  | n => n

/-- The two sides of an operation. -/
def sides? : Node → Option (Node × Node)
  | .mk _ (.binary _ left right) | .mk _ (.quantified _ _ left right)
  | .mk _ (.logic _ left right) => some (left, right)
  | _ => none

theorem sides?_operation (op : Operator) (left right : Node) :
    (operation op left right).sides? = some (left, right) := by
  cases op <;> rfl

/-- An operation under a quantified operator is found again under the sequence made of
it. -/
theorem underItems_takenLeft (op o : Operator) (left right : Node) :
    (Precedence.takenLeft op (operation o left right)).underItems = operation o left right := by
  cases op <;> cases o <;> rfl

end Node

namespace OpTree

/-- The terms of a node that the operators of a tree were applied to, from left to
right. -/
def operands : OpTree Node → Node → List Node
  | .leaf _, n => [n]
  | .node _ left right, n =>
    match n.underItems.sides? with
    | some (l, r) => left.operands l ++ right.operands r
    | none => []

/-- The leaves of a tree as its operators take them: a leaf on the left of a quantified
operator as a sequence, every other leaf as it is. -/
def taken : OpTree Node → List Node
  | .leaf n => [n]
  | .node op (.leaf n) right => Precedence.takenLeft op n :: right.taken
  | .node _ left right => left.taken ++ right.taken

/-- That a quantified operator takes an operation as a sequence does not hide its
operands. -/
theorem operands_takenLeft {o : Operator} {left right : OpTree Node} {n : Node}
    (h : (node o left right).build = some n) (op : Operator) :
    (node o left right).operands (Precedence.takenLeft op n) =
      (node o left right).operands n := by
  obtain ⟨l, -, r, -, hcombine⟩ := build_node_eq_some.mp h
  obtain ⟨-, -, rfl⟩ := Precedence.combine_eq_ok.mp hcombine
  have hplain : (Node.operation o (Precedence.takenLeft o l) r).underItems = _ :=
    Node.underItems_takenLeft (.logic .and) o (Precedence.takenLeft o l) r
  simp only [operands, Node.underItems_takenLeft, hplain]

/-- The operands of what a tree builds are its leaves as the operators take them. -/
theorem operands_build {t : OpTree Node} {n : Node} (h : t.build = some n) :
    t.operands n = t.taken := by
  induction t generalizing n with
  | leaf a =>
      cases h
      rfl
  | node op left right ihl ihr =>
      obtain ⟨l, hl, r, hr, hcombine⟩ := build_node_eq_some.mp h
      obtain ⟨-, -, rfl⟩ := Precedence.combine_eq_ok.mp hcombine
      have hunder : (Node.operation op (Precedence.takenLeft op l) r).underItems = _ :=
        Node.underItems_takenLeft (.logic .and) op _ r
      rw [operands, hunder, Node.sides?_operation]
      cases left with
      | leaf a =>
          cases hl
          exact congrArg (_ :: ·) (ihr hr)
      | node o a b =>
          show (node o a b).operands (Precedence.takenLeft op l) ++ right.operands r =
            (node o a b).taken ++ right.taken
          rw [operands_takenLeft hl, ihl hl, ihr hr]

/-- A leaf is taken as it is or as a sequence. -/
theorem forall₂_taken (t : OpTree Node) :
    List.Forall₂ (fun term operand => operand = term ∨ operand = term.asSequence)
      (t.first :: t.tail.map Prod.snd) t.taken := by
  induction t with
  | leaf n => exact .cons (.inl rfl) .nil
  | node op left right ihl ihr =>
      show List.Forall₂ _ (left.first :: (left.tail ++ (op, right.first) :: right.tail).map _) _
      rw [List.map_append, List.map_cons, ← List.cons_append]
      cases left with
      | leaf n =>
          refine .cons ?_ ihr
          cases op with
          | quantified quantifier op => exact .inr rfl
          | binary op | logic op => exact .inl rfl
      | node o a b => exact List.rel_append ihl ihr

end OpTree

/-! ### Reducing two lists in place

The same reduction with places that are counted. Both lists are those of one row, and stay so: an
operator at a place has its two values at this place and the next one. -/

namespace Splice

/-- What can go wrong when values and operators are reduced in place. -/
inductive Fault where
  /-- A place is not in the list. -/
  | outOfRange
  /-- When no operator is left, there is not exactly one value. -/
  | notOne
  | refused (e : ParseError)

variable {α : Type}

/-- The element at a place. -/
def at? (l : List α) (index : Nat) : Except Fault α :=
  match l[index]? with
  | some a => .ok a
  | none => .error .outOfRange

/-- The list with an element more, at a place. -/
def insert (index : Nat) (a : α) (l : List α) : Except Fault (List α) :=
  if index ≤ l.length then .ok (l.insertIdx index a) else .error .outOfRange

theorem length_eraseIdx_lt {p : α → Bool} {l : List α} {index : Nat}
    (h : l.findIdx? p = some index) : (l.eraseIdx index).length < l.length := by
  obtain ⟨hindex, -⟩ := List.findIdx?_eq_some_iff_getElem.mp h
  rw [List.length_eraseIdx_of_lt hindex]
  omega

/-- Applies the operator at a place: takes the two values beside it out of the list and
puts what they are combined to in their place. -/
def applyAt (index : Nat) (values : List Node) (operators : List Operator) :
    Except Fault (List Node) := do
  let op ← at? operators index
  let left ← at? values index
  let values := values.eraseIdx index
  let right ← at? values index
  let node ← (Precedence.combine op left right).mapError .refused
  insert index node (values.eraseIdx index)

/-- Applies the operators of one level, the left-most first, and takes them out of the
list. -/
def reduceLevel (level : Nat) (values : List Node) (operators : List Operator) :
    Except Fault (List Node × List Operator) :=
  match h : operators.findIdx? (fun op => op.level = level) with
  | none => return (values, operators)
  | some index => do
    let values ← applyAt index values operators
    have : (operators.eraseIdx index).length < operators.length := length_eraseIdx_lt h
    reduceLevel level values (operators.eraseIdx index)
termination_by operators.length

/-- Applies the operators of all levels, the tightest first. -/
def reduce (values : List Node) (operators : List Operator) : Except Fault Node := do
  let (values, _) ← (List.range Operator.levels).foldlM
    (fun (values, operators) level => reduceLevel level values operators) (values, operators)
  match values with
  | [n] => return n
  | _ => throw .notOne

@[simp] theorem at?_cons_succ (a : α) (l : List α) (index : Nat) :
    at? (a :: l) (index + 1) = at? l index := rfl

@[simp] theorem insert_cons_succ (index : Nat) (a b : α) (l : List α) :
    insert (index + 1) a (b :: l) = (insert index a l).map (b :: ·) := by
  simp only [insert, List.length_cons, Nat.add_le_add_iff_right]
  split <;> rfl

theorem applyAt_zero (op : Operator) (operators : List Operator) (left right : Node)
    (values : List Node) :
    applyAt 0 (left :: right :: values) (op :: operators) =
      ((Precedence.combine op left right).mapError .refused).map (· :: values) := by
  show (Precedence.combine op left right).mapError Fault.refused >>= _ = _
  cases Precedence.combine op left right <;> rfl

theorem map_bind_eq {ε β γ : Type} (x : Except ε α) (g : α → Except ε β) (f : β → γ) :
    (x >>= g).map f = x >>= fun a => (g a).map f := by
  cases x <;> rfl

theorem applyAt_cons_succ (index : Nat) (v : Node) (values : List Node) (op : Operator)
    (operators : List Operator) :
    applyAt (index + 1) (v :: values) (op :: operators) =
      (applyAt index values operators).map (v :: ·) := by
  simp only [applyAt, at?_cons_succ, List.eraseIdx_cons_succ, insert_cons_succ, map_bind_eq]

theorem reduceLevel_of_none {level : Nat} {operators : List Operator}
    (h : operators.findIdx? (fun op => op.level = level) = none) (values : List Node) :
    reduceLevel level values operators = .ok (values, operators) := by
  rw [reduceLevel]
  split
  · rfl
  · simp_all

theorem reduceLevel_of_some {level : Nat} {operators : List Operator} {index : Nat}
    (h : operators.findIdx? (fun op => op.level = level) = some index) (values : List Node) :
    reduceLevel level values operators =
      applyAt index values operators >>= fun values =>
        reduceLevel level values (operators.eraseIdx index) := by
  rw [reduceLevel]
  split
  · simp_all
  · rename_i found
    cases h.symm.trans found
    rfl

/-- What stands in front of an operator of another level is left alone. -/
theorem reduceLevel_cons {level : Nat} {op : Operator} (h : op.level ≠ level) (v : Node)
    (values : List Node) (operators : List Operator) :
    reduceLevel level (v :: values) (op :: operators) =
      (reduceLevel level values operators).map fun row => (v :: row.1, op :: row.2) := by
  fun_induction reduceLevel level values operators with
  | case1 values operators hnone =>
      exact reduceLevel_of_none (by simpa [List.findIdx?_cons, h] using hnone) _
  | case2 values operators index hsome ih =>
      have hindex : (op :: operators).findIdx? (fun op => op.level = level) = some (index + 1) := by
        simp [List.findIdx?_cons, h, hsome]
      rw [reduceLevel_of_some hindex, applyAt_cons_succ]
      cases happly : applyAt index values operators with
      | error e => rfl
      | ok values' => exact ih values'

/-- The two lists that a row is kept as. -/
def lists (row : Node × Precedence.Tail) : List Node × List Operator :=
  (row.1 :: row.2.map Prod.snd, row.2.map Prod.fst)

/-- One level of a row kept as two lists. -/
theorem reduceLevel_lists (level : Nat) (first : Node) (tail : Precedence.Tail) :
    reduceLevel level (lists (first, tail)).1 (lists (first, tail)).2 =
      ((Precedence.pass level first tail).mapError .refused).map lists := by
  induction tail generalizing first with
  | nil => exact reduceLevel_of_none rfl _
  | cons entry rest ih =>
      simp only [lists, List.map_cons, Precedence.pass]
      by_cases hop : entry.1.level = level
      · -- The operator is the first of its level.
        have hindex : (entry.1 :: rest.map Prod.fst).findIdx? (fun op => op.level = level) =
            some 0 := by
          simp [List.findIdx?_cons, hop]
        rw [reduceLevel_of_some hindex, applyAt_zero, if_pos hop]
        cases Precedence.combine entry.1 first entry.2 with
        | error e => rfl
        | ok n => exact ih n
      · have hrest := ih entry.2
        simp only [lists] at hrest
        rw [reduceLevel_cons hop, hrest, if_neg hop]
        cases Precedence.pass level entry.2 rest <;> rfl

/-- The levels below `k` of a row kept as two lists. -/
theorem reduceLevels_lists (k : Nat) (row : Node × Precedence.Tail) :
    (List.range k).foldlM (fun row level => reduceLevel level row.1 row.2) (lists row) =
      (((List.range k).foldlM (fun row level => Precedence.pass level row.1 row.2) row).mapError
        Fault.refused).map lists := by
  induction k with
  | zero => rfl
  | succ k ih =>
      rw [List.range_succ, List.foldlM_append, List.foldlM_append, ih]
      cases (List.range k).foldlM (fun row level => Precedence.pass level row.1 row.2) row with
      | error e => rfl
      | ok row' =>
          simp only [List.foldlM_cons, List.foldlM_nil, bind_pure]
          exact reduceLevel_lists k row'.1 row'.2

/-- Two lists are reduced to what the row is reduced to: no place is out of range, and in
the end there is one value. -/
theorem reduce_lists (first : Node) (tail : Precedence.Tail) :
    reduce (first :: tail.map Prod.snd) (tail.map Prod.fst) =
      (Precedence.reduce first tail).mapError .refused := by
  have hlists := reduceLevels_lists Operator.levels (first, tail)
  -- After all levels the tree is cut into one piece, so one value is left in the lists.
  have hcut := Precedence.passes_cut (OpTree.ordered_ofRow first tail) Operator.levels
  rw [OpTree.first_ofRow, OpTree.tail_ofRow, OpTree.cut_of_below (OpTree.below_levels _),
    OpTree.buildRow_single] at hcut
  change ((List.range Operator.levels).foldlM (fun row level => reduceLevel level row.1 row.2)
    (lists (first, tail)) >>= _) = _
  rw [hlists]
  cases hpasses : (List.range Operator.levels).foldlM
      (fun row level => Precedence.pass level row.1 row.2) (first, tail) with
  | error e =>
      have hreduce : Precedence.reduce first tail = .error e := congrArg (· >>= _) hpasses
      rw [hreduce]
      rfl
  | ok row =>
      have hreduce : Precedence.reduce first tail = .ok row.1 := congrArg (· >>= _) hpasses
      replace hcut := hcut.symm.trans (congrArg Except.toOption hpasses)
      obtain ⟨n, -, rfl⟩ := Option.map_eq_some_iff.mp hcut
      rw [hreduce]
      rfl

end Splice

namespace Precedence

/-- Terms joined by operators have one tree that precedence gives them, and reducing them
(`Precedence.reduce`) applies its operators. Two lists that hold the terms and the operators are
reduced to the same, and no place is ever out of range. Reducing fails exactly if an operator of the
tree cannot be applied, and then with such an operator's error. The operands of the result are the
terms in their order, but for those that quantified operators take as sequences. -/
theorem reduce_applies_tree (first : Node) (tail : Tail) :
    Splice.reduce (first :: tail.map Prod.snd) (tail.map Prod.fst) =
        (reduce first tail).mapError .refused ∧
      ∃ t, PrecedenceTree first tail t ∧ (∀ t', PrecedenceTree first tail t' → t' = t) ∧
        (∀ n, reduce first tail = .ok n ↔ t.build = some n) ∧
        (∀ e, reduce first tail = .error e → t.FailsWith e) ∧
        ((∃ e, reduce first tail = .error e) ↔ ∃ e, t.FailsWith e) ∧
        ∀ n, reduce first tail = .ok n → t.operands n = t.taken ∧
          List.Forall₂ (fun term operand => operand = term ∨ operand = term.asSequence)
            (first :: tail.map Prod.snd) (t.operands n) := by
  have hordered := OpTree.ordered_ofRow first tail
  -- The tree of the row is the one that precedence gives; all that is said is said of it.
  have htree : PrecedenceTree first tail (OpTree.ofRow first tail) := by
    simpa using hordered.precedenceTree
  have hbuild := reduce_eq_build hordered
  have hfails := fun e => failsWith_of_reduce hordered (e := e)
  have htaken := OpTree.forall₂_taken (OpTree.ofRow first tail)
  rw [OpTree.first_ofRow, OpTree.tail_ofRow] at hbuild htaken
  simp only [OpTree.first_ofRow, OpTree.tail_ofRow] at hfails
  refine ⟨Splice.reduce_lists first tail, _, htree, fun t' ht' => htree.unique ht', fun n => ?_,
    hfails, ?_, fun n hn => ?_⟩
  · rw [← hbuild, toOption_eq_some]
  · rw [← OpTree.build_eq_none_iff, ← hbuild]
    cases reduce first tail <;> simp
  · have hoperands := OpTree.operands_build (hbuild.symm.trans (toOption_eq_some.mpr hn))
    exact ⟨hoperands, hoperands ▸ htaken⟩

end Precedence

end DocQuery
