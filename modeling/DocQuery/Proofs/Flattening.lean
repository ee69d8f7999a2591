import DocQuery.Parser
import DocQuery.Proofs.WriteOrder
import Mathlib.Algebra.BigOperators.Group.List.Basic
import Mathlib.Algebra.GroupWithZero.Nat
/-!
# DocQuery.Proofs.Flattening

Flattening loses nothing of an expression. Its instructions are those of its nodes, each after
those of its parts, and all but the last are referred to once, by a later one. So an expression is
put together again by following the references from the last instruction, and it is evaluated in
this way without a reference to anything else (`flatten_rebuilds`).

`Pool.Lays` says what nodes written in a row add to a pool. Nodes of one row are laid one after
the other (`Pool.Lays.cons`), and a node is laid by its instruction behind its parts
(`Pool.Lays.node`).
-/

namespace DocQuery

open Pool (Evaluator)
open scoped List

/-! ### The nodes of an expression

Nodes are counted in the order in which they are written, parts first. A pattern that is written out
goes into the operation of the node that compares with it, and so has no instruction. -/

namespace Node

/-- The nodes of the tree, each in front of its parts. -/
def nodes : Node → List Node :=
  fold fun info form => .mk info (form.mapParts Prod.fst) :: form.children.flatMap Prod.snd

/-- The nodes that have an instruction, each after its parts. -/
def postorder : Node → List Node :=
  fold fun info form =>
    (Action.ofForm (fun part => Pool.patternOf? part.1) form).children.flatMap Prod.snd ++
      [.mk info (form.mapParts Prod.fst)]

/-- The comparisons of the tree whose patterns are written out. -/
def writtenPatterns (n : Node) : Nat := n.nodes.countP comparesText

theorem mapParts_fst {α : Type} (f : Node → α) (form : Form Node) :
    (form.mapParts fun n => (n, f n)).mapParts Prod.fst = form := by
  rw [Form.mapParts_mapParts]
  exact Form.mapParts_id form

theorem nodes_eq (n : Node) : n.nodes = n :: n.children.flatMap nodes := by
  obtain ⟨info, form⟩ := n
  rw [nodes, fold_mk, mapParts_fst, Form.children_mapParts, List.flatMap_map]
  rfl

theorem postorder_eq (n : Node) :
    n.postorder = n.action.children.flatMap postorder ++ [n] := by
  obtain ⟨info, form⟩ := n
  have hparts := map_eq_of_forall₂ (f := Prod.snd) (g := postorder)
    (((action_lifts postorder form).children).imp fun part n h => congrArg Prod.snd h)
  rw [postorder, fold_mk, mapParts_fst, List.flatMap_def, ← postorder, hparts]
  rfl

theorem size_eq (n : Node) : n.size = 1 + (n.children.map size).sum := by
  obtain ⟨info, form⟩ := n
  rw [size, fold_mk, Form.children_mapParts, List.foldl_map, ← size]
  exact (List.foldl_map (f := size)).symm.trans List.foldl_eq_apply_foldr

theorem length_postorder_eq (n : Node) :
    n.postorder.length = (n.action.children.map fun m => m.postorder.length).sum + 1 := by
  rw [postorder_eq, List.length_append, List.length_flatMap]
  rfl

theorem writtenPatterns_eq (n : Node) :
    n.writtenPatterns =
      (n.children.map writtenPatterns).sum + if n.comparesText then 1 else 0 := by
  rw [writtenPatterns, nodes_eq, List.countP_cons, List.countP_flatMap]
  rfl

/-- Every node has an instruction, but for the patterns that are written out. -/
theorem length_postorder (n : Node) : n.postorder.length + n.writtenPatterns = n.size := by
  induction n using Node.induction with
  | step n ih =>
      rw [length_postorder_eq, writtenPatterns_eq, size_eq]
      rcases n.action_cases with
        ⟨hplain, hlayer⟩ | ⟨hlike, left, right, pattern, hparts, htext, _, haction⟩
      · have hall : n.action.children = n.children := by
          rw [hlayer]
          rfl
        -- The sizes of the parts, added up, by the induction hypothesis.
        have hsum : (n.children.map size).sum =
            (n.children.map fun m => m.postorder.length).sum +
              (n.children.map writtenPatterns).sum := by
          rw [← List.sum_map_add]
          exact congrArg List.sum (List.map_congr_left fun m hm => (ih m hm).symm)
        rw [hall, hplain, hsum]
        simp only [Bool.false_eq_true, if_false]
        omega
      · -- The pattern is a node of its own, which has no instruction.
        have hleft := ih left (by simp [hparts])
        have hnone : right.children = [] := by simp [children, htext, Form.children]
        have hsize : right.size = 1 := by simp [size_eq, hnone]
        have hright : right.writtenPatterns = 0 := by
          simp [writtenPatterns_eq, hnone, comparesText, htext]
        simp only [hparts, haction, hlike, Action.children, List.map_cons, List.map_nil,
          List.sum_cons, List.sum_nil, hsize, hright, if_true]
        omega

end Node

/-! ### References that are followed

Following references is bounded by a depth, as a reference could point anywhere. That the references
of a pool point back makes its length deep enough, and what the bound would be filled with does not
matter. -/

/-- What the instructions of an expression say of it: of every node, whether it yields one value,
its canonical text and what is done with its parts. -/
inductive ActionTree where
  | mk (isScalar : Bool) (source : String) (action : Action ActionTree)

/-- The tree of an expression. Patterns that are written out belong to their comparisons
(`Node.action_cases`). -/
def Node.tree : Node → ActionTree :=
  fold fun info form => .mk info.isScalar info.source
    ((Action.ofForm (fun part => Pool.patternOf? part.1) form).mapParts Prod.snd)

theorem Node.tree_eq (n : Node) : n.tree = .mk n.isScalar n.source (n.action.mapParts tree) := by
  obtain ⟨info, form⟩ := n
  have hparts := Action.Lifts.mapParts_eq (f := Prod.snd) (g := tree)
    ((action_lifts tree form).of_same (R := .same fun part n => part.2 = tree n) fun part n h => by
      subst h
      exact ⟨rfl, rfl, rfl, rfl, rfl⟩)
  rw [tree, fold_mk, ← tree, hparts]
  rfl

namespace Pool

/-- What is found by following references from a place to this depth. Where that leads to no
instruction, or deeper, something else is found. -/
def unfold (pool : Pool) (other : OpRef → ActionTree) : Nat → OpRef → ActionTree
  | 0, ref => other ref
  | depth + 1, ref =>
    match pool.get? ref with
    | some instruction =>
      .mk instruction.isScalar instruction.source
        (instruction.op.mapParts (pool.unfold other depth))
    | none => other ref

/-- The evaluation of instructions that looks up every reference in the pool, to this depth.
Where that leads to no instruction, or deeper, it is left to another evaluation. -/
def lookup (pool : Pool) (other : Evaluator OpRef) : Nat → Evaluator OpRef
  | 0 => other
  | depth + 1 =>
    { isScalar ref :=
        match pool.get? ref with
        | some instruction => instruction.isScalar
        | none => other.isScalar ref
      source ref :=
        match pool.get? ref with
        | some instruction => instruction.source
        | none => other.source ref
      scalar ref ctx :=
        match pool.get? ref with
        | some { op, isScalar, source } =>
          actionScalar (pool.lookup other depth) isScalar source op ctx
        | none => other.scalar ref ctx
      values ref ctx :=
        match pool.get? ref with
        | some { op, isScalar, source } =>
          actionValues (pool.lookup other depth) isScalar source op ctx
        | none => other.values ref ctx }

/-- All references from instructions of the pool. -/
def references (pool : Pool) : List OpRef :=
  pool.flatMap fun instruction => instruction.op.references

/-- Every instruction refers to those in front of it only. -/
def Backward (pool : Pool) : Prop :=
  ∀ place instruction, pool.get? place = some instruction →
    ∀ ref ∈ instruction.op.references, ref < place

end Pool

theorem Op.references_eq (op : Op) : op.references = Action.children op := by
  cases op <;> rfl

/-- The instruction does what the node says, yields one value if the node does, and has its
text. -/
structure Instruction.IsOf (instruction : Instruction) (n : Node) : Prop where
  action : instruction.op.Lifts (.same fun _ _ => True) n.action
  isScalar : instruction.isScalar = n.isScalar
  source : instruction.source = n.source

/-- The references of the instruction are related to the parts of the node if they are so one by
one. -/
theorem Instruction.IsOf.lifts {instruction : Instruction} {n : Node} {S : OpRef → Node → Prop}
    (h : instruction.IsOf n)
    (hparts : ∀ ref m, (ref, m) ∈ instruction.op.references.zip n.action.children → S ref m) :
    instruction.op.Lifts (.same S) n.action := by
  rw [Op.references_eq] at hparts
  exact h.action.of_children (List.forall₂_iff_zip.mpr
    ⟨h.action.children.length_eq, fun {ref m} hmem => hparts ref m hmem⟩)

namespace Pool

variable {pool : Pool} {ref : OpRef} {n : Node}

/-- The instruction at the place is that of the node, and the places it refers to hold the parts
of the node. -/
inductive Holds (pool : Pool) : OpRef → Node → Prop where
  | mk {ref : OpRef} {n : Node} {instruction : Instruction}
      (get : pool.get? ref = some instruction) (isOf : instruction.IsOf n)
      (before : ∀ part ∈ instruction.op.references, part < ref)
      (parts : ∀ part m, (part, m) ∈ instruction.op.references.zip n.action.children →
        Holds pool part m) : Holds pool ref n

theorem get?_length (instruction : Instruction) (pool : Pool) :
    get? (instruction :: pool) pool.length = some instruction := by
  simp [get?]

/-- Instructions in front keep their places. -/
theorem get?_append (added : List Instruction) (h : ref < pool.length) :
    get? (added ++ pool) ref = pool.get? ref := by
  simp [get?, List.getElem?_append_left, h]

theorem lt_of_get?_eq_some {instruction : Instruction} (h : pool.get? ref = some instruction) :
    ref < pool.length := by
  rw [get?] at h
  simpa using (List.getElem?_eq_some_iff.mp h).1

/-- What a place holds is kept by all that is added. -/
theorem Holds.append (added : List Instruction) (h : pool.Holds ref n) :
    Holds (added ++ pool) ref n := by
  induction h with
  | mk get isOf before _ ih =>
      exact .mk ((get?_append added (lt_of_get?_eq_some get)).trans get) isOf before ih

/-- What holds of an instruction whenever it holds, one level less deep, of all that it refers to
holds of what a place holds, to any depth beyond the place. -/
theorem Holds.induction {S : Nat → OpRef → Node → Prop}
    (step : ∀ depth ref n instruction, pool.get? ref = some instruction → instruction.IsOf n →
      instruction.op.Lifts (.same (S depth)) n.action → S (depth + 1) ref n)
    (h : pool.Holds ref n) {depth : Nat} (hdepth : ref < depth) : S depth ref n := by
  induction h generalizing depth with
  | @mk ref n instruction get isOf before _ ih =>
      obtain ⟨depth, rfl⟩ := Nat.exists_eq_succ_of_ne_zero (Nat.ne_zero_of_lt hdepth)
      refine step depth ref n instruction get isOf (isOf.lifts fun part m hmem => ?_)
      have hbefore := before part (List.of_mem_zip hmem).1
      exact ih part m hmem (Nat.lt_of_lt_of_le hbefore (Nat.le_of_lt_succ hdepth))

/-- What a place holds is found from there. -/
theorem Holds.unfold (other : OpRef → ActionTree) (h : pool.Holds ref n) {depth : Nat}
    (hdepth : ref < depth) : pool.unfold other depth ref = n.tree := by
  refine h.induction (S := fun depth ref n => pool.unfold other depth ref = n.tree) ?_ hdepth
  intro depth ref n instruction hget hisOf hparts
  rw [Pool.unfold, hget, Node.tree_eq]
  simp only [hparts.mapParts_eq, hisOf.isScalar, hisOf.source]

/-- What a place holds is evaluated from there. -/
theorem Holds.lookup (other : Evaluator OpRef) (h : pool.Holds ref n) {depth : Nat}
    (hdepth : ref < depth) : Evaluator.Same (pool.lookup other depth) Node.evaluator ref n := by
  refine h.induction (S := fun depth => Evaluator.Same (pool.lookup other depth) Node.evaluator)
    ?_ hdepth
  intro depth ref n instruction hget hisOf hparts
  refine ⟨?_, ?_, funext fun ctx => ?_, funext fun ctx => ?_⟩
  · simp only [Pool.lookup, hget]
    exact hisOf.isScalar
  · simp only [Pool.lookup, hget]
    exact hisOf.source
  · simp only [Pool.lookup, hget]
    rw [hisOf.isScalar, hisOf.source]
    exact (Evaluator.Same.actionScalar hparts _ _ ctx).trans (n.scalar_eq ctx).symm
  · simp only [Pool.lookup, hget]
    rw [hisOf.isScalar, hisOf.source]
    exact (Evaluator.Same.actionValues hparts _ _ ctx).trans (n.values_eq ctx).symm

/-- An added instruction that refers to those in front of it keeps all references backward. -/
theorem Backward.cons {instruction : Instruction} (h : pool.Backward)
    (hrefs : ∀ ref ∈ instruction.op.references, ref < pool.length) :
    Backward (instruction :: pool) := by
  intro place found hfound ref href
  rcases Nat.lt_or_eq_of_le (Nat.le_of_lt_succ (lt_of_get?_eq_some hfound)) with hlt | rfl
  · exact h place found ((get?_append [instruction] hlt).symm.trans hfound) ref href
  · rw [get?_length] at hfound
    obtain rfl := Option.some.inj hfound
    exact hrefs ref href

/-! ### Nodes in a row

What is shown of a writer is what it has added: instructions for these nodes, each with the
references of its parts, every new place but those of the row referred to once. -/

/-- What these nodes, written one after the other, add to a pool. -/
structure Lays (base : Pool) (ns : List Node) (refs : List OpRef) (added : Pool) : Prop where
  /-- Every added instruction is that of a node. -/
  stems : List.Forall₂ Instruction.IsOf added.inOrder (ns.flatMap Node.postorder)
  /-- Every added instruction is referred to once, by an added instruction or from outside. -/
  linear : (added.references ++ refs).Perm (List.range' base.length added.length)
  backward : base.Backward → Backward (added ++ base)
  holds : List.Forall₂ (Holds (added ++ base)) refs ns

namespace Lays

variable {base added : Pool} {ns : List Node} {refs : List OpRef}

theorem nil : Lays base [] [] [] := ⟨.nil, .nil, id, .nil⟩

/-- A node and then further nodes. -/
theorem cons {added' : Pool} (h : Lays base [n] [ref] added)
    (h' : Lays (added ++ base) ns refs added') :
    Lays base (n :: ns) (ref :: refs) (added' ++ added) where
  stems := by
    have hhead := h.stems
    rw [List.flatMap_singleton] at hhead
    rw [inOrder, List.reverse_append, List.flatMap_cons]
    exact List.rel_append hhead h'.stems
  -- What the first node adds is referred to by itself, and so is what the others add.
  linear := calc
    (added' ++ added).references ++ ref :: refs
    _ = added'.references ++ (added.references ++ [ref]) ++ refs := by simp [references]
    _ ~ added.references ++ [ref] ++ added'.references ++ refs :=
        List.perm_append_comm.append_right refs
    _ = added.references ++ [ref] ++ (added'.references ++ refs) := List.append_assoc ..
    _ ~ List.range' base.length added.length ++
          List.range' (added ++ base).length added'.length := h.linear.append h'.linear
    _ = List.range' base.length (added' ++ added).length := by
        rw [List.length_append, List.length_append, Nat.add_comm added.length base.length,
          List.range'_append_1, Nat.add_comm added.length]
  backward hbase := by
    rw [List.append_assoc]
    exact h'.backward (h.backward hbase)
  holds := by
    rw [List.append_assoc]
    exact .cons ((List.forall₂_cons.mp h.holds).1.append added') h'.holds

theorem lt_length (h : Lays base ns refs added) : ∀ ref ∈ refs, ref < (added ++ base).length := by
  intro ref href
  have hmem := h.linear.subset (List.mem_append_right _ href)
  rw [List.length_append, Nat.add_comm]
  exact (List.mem_range'_1.mp hmem).2

/-- A node behind its parts. -/
theorem node {n : Node} {op : Op} (h : Lays base n.action.children op.references added)
    (haction : op.Lifts (.same fun _ _ => True) n.action) :
    Lays base [n] [(added ++ base).length]
      ({ op, isScalar := n.isScalar, source := n.source } :: added) := by
  have hisOf : Instruction.IsOf { op, isScalar := n.isScalar, source := n.source } n :=
    ⟨haction, rfl, rfl⟩
  exact {
    stems := by
      rw [List.flatMap_singleton, Node.postorder_eq, inOrder, List.reverse_cons]
      exact List.rel_append h.stems (.cons hisOf .nil)
    linear := calc
      references ({ op, isScalar := n.isScalar, source := n.source } :: added) ++
          [(added ++ base).length]
      _ = op.references ++ added.references ++ [(added ++ base).length] := rfl
      _ ~ added.references ++ op.references ++ [(added ++ base).length] :=
          List.perm_append_comm.append_right _
      _ ~ List.range' base.length added.length ++ [(added ++ base).length] :=
          h.linear.append_right _
      _ = List.range' base.length (added.length + 1) := by
          rw [List.length_append, Nat.add_comm added.length, List.range'_1_concat]
    backward := fun hbase => (h.backward hbase).cons h.lt_length
    holds := by
      refine .cons (.mk (get?_length _ _) hisOf h.lt_length fun part m hmem => ?_) .nil
      exact ((List.forall₂_iff_zip.mp h.holds).2 hmem).append [_] }

end Lays

/-- Nodes are laid one after the other if each of them is. -/
theorem mapM_writeNode_lays {ns : List Node}
    (h : ∀ n ∈ ns, ∀ base, ∃ added, ((writeNode n).run base).2 = added ++ base ∧
      Lays base [n] [((writeNode n).run base).1] added) (base : Pool) :
    ∃ added, ((ns.mapM writeNode).run base).2 = added ++ base ∧
      Lays base ns ((ns.mapM writeNode).run base).1 added := by
  induction ns generalizing base with
  | nil => exact ⟨[], rfl, .nil⟩
  | cons n rest ih =>
      obtain ⟨added, hadded, hlays⟩ := h n (List.mem_cons_self ..) base
      obtain ⟨added', hadded', hlays'⟩ :=
        ih (fun m hm => h m (List.mem_cons_of_mem _ hm)) (added ++ base)
      rw [run_mapM_cons, hadded]
      exact ⟨added' ++ added, by rw [hadded', List.append_assoc], hlays.cons hlays'⟩

/-- Writing a node lays it. -/
theorem writeNode_lays (n : Node) (base : Pool) :
    ∃ added, ((writeNode n).run base).2 = added ++ base ∧
      Lays base [n] [((writeNode n).run base).1] added := by
  induction n using Node.induction generalizing base with
  | step n ih =>
      obtain ⟨hstate, hrefs, haction⟩ := writeOp_run writeNode n base
      obtain ⟨added, hadded, hlays⟩ :=
        mapM_writeNode_lays (fun m hm => ih m (Node.mem_children_of_action hm)) base
      rw [← hrefs, ← Op.references_eq] at hlays
      rw [← hstate] at hadded
      rw [writeNode_run, hadded]
      exact ⟨_ :: added, rfl, hlays.node haction⟩

end Pool

/-! ### Whole expressions -/

namespace Node

/-- An expression is laid by its instructions. -/
theorem flatten_lays (n : Node) : Pool.Lays [] [n] [n.flatten.root] n.flatten := by
  obtain ⟨added, hadded, hlays⟩ := Pool.writeNode_lays n []
  rw [List.append_nil] at hadded
  rw [Pool.writeNode_root] at hlays
  subst hadded
  exact hlays

theorem flatten_holds (n : Node) : n.flatten.Holds n.flatten.root n := by
  have hholds := (List.forall₂_cons.mp n.flatten_lays.holds).1
  rwa [List.append_nil] at hholds

theorem length_flatten (n : Node) : n.flatten.length = n.flatten.root + 1 := by
  have hlt := n.flatten_lays.lt_length _ (List.mem_singleton_self _)
  rw [List.append_nil] at hlt
  exact (Nat.sub_add_cancel (Nat.zero_lt_of_lt hlt)).symm

/-- Every place but the last is referred to, and only once. -/
theorem references_flatten (n : Node) : n.flatten.references ~ List.range n.flatten.root := by
  have hlinear := n.flatten_lays.linear
  rw [length_flatten, List.length_nil, List.range'_1_concat, Nat.zero_add,
    ← List.range_eq_range'] at hlinear
  exact (List.perm_append_right_iff _).mp hlinear

end Node

/-- Flattening (`Node.flatten`) is faithful. The place of an expression is the last of its pool,
every instruction refers to earlier places only, and every place but the last is referred to once.
The instructions are those of the nodes, each after those of its parts, one for each node but for
patterns that are written out. Two stores, of operations and of texts, are filled in step with them,
and the texts are those of the nodes. Following the references from the last place gives back the
tree of the expression, and evaluates it, whatever other places may stand for and however deep they
may be followed beyond the length of the pool.

Places are counted without limit (`OpRef`). All of them are below the length of the pool, so
numbers of 32 bits hold them as long as this length is at most `2 ^ 32`. -/
theorem flatten_rebuilds (n : Node) :
    (Pool.writeNode n).run [] = (n.flatten.root, n.flatten) ∧
      n.flatten.length = n.flatten.root + 1 ∧ n.flatten.Backward ∧
      (∀ ref, n.flatten.references.count ref = if ref < n.flatten.root then 1 else 0) ∧
      List.Forall₂ Instruction.IsOf n.flatten.inOrder n.postorder ∧
      (Stores.writeNode n).run .empty = (n.flatten.root, .ofPool n.flatten) ∧
      (Stores.ofPool n.flatten).sources.toList = n.postorder.map Node.source ∧
      (∀ ref, (Stores.ofPool n.flatten).get? ref = n.flatten.get? ref) ∧
      n.flatten.length + n.writtenPatterns = n.size ∧
      (∀ other depth, n.flatten.length ≤ depth →
        n.flatten.unfold other depth n.flatten.root = n.tree) ∧
      ∀ other depth, n.flatten.length ≤ depth → ∀ ctx,
        (n.flatten.lookup other depth).scalar n.flatten.root ctx = n.flatten.evalScalar ctx ∧
          (n.flatten.lookup other depth).values n.flatten.root ctx = n.flatten.evalValues ctx := by
  -- All of it is read off how the nodes lie in the pool, one behind its parts.
  have hlays := n.flatten_lays
  have hstems := hlays.stems
  rw [List.flatMap_singleton] at hstems
  have hroot : ∀ depth, n.flatten.length ≤ depth → n.flatten.root < depth := by
    intro depth hdepth
    rwa [n.length_flatten] at hdepth
  refine ⟨Prod.ext (Pool.writeNode_root n []) rfl, n.length_flatten, ?_, fun ref => ?_, hstems,
    ?_, ?_, Stores.get?_ofPool n.flatten, ?_, fun other depth hdepth => ?_,
    fun other depth hdepth ctx => ?_⟩
  · have hbackward := hlays.backward fun place instruction h => by simp [Pool.get?] at h
    rwa [List.append_nil] at hbackward
  · rw [n.references_flatten.count_eq, List.nodup_range.count]
    simp only [List.mem_range]
  · have hstores := Stores.writeNode_run n []
    rw [Pool.writeNode_root] at hstores
    exact hstores
  · exact map_eq_of_forall₂ (hstems.imp fun _ _ h => h.source)
  · rw [← n.length_postorder, ← hstems.length_eq, Pool.inOrder, List.length_reverse]
  · exact n.flatten_holds.unfold other (hroot depth hdepth)
  · have hsame := n.flatten_holds.lookup other (hroot depth hdepth)
    rw [n.flatten_scalar, n.flatten_values, hsame.scalar, hsame.values]
    exact ⟨rfl, rfl⟩

example : ((parse "name LIKE 'J%'" .root .full).map fun n =>
    (n.size, n.writtenPatterns, n.flatten.length, n.flatten.references)).toOption =
      some (3, 1, 2, [0]) := by decide +kernel

end DocQuery
