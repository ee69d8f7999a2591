import DocQuery.Proofs.Forms
import Mathlib.Data.List.Forall2
/-!
# DocQuery.Proofs.Discipline

The discipline of cardinalities. Every place of a layer asks its part for one value, for
a sequence, or for either, and a node says of itself how many values it yields.
`Form.Disciplined` is what these have to do with each other in one layer, and a node is
`Disciplined` if that holds of every node within it.

Parts that are evaluated for each element of a sequence, namely the selector of a map,
predicates and sort keys, may yield either; what an evaluation asks of them is left to
it.
-/

namespace DocQuery

/-- The part yields as many values as a function asks for in a place. -/
def Cardinality.Admits (c : Cardinality) (n : Node) : Prop :=
  n.isScalar = decide (c = .scalar)

/-- The parts of a layer yield as many values as their places ask for, and the layer
yields as many as is known of it. -/
def Form.Disciplined (info : NodeInfo) : Form Node → Prop
  | .constant _ | .parameter _ | .generate _ _ => info.isScalar = true
  | .documents => info.isScalar = false
  | .document entries =>
    info.isScalar = true ∧ ∀ part ∈ entries.map Prod.snd, part.isScalar = true
  | .array items => info.isScalar = true ∧ ∀ item ∈ items, item.isScalar = true
  | .path _ steps =>
    info.isScalar = !steps.any PathStep.isEnumerable ∧
      steps.dropLast.any PathStep.isEnumerable = false ∧
      ∀ part, .indexOf part ∈ steps → part.isScalar = true
  | .map source _ | .filter source _ => info.isScalar = false ∧ source.isScalar = false
  | .sort source _ order =>
    info.isScalar = false ∧ source.isScalar = false ∧ ∀ part ∈ order, part.isScalar = true
  | .call function args =>
    info.isScalar = function.isScalar ∧
      List.Forall₂ Cardinality.Admits function.signature.params args
  | .binary _ left right | .logic _ left right =>
    info.isScalar = true ∧ left.isScalar = true ∧ right.isScalar = true
  | .quantified _ _ left right =>
    info.isScalar = true ∧ left.isScalar = false ∧ right.isScalar = true
  | .conditional test ifTrue ifFalse =>
    test.isScalar = true ∧ ifTrue.isScalar = info.isScalar ∧ ifFalse.isScalar = info.isScalar

namespace Node

/-- A node and everything within it. -/
inductive Within (n : Node) : Node → Prop where
  | self : Within n n
  | part {m part : Node} (h : Within n m) (hpart : part ∈ m.children) : Within n part

theorem Within.trans {a b c : Node} (h : a.Within b) (h' : b.Within c) : a.Within c := by
  induction h' with
  | self => exact h
  | part _ hpart ih => exact ih.part hpart

/-- What is within a node is the node, or is within one of its parts. -/
theorem within_iff {n m : Node} : n.Within m ↔ m = n ∨ ∃ part ∈ n.children, part.Within m := by
  constructor
  · intro h
    induction h with
    | self => exact .inl rfl
    | @part m part _ hpart ih =>
        rcases ih with rfl | ⟨p, hp, hm⟩
        · exact .inr ⟨part, hpart, .self⟩
        · exact .inr ⟨p, hp, hm.part hpart⟩
  · rintro (rfl | ⟨part, hpart, h⟩)
    · exact .self
    · exact (Within.self.part hpart).trans h

/-- What holds of everything within a node holds of the node and of everything within its parts. -/
theorem forall_within {P : Node → Prop} {n : Node} :
    (∀ m, n.Within m → P m) ↔ P n ∧ ∀ part ∈ n.children, ∀ m, part.Within m → P m := by
  constructor
  · intro h
    exact ⟨h n .self, fun part hpart m hm => h m ((Within.self.part hpart).trans hm)⟩
  · rintro ⟨hself, hparts⟩ m hm
    rcases within_iff.mp hm with rfl | ⟨part, hpart, hm⟩
    · exact hself
    · exact hparts part hpart m hm

/-- Every node within the expression keeps the discipline of cardinalities. -/
def Disciplined (n : Node) : Prop := ∀ m, n.Within m → m.form.Disciplined m.info

theorem Disciplined.form {n : Node} (h : n.Disciplined) : n.form.Disciplined n.info := h n .self

theorem Disciplined.within {n m : Node} (h : n.Disciplined) (hm : n.Within m) : m.Disciplined :=
  fun _ hk => h _ (hm.trans hk)

theorem Disciplined.part {n part : Node} (h : n.Disciplined) (hpart : part ∈ n.children) :
    part.Disciplined :=
  h.within (Within.self.part hpart)

/-- The discipline of a node is that of its layer and of its parts. -/
theorem disciplined_iff {n : Node} :
    n.Disciplined ↔ n.form.Disciplined n.info ∧ ∀ part ∈ n.children, part.Disciplined :=
  forall_within

end Node

end DocQuery
