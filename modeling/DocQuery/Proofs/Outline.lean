import DocQuery.Proofs.Meaning
import DocQuery.Proofs.Sites
/-!
# DocQuery.Proofs.Outline

What the canonical text of an expression tells of it. An expression is evaluated as its
outline is: its layers and what yields one value, without the texts, the fields and the
offsets (`Node.alike_of_outline`).

Read from its canonical text, an expression is not always what it was. A path that has been
coerced to a sequence is written with `[*]`, and what this reads as takes the elements of an
array only; a path from a field with the empty name loses that step. `Node.reread` makes these
changes. One kind of expressions cannot be read again at all: a range whose bounds have become
the left side of a quantified comparison (`Node.keepsBounds`).
-/

namespace DocQuery

/-- The error without the text of the part that it is about. -/
def EvalError.kind : EvalError → EvalError
  | .notScalar _ => .notScalar ""
  | .noRootDocument _ => .noRootDocument ""
  | .indexNotNumber _ => .indexNotNumber ""
  | e => e

/-- The errors are the same but for the text of a part. -/
def EvalError.SameKind : ErrorRel := fun e e' => e.kind = e'.kind

/-! ### Reading an expression again -/

namespace PathStep

variable {ν μ : Type}

/-- The step as it is read from its text. -/
def reread : PathStep ν → PathStep ν
  | .items => .all
  | step => step

@[simp] theorem children_reread (step : PathStep ν) : step.reread.children = step.children := by
  cases step <;> rfl

theorem map_reread (f : ν → μ) (step : PathStep ν) : step.reread.map f = (step.map f).reread := by
  cases step <;> rfl

end PathStep

/-- The steps of a path as they are read: a first field with the empty name is no step. -/
def rereadFirst {ν : Type} : List (PathStep ν) → List (PathStep ν)
  | .member name :: rest => if name.isEmpty then rest else .member name :: rest
  | steps => steps

namespace Node

/-- A sequence as it is read from its text: a coerced path with `[*]` in the end. -/
def rereadSequence : Node → Node
  | .mk info (.path root steps) => .mk info (.path root (steps.map PathStep.reread))
  | n => n

@[simp] theorem info_rereadSequence (n : Node) : n.rereadSequence.info = n.info := by
  obtain ⟨info, form⟩ := n
  cases form <;> rfl

end Node

/-- A layer as it is read from its text, around parts that have been read. -/
def Form.reread : Form Node → Form Node
  | .path root steps => .path root (rereadFirst steps)
  | .map source selector => .map source.rereadSequence selector
  | .filter source predicate => .filter source.rereadSequence predicate
  | .sort source key order => .sort source.rereadSequence key order
  | .quantified quantifier op left right =>
    .quantified quantifier op left.rereadSequence right
  | form => form

/-- A pair of bounds stands on the left of a quantified operator, and what this yields in the
place of the bounds of a range. -/
def Form.losesBounds {ν : Type} (isQuantified : ν → Bool) : Form ν → Bool
  | .quantified _ .between _ right => isQuantified right
  | _ => false

/-- What an outline tells of a layer. -/
def NodeInfo.outline (info : NodeInfo) : NodeInfo :=
  { type := .null, isScalar := info.isScalar, isImmutable := false, usesSource := false
    fields := .empty, source := "" }

namespace Node

/-- The expression as it is read from its canonical text, with what was known of it. -/
def reread : Node → Node := fold fun info form => .mk info (form.mapParts Prod.snd).reread

theorem reread_mk (info : NodeInfo) (form : Form Node) :
    (mk info form).reread = mk info (form.mapParts reread).reread := by
  rw [reread, fold_mk, Form.mapParts_mapParts]

@[simp] theorem info_reread (n : Node) : n.reread.info = n.info := by
  obtain ⟨info, form⟩ := n
  rw [reread_mk]
  rfl

/-- A comparison with each element of a sequence. -/
def isQuantified (n : Node) : Bool :=
  match n.form with
  | .quantified _ _ _ _ => true
  | _ => false

/-- Wherever bounds are asked for in the canonical text, bounds are written. -/
def keepsBounds : Node → Bool :=
  fold fun _ form =>
    !form.losesBounds (fun part => part.1.isQuantified) && form.children.all Prod.snd

theorem keepsBounds_mk (info : NodeInfo) (form : Form Node) :
    (mk info form).keepsBounds =
      (!form.losesBounds isQuantified && form.children.all keepsBounds) := by
  rw [keepsBounds, fold_mk, Form.children_mapParts, List.all_map]
  congr 2
  cases form with
  | quantified quantifier op left right => cases op <;> rfl
  | _ => rfl

/-! ### Outlines -/

/-- The layers of the expression and which of them yield one value. -/
def outline : Node → Node :=
  fold fun info form => .mk info.outline (form.mapParts Prod.snd).eraseSite

theorem outline_mk (info : NodeInfo) (form : Form Node) :
    (mk info form).outline = mk info.outline (form.mapParts outline).eraseSite := by
  rw [outline, fold_mk, Form.mapParts_mapParts]

theorem mapParts_eraseSite {ν μ : Type} (f : ν → μ) (form : Form ν) :
    form.eraseSite.mapParts f = (form.mapParts f).eraseSite := by
  cases form <;> rfl

theorem eraseSite_eraseSite {ν : Type} (form : Form ν) :
    form.eraseSite.eraseSite = form.eraseSite := by
  cases form <;> rfl

/-- The outline knows nothing of the offsets of generators. -/
theorem outline_unsited (n : Node) : n.unsited.outline = n.outline := by
  induction n using Node.induction with
  | step n ih =>
      obtain ⟨info, form⟩ := n
      have hparts : form.mapParts (fun part => part.unsited.outline) = form.mapParts outline :=
        Form.mapParts_congr ih
      rw [unsited_mk, outline_mk, outline_mk, mapParts_eraseSite, eraseSite_eraseSite,
        Form.mapParts_mapParts, hparts]

/-- No generator is called in the expression. -/
def isSteady : Node → Bool :=
  fold fun _ form =>
    (match form with
      | .generate _ _ => false
      | _ => true) && form.children.all Prod.snd

theorem isSteady_mk (info : NodeInfo) (form : Form Node) :
    (mk info form).isSteady =
      ((match form with
        | .generate _ _ => false
        | _ => true) && form.children.all isSteady) := by
  rw [isSteady, fold_mk, Form.children_mapParts, List.all_map]
  cases form <;> rfl

/-- Without generators there is no offset to forget. -/
theorem unsited_of_isSteady {n : Node} (h : n.isSteady = true) : n.unsited = n := by
  induction n using Node.induction with
  | step n ih =>
      obtain ⟨info, form⟩ := n
      rw [isSteady_mk, Bool.and_eq_true, List.all_eq_true] at h
      have hparts : form.mapParts unsited = form :=
        (Form.mapParts_congr fun part hpart => ih part hpart (h.2 part hpart)).trans
          form.mapParts_id
      rw [unsited_mk, hparts]
      cases form with
      | generate generator site => cases h.1
      | _ => rfl

theorem isSteady_unsited (n : Node) : n.unsited.isSteady = n.isSteady := by
  induction n using Node.induction with
  | step n ih =>
      obtain ⟨info, form⟩ := n
      have hparts : (form.mapParts unsited).children.all isSteady = form.children.all isSteady := by
        rw [Form.children_mapParts, List.all_map]
        rw [Bool.eq_iff_iff, List.all_eq_true, List.all_eq_true]
        exact forall₂_congr fun part hpart => by rw [Function.comp, ih part hpart]
      rw [unsited_mk, isSteady_mk, isSteady_mk, Form.children_eraseSite, hparts]
      cases form <;> rfl

/-- Without generators, what is the same but for offsets is the same. -/
theorem eq_of_unsited {n m : Node} (h : n.unsited = m.unsited) (hm : m.isSteady = true) :
    n = m := by
  have hn : n.isSteady = true := by rw [← isSteady_unsited, h, isSteady_unsited, hm]
  rw [← unsited_of_isSteady hn, h, unsited_of_isSteady hm]

/-! ### Evaluation by outlines -/

/-- The evaluations of two expressions agree, but for the texts that errors name. -/
structure Alike (n m : Node) : Prop where
  isScalar : n.isScalar = m.isScalar
  pattern : Pool.patternOf? n = Pool.patternOf? m
  scalar : ∀ ctx, Agree EvalError.SameKind (n.scalar ctx) (m.scalar ctx)
  values : ∀ ctx, AgreeAll EvalError.SameKind (n.values ctx) (m.values ctx)

/-- Two expressions side by side in the same context. -/
def likewise : Setting Node Node :=
  .together evaluator evaluator EvalError.SameKind fun _ _ => rfl

theorem Alike.meets (one : Bool) {n m : Node} (h : n.Alike m) :
    (likewise.places one).Meets n m := by
  have hscalar : likewise.ScalarAgree n m := by
    rintro c c' rfl
    exact h.scalar c
  have hvalues : likewise.ValuesAgree n m := by
    rintro c c' rfl
    exact h.values c
  refine ⟨hscalar, hvalues, ⟨h.isScalar, fun _ => hscalar, fun _ => hvalues⟩, ?_, hscalar, rfl⟩
  cases one <;> assumption

/-- Two layers of the same kind that yield as many values, with parts that are alike in the
same places, are alike. -/
theorem Alike.of_lifts {n m : Node} (hscalar : n.isScalar = m.isScalar)
    (hpattern : Pool.patternOf? n = Pool.patternOf? m) (h : n.form.Lifts (.same Alike) m.form) :
    n.Alike m := by
  have haction : n.action.Lifts (.same Alike) m.action :=
    Action.lifts_ofForm (fun _ _ hab => hab.pattern) h
  have hmeets (one : Bool) : n.action.Lifts (likewise.places one) m.action :=
    haction.of_same fun _ _ hab => hab.meets one
  have hground (c : Context) : n.action.Grounded EvalError.SameKind c c m.action :=
    Pool.Evaluator.Same.grounded (K := EvalError.SameKind) (fun _ => rfl) c haction
  refine ⟨hscalar, hpattern, fun ctx => ?_, fun ctx => ?_⟩
  · rw [scalar_eq, scalar_eq, ← hscalar]
    exact likewise.actionScalar_agree (hmeets _) rfl (hground ctx) fun _ => rfl
  · rw [values_eq, values_eq, ← hscalar]
    exact likewise.actionValues_agree (hmeets _) rfl (hground ctx) fun _ => rfl

theorem patternOf_outline (n : Node) : Pool.patternOf? n.outline = Pool.patternOf? n := by
  obtain ⟨info, form⟩ := n
  rw [outline_mk]
  cases form <;> rfl

/-- An expression without generators is evaluated as its outline says. -/
theorem alike_of_outline {n m : Node} (hsteady : n.isSteady = true) (h : n.outline = m.outline) :
    n.Alike m := by
  induction n using Node.induction generalizing m with
  | step n ih =>
      have hpattern : Pool.patternOf? n = Pool.patternOf? m := by
        rw [← patternOf_outline, h, patternOf_outline]
      obtain ⟨info, form⟩ := n
      obtain ⟨info', form'⟩ := m
      rw [isSteady_mk, Bool.and_eq_true, List.all_eq_true] at hsteady
      rw [outline_mk, outline_mk] at h
      injection h with hinfo hform
      have hforms : form.mapParts outline = form'.mapParts outline := by
        cases form with
        | generate generator site => cases hsteady.1
        | _ => cases form' <;> first | exact hform | cases hform
      have hleft : (form.mapParts outline).Lifts
          (.same fun o a => ∀ b : Node, o = b.outline → a.Alike b) form :=
        Form.lifts_mapParts (S := fun (a : Node) o => ∀ b : Node, o = b.outline → a.Alike b)
          fun a ha b hb => ih a ha (hsteady.2 a ha) hb
      have hright : (form'.mapParts outline).Lifts (.same fun o b => o = b.outline) form' :=
        Form.lifts_mapParts (S := fun (b : Node) o => o = b.outline) fun b _ => rfl
      rw [← hforms] at hright
      have hscalar : info.outline.isScalar = info'.outline.isScalar :=
        congrArg NodeInfo.isScalar hinfo
      refine .of_lifts hscalar hpattern ?_
      exact hleft.symm.trans (fun a o b ha hb => ha b hb) hright

end Node

end DocQuery
