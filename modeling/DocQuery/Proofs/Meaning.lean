import DocQuery.Pool.Flatten
import DocQuery.Proofs.Setting
/-!
# DocQuery.Proofs.Meaning

What an expression means: an evaluator of nodes that goes down the tree and needs no
list of instructions and no plan. It is the common reference of both backends.

`Node.evaluator` is a fold, and `Node.scalar_eq` and `Node.values_eq` are the equations
by which it is reasoned about: a node is evaluated as its action says, with the
evaluator itself for the parts. Two evaluators that do the same with all parts of an
action do the same with the action (`Evaluator.Same.action`).
-/

namespace DocQuery

open Pool (Evaluator)

variable {ν μ : Type}

/-! ### Evaluators that do the same -/

namespace Pool.Evaluator

/-- The two evaluators do the same with these parts. -/
structure Same (P : Evaluator ν) (Q : Evaluator μ) (a : ν) (b : μ) : Prop where
  isScalar : P.isScalar a = Q.isScalar b
  source : P.source a = Q.source b
  scalar : P.scalar a = Q.scalar b
  values : P.values a = Q.values b

/-- Two evaluators in the same context, with equal errors. -/
def exactly (P : Evaluator ν) (Q : Evaluator μ) : Setting ν μ :=
  .together P Q Eq fun _ _ => rfl

namespace Same

variable {P : Evaluator ν} {Q : Evaluator μ}

theorem meets (one : Bool) {a : ν} {b : μ} (h : Same P Q a b) :
    ((exactly P Q).places one).Meets a b := by
  have hscalar : (exactly P Q).ScalarAgree a b := by
    rintro c c' rfl
    exact Agree.of_eq (fun _ => rfl) (congrFun h.scalar c)
  have hvalues : (exactly P Q).ValuesAgree a b := by
    rintro c c' rfl
    exact AgreeAll.of_eq (fun _ => rfl) (congrFun h.values c)
  refine ⟨hscalar, hvalues, ⟨h.isScalar, fun _ => hscalar, fun _ => hvalues⟩, ?_, hscalar, ?_⟩
  · cases one <;> assumption
  · exact congrArg EvalError.indexNotNumber h.source

theorem grounded {K : ErrorRel} (hK : ∀ e, K e e) {R : Places ν μ} (c : Context)
    {action : Action ν} {action' : Action μ} (h : action.Lifts R action') :
    action.Grounded K c c action' := by
  cases h with
  | like | likeEach => trivial
  | layer h =>
      cases h with
      | parameter | documents | generate => rfl
      | path root h =>
          refine Agree.of_eq hK (congrArg _ ?_)
          cases h with
          | nil => rfl
          | cons hstep _ => cases hstep <;> rfl
      | _ => trivial

variable {action : Action ν} {action' : Action μ} (h : action.Lifts (.same (Same P Q)) action')

include h

theorem actionScalar (one : Bool) (source : String) (c : Context) :
    Pool.actionScalar P one source action c = Pool.actionScalar Q one source action' c :=
  Agree.eq_of_agree ((exactly P Q).actionScalar_agree (h.of_same fun _ _ => meets one) rfl
    (grounded (fun _ => rfl) c h) fun _ => rfl)

theorem actionValues (one : Bool) (source : String) (c : Context) :
    Pool.actionValues P one source action c = Pool.actionValues Q one source action' c :=
  AgreeAll.eq_of_agreeAll ((exactly P Q).actionValues_agree (h.of_same fun _ _ => meets one) rfl
    (grounded (fun _ => rfl) c h) fun _ => rfl)

end Same

end Pool.Evaluator

/-! ### The action of a node -/

namespace Action

/-- What is done with the parts of a layer. A comparison with a pattern that is written
out needs no right side. -/
def ofForm (pattern? : ν → Option Text.Glob) : Form ν → Action ν
  | .binary (.comparison .like) left right =>
    match pattern? right with
    | some pattern => .like none left pattern
    | none => .layer (.binary (.comparison .like) left right)
  | .quantified quantifier .like left right =>
    match pattern? right with
    | some pattern => .like (some quantifier) left pattern
    | none => .layer (.quantified quantifier .like left right)
  | form => .layer form

theorem lifts_ofForm {S : ν → μ → Prop} {p : ν → Option Text.Glob} {q : μ → Option Text.Glob}
    (hpq : ∀ a b, S a b → p a = q b) {form : Form ν} {form' : Form μ}
    (h : form.Lifts (.same S) form') : (ofForm p form).Lifts (.same S) (ofForm q form') := by
  have hlayer := Lifts.layer h
  cases h with
  | @binary op _ _ _ right' hl hr =>
      rcases op with op | op
      · exact hlayer
      · cases op with
        | like =>
            simp only [ofForm, hpq _ _ hr]
            cases q right' with
            | none => exact hlayer
            | some pattern => exact .like pattern hl
        | _ => exact hlayer
  | @quantified quantifier op _ _ _ right' hl hr =>
      cases op with
      | like =>
          simp only [ofForm, hpq _ _ hr]
          cases q right' with
          | none => exact hlayer
          | some pattern => exact .likeEach quantifier pattern hl
      | _ => exact hlayer
  | _ => exact hlayer

/-- What is done with the parts takes no more from two contexts than the layer does. -/
theorem grounded_ofForm {K : ErrorRel} {c c' : Context} (p : ν → Option Text.Glob)
    {form : Form ν} (h : form.Grounded K c c' form) :
    (ofForm p form).Grounded K c c' (ofForm p form) := by
  cases form with
  | binary op left right =>
      rcases op with op | op
      · trivial
      · cases op with
        | like => cases hp : p right <;> simp [ofForm, hp, Action.Grounded, Form.Grounded]
        | _ => trivial
  | quantified quantifier op left right =>
      cases op with
      | like => cases hp : p right <;> simp [ofForm, hp, Action.Grounded, Form.Grounded]
      | _ => trivial
  | _ => exact h

end Action

/-- What is done with the parts of a node. -/
def Node.action (n : Node) : Action Node := .ofForm Pool.patternOf? n.form

/-! ### Meanings -/

/-- The meaning of an expression: its one value and its values in every context. -/
structure Meaning where
  scalar : Context → Except EvalError Value
  values : Context → Results

/-- Nodes with their meanings as parts of a layer. -/
def Meaning.ofParts : Evaluator (Node × Meaning) where
  isScalar part := part.1.isScalar
  source part := part.1.source
  scalar part := part.2.scalar
  values part := part.2.values

/-- The meaning of one layer whose parts come with theirs. -/
def Meaning.ofLayer (info : NodeInfo) (form : Form (Node × Meaning)) : Meaning :=
  let action := Action.ofForm (fun part => Pool.patternOf? part.1) form
  { scalar := Pool.actionScalar ofParts info.isScalar info.source action
    values := Pool.actionValues ofParts info.isScalar info.source action }

namespace Node

/-- The meaning of an expression. -/
def meaning : Node → Meaning := fold Meaning.ofLayer

/-- Nodes evaluated by their meanings. -/
def evaluator : Evaluator Node where
  isScalar := isScalar
  source := source
  scalar n := n.meaning.scalar
  values n := n.meaning.values

/-- The one value of the expression. -/
def scalar (n : Node) (ctx : Context) : Except EvalError Value := evaluator.scalar n ctx

/-- The values of the expression. -/
def values (n : Node) (ctx : Context) : Results := evaluator.values n ctx

/-- Nodes beside something else are acted on as the nodes by themselves. -/
theorem action_lifts {α : Type} (f : Node → α) (form : Form Node) :
    (Action.ofForm (fun part => Pool.patternOf? part.1) (form.mapParts fun n => (n, f n))).Lifts
      (.same fun part n => part = (n, f n)) (Action.ofForm Pool.patternOf? form) := by
  have h : (form.mapParts fun n => (n, f n)).Lifts (.same fun part n => part = (n, f n)) form :=
    Form.lifts_mapParts (S := fun (n : Node) part => part = (n, f n)) fun _ _ => rfl
  refine Action.lifts_ofForm ?_ h
  rintro _ n rfl
  rfl

/-- In a layer, a node does the same as the node beside its meaning. -/
theorem meaning_lifts (form : Form Node) :
    (Action.ofForm (fun part => Pool.patternOf? part.1)
      (form.mapParts fun n => (n, n.meaning))).Lifts
        (.same (Evaluator.Same Meaning.ofParts evaluator))
      (Action.ofForm Pool.patternOf? form) := by
  refine (action_lifts meaning form).of_same ?_
  rintro _ n rfl
  have same : Evaluator.Same Meaning.ofParts evaluator (n, n.meaning) n := ⟨rfl, rfl, rfl, rfl⟩
  exact ⟨same, same, same, same, same⟩

/-- A node yields the one value that its action says. -/
theorem scalar_eq (n : Node) (ctx : Context) :
    n.scalar ctx = Pool.actionScalar evaluator n.isScalar n.source n.action ctx := by
  obtain ⟨info, form⟩ := n
  refine Eq.trans ?_ (Evaluator.Same.actionScalar
    (meaning_lifts form) info.isScalar info.source ctx)
  simp only [scalar, evaluator, meaning, fold_mk]
  rfl

/-- A node yields the values that its action says. -/
theorem values_eq (n : Node) (ctx : Context) :
    n.values ctx = Pool.actionValues evaluator n.isScalar n.source n.action ctx := by
  obtain ⟨info, form⟩ := n
  refine Eq.trans ?_ (Evaluator.Same.actionValues
    (meaning_lifts form) info.isScalar info.source ctx)
  simp only [values, evaluator, meaning, fold_mk]
  rfl

/-- An expression that yields one value has a sequence of it. -/
theorem values_of_isScalar {n : Node} (h : n.isScalar = true) (ctx : Context) :
    n.values ctx = Results.ofOne (n.scalar ctx) := by
  rw [values_eq, scalar_eq]
  simp [Pool.actionValues, Pool.actionScalar, h]

/-- An expression that yields a sequence has no single value. -/
theorem scalar_of_not_isScalar {n : Node} (h : n.isScalar = false) (ctx : Context) :
    n.scalar ctx = .error (.notScalar n.source) := by
  rw [scalar_eq]
  simp [Pool.actionScalar, h]

end Node

end DocQuery
