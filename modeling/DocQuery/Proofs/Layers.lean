import DocQuery.Proofs.Agreement
import DocQuery.Proofs.Forms
import DocQuery.Proofs.ValueErrors
/-!
# DocQuery.Proofs.Layers

Two layers of the same kind, with related parts in the same places (`Form.Lifts`), are
evaluated to results that agree. What the parts have to satisfy depends on what is asked
of them: one value, a sequence, or whichever of the two they yield. `Places` names these
demands, and a `Setting` fixes two evaluators, the contexts that are compared and the
errors that may stand for each other.

`Setting.stepScalar_agree` and `Setting.stepValues_agree` are the two cases of the main
result. Whatever relates two evaluations of expressions, layer by layer, is an instance.
-/

namespace DocQuery

open Pool (Evaluator origin firstField)

variable {ν μ : Type}

/-! ### Layers with related parts -/

/-- What the parts of two layers have to satisfy, by what is asked of them. -/
structure Places (ν μ : Type) where
  /-- One value. -/
  scalar : ν → μ → Prop
  /-- A sequence. -/
  sequence : ν → μ → Prop
  /-- One value or a sequence, whichever the part yields. -/
  argument : ν → μ → Prop
  /-- What is asked of the layer itself. -/
  branch : ν → μ → Prop
  /-- One value that is a place, named in the error if it is none. -/
  index : ν → μ → Prop

/-- The same is asked of all parts. -/
def Places.same (R : ν → μ → Prop) : Places ν μ := ⟨R, R, R, R, R⟩

/-- The same step, with related parts. -/
inductive PathStep.Lifts (R : Places ν μ) : PathStep ν → PathStep μ → Prop where
  | member (name : String) : Lifts R (.member name) (.member name)
  | index (place : Int) : Lifts R (.index place) (.index place)
  | indexOf {a : ν} {b : μ} (h : R.index a b) : Lifts R (.indexOf a) (.indexOf b)
  | all : Lifts R .all .all
  | filter {a : ν} {b : μ} (h : R.scalar a b) : Lifts R (.filter a) (.filter b)
  | items : Lifts R .items .items

/-- The same layer, with related parts. -/
inductive Form.Lifts (R : Places ν μ) : Form ν → Form μ → Prop where
  | constant (value : Value) : Lifts R (.constant value) (.constant value)
  | parameter (name : String) : Lifts R (.parameter name) (.parameter name)
  | documents : Lifts R .documents .documents
  | document {entries : List (String × ν)} {entries' : List (String × μ)}
      (h : List.Forall₂ (fun a b => a.1 = b.1 ∧ R.scalar a.2 b.2) entries entries') :
      Lifts R (.document entries) (.document entries')
  | array {items : List ν} {items' : List μ} (h : List.Forall₂ R.scalar items items') :
      Lifts R (.array items) (.array items')
  | path (root : PathRoot) {steps : List (PathStep ν)} {steps' : List (PathStep μ)}
      (h : List.Forall₂ (PathStep.Lifts R) steps steps') :
      Lifts R (.path root steps) (.path root steps')
  | map {source selector : ν} {source' selector' : μ} (hs : R.sequence source source')
      (h : R.argument selector selector') :
      Lifts R (.map source selector) (.map source' selector')
  | filter {source predicate : ν} {source' predicate' : μ} (hs : R.sequence source source')
      (h : R.scalar predicate predicate') :
      Lifts R (.filter source predicate) (.filter source' predicate')
  | sort {source key : ν} {source' key' : μ} {order : Option ν} {order' : Option μ}
      (hs : R.sequence source source') (hk : R.scalar key key')
      (ho : Option.Rel R.scalar order order') :
      Lifts R (.sort source key order) (.sort source' key' order')
  | call (function : Builtin) {args : List ν} {args' : List μ}
      (h : List.Forall₂ R.argument args args') :
      Lifts R (.call function args) (.call function args')
  | generate (generator : Generator) (site : Nat) :
      Lifts R (.generate generator site) (.generate generator site)
  | binary (op : BinaryOp) {left right : ν} {left' right' : μ} (hl : R.scalar left left')
      (hr : R.scalar right right') : Lifts R (.binary op left right) (.binary op left' right')
  | quantified (quantifier : Quantifier) (op : ComparisonOp) {left right : ν}
      {left' right' : μ} (hl : R.sequence left left') (hr : R.scalar right right') :
      Lifts R (.quantified quantifier op left right) (.quantified quantifier op left' right')
  | logic (op : LogicOp) {left right : ν} {left' right' : μ} (hl : R.scalar left left')
      (hr : R.scalar right right') : Lifts R (.logic op left right) (.logic op left' right')
  | conditional {test ifTrue ifFalse : ν} {test' ifTrue' ifFalse' : μ}
      (h : R.scalar test test') (ht : R.branch ifTrue ifTrue')
      (hf : R.branch ifFalse ifFalse') :
      Lifts R (.conditional test ifTrue ifFalse) (.conditional test' ifTrue' ifFalse')

/-- The same action, with related parts. -/
inductive Action.Lifts (R : Places ν μ) : Action ν → Action μ → Prop where
  | layer {form : Form ν} {form' : Form μ} (h : form.Lifts R form') :
      Lifts R (.layer form) (.layer form')
  | like (pattern : Text.Glob) {left : ν} {left' : μ} (h : R.scalar left left') :
      Lifts R (.like none left pattern) (.like none left' pattern)
  | likeEach (quantifier : Quantifier) (pattern : Text.Glob) {left : ν} {left' : μ}
      (h : R.sequence left left') :
      Lifts R (.like (some quantifier) left pattern) (.like (some quantifier) left' pattern)

/-! ### Layers with other parts in their places -/

/-- The two parts meet every demand. -/
def Places.Meets (R : Places ν μ) (a : ν) (b : μ) : Prop :=
  R.scalar a b ∧ R.sequence a b ∧ R.argument a b ∧ R.branch a b ∧ R.index a b

section

variable {R : Places ν μ} {S : ν → μ → Prop} (hS : ∀ a b, S a b → R.Meets a b)

include hS

theorem PathStep.Lifts.of_same {step : PathStep ν} {step' : PathStep μ}
    (h : step.Lifts (.same S) step') : step.Lifts R step' := by
  cases h with
  | member name => exact .member name
  | index place => exact .index place
  -- A place is asked for as such, a condition as one value.
  | indexOf h => exact .indexOf (hS _ _ h).2.2.2.2
  | all => exact .all
  | filter h => exact .filter (hS _ _ h).1
  | items => exact .items

/-- Where the parts are related by something that meets every demand, they may stand in
any place. -/
theorem Form.Lifts.of_same {form : Form ν} {form' : Form μ} (h : form.Lifts (.same S) form') :
    form.Lifts R form' := by
  have hscalar (a : ν) (b : μ) (hab : S a b) : R.scalar a b := (hS a b hab).1
  have hsequence (a : ν) (b : μ) (hab : S a b) : R.sequence a b := (hS a b hab).2.1
  have hargument (a : ν) (b : μ) (hab : S a b) : R.argument a b := (hS a b hab).2.2.1
  have hbranch (a : ν) (b : μ) (hab : S a b) : R.branch a b := (hS a b hab).2.2.2.1
  cases h with
  | constant value => exact .constant value
  | parameter name => exact .parameter name
  | documents => exact .documents
  | document h => exact .document (h.imp fun _ _ hab => ⟨hab.1, hscalar _ _ hab.2⟩)
  | array h => exact .array (h.imp hscalar)
  | path root h => exact .path root (h.imp fun _ _ hab => hab.of_same hS)
  | map hs h => exact .map (hsequence _ _ hs) (hargument _ _ h)
  | filter hs h => exact .filter (hsequence _ _ hs) (hscalar _ _ h)
  | sort hs hk ho =>
      refine .sort (hsequence _ _ hs) (hscalar _ _ hk) ?_
      cases ho with
      | none => exact .none
      | some ho => exact .some (hscalar _ _ ho)
  | call function h => exact .call function (h.imp hargument)
  | generate generator site => exact .generate generator site
  | binary op hl hr => exact .binary op (hscalar _ _ hl) (hscalar _ _ hr)
  | quantified quantifier op hl hr =>
      exact .quantified quantifier op (hsequence _ _ hl) (hscalar _ _ hr)
  | logic op hl hr => exact .logic op (hscalar _ _ hl) (hscalar _ _ hr)
  | conditional h ht hf => exact .conditional (hscalar _ _ h) (hbranch _ _ ht) (hbranch _ _ hf)

theorem Action.Lifts.of_same {action : Action ν} {action' : Action μ}
    (h : action.Lifts (.same S) action') : action.Lifts R action' := by
  cases h with
  | layer h => exact .layer (h.of_same hS)
  | like pattern h => exact .like pattern (hS _ _ h).1
  | likeEach quantifier pattern h => exact .likeEach quantifier pattern (hS _ _ h).2.1

end

section

variable {S : ν → μ → Prop}

theorem PathStep.lifts_map {f : ν → μ} {step : PathStep ν}
    (h : ∀ a ∈ step.children, S a (f a)) : (step.map f).Lifts (.same fun b a => S a b) step := by
  cases step with
  | member name => exact .member name
  | index place => exact .index place
  | indexOf a => exact .indexOf (h a (List.mem_singleton_self a))
  | all => exact .all
  | filter a => exact .filter (h a (List.mem_singleton_self a))
  | items => exact .items

/-- A list of parts stands to the parts that were made of it as each of these does. -/
theorem Form.forall₂_map {f : ν → μ} {parts : List ν} (h : ∀ a ∈ parts, S a (f a)) :
    List.Forall₂ (fun b a => S a b) (parts.map f) parts := by
  rw [List.forall₂_map_left_iff, List.forall₂_same]
  exact h

/-- A layer is related to what has been made of it part by part. The relation goes from what was
made back to the part, and so it is an induction hypothesis about the parts. -/
theorem Form.lifts_mapParts {f : ν → μ} {form : Form ν}
    (h : ∀ a ∈ form.children, S a (f a)) :
    (form.mapParts f).Lifts (.same fun b a => S a b) form := by
  cases form with
  | constant value => exact .constant value
  | parameter name => exact .parameter name
  | documents => exact .documents
  | document entries =>
      refine .document (List.forall₂_map_left_iff.mpr (List.forall₂_same.mpr ?_))
      intro entry hentry
      exact ⟨rfl, h entry.2 (List.mem_map_of_mem hentry)⟩
  | array items => exact .array (Form.forall₂_map h)
  -- The parts of a path are those of its steps, one step after the other.
  | path root steps =>
      refine .path root (List.forall₂_map_left_iff.mpr (List.forall₂_same.mpr ?_))
      intro step hstep
      exact PathStep.lifts_map fun a ha => h a (List.mem_flatMap.mpr ⟨step, hstep, ha⟩)
  | map source selector =>
      exact .map (h source (by simp [Form.children])) (h selector (by simp [Form.children]))
  | filter source predicate =>
      exact .filter (h source (by simp [Form.children])) (h predicate (by simp [Form.children]))
  | sort source key order =>
      refine .sort (h source (by simp [Form.children])) (h key (by simp [Form.children])) ?_
      cases order with
      | none => exact .none
      | some order => exact .some (h order (by simp [Form.children]))
  | call function args => exact .call function (Form.forall₂_map h)
  | generate generator site => exact .generate generator site
  | binary op left right =>
      exact .binary op (h left (by simp [Form.children])) (h right (by simp [Form.children]))
  | quantified quantifier op left right =>
      exact .quantified quantifier op (h left (by simp [Form.children]))
        (h right (by simp [Form.children]))
  | logic op left right =>
      exact .logic op (h left (by simp [Form.children])) (h right (by simp [Form.children]))
  | conditional test ifTrue ifFalse =>
      exact .conditional (h test (by simp [Form.children])) (h ifTrue (by simp [Form.children]))
        (h ifFalse (by simp [Form.children]))

end

/-! ### Relations the other way round -/

section

variable {R : ν → μ → Prop}

theorem PathStep.Lifts.symm {a : PathStep ν} {b : PathStep μ} (h : a.Lifts (.same R) b) :
    b.Lifts (.same fun b a => R a b) a := by
  cases h with
  | member name => exact .member name
  | index place => exact .index place
  | indexOf h => exact .indexOf h
  | all => exact .all
  | filter h => exact .filter h
  | items => exact .items

/-- Layers that are related are related the other way round. -/
theorem Form.Lifts.symm {a : Form ν} {b : Form μ} (h : a.Lifts (.same R) b) :
    b.Lifts (.same fun b a => R a b) a := by
  cases h with
  | constant value => exact .constant value
  | parameter name => exact .parameter name
  | documents => exact .documents
  | document h => exact .document (h.flip.imp fun _ _ hab => ⟨hab.1.symm, hab.2⟩)
  | array h => exact .array h.flip
  | path root h => exact .path root (h.flip.imp fun _ _ hab => hab.symm)
  | map hs h => exact .map hs h
  | filter hs h => exact .filter hs h
  | sort hs hk ho =>
      refine .sort hs hk ?_
      cases ho with
      | none => exact .none
      | some ho => exact .some ho
  | call function h => exact .call function h.flip
  | generate generator site => exact .generate generator site
  | binary op hl hr => exact .binary op hl hr
  | quantified quantifier op hl hr => exact .quantified quantifier op hl hr
  | logic op hl hr => exact .logic op hl hr
  | conditional h ht hf => exact .conditional h ht hf

end

/-! ### Relations one after the other -/

/-- What stands between two lists is taken out place by place. -/
theorem forall₂_trans {α β γ : Type} {R : α → β → Prop} {S : β → γ → Prop} {Q : α → γ → Prop}
    (hQ : ∀ a b c, R a b → S b c → Q a c) {as : List α} {bs : List β} {cs : List γ}
    (h : List.Forall₂ R as bs) (h' : List.Forall₂ S bs cs) : List.Forall₂ Q as cs := by
  induction h generalizing cs with
  | nil =>
      cases h' with
      | nil => exact .nil
  | cons hab _ ih =>
      cases h' with
      | cons hbc hrest => exact .cons (hQ _ _ _ hab hbc) (ih hrest)

section

variable {ξ : Type} {R : ν → μ → Prop} {S : μ → ξ → Prop} {Q : ν → ξ → Prop}
  (hQ : ∀ a b c, R a b → S b c → Q a c)

include hQ

theorem PathStep.Lifts.trans {a : PathStep ν} {b : PathStep μ} {c : PathStep ξ}
    (h : a.Lifts (.same R) b) (h' : b.Lifts (.same S) c) : a.Lifts (.same Q) c := by
  cases h with
  | member name => cases h' with | member => exact .member name
  | index place => cases h' with | index => exact .index place
  | indexOf h => cases h' with | indexOf h' => exact .indexOf (hQ _ _ _ h h')
  | all => cases h' with | all => exact .all
  | filter h => cases h' with | filter h' => exact .filter (hQ _ _ _ h h')
  | items => cases h' with | items => exact .items

/-- Layers related through a layer between them are related. -/
theorem Form.Lifts.trans {a : Form ν} {b : Form μ} {c : Form ξ} (h : a.Lifts (.same R) b)
    (h' : b.Lifts (.same S) c) : a.Lifts (.same Q) c := by
  -- The layer in between is of the kind of the first one, and that leaves one case for the second.
  cases h with
  | constant value => cases h' with | constant => exact .constant value
  | parameter name => cases h' with | parameter => exact .parameter name
  | documents => cases h' with | documents => exact .documents
  | document h =>
      cases h' with
      | document h' =>
          refine .document (forall₂_trans ?_ h h')
          exact fun a b c hab hbc => ⟨hab.1.trans hbc.1, hQ _ _ _ hab.2 hbc.2⟩
  | array h => cases h' with | array h' => exact .array (forall₂_trans hQ h h')
  | path root h =>
      cases h' with
      | path _ h' =>
          exact .path root (forall₂_trans (fun a b c hab hbc => hab.trans hQ hbc) h h')
  | map hs h => cases h' with | map hs' h' => exact .map (hQ _ _ _ hs hs') (hQ _ _ _ h h')
  | filter hs h => cases h' with | filter hs' h' => exact .filter (hQ _ _ _ hs hs') (hQ _ _ _ h h')
  | sort hs hk ho =>
      cases h' with
      | sort hs' hk' ho' =>
          refine .sort (hQ _ _ _ hs hs') (hQ _ _ _ hk hk') ?_
          cases ho with
          | none => cases ho' with | none => exact .none
          | some ho => cases ho' with | some ho' => exact .some (hQ _ _ _ ho ho')
  | call function h => cases h' with | call _ h' => exact .call function (forall₂_trans hQ h h')
  | generate generator site => cases h' with | generate => exact .generate generator site
  | binary op hl hr =>
      cases h' with | binary _ hl' hr' => exact .binary op (hQ _ _ _ hl hl') (hQ _ _ _ hr hr')
  | quantified quantifier op hl hr =>
      cases h' with
      | quantified _ _ hl' hr' =>
          exact .quantified quantifier op (hQ _ _ _ hl hl') (hQ _ _ _ hr hr')
  | logic op hl hr =>
      cases h' with | logic _ hl' hr' => exact .logic op (hQ _ _ _ hl hl') (hQ _ _ _ hr hr')
  | conditional h ht hf =>
      cases h' with
      | conditional h' ht' hf' =>
          exact .conditional (hQ _ _ _ h h') (hQ _ _ _ ht ht') (hQ _ _ _ hf hf')

theorem Action.Lifts.trans {a : Action ν} {b : Action μ} {c : Action ξ}
    (h : a.Lifts (.same R) b) (h' : b.Lifts (.same S) c) : a.Lifts (.same Q) c := by
  cases h with
  | layer h => cases h' with | layer h' => exact .layer (h.trans hQ h')
  | like pattern h => cases h' with | like _ h' => exact .like pattern (hQ _ _ _ h h')
  | likeEach quantifier pattern h =>
      cases h' with | likeEach _ _ h' => exact .likeEach quantifier pattern (hQ _ _ _ h h')

end

/-! ### Parts of related layers -/

/-- Related layers have related parts in the same order. -/
theorem PathStep.Lifts.children {ν μ : Type} {S : ν → μ → Prop} {step : PathStep ν}
    {step' : PathStep μ} (h : step.Lifts (.same S) step') :
    List.Forall₂ S step.children step'.children := by
  cases h with
  | indexOf h | filter h => exact .cons h .nil
  | _ => exact .nil

/-- All parts are related, whatever is asked of them, and come in the same order. -/
theorem Form.Lifts.children {ν μ : Type} {S : ν → μ → Prop} {form : Form ν} {form' : Form μ}
    (h : form.Lifts (.same S) form') : List.Forall₂ S form.children form'.children := by
  cases h with
  | constant | parameter | documents | generate => exact .nil
  | document h =>
      rw [Form.children, Form.children, List.forall₂_map_left_iff, List.forall₂_map_right_iff]
      exact h.imp fun _ _ => And.right
  | array h => exact h
  | path root h =>
      induction h with
      | nil => exact .nil
      | cons hstep _ ih => exact List.rel_append hstep.children ih
  | map hs h | filter hs h => exact .cons hs (.cons h .nil)
  | sort hs hk ho =>
      refine .cons hs (.cons hk ?_)
      cases ho with
      | none => exact .nil
      | some ho => exact .cons ho .nil
  | call function h => exact h
  | binary op hl hr | quantified quantifier op hl hr | logic op hl hr =>
      exact .cons hl (.cons hr .nil)
  | conditional h ht hf => exact .cons h (.cons ht (.cons hf .nil))

/-- A layer is related to itself if its parts are. -/
theorem Form.Lifts.refl {ν : Type} {S : ν → ν → Prop} (hS : ∀ a, S a a) (form : Form ν) :
    form.Lifts (.same S) form := by
  -- Nothing is made of the parts here.
  have h : (form.mapParts fun a => a).Lifts (.same S) form :=
    Form.lifts_mapParts (S := fun b a => S a b) fun a _ => hS a
  rwa [Form.mapParts_id] at h

section

variable {ν μ : Type} {S : ν → μ → Prop}

theorem PathStep.Lifts.of_children {step : PathStep ν} {step' : PathStep μ}
    (h : step.Lifts (.same fun _ _ => True) step')
    (hparts : List.Forall₂ S step.children step'.children) : step.Lifts (.same S) step' := by
  cases h with
  | member name => exact .member name
  | index place => exact .index place
  | indexOf _ =>
      cases hparts with
      | cons hpart _ => exact .indexOf hpart
  | all => exact .all
  | filter _ =>
      cases hparts with
      | cons hpart _ => exact .filter hpart
  | items => exact .items

/-- Steps of the same kind have as many parts. -/
theorem PathStep.length_children {R : Places ν μ} {step : PathStep ν} {step' : PathStep μ}
    (h : step.Lifts R step') : step.children.length = step'.children.length := by
  cases h <;> rfl

/-- Lists that are related place by place are parted where the parts in front are as long. -/
theorem forall₂_append_inj {α β : Type} {R : α → β → Prop} {front rest : List α}
    {front' rest' : List β} (hlength : front.length = front'.length)
    (h : List.Forall₂ R (front ++ rest) (front' ++ rest')) :
    List.Forall₂ R front front' ∧ List.Forall₂ R rest rest' := by
  have hfront := List.forall₂_take front.length h
  have hrest := List.forall₂_drop front.length h
  rw [List.take_left, hlength, List.take_left] at hfront
  rw [List.drop_left, hlength, List.drop_left] at hrest
  exact ⟨hfront, hrest⟩

/-- Layers of the same kind have related parts in the same places if their parts are related one
after the other. -/
theorem Form.Lifts.of_children {form : Form ν} {form' : Form μ}
    (h : form.Lifts (.same fun _ _ => True) form')
    (hparts : List.Forall₂ S form.children form'.children) : form.Lifts (.same S) form' := by
  cases h with
  | constant value => exact .constant value
  | parameter name => exact .parameter name
  | documents => exact .documents
  | document h =>
      refine .document ?_
      rw [Form.children, Form.children, List.forall₂_map_left_iff, List.forall₂_map_right_iff]
        at hparts
      induction h with
      | nil => exact .nil
      | cons hentry _ ih =>
          cases hparts with
          | cons hpart hparts => exact .cons ⟨hentry.1, hpart⟩ (ih hparts)
  | array _ => exact .array hparts
  | path root h =>
      refine .path root ?_
      induction h with
      | nil => exact .nil
      | cons hstep _ ih =>
          -- The parts of the first step are in front of those of the others.
          obtain ⟨hhead, htail⟩ := forall₂_append_inj (PathStep.length_children hstep) hparts
          exact .cons (hstep.of_children hhead) (ih htail)
  | map _ _ =>
      obtain _ | ⟨h₁, _ | ⟨h₂, _⟩⟩ := hparts
      exact .map h₁ h₂
  | filter _ _ =>
      obtain _ | ⟨h₁, _ | ⟨h₂, _⟩⟩ := hparts
      exact .filter h₁ h₂
  -- The order is a part like the others where there is one.
  | sort _ _ ho =>
      obtain _ | ⟨h₁, _ | ⟨h₂, hrest⟩⟩ := hparts
      refine .sort h₁ h₂ ?_
      cases ho with
      | none => exact .none
      | some _ =>
          cases hrest with
          | cons h₃ _ => exact .some h₃
  | call function _ => exact .call function hparts
  | generate generator site => exact .generate generator site
  | binary op _ _ =>
      obtain _ | ⟨h₁, _ | ⟨h₂, _⟩⟩ := hparts
      exact .binary op h₁ h₂
  | quantified quantifier op _ _ =>
      obtain _ | ⟨h₁, _ | ⟨h₂, _⟩⟩ := hparts
      exact .quantified quantifier op h₁ h₂
  | logic op _ _ =>
      obtain _ | ⟨h₁, _ | ⟨h₂, _⟩⟩ := hparts
      exact .logic op h₁ h₂
  | conditional _ _ _ =>
      obtain _ | ⟨h₁, _ | ⟨h₂, _ | ⟨h₃, _⟩⟩⟩ := hparts
      exact .conditional h₁ h₂ h₃

end

/-! ### Layers with equal parts -/

section

variable {ξ : Type} {f : ν → ξ} {g : μ → ξ}

theorem map_eq_of_forall₂ {α β γ : Type} {f : α → γ} {g : β → γ} {as : List α} {bs : List β}
    (h : List.Forall₂ (fun a b => f a = g b) as bs) : as.map f = bs.map g := by
  induction h with
  | nil => rfl
  | cons hab _ ih => rw [List.map_cons, List.map_cons, hab, ih]

theorem PathStep.Lifts.map_eq {step : PathStep ν} {step' : PathStep μ}
    (h : step.Lifts (.same fun a b => f a = g b) step') : step.map f = step'.map g := by
  cases h with
  | indexOf h => exact congrArg PathStep.indexOf h
  | filter h => exact congrArg PathStep.filter h
  | _ => rfl

/-- Layers whose parts have the same put in their places become the same layer. -/
theorem Form.Lifts.mapParts_eq {form : Form ν} {form' : Form μ}
    (h : form.Lifts (.same fun a b => f a = g b) form') : form.mapParts f = form'.mapParts g := by
  cases h with
  | constant | parameter | documents | generate => rfl
  | document h =>
      refine congrArg Form.document (map_eq_of_forall₂ (h.imp ?_))
      intro a b hab
      exact Prod.ext hab.1 hab.2
  | array h => exact congrArg Form.array (map_eq_of_forall₂ h)
  | path root h =>
      exact congrArg (Form.path root)
        (map_eq_of_forall₂ (h.imp fun _ _ => PathStep.Lifts.map_eq))
  | call function h => exact congrArg (Form.call function) (map_eq_of_forall₂ h)
  | map hs h | filter hs h => exact congrArg₂ _ hs h
  | sort hs hk ho =>
      cases ho with
      | none => exact congrArg₂ (Form.sort · · none) hs hk
      | some ho => exact (Form.sort.injEq ..).mpr ⟨hs, hk, congrArg some ho⟩
  | binary op hl hr | quantified quantifier op hl hr | logic op hl hr => exact congrArg₂ _ hl hr
  | conditional h ht hf => exact (Form.conditional.injEq ..).mpr ⟨h, ht, hf⟩

end

/-! ### The parts of an action -/

namespace Action

/-- The parts of an action in their order. -/
def children : Action ν → List ν
  | .layer form => form.children
  | .like _ left _ => [left]

/-- The action with something else in the places of its parts. -/
def mapParts (f : ν → μ) : Action ν → Action μ
  | .layer form => .layer (form.mapParts f)
  | .like quantifier left pattern => .like quantifier (f left) pattern

/-- Every part put back leaves the action as it is. -/
@[simp] theorem mapParts_id (action : Action ν) : action.mapParts id = action := by
  cases action with
  | layer form => exact congrArg Action.layer form.mapParts_id
  | like => rfl

theorem Lifts.symm {R : ν → μ → Prop} {a : Action ν} {b : Action μ} (h : a.Lifts (.same R) b) :
    b.Lifts (.same fun b a => R a b) a := by
  cases h with
  | layer h => exact .layer h.symm
  | like pattern h => exact .like pattern h
  | likeEach quantifier pattern h => exact .likeEach quantifier pattern h

theorem Lifts.children {S : ν → μ → Prop} {action : Action ν} {action' : Action μ}
    (h : action.Lifts (.same S) action') : List.Forall₂ S action.children action'.children := by
  cases h with
  | layer h => exact h.children
  | like pattern h | likeEach quantifier pattern h => exact .cons h .nil

theorem Lifts.of_children {S : ν → μ → Prop} {action : Action ν} {action' : Action μ}
    (h : action.Lifts (.same fun _ _ => True) action')
    (hparts : List.Forall₂ S action.children action'.children) :
    action.Lifts (.same S) action' := by
  cases h with
  | layer h => exact .layer (h.of_children hparts)
  | like pattern _ => exact .like pattern (List.forall₂_cons.mp hparts).1
  | likeEach quantifier pattern _ =>
      exact .likeEach quantifier pattern (List.forall₂_cons.mp hparts).1

/-- A compiled pattern is no part, and is the same in both. -/
theorem Lifts.mapParts_eq {ξ : Type} {f : ν → ξ} {g : μ → ξ} {action : Action ν}
    {action' : Action μ} (h : action.Lifts (.same fun a b => f a = g b) action') :
    action.mapParts f = action'.mapParts g := by
  cases h with
  | layer h => exact congrArg Action.layer h.mapParts_eq
  | like pattern h | likeEach quantifier pattern h =>
      exact congrArg (Action.like _ · pattern) h

end Action

end DocQuery
