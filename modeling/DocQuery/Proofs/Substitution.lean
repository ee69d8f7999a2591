import DocQuery.Proofs.Comparisons
import DocQuery.Proofs.Construction
import DocQuery.Proofs.Faithful
/-!
# DocQuery.Proofs.Substitution

When one expression may stand in the place of another one (`Node.Substitutes`): it is evaluated
alike, and the same is known of it but for its type and its text. Every way to put expressions
together is a congruence for this, coercions included: a path that is made a sequence by a step
more and the same path in parentheses, which is made one by a call, yield the same values
(`Node.values_asSequence_agree`).

An expression that is not coerced also has the type of the one that it replaces
(`Node.Replaces`), and with that it is read wherever the other one is.
-/

namespace DocQuery

open Pool (firstField)

/-! ### Offsets -/

/-- The offset at which the layer draws a number, if it does. -/
def Form.site {ν : Type} : Form ν → List Nat
  | .generate .guid site | .generate .objectId site => [site]
  | _ => []

theorem Form.site_mapParts {ν μ : Type} (f : ν → μ) (form : Form ν) :
    (form.mapParts f).site = form.site := by
  cases form with
  | generate generator site => cases generator <;> rfl
  | _ => rfl

namespace Node

/-- The offsets at which numbers are drawn, in the order in which the calls are written. -/
def sites : Node → List Nat := fold fun _ form => form.site ++ form.children.flatMap Prod.snd

theorem sites_eq (n : Node) : n.sites = n.form.site ++ n.children.flatMap sites := by
  obtain ⟨info, form⟩ := n
  rw [sites, fold_mk, Form.children_mapParts, List.flatMap_map, Form.site_mapParts]
  rfl

/-! ### The relation -/

/-- The second expression may stand in the place of the first one: it is evaluated alike, and but
for its type and its text the same is known of it. -/
structure Substitutes (a b : Node) : Prop extends Alike a b where
  isImmutable : b.info.isImmutable = a.info.isImmutable
  usesSource : b.info.usesSource = a.info.usesSource
  fields : b.info.fields = a.info.fields
  usesSort : b.usesSort = a.usesSort
  sites : b.sites = a.sites

/-- The second expression may be read in the place of the first one. -/
structure Replaces (a b : Node) : Prop extends Substitutes a b where
  type : b.info.type = a.info.type
  isSource : b.asSequence.info.type = .source ↔ a.asSequence.info.type = .source

theorem Substitutes.refl (n : Node) : n.Substitutes n := ⟨.refl n, rfl, rfl, rfl, rfl, rfl⟩

theorem Replaces.refl (n : Node) : n.Replaces n := ⟨.refl n, rfl, Iff.rfl⟩

/-- Only what is the documents already is made the documents where a sequence is asked for. -/
theorem type_asSequence {n : Node} (h : n.info.type ≠ .source) :
    n.asSequence.info.type ≠ .source := by
  unfold asSequence
  split
  · cases hopen : n.isOpenPath with
    | true =>
        obtain ⟨info, root, steps, rfl⟩ := exists_of_isOpenPath hopen
        -- A longer path is a path of the same type.
        rw [spread_of_isOpenPath hopen]
        exact h
    | false =>
        -- A call has the type of a call.
        rw [spread_of_not_isOpenPath hopen]
        nofun
  · exact h

/-! ### Composed expressions -/

section

variable {parts parts' : List Node} (h : List.Forall₂ Substitutes parts parts')

include h

/-- What is known of a composed expression is put together from what is known of its parts, and so
it stays the same part by part. -/
theorem all_isImmutable_of_substitutes :
    parts'.all (·.info.isImmutable) = parts.all (·.info.isImmutable) := by
  induction h with
  | nil => rfl
  | cons hpart _ ih => rw [List.all_cons, List.all_cons, hpart.isImmutable, ih]

theorem any_usesSource_of_substitutes :
    parts'.any (·.info.usesSource) = parts.any (·.info.usesSource) := by
  induction h with
  | nil => rfl
  | cons hpart _ ih => rw [List.any_cons, List.any_cons, hpart.usesSource, ih]

theorem foldl_fields_of_substitutes (fields : Fields) :
    parts'.foldl (fun fields part => fields.union part.info.fields) fields =
      parts.foldl (fun fields part => fields.union part.info.fields) fields := by
  induction h generalizing fields with
  | nil => rfl
  | cons hpart _ ih => rw [List.foldl_cons, List.foldl_cons, hpart.fields, ih]

theorem any_usesSort_of_substitutes : parts'.any Node.usesSort = parts.any Node.usesSort := by
  induction h with
  | nil => rfl
  | cons hpart _ ih => rw [List.any_cons, List.any_cons, hpart.usesSort, ih]

theorem flatMap_sites_of_substitutes : parts'.flatMap Node.sites = parts.flatMap Node.sites := by
  induction h with
  | nil => rfl
  | cons hpart _ ih => rw [List.flatMap_cons, List.flatMap_cons, hpart.sites, ih]

end

/-- Expressions of related layers are evaluated alike, are sorts alike, and call generators at the
same offsets. -/
theorem substitutes_of_lifts {a b : Node} (hscalar : a.isScalar = b.isScalar)
    (h : a.form.Lifts (.same Substitutes) b.form)
    (himmutable : b.info.isImmutable = a.info.isImmutable)
    (huses : b.info.usesSource = a.info.usesSource) (hfields : b.info.fields = a.info.fields) :
    a.Substitutes b := by
  -- Evaluation looks at what the parts yield; the rest is read off the layers and the parts.
  have halike : a.form.Lifts (.same Alike) b.form :=
    h.of_same fun _ _ hab => ⟨hab.toAlike, hab.toAlike, hab.toAlike, hab.toAlike, hab.toAlike⟩
  have hchildren : List.Forall₂ Substitutes a.children b.children := h.children
  refine ⟨.of_lifts hscalar ?_ halike, himmutable, huses, hfields, ?_, ?_⟩
  · obtain ⟨info, form⟩ := a
    obtain ⟨info', form'⟩ := b
    change form.Lifts (.same Substitutes) form' at h
    cases h <;> rfl
  · rw [usesSort_eq, usesSort_eq, any_usesSort_of_substitutes hchildren]
    obtain ⟨info, form⟩ := a
    obtain ⟨info', form'⟩ := b
    change form.Lifts (.same Substitutes) form' at h
    cases h <;> rfl
  · rw [sites_eq, sites_eq, flatMap_sites_of_substitutes hchildren]
    obtain ⟨info, form⟩ := a
    obtain ⟨info', form'⟩ := b
    change form.Lifts (.same Substitutes) form' at h
    cases h <;> rfl

section

variable {type : ExprType} {isScalar : Bool} {source source' : String} {form form' : Form Node}

theorem Substitutes.compose (h : form.Lifts (.same Substitutes) form') :
    (compose type isScalar source form).Substitutes (compose type isScalar source' form') :=
  substitutes_of_lifts rfl h (all_isImmutable_of_substitutes h.children)
    (any_usesSource_of_substitutes h.children) (foldl_fields_of_substitutes h.children _)

/-- An expression put together from other parts may be read for the one from these. -/
theorem Replaces.compose (htype : type ≠ .source) (h : form.Lifts (.same Substitutes) form') :
    (compose type isScalar source form).Replaces (compose type isScalar source' form') where
  toSubstitutes := .compose h
  type := rfl
  isSource := iff_of_false (type_asSequence htype) (type_asSequence htype)

end

/-! ### Parentheses and paths -/

variable {a b c : Node}

/-- Errors of the same kind are so both ways. -/
theorem Substitutes.symm (h : a.Substitutes b) : b.Substitutes a where
  isScalar := h.isScalar.symm
  pattern := h.pattern.symm
  scalar ctx := (h.scalar ctx).symm fun _ _ => Eq.symm
  values ctx := (h.values ctx).symm fun _ _ => Eq.symm
  isImmutable := h.isImmutable.symm
  usesSource := h.usesSource.symm
  fields := h.fields.symm
  usesSort := h.usesSort.symm
  sites := h.sites.symm

theorem Substitutes.trans (h : a.Substitutes b) (h' : b.Substitutes c) : a.Substitutes c where
  toAlike := h.toAlike.trans h'.toAlike
  isImmutable := h'.isImmutable.trans h.isImmutable
  usesSource := h'.usesSource.trans h.usesSource
  fields := h'.fields.trans h.fields
  usesSort := h'.usesSort.trans h.usesSort
  sites := h'.sites.trans h.sites

/-- Parentheses change the text and nothing else. -/
theorem substitutes_parenthesized (n : Node) : n.Substitutes n.parenthesized := by
  obtain ⟨info, form⟩ := n
  exact substitutes_of_lifts rfl (Form.Lifts.refl .refl form) rfl rfl rfl

/-- What is in parentheses is the documents where a sequence is asked for, if it is them. -/
theorem type_asSequence_parenthesized (n : Node) :
    n.parenthesized.asSequence.info.type = .source ↔
      n.isScalar = false ∧ n.info.type = .source := by
  have hinfo : n.parenthesized.isScalar = n.isScalar ∧
      n.parenthesized.info.type = n.info.type := by
    obtain ⟨info, form⟩ := n
    exact ⟨rfl, rfl⟩
  unfold asSequence
  rw [hinfo.1]
  cases n.isScalar with
  | true =>
      rw [if_pos rfl, spread_of_not_isOpenPath n.isOpenPath_parenthesized]
      exact iff_of_false (by nofun) (by nofun)
  | false => simp [hinfo.2]

/-- A path that is read has the type of one. -/
theorem Built.type_eq_path {named : Prop} {n : Node} (h : n.Built named) {root : PathRoot}
    {steps : List (PathStep Node)} (hform : n.form = .path root steps) :
    n.info.type = .path := by
  induction h generalizing root steps with
  | parameter | documents | generate => cases hform
  | shorthand | path => rfl
  | spread _ ih => exact ih rfl
  | compose hclosed =>
      obtain rfl : _ = Form.path root steps := hform
      cases hclosed
  | @parenthesized m _ ih =>
      obtain ⟨info, form⟩ := m
      exact ih hform

/-- An expression in parentheses may be read in the place of the expression. -/
theorem Replaces.to_parenthesized {n : Node} {named : Prop} (hn : n.Built named) :
    n.Replaces n.parenthesized where
  toSubstitutes := substitutes_parenthesized n
  type := by
    obtain ⟨info, form⟩ := n
    rfl
  isSource := by
    rw [type_asSequence_parenthesized]
    cases hscalar : n.isScalar with
    | false => simp [asSequence, hscalar]
    | true =>
        refine iff_of_false (by simp) ?_
        rw [asSequence, if_pos hscalar]
        -- Of one value neither becomes the documents: the path in parentheses by a call, the one
        -- without them by a step.
        cases hopen : n.isOpenPath with
        | true =>
            obtain ⟨info, root, steps, rfl⟩ := exists_of_isOpenPath hopen
            have htype : info.type = .path := hn.type_eq_path rfl
            rw [spread_of_isOpenPath hopen]
            change info.type ≠ .source
            rw [htype]
            decide
        | false =>
            rw [spread_of_not_isOpenPath hopen]
            change ExprType.call ≠ .source
            decide

/-- By way of both expressions without parentheses. -/
theorem Replaces.parenthesized (h : a.Replaces b) : a.parenthesized.Replaces b.parenthesized where
  toSubstitutes :=
    (a.substitutes_parenthesized.symm.trans h.toSubstitutes).trans b.substitutes_parenthesized
  type := by
    obtain ⟨info, form⟩ := a
    obtain ⟨info', form'⟩ := b
    exact h.type
  isSource := by
    rw [type_asSequence_parenthesized, type_asSequence_parenthesized, h.type, h.isScalar]

/-- Steps that correspond yield many values or one alike. -/
theorem any_isEnumerable_of_lifts {ν μ : Type} {R : Places ν μ} {steps : List (PathStep ν)}
    {steps' : List (PathStep μ)} (h : List.Forall₂ (PathStep.Lifts R) steps steps') :
    steps.any PathStep.isEnumerable = steps'.any PathStep.isEnumerable := by
  induction h with
  | nil => rfl
  | cons hstep _ ih =>
      rw [List.any_cons, List.any_cons, ih]
      cases hstep <;> rfl

/-- A path is scalar by its steps, and its text is told from them only. -/
theorem Replaces.path (fields : Fields) (root : PathRoot) {steps steps' : List (PathStep Node)}
    (h : List.Forall₂ (PathStep.Lifts (.same Substitutes)) steps steps') :
    (path fields root steps).Replaces (path fields root steps') := by
  have hform : (Form.path root steps).Lifts (.same Substitutes) (.path root steps') := .path root h
  refine ⟨substitutes_of_lifts ?_ hform rfl (any_usesSource_of_substitutes hform.children) ?_, rfl,
    ?_⟩
  · exact congrArg (!·) (any_isEnumerable_of_lifts h)
  · exact congrArg fields.union (foldl_fields_of_substitutes hform.children _)
  · exact iff_of_false (type_asSequence (by nofun)) (type_asSequence (by nofun))

/-! ### Coercions -/

/-- The source of a path is told only where the path fails. -/
theorem resolve_agree (source source' : String) (ctx : Context) (root : PathRoot)
    (steps : List (PathStep Node)) :
    Agree EvalError.SameKind
      (Pool.resolve evaluator source ctx root steps (firstField steps))
      (Pool.resolve evaluator source' ctx root steps (firstField steps)) := by
  have hsteps : List.Forall₂ (PathStep.Lifts (likewise.places true)) steps steps := by
    have hpath : (Form.path root steps).Lifts (likewise.places true) (.path root steps) :=
      (Form.Lifts.refl Alike.refl _).of_same fun _ _ h => h.meets true
    cases hpath with
    | path _ hsteps => exact hsteps
  exact likewise.resolve_agree hsteps rfl (Agree.of_eq (fun _ => rfl) rfl) fun _ => rfl

/-- One value taken as a sequence is spread, however it is made one. -/
theorem values_asSequence_agree {n : Node} (h : n.isScalar = true) (ctx : Context) :
    AgreeAll EvalError.SameKind (n.asSequence.values ctx)
      (.ofExcept ((n.scalar ctx).map Value.spread)) := by
  rw [asSequence, if_pos h]
  -- A path is followed to its end, and what stands there is spread by the step that was added;
  -- anything else is spread by the call of `ITEMS`.
  cases hopen : n.isOpenPath with
  | true =>
      obtain ⟨info, root, steps, rfl⟩ := exists_of_isOpenPath hopen
      rw [spread_of_isOpenPath hopen, values_of_not_isScalar rfl, scalar_of_isScalar h]
      change AgreeAll _ (Pool.pathValues evaluator (info.source ++ "[*]") ctx root
        (steps ++ [.items])) (.ofExcept ((Pool.resolve evaluator info.source ctx root steps
          (firstField steps)).map Value.spread))
      rw [Pool.pathValues, Setting.firstField_concat rfl, List.dropLast_concat,
        List.getLast?_concat]
      exact .ofExcept ((resolve_agree ..).map _)
  | false =>
      rw [spread_of_not_isOpenPath hopen]
      cases hvalue : n.scalar ctx with
      | ok value => exact .of_eq (fun _ => rfl) (values_call_items rfl rfl h hvalue)
      | error e =>
          -- An argument that fails makes the call fail with the same error.
          have harg : Pool.arguments evaluator ctx [n] = .error e := by
            simp only [Pool.arguments]
            rw [show evaluator.isScalar n = true from h,
              show evaluator.scalar n ctx = .error e from hvalue]
            rfl
          rw [values_of_not_isScalar rfl]
          change AgreeAll _ (Results.ofExcept
            ((Pool.invoke evaluator ctx .items [n]).map CallResult.toValues)) _
          rw [Pool.invoke, harg]
          exact .failed rfl

/-- An expression is made a sequence by nothing, by a call, or by a step behind a path. -/
theorem asSequence_cases (n : Node) :
    n.asSequence = n ∨ n.asSequence = n.itemsCall ∨
      ∃ info root steps, n = mk info (.path root steps) ∧ n.asSequence = n.widened .items := by
  unfold asSequence
  cases n.isScalar with
  | false => exact .inl rfl
  | true =>
      rw [if_pos rfl]
      cases hopen : n.isOpenPath with
      | false => exact .inr (.inl (spread_of_not_isOpenPath hopen))
      | true =>
          obtain ⟨info, root, steps, rfl⟩ := exists_of_isOpenPath hopen
          exact .inr (.inr ⟨info, root, steps, rfl, spread_of_isOpenPath hopen⟩)

/-- A coercion draws nothing and reads nothing of its own. -/
theorem sites_asSequence (n : Node) : n.asSequence.sites = n.sites := by
  rcases n.asSequence_cases with h | h | ⟨info, root, steps, rfl, h⟩ <;> rw [h]
  · rw [itemsCall, sites_eq]
    simp [compose, Node.form, Form.site, Node.children, Form.children]
  · rw [widened, sites_eq, sites_eq]
    simp [Node.form, Form.site, Node.children, Form.children, PathStep.children]

theorem isImmutable_asSequence (n : Node) :
    n.asSequence.info.isImmutable = n.info.isImmutable := by
  rcases n.asSequence_cases with h | h | ⟨info, root, steps, rfl, h⟩ <;> rw [h]
  · exact Bool.and_true _
  · rfl

theorem usesSource_asSequence (n : Node) : n.asSequence.info.usesSource = n.info.usesSource := by
  rcases n.asSequence_cases with h | h | ⟨info, root, steps, rfl, h⟩ <;> rw [h]
  · exact Bool.or_false _
  · rfl

theorem fields_asSequence (n : Node) : n.asSequence.info.fields = n.info.fields := by
  rcases n.asSequence_cases with h | h | ⟨info, root, steps, rfl, h⟩ <;> rw [h]
  · exact Fields.empty_union _
  · rfl

/-- A pattern that is written out is one value, and no sequence. -/
theorem pattern_asSequence {n : Node} (h : n.isScalar = true) :
    Pool.patternOf? n.asSequence = none := by
  rcases n.asSequence_cases with hsame | hcall | ⟨info, root, steps, rfl, hpath⟩
  · have hmany := n.isScalar_asSequence
    rw [hsame, h] at hmany
    cases hmany
  · rw [hcall]
    rfl
  · rw [hpath]
    rfl

/-- Two expressions that yield the same one value are the same sequence. -/
theorem Substitutes.asSequence (h : a.Substitutes b) : a.asSequence.Substitutes b.asSequence := by
  cases hscalar : a.isScalar with
  | false =>
      have hscalar' : b.isScalar = false := h.isScalar.symm.trans hscalar
      rw [Node.asSequence, Node.asSequence, hscalar, hscalar']
      exact h
  | true =>
      have hscalar' : b.isScalar = true := h.isScalar.symm.trans hscalar
      exact {
        isScalar := by rw [isScalar_asSequence, isScalar_asSequence]
        pattern := by rw [pattern_asSequence hscalar, pattern_asSequence hscalar']
        scalar := by
          intro ctx
          rw [scalar_of_not_isScalar a.isScalar_asSequence,
            scalar_of_not_isScalar b.isScalar_asSequence]
          exact .error rfl
        values := by
          intro ctx
          -- Both are what the one value spreads to.
          have hvalues := AgreeAll.ofExcept ((h.scalar ctx).map Value.spread)
          have hleft := values_asSequence_agree hscalar ctx
          have hright := (values_asSequence_agree hscalar' ctx).symm fun _ _ => Eq.symm
          exact (hleft.trans (fun _ _ _ => .trans) hvalues).trans (fun _ _ _ => .trans) hright
        isImmutable := by rw [isImmutable_asSequence, isImmutable_asSequence, h.isImmutable]
        usesSource := by rw [usesSource_asSequence, usesSource_asSequence, h.usesSource]
        fields := by rw [fields_asSequence, fields_asSequence, h.fields]
        usesSort := by rw [usesSort_asSequence, usesSort_asSequence, h.usesSort]
        sites := by rw [sites_asSequence, sites_asSequence, h.sites] }

theorem Substitutes.gather (h : a.Substitutes b) : a.gather.Substitutes b.gather :=
  .compose (.call .array (.cons h .nil))

theorem Substitutes.asScalar (h : a.Substitutes b) : a.asScalar.Substitutes b.asScalar := by
  unfold Node.asScalar
  rw [← h.isScalar]
  split
  · exact h
  · exact h.gather

theorem Substitutes.coerce (cardinality : Cardinality) (h : a.Substitutes b) :
    (coerce cardinality a).Substitutes (coerce cardinality b) := by
  cases cardinality with
  | scalar => exact h.asScalar
  | sequence => exact h.asSequence

/-! ### Composed expressions -/

variable {a₁ a₂ a₃ b₁ b₂ b₃ : Node}

theorem Replaces.array {items items' : List Node} (h : List.Forall₂ Replaces items items') :
    (array (items.map Node.asScalar)).Replaces (array (items'.map Node.asScalar)) := by
  refine .compose nofun (.array ?_)
  rw [List.forall₂_map_left_iff, List.forall₂_map_right_iff]
  exact h.imp fun _ _ hitem => hitem.asScalar

theorem Replaces.document {entries entries' : List (String × Node)}
    (h : List.Forall₂ (fun entry entry' => entry.1 = entry'.1 ∧ entry.2.Substitutes entry'.2)
      entries entries') : (document entries).Replaces (document entries') :=
  .compose nofun (.document h)

theorem Replaces.map (h₁ : a₁.Substitutes b₁) (h₂ : a₂.Replaces b₂) :
    (map a₁ a₂).Replaces (map b₁ b₂) :=
  .compose nofun (.map h₁ h₂.toSubstitutes)

theorem Replaces.filter (h₁ : a₁.Substitutes b₁) (h₂ : a₂.Replaces b₂) :
    (filter a₁ a₂).Replaces (filter b₁ b₂) :=
  .compose nofun (.filter h₁ h₂.toSubstitutes)

theorem Replaces.sort {order order' : Option Node} (h₁ : a₁.Substitutes b₁) (h₂ : a₂.Replaces b₂)
    (h₃ : Option.Rel Replaces order order') : (sort a₁ a₂ order).Replaces (sort b₁ b₂ order') := by
  refine .compose nofun (.sort h₁ h₂.toSubstitutes ?_)
  cases h₃ with
  | none => exact .none
  | some h₃ => exact .some h₃.toSubstitutes

/-- The coercion goes by the parameter, which is the same for both. -/
theorem forall₂_coerce {params : List Cardinality} {args args' : List Node}
    (h : List.Forall₂ Replaces args args') :
    List.Forall₂ Substitutes (List.zipWith Node.coerce params args)
      (List.zipWith Node.coerce params args') := by
  induction h generalizing params with
  | nil => cases params <;> exact .nil
  | cons harg _ ih =>
      cases params with
      | nil => exact .nil
      | cons cardinality params => exact .cons (harg.coerce cardinality) ih

theorem Replaces.call (function : Builtin) {args args' : List Node}
    (h : List.Forall₂ Replaces args args') : (call function args).Replaces (call function args') :=
  .compose nofun (.call function (forall₂_coerce h))

/-- Branches are coerced only if one of them is a sequence, and this is the same for both. -/
theorem Replaces.conditional (h₁ : a₁.Replaces b₁) (h₂ : a₂.Replaces b₂) (h₃ : a₃.Replaces b₃) :
    (conditional a₁ a₂ a₃).Replaces (conditional b₁ b₂ b₃) := by
  unfold Node.conditional
  rw [← h₂.isScalar, ← h₃.isScalar]
  split
  · exact .compose nofun
      (.conditional h₁.toSubstitutes h₂.toSubstitutes h₃.toSubstitutes)
  · exact .compose nofun (.conditional h₁.toSubstitutes h₂.asSequence h₃.asSequence)

theorem Replaces.bounds (h₁ : a₁.Replaces b₁) (h₂ : a₂.Replaces b₂) :
    (bounds a₁ a₂).Replaces (bounds b₁ b₂) :=
  .compose nofun (.array (.cons h₁.toSubstitutes (.cons h₂.toSubstitutes .nil)))

theorem Replaces.operation (op : Operator) (h₁ : a₁.Substitutes b₁) (h₂ : a₂.Substitutes b₂) :
    (operation op a₁ a₂).Replaces (operation op b₁ b₂) := by
  cases op with
  | binary op => exact .compose nofun (.binary op h₁ h₂)
  | quantified quantifier op => exact .compose nofun (.quantified quantifier op h₁ h₂)
  | logic op => exact .compose nofun (.logic op h₁ h₂)

end Node

/-! ### Rows -/

namespace Precedence

open Node (Replaces)

/-- The operators are the same and the terms behind them may be replaced. -/
def TailReplaces : Tail → Tail → Prop :=
  List.Forall₂ fun entry entry' => entry.1 = entry'.1 ∧ entry.2.Replaces entry'.2

/-- What joins two terms joins what replaces them. -/
theorem combine_replaces {op : Operator} {left left' right right' n : Node}
    (hleft : left.Replaces left') (hright : right.Replaces right')
    (h : combine op left right = .ok n) :
    ∃ n', combine op left' right' = .ok n' ∧ n.Replaces n' := by
  obtain ⟨hl, hr, rfl⟩ := combine_eq_ok.mp h
  refine ⟨_, combine_eq_ok.mpr ⟨fun hop => hleft.isScalar.symm.trans (hl hop),
    hright.isScalar.symm.trans hr, rfl⟩, .operation op ?_ hright.toSubstitutes⟩
  cases op with
  | quantified quantifier op => exact hleft.asSequence
  | binary op | logic op => exact hleft.toSubstitutes

/-- One pass joins at the same operators: these are the same, and a join succeeds for what replaces
its sides. -/
theorem pass_replaces {level : Nat} {first first' n : Node} {tail tail' rest : Tail}
    (hfirst : first.Replaces first') (htail : TailReplaces tail tail')
    (h : pass level first tail = .ok (n, rest)) :
    ∃ n' rest', pass level first' tail' = .ok (n', rest') ∧ n.Replaces n' ∧
      TailReplaces rest rest' := by
  induction htail generalizing first first' n rest with
  | nil =>
      cases h
      exact ⟨first', [], rfl, hfirst, .nil⟩
  | @cons entry entry' others others' hentry _ ih =>
      obtain ⟨op, term⟩ := entry
      obtain ⟨op', term'⟩ := entry'
      obtain ⟨rfl, hterm⟩ : op = op' ∧ term.Replaces term' := hentry
      unfold pass at h ⊢
      split at h
      · rename_i hop
        obtain ⟨m, hm, h⟩ := bind_eq_ok.mp h
        obtain ⟨m', hm', hreplaces⟩ := combine_replaces hfirst hterm hm
        obtain ⟨n', rest', hpass, hboth⟩ := ih hreplaces h
        rw [if_pos hop]
        exact ⟨n', rest', bind_eq_ok.mpr ⟨m', hm', hpass⟩, hboth⟩
      · rename_i hop
        obtain ⟨⟨m, others⟩, hm, heq⟩ := bind_eq_ok.mp h
        cases heq
        obtain ⟨m', rest', hpass, hreplaces, hrest⟩ := ih hterm hm
        rw [if_neg hop]
        exact ⟨first', (op, m') :: rest', bind_eq_ok.mpr ⟨(m', rest'), hpass, rfl⟩, hfirst,
          .cons ⟨rfl, hreplaces⟩ hrest⟩

/-- Level by level, with what the pass before has left. -/
theorem passes_replaces (levels : List Nat) {first first' n : Node} {tail tail' rest : Tail}
    (hfirst : first.Replaces first') (htail : TailReplaces tail tail')
    (h : levels.foldlM (fun (first, tail) level => pass level first tail) (first, tail) =
      .ok (n, rest)) :
    ∃ n' rest', levels.foldlM (fun (first, tail) level => pass level first tail)
      (first', tail') = .ok (n', rest') ∧ n.Replaces n' := by
  induction levels generalizing first first' tail tail' with
  | nil =>
      cases h
      exact ⟨first', tail', rfl, hfirst⟩
  | cons level levels ih =>
      rw [List.foldlM_cons] at h
      obtain ⟨⟨m, others⟩, hm, h⟩ := bind_eq_ok.mp h
      obtain ⟨m', others', hpass, hreplaces, hothers⟩ := pass_replaces hfirst htail hm
      obtain ⟨n', rest', hrest, hn'⟩ := ih hreplaces hothers h
      exact ⟨n', rest', by rw [List.foldlM_cons]; exact bind_eq_ok.mpr ⟨_, hpass, hrest⟩, hn'⟩

/-- A row of terms is reduced as the row of what replaces them. -/
theorem reduce_replaces {first first' n : Node} {tail tail' : Tail}
    (hfirst : first.Replaces first') (htail : TailReplaces tail tail')
    (h : reduce first tail = .ok n) : ∃ n', reduce first' tail' = .ok n' ∧ n.Replaces n' := by
  obtain ⟨⟨m, rest⟩, hm, heq⟩ := bind_eq_ok.mp h
  cases heq
  obtain ⟨n', rest', hrest, hn'⟩ := passes_replaces _ hfirst htail hm
  exact ⟨n', bind_eq_ok.mpr ⟨_, hrest, rfl⟩, hn'⟩

end Precedence

end DocQuery
