import DocQuery.Proofs.Outline
/-!
# DocQuery.Proofs.Restating

How nodes that are put together are read again. Putting nodes together goes with reading them
again (`Node.reread`), except where a sequence is asked for and a coerced path is given. And
whether they can be read again depends on their parts alone, except for a range.
-/

namespace DocQuery

namespace Form

variable {ν : Type}

/-- A first field that is left out has no parts. -/
theorem flatMap_children_rereadFirst (steps : List (PathStep ν)) :
    (rereadFirst steps).flatMap PathStep.children = steps.flatMap PathStep.children := by
  unfold rereadFirst
  split
  · split <;> rfl
  · rfl

/-- What is known of the parts of a layer stays the same when it is read again. -/
theorem map_info_reread (form : Form Node) :
    form.reread.children.map Node.info = form.children.map Node.info := by
  cases form with
  | path root steps => simp only [reread, children, flatMap_children_rereadFirst]
  | map a b | filter a b | quantified _ _ a b =>
      simp only [reread, children, List.map_cons, Node.info_rereadSequence]
  | sort a b c => simp only [reread, children, List.map_cons, Node.info_rereadSequence]
  | _ => rfl

end Form

namespace Node

@[simp] theorem isScalar_reread (n : Node) : n.reread.isScalar = n.isScalar :=
  congrArg NodeInfo.isScalar n.info_reread

@[simp] theorem source_reread (n : Node) : n.reread.source = n.source :=
  congrArg NodeInfo.source n.info_reread

@[simp] theorem isParenthesized_reread (n : Node) :
    n.reread.isParenthesized = n.isParenthesized := by
  unfold isParenthesized
  rw [source_reread]

/-- What is known of a composed node comes from what is known of its parts. -/
theorem compose_eq (type : ExprType) (isScalar : Bool) (source : String) (form : Form Node) :
    compose type isScalar source form =
      let infos := form.children.map info
      .mk { type, isScalar, source
            isImmutable := infos.all (·.isImmutable)
            usesSource := infos.any (·.usesSource)
            fields := infos.foldl (fun fields info => fields.union info.fields) Fields.empty }
        form := by
  simp only [compose, List.all_map, List.any_map, List.foldl_map]
  rfl

/-- A composed node is composed of its layer, read again with its parts. -/
theorem reread_compose (type : ExprType) (isScalar : Bool) (source : String)
    (form : Form Node) :
    (compose type isScalar source form).reread =
      compose type isScalar source (form.mapParts reread).reread := by
  -- A composed node knows of its parts only what reading again keeps.
  have hinfos : (form.mapParts reread).reread.children.map info = form.children.map info := by
    rw [Form.map_info_reread, Form.children_mapParts, List.map_map]
    exact List.map_congr_left fun n _ => n.info_reread
  rw [compose_eq, compose_eq, reread_mk, hinfos]

theorem reread_varying (n : Node) : n.varying.reread = n.reread.varying := by
  obtain ⟨info, form⟩ := n
  simp only [varying, reread_mk]

theorem reread_parenthesized (n : Node) : n.parenthesized.reread = n.reread.parenthesized := by
  obtain ⟨info, form⟩ := n
  simp only [parenthesized, reread_mk]

/-- A path without a coerced step is read as it is where a sequence is asked for. -/
theorem rereadSequence_path {info : NodeInfo} {root : PathRoot} {steps : List (PathStep Node)}
    (h : .items ∉ steps) :
    (mk info (.path root steps)).reread.rereadSequence = (mk info (.path root steps)).reread := by
  -- No step is one of coercion, also none of those behind a first field that is left out.
  have hstep : ∀ step ∈ steps.map (PathStep.map reread), step.reread = step := by
    refine List.forall_mem_map.mpr fun step hmem => ?_
    cases step with
    | items => exact absurd hmem h
    | _ => rfl
  -- A first field that is empty is left out; the others stay.
  have hfirst : ∀ step ∈ rereadFirst (steps.map (PathStep.map reread)), step.reread = step := by
    unfold rereadFirst
    split
    · rename_i name rest hsteps
      rw [hsteps] at hstep
      split
      · exact fun step hmem => hstep step (List.mem_cons_of_mem _ hmem)
      · exact hstep
    · exact hstep
  rw [reread_mk]
  simp only [Form.mapParts, Form.reread, rereadSequence, List.map_congr_left hfirst, List.map_id']

theorem rereadSequence_parenthesized (n : Node) :
    n.parenthesized.rereadSequence = n.rereadSequence.parenthesized := by
  obtain ⟨info, form⟩ := n
  cases form <;> rfl

/-- A constant has no parts that would be read again. -/
theorem reread_constant (type : ExprType) (value : Value) (source : String) :
    (constant type value source).reread = constant type value source :=
  reread_compose ..

theorem reread_parameter (name : String) : (parameter name).reread = parameter name := by
  rw [parameter, reread_varying, reread_compose]
  rfl

theorem reread_documents : documents.reread = documents := reread_mk ..

theorem reread_generate (generator : Generator) (site : Nat) :
    (generate generator site).reread = generate generator site := by
  rw [generate, reread_varying, reread_compose]
  rfl

/-! ### Coercions

A coercion puts something around a node or behind its steps and leaves the rest, so it does not
matter whether this is done before or after reading again. -/

/-- Whether a first field is left out is decided before the step behind it. -/
theorem rereadFirst_concat_items {ν : Type} (steps : List (PathStep ν)) :
    rereadFirst (steps ++ [.items]) = rereadFirst steps ++ [.items] := by
  cases steps with
  | nil => rfl
  | cons step rest =>
      cases step with
      | member name =>
          unfold rereadFirst
          simp only [List.cons_append]
          split <;> rfl
      | _ => rfl

theorem reread_spread (n : Node) : n.spread.reread = n.reread.spread := by
  obtain ⟨info, form⟩ := n
  have hparenthesized := (mk info form).isParenthesized_reread
  rw [reread_mk] at hparenthesized ⊢
  -- A path that is not parenthesized takes one more step; everything else is the argument of a
  -- call.
  cases form with
  | path root steps =>
      simp only [Form.mapParts, Form.reread] at hparenthesized ⊢
      simp only [spread, hparenthesized]
      split
      · rw [reread_compose]
        simp only [Form.mapParts, Form.reread, List.map_cons, List.map_nil, reread_mk]
      · simp only [reread_mk, Form.mapParts, Form.reread, List.map_append, List.map_cons,
          List.map_nil, PathStep.map, rereadFirst_concat_items]
  | _ =>
      simp only [spread, reread_compose, Form.mapParts, Form.reread, List.map_cons,
        List.map_nil, reread_mk]

theorem reread_gather (n : Node) : n.gather.reread = n.reread.gather := by
  simp only [gather, reread_compose, Form.mapParts, Form.reread, List.map_cons, List.map_nil,
    source_reread]

theorem reread_asSequence (n : Node) : n.asSequence.reread = n.reread.asSequence := by
  unfold asSequence
  rw [isScalar_reread]
  split
  · exact n.reread_spread
  · rfl

theorem reread_asScalar (n : Node) : n.asScalar.reread = n.reread.asScalar := by
  unfold asScalar
  rw [isScalar_reread]
  split
  · rfl
  · exact n.reread_gather

theorem reread_coerce (cardinality : Cardinality) (n : Node) :
    (coerce cardinality n).reread = coerce cardinality n.reread := by
  cases cardinality with
  | scalar => exact n.reread_asScalar
  | sequence => exact n.reread_asSequence

/-! ### Composed nodes

One equation for each constructor: a composed node read again is composed of its parts read again.
Where a constructor takes a sequence, this part is read as one (`Node.rereadSequence`). -/

theorem reread_document (entries : List (String × Node)) :
    (document entries).reread = document (entries.map fun (name, n) => (name, n.reread)) := by
  simp only [document, reread_compose, Form.mapParts, Form.reread, List.map_map,
    Function.comp_def, source_reread]

theorem reread_array (items : List Node) : (array items).reread = array (items.map reread) := by
  simp only [array, reread_compose, Form.mapParts, Form.reread, List.map_map,
    Function.comp_def, source_reread]

theorem source_rereadSequence (n : Node) : n.rereadSequence.source = n.source :=
  congrArg NodeInfo.source n.info_rereadSequence

theorem reread_map (sequence selector : Node) :
    (map sequence selector).reread = map sequence.reread.rereadSequence selector.reread := by
  simp only [map, reread_compose, Form.mapParts, Form.reread, source_reread,
    source_rereadSequence]

theorem reread_filter (sequence predicate : Node) :
    (filter sequence predicate).reread =
      filter sequence.reread.rereadSequence predicate.reread := by
  simp only [filter, reread_compose, Form.mapParts, Form.reread, source_reread,
    source_rereadSequence]

theorem reread_sort (sequence key : Node) (order : Option Node) :
    (sort sequence key order).reread =
      sort sequence.reread.rereadSequence key.reread (order.map reread) := by
  cases order <;>
    simp only [sort, reread_compose, Form.mapParts, Form.reread, source_reread,
      source_rereadSequence, Option.map_none, Option.map_some]

theorem reread_call (function : Builtin) (args : List Node) :
    (call function args).reread = call function (args.map reread) := by
  simp only [call, reread_compose, Form.mapParts, Form.reread, List.map_map,
    Function.comp_def, source_reread, List.map_zipWith, List.zipWith_map_right, reread_coerce]

theorem reread_conditional (test ifTrue ifFalse : Node) :
    (conditional test ifTrue ifFalse).reread =
      conditional test.reread ifTrue.reread ifFalse.reread := by
  simp only [conditional, isScalar_reread]
  split <;>
    simp only [reread_compose, Form.mapParts, Form.reread, source_reread, reread_asSequence]

theorem reread_bounds (lower upper : Node) :
    (bounds lower upper).reread = bounds lower.reread upper.reread := by
  simp only [bounds, reread_compose, Form.mapParts, Form.reread, source_reread, List.map_cons,
    List.map_nil]

/-- The left side of an operator as it is read: a quantified operator takes a sequence. -/
def rereadLeft (op : Operator) (n : Node) : Node :=
  match op with
  | .quantified _ _ => n.rereadSequence
  | _ => n

theorem reread_operation (op : Operator) (left right : Node) :
    (operation op left right).reread =
      operation op (rereadLeft op left.reread) right.reread := by
  cases op <;>
    simp only [operation, rereadLeft, reread_compose, Form.mapParts, Form.reread, source_reread,
      source_rereadSequence]

/-! ### Bounds

Whether the bounds in a node are kept is asked of its form and of its parts. Only a comparison with
a range loses them by its form, so for every other constructor it is asked of the parts alone. -/

theorem keepsBounds_compose (type : ExprType) (isScalar : Bool) (source : String)
    (form : Form Node) :
    (compose type isScalar source form).keepsBounds =
      (!form.losesBounds isQuantified && form.children.all keepsBounds) :=
  keepsBounds_mk ..

theorem keepsBounds_varying (n : Node) : n.varying.keepsBounds = n.keepsBounds := by
  obtain ⟨info, form⟩ := n
  rw [varying, keepsBounds_mk, keepsBounds_mk]

theorem keepsBounds_reading (fields : Fields) (n : Node) :
    (n.reading fields).keepsBounds = n.keepsBounds := by
  obtain ⟨info, form⟩ := n
  rw [reading, keepsBounds_mk, keepsBounds_mk]

theorem keepsBounds_parenthesized (n : Node) : n.parenthesized.keepsBounds = n.keepsBounds := by
  obtain ⟨info, form⟩ := n
  rw [parenthesized, keepsBounds_mk, keepsBounds_mk]

/-- A path keeps what its places and conditions keep. -/
theorem keepsBounds_path (fields : Fields) (root : PathRoot) (steps : List (PathStep Node)) :
    (path fields root steps).keepsBounds =
      (steps.flatMap PathStep.children).all keepsBounds := by
  rw [path, keepsBounds_reading, keepsBounds_varying, keepsBounds_compose]
  rfl

/-- Neither a step more nor a call around it loses bounds. -/
theorem keepsBounds_spread (n : Node) : n.spread.keepsBounds = n.keepsBounds := by
  obtain ⟨info, form⟩ := n
  have hcall : (compose .call false ("ITEMS(" ++ info.source ++ ")")
      (.call .items [mk info form])).keepsBounds = (mk info form).keepsBounds := by
    rw [keepsBounds_compose]
    simp [Form.losesBounds, Form.children]
  cases form with
  | path root steps =>
      simp only [spread]
      split
      · exact hcall
      · rw [keepsBounds_mk, keepsBounds_mk]
        simp [Form.losesBounds, Form.children, PathStep.children]
  | _ => exact hcall

theorem keepsBounds_gather (n : Node) : n.gather.keepsBounds = n.keepsBounds := by
  rw [gather, keepsBounds_compose]
  simp [Form.losesBounds, Form.children]

theorem keepsBounds_asSequence (n : Node) : n.asSequence.keepsBounds = n.keepsBounds := by
  unfold asSequence
  split
  · exact n.keepsBounds_spread
  · rfl

theorem keepsBounds_asScalar (n : Node) : n.asScalar.keepsBounds = n.keepsBounds := by
  unfold asScalar
  split
  · rfl
  · exact n.keepsBounds_gather

theorem keepsBounds_coerce (cardinality : Cardinality) (n : Node) :
    (coerce cardinality n).keepsBounds = n.keepsBounds := by
  cases cardinality with
  | scalar => exact n.keepsBounds_asScalar
  | sequence => exact n.keepsBounds_asSequence

theorem keepsBounds_call {function : Builtin} {args : List Node}
    (h : function.signature.arity = args.length) :
    (call function args).keepsBounds = args.all keepsBounds := by
  -- The arguments are coerced one by one, as many as there are parameters.
  have hcoerced (params : List Cardinality) (args : List Node) (h : params.length = args.length) :
      (List.zipWith coerce params args).all keepsBounds = args.all keepsBounds := by
    induction params generalizing args with
    | nil => rw [List.length_eq_zero_iff.mp h.symm]; rfl
    | cons cardinality params ih =>
        cases args with
        | nil => cases h
        | cons arg args =>
            simp only [List.zipWith_cons_cons, List.all_cons, keepsBounds_coerce,
              ih args (Nat.succ.inj h)]
  rw [call, keepsBounds_compose]
  exact hcoerced _ _ h

theorem keepsBounds_conditional (test ifTrue ifFalse : Node) :
    (conditional test ifTrue ifFalse).keepsBounds =
      (test.keepsBounds && (ifTrue.keepsBounds && ifFalse.keepsBounds)) := by
  unfold conditional
  extract_lets source
  split <;>
    simp [keepsBounds_compose, Form.losesBounds, Form.children, keepsBounds_asSequence]

/-- An operator takes bounds as its right side unless it compares within them and a quantified
comparison has taken them first. -/
theorem keepsBounds_operation (op : Operator) (left right : Node) :
    (operation op left right).keepsBounds =
      (!(Precedence.isQuantified op && op.isBetween && right.isQuantified) &&
        (left.keepsBounds && right.keepsBounds)) := by
  cases op with
  | quantified quantifier op =>
      rw [operation, keepsBounds_compose]
      cases op <;> simp [Form.losesBounds, Form.children, Precedence.isQuantified,
        Operator.isBetween]
  | binary op | logic op =>
      rw [operation, keepsBounds_compose]
      simp [Form.losesBounds, Form.children, Precedence.isQuantified]

end Node

end DocQuery
