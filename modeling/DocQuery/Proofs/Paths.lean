import DocQuery.Proofs.Rows
/-!
# DocQuery.Proofs.Paths

Canonical text of paths. A path is written from its root, with the first field behind a period
like every other one. Read again, a first field with the empty name is no step, and so a path that
has one loses it; and it reads a field of the document where it did not before, or the other way
round. Otherwise what has been read is the path (`Node.Kept.path`).
-/

namespace DocQuery

/-! ### Steps that are kept

A step contributes to its path whether it yields more than one value, its part if it has one, its
text and its outline. Each of these is kept of a step, and then of all steps by induction. -/

namespace Node.Kept

variable {named same exact : Prop} {step step' : PathStep Node}
  {steps steps' : List (PathStep Node)}

/-- The same step, with a part that is kept. -/
abbrev Step (named same exact : Prop) : PathStep Node → PathStep Node → Prop :=
  PathStep.Lifts (.same (Kept named same exact))

section

variable (h : Step named same exact step step')

include h

theorem step_isEnumerable : step'.isEnumerable = step.isEnumerable := by
  cases h <;> rfl

theorem step_children : List.Forall₂ (Kept named same exact) step.children step'.children := by
  cases h with
  | indexOf h | filter h => exact .cons h .nil
  | _ => exact .nil

theorem step_text (hnamed : named) : step'.text = step.text := by
  cases h with
  | indexOf h | filter h => simp only [PathStep.text, Kept.source h hnamed]
  | _ => rfl

theorem step_outline (hexact : exact) : step'.map Node.outline = step.map Node.outline := by
  cases h with
  | indexOf h | filter h => simp only [PathStep.map, Kept.outline h hexact]
  | _ => rfl

end

section

variable (h : List.Forall₂ (Step named same exact) steps steps')

include h

theorem any_isEnumerable : steps'.any PathStep.isEnumerable = steps.any PathStep.isEnumerable := by
  induction h with
  | nil => rfl
  | cons hstep _ ih => rw [List.any_cons, List.any_cons, step_isEnumerable hstep, ih]

theorem steps_children : List.Forall₂ (Kept named same exact)
    (steps.flatMap PathStep.children) (steps'.flatMap PathStep.children) := by
  induction h with
  | nil => exact .nil
  | cons hstep _ ih =>
      rw [List.flatMap_cons, List.flatMap_cons]
      exact List.rel_append (step_children hstep) ih

theorem map_text (hnamed : named) : steps'.map PathStep.text = steps.map PathStep.text := by
  induction h with
  | nil => rfl
  | cons hstep _ ih => rw [List.map_cons, List.map_cons, step_text hstep hnamed, ih]

theorem map_map_outline (hexact : exact) :
    steps'.map (PathStep.map Node.outline) = steps.map (PathStep.map Node.outline) := by
  induction h with
  | nil => rfl
  | cons hstep _ ih => rw [List.map_cons, List.map_cons, step_outline hstep hexact, ih]

end

end Node.Kept

namespace Node

/-- A path begins with its sigil and so with no parenthesis. -/
theorem isOpenPath_path (fields : Fields) (root : PathRoot) (steps : List (PathStep Node)) :
    (path fields root steps).isOpenPath = true := by
  have hhead : (path fields root steps).isParenthesized = false := by
    change ((root.sigil ++ String.join (steps.map PathStep.text)).toList.head? == some '(') = false
    rw [String.toList_append]
    cases root <;> rfl
  unfold isOpenPath
  rw [hhead]
  rfl

/-- The step that is lost is a member, which yields one value. -/
theorem any_isEnumerable_rereadFirst (steps : List (PathStep Node)) :
    (rereadFirst steps).any PathStep.isEnumerable = steps.any PathStep.isEnumerable := by
  unfold rereadFirst
  split
  · split <;> rfl
  · rfl

theorem map_text_reread (steps : List (PathStep Node)) :
    (steps.map (PathStep.map reread)).map PathStep.text = steps.map PathStep.text := by
  rw [List.map_map]
  refine List.map_congr_left fun step _ => ?_
  cases step <;> simp [PathStep.text, PathStep.map]

/-- A path is kept if its steps are. -/
theorem Kept.path {named same exact : Prop} {fields fields' : Fields} {root : PathRoot}
    {steps steps' : List (PathStep Node)}
    (hsteps : List.Forall₂ (Kept.Step named same exact)
      (rereadFirst (steps.map (PathStep.map reread))) steps')
    (hfirst : named → rereadFirst (steps.map (PathStep.map reread)) =
      steps.map (PathStep.map reread))
    (hfields : named → same → fields' = fields) :
    Kept named same exact (Node.path fields root steps).reread (Node.path fields' root steps') := by
  have hinfos : (steps.map (PathStep.map reread)).flatMap PathStep.children =
      (steps.flatMap PathStep.children).map reread := by
    simp only [List.flatMap_map, List.map_flatMap, PathStep.children_map]
  -- Parts of the steps are the parts of the path, and losing a member loses none of them.
  have hchildren := Kept.steps_children hsteps
  rw [Form.flatMap_children_rereadFirst, hinfos] at hchildren
  have hparts : (steps.flatMap PathStep.children).map info =
      ((steps.flatMap PathStep.children).map reread).map info := by
    rw [List.map_map]
    exact List.map_congr_left fun n _ => (n.info_reread).symm
  have hmany : steps'.any PathStep.isEnumerable = steps.any PathStep.isEnumerable := by
    rw [Kept.any_isEnumerable hsteps, any_isEnumerable_rereadFirst, List.any_map]
    congr 1
    funext step
    exact step.isEnumerable_map _
  have hreread : (Node.path fields root steps).reread =
      .mk (Node.path fields root steps).info
        (.path root (rereadFirst (steps.map (PathStep.map reread)))) := reread_mk ..
  exact {
    type := rfl
    isScalar := by
      rw [isScalar_reread]
      exact congrArg (!·) hmany
    isImmutable := rfl
    usesSource := by
      have huses := Kept.any_usesSource hchildren
      rw [List.any_map] at huses
      simp only [Function.comp_def, info_reread] at huses
      exact huses
    isOpenPath := by rw [isOpenPath_reread, isOpenPath_path, isOpenPath_path]
    -- The text and the fields need that no step was lost; the outline is one of what is left.
    source := by
      intro hnamed
      rw [source_reread]
      change root.sigil ++ String.join (steps'.map PathStep.text) =
        root.sigil ++ String.join (steps.map PathStep.text)
      rw [Kept.map_text hsteps hnamed, hfirst hnamed, map_text_reread]
    fields := by
      intro hnamed hsame
      have hfold := Kept.foldl_fields hchildren hnamed hsame Fields.empty
      rw [List.foldl_map] at hfold
      simp only [info_reread] at hfold ⊢
      change fields'.union _ = fields.union _
      rw [hfields hnamed hsame]
      exact congrArg fields.union hfold
    outline := by
      intro hexact
      have hscalar : (Node.path fields' root steps').info.outline =
          (Node.path fields root steps).info.outline := by
        unfold NodeInfo.outline
        congr 1
        exact congrArg (!·) hmany
      have houtline : (Node.path fields' root steps').outline =
          .mk (Node.path fields' root steps').info.outline
            ((Form.path root steps').mapParts Node.outline).eraseSite := outline_mk ..
      rw [houtline, hreread, outline_mk, hscalar]
      simp only [Form.mapParts, Kept.map_map_outline hsteps hexact] }

end Node

/-! ### Steps as they are written -/

namespace Phrase

open Node (Kept)

variable {named exact : Prop} {scope : Scope}

/-- The number that a place is read as is read from its text. -/
theorem readInt32_place {chars : List Char} {n : Int32} (h : Number.readInt32? chars = some n) :
    Number.readInt32? (if decide (n.toInt < 0) then '-' :: (Number.digitsText n.toInt).toList
      else (Number.digitsText n.toInt).toList) = some n := by
  have hread := Number.readInt_of_readInt32 h
  rw [Number.signed_digitsText, ← h]
  refine Number.readInt32_congr ?_
  rw [Number.readInt_intText, hread]

/-- A step is written as it was, with names and places in canonical form and a part that restates
its own. -/
theorem exists_step {w : WrittenStep Phrase} {step : PathStep Node}
    (hwf : ∀ e, w = .part e → e.WellFormed ∧ e.isBounds = false ∧ e.isPlain = true)
    (hstep : stepNode node w = some step)
    (h : ∀ e, w = .part e → ∀ n, e.node .current = some n →
      ∃ e', Renders named exact .current e n e') :
    ∃ w', StepWrites w' step ∧ ∀ same, Again (step.children.all Node.keepsBounds)
      (Kept.Step named same exact (step.map Node.reread)) (stepNode node w') := by
  cases w with
  | member field =>
      cases hstep
      refine ⟨_, .member field.name, fun same => ?_⟩
      rw [stepNode, name_canonicalField]
      exact .some (.member field.name)
  | place negative digits =>
      obtain ⟨n, hn, rfl⟩ := Option.map_eq_some_iff.mp hstep
      refine ⟨_, .index n.toInt, fun same => ?_⟩
      rw [stepNode, readInt32_place hn]
      exact .some (.index n.toInt)
  | all =>
      cases hstep
      exact ⟨_, .all, fun same => .some .all⟩
  | part e =>
      obtain ⟨n, hn, rfl⟩ := Option.map_eq_some_iff.mp hstep
      obtain ⟨hwf, hbounds, hplain⟩ := hwf e rfl
      obtain ⟨e', he⟩ := h e rfl n hn
      -- The text of the part in the node is the one that is written.
      have hitem : WritesItem e' n.source := ⟨he.restates.writes, he.isBounds.trans hbounds⟩
      -- Whether a part is a place or a predicate is seen in its type, hence in how it is written.
      have htype := type_eq_parameter hwf hn
      rw [← he.isParameter] at htype
      have hagain (same : Prop) : Again n.keepsBounds (Kept named same exact n.reread)
          (e'.node .current) :=
        he.restates.inner same
      cases hparameter : e'.isParameter with
      | true =>
          have hn : n.info.type = .parameter := htype.mpr hparameter
          rw [if_pos hn]
          refine ⟨.part e', .indexOf hitem (he.isPlain hplain) hparameter, fun same => ?_⟩
          rw [PathStep.children, List.all_cons, List.all_nil, Bool.and_true]
          refine (hagain same).map fun b hb => ?_
          rw [if_pos (hb.type.trans ((congrArg NodeInfo.type n.info_reread).trans hn))]
          exact .indexOf hb
      | false =>
          have hn : n.info.type ≠ .parameter := fun hn => by
            rw [htype.mp hn] at hparameter
            cases hparameter
          rw [if_neg hn]
          refine ⟨.part e', .filter hitem (he.isPlain hplain) hparameter, fun same => ?_⟩
          rw [PathStep.children, List.all_cons, List.all_nil, Bool.and_true]
          refine (hagain same).map fun b hb => ?_
          rw [if_neg fun hb' => hn
            ((congrArg NodeInfo.type n.info_reread).symm.trans (hb.type.symm.trans hb'))]
          exact .filter hb

/-- Steps are written as they were, one after the other. -/
theorem exists_steps {ws : List (WrittenStep Phrase)} {steps : List (PathStep Node)}
    (hwf : ∀ e, .part e ∈ ws → e.WellFormed ∧ e.isBounds = false ∧ e.isPlain = true)
    (hsteps : stepNodes node ws = some steps)
    (h : ∀ e, .part e ∈ ws → ∀ n, e.node .current = some n →
      ∃ e', Renders named exact .current e n e') :
    ∃ ws', List.Forall₂ StepWrites ws' steps ∧
      ∀ same, Again ((steps.flatMap PathStep.children).all Node.keepsBounds)
        (List.Forall₂ (Kept.Step named same exact) (steps.map (PathStep.map Node.reread)))
        (stepNodes node ws') := by
  induction ws generalizing steps with
  | nil =>
      cases hsteps
      exact ⟨[], .nil, fun _ => .some .nil⟩
  | cons w ws ih =>
      obtain ⟨step, hstep, rest, hrest, rfl⟩ := stepNodes_cons_eq_some.mp hsteps
      obtain ⟨w', hw, hagain⟩ := exists_step (fun e he => hwf e (by simp [he])) hstep
        fun e he => h e (by simp [he])
      obtain ⟨ws', hws, hagains⟩ := ih (fun e he => hwf e (List.mem_cons_of_mem _ he)) hrest
        fun e he => h e (List.mem_cons_of_mem _ he)
      refine ⟨w' :: ws', .cons hw hws, fun same => ?_⟩
      rw [List.flatMap_cons, List.all_append, stepNodes]
      refine (hagain same).bind fun b hb => ?_
      rw [← Bool.and_true (List.all _ _)]
      exact (hagains same).bind fun bs hbs => .some (.cons hb hbs)

/-! ### Paths as they are written -/

/-- The field that a path with these steps reads off the document. -/
def firstFields (root : PathRoot) (scope : Scope) : List (PathStep Node) → Fields
  | .member name :: _ =>
    if !name.isEmpty && (root = .document || scope = .source) then Fields.single name
    else Fields.empty
  | _ => Fields.empty

/-- What steps a path may have that has not been coerced. -/
structure Uncoerced (steps : List (PathStep Node)) : Prop where
  items : .items ∉ steps
  single : steps.dropLast.any PathStep.isEnumerable = false

theorem any_isMany {ws : List (WrittenStep Phrase)} {steps : List (PathStep Node)}
    (h : List.Forall₂ StepWrites ws steps) :
    ws.any (WrittenStep.isMany isParameter) = steps.any PathStep.isEnumerable := by
  rw [any_eq_any_id, map_isMany h, ← any_eq_any_id]

/-- Without a step that has been coerced, a path is read again as it is. -/
theorem Uncoerced.rereadSequence {steps : List (PathStep Node)} (h : Uncoerced steps)
    (fields : Fields) (root : PathRoot) :
    (Node.path fields root steps).reread.rereadSequence = (Node.path fields root steps).reread :=
  Node.rereadSequence_path h.items

section

variable {fields : Fields} {root : PathRoot} {ws : List (WrittenStep Phrase)}
  {steps : List (PathStep Node)}

/-- A path that begins with a field is written as one. Read again, it loses the field if its name
is empty. -/
theorem exists_path_member {name : String} (hws : List.Forall₂ StepWrites ws steps)
    (hagain : ∀ same, Again ((steps.flatMap PathStep.children).all Node.keepsBounds)
      (List.Forall₂ (Kept.Step named same exact) (steps.map (PathStep.map Node.reread)))
      (stepNodes node ws))
    (huncoerced : Uncoerced (.member name :: steps))
    (hnamed : named → name ≠ "" ∧ fields = firstFields root scope (.member name :: steps)) :
    ∃ start ws, Restates named exact scope (Node.path fields root (.member name :: steps))
        (mk (.path start ws none)) ∧
      Extends (Node.path fields root (.member name :: steps)) (mk (.path start ws none)) := by
  have hscalar : (Node.path fields root (.member name :: steps)).isScalar =
      !steps.any PathStep.isEnumerable := rfl
  have hsingle : steps.dropLast.any PathStep.isEnumerable = false := by
    cases steps with
    | nil => rfl
    | cons step rest => exact huncoerced.single
  -- The first field is written with the root, so the steps behind it are those of the path.
  have hwrites := writes_path root (some name) hws hsingle (by rintro ⟨⟩)
  refine ⟨.sigil root (some (canonicalField name)), ws, ⟨?_, fun scope' => ?_⟩,
    ⟨fun _ => ⟨_, ws, rfl, fun h => ?_⟩, huncoerced.rereadSequence fields root⟩⟩
  · have hsource : (Node.path fields root (.member name :: steps)).source =
        root.sigil ++ memberText name ++ String.join (steps.map PathStep.text) := by
      change root.sigil ++ String.join ((PathStep.member name :: steps).map PathStep.text) = _
      rw [List.map_cons, String.join_cons, PathStep.text, ← String.append_assoc]
    rw [hsource]
    exact hwrites
  · rw [Node.keepsBounds_path, node_eq]
    refine (hagain (scope' = scope)).map fun rest hrest => ?_
    have hreread : rereadFirst ((PathStep.member name :: steps).map (PathStep.map Node.reread)) =
        if name.isEmpty then steps.map (PathStep.map Node.reread)
        else .member name :: steps.map (PathStep.map Node.reread) := rfl
    -- Read in any scope, the name is the first step again, and a field of the document if it is one
    -- there.
    have hnode : (PathStart.sigil root (some (canonicalField name))).node scope' rest =
        Node.path (firstFields root scope' (.member name :: rest)) root
          (if name.isEmpty then rest else .member name :: rest) := by
      unfold PathStart.node firstFields
      simp only [PathStart.field, PathStart.root, name_canonicalField]
      cases name.isEmpty <;> cases root <;> cases scope' <;> rfl
    have hempty (hn : named) : name.isEmpty = false :=
      Bool.eq_false_iff.mpr fun hempty => (hnamed hn).1 (String.isEmpty_iff.mp hempty)
    -- An empty name is lost here, and only here: the text and the fields are kept if there is none.
    rw [hnode]
    refine .path ?_ (fun hn => ?_) fun hn hscope => ?_
    · rw [hreread]
      split
      · exact hrest
      · exact .cons (.member name) hrest
    · rw [hreread, hempty hn, if_neg Bool.false_ne_true]
      rfl
    · rw [(hnamed hn).2, hscope]
      rfl
  · rw [any_isMany hws]
    simpa [hscalar] using h

/-- A path that begins with no field is written as it is. -/
theorem exists_path_other (hws : List.Forall₂ StepWrites ws steps)
    (hagain : ∀ same, Again ((steps.flatMap PathStep.children).all Node.keepsBounds)
      (List.Forall₂ (Kept.Step named same exact) (steps.map (PathStep.map Node.reread)))
      (stepNodes node ws))
    (huncoerced : Uncoerced steps) (hfirst : ∀ name, steps.head? ≠ some (.member name))
    (hnamed : named → fields = Fields.empty) :
    ∃ start ws, Restates named exact scope (Node.path fields root steps)
        (mk (.path start ws none)) ∧
      Extends (Node.path fields root steps) (mk (.path start ws none)) := by
  have hscalar : (Node.path fields root steps).isScalar = !steps.any PathStep.isEnumerable := rfl
  -- Only a first field can be lost.
  have hreread : rereadFirst (steps.map (PathStep.map Node.reread)) =
      steps.map (PathStep.map Node.reread) := by
    unfold rereadFirst
    split
    · rename_i name rest hsteps
      cases steps with
      | nil => cases hsteps
      | cons step steps =>
          cases step with
          | member other => exact absurd rfl (hfirst other)
          | _ => cases hsteps
    · rfl
  have hwrites := writes_path root none hws huncoerced.single fun _ => hfirst
  refine ⟨.sigil root none, ws, ⟨?_, fun scope' => ?_⟩,
    ⟨fun _ => ⟨_, ws, rfl, fun h => ?_⟩, huncoerced.rereadSequence fields root⟩⟩
  · have hsource : (Node.path fields root steps).source =
        root.sigil ++ String.join (steps.map PathStep.text) := rfl
    rw [hsource]
    rwa [Option.elim_none, String.append_empty] at hwrites
  · rw [Node.keepsBounds_path, node_eq]
    refine (hagain (scope' = scope)).map fun steps' hsteps => ?_
    have hnode : (PathStart.sigil root none).node scope' steps' =
        Node.path Fields.empty root steps' := rfl
    rw [hnode]
    refine .path ?_ (fun _ => hreread) fun hn _ => (hnamed hn).symm
    rw [hreread]
    exact hsteps
  · rw [any_isMany hws]
    simpa [hscalar] using h

end

end Phrase

end DocQuery
