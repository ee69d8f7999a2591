import DocQuery.Proofs.Substitution
/-!
# DocQuery.Proofs.Draws

What generators draw. A call draws a number by the offset at which it is written, so two
expressions that are the same but for these offsets are evaluated alike where the same numbers
are drawn for the calls of the one and for the calls of the other, one after the other
(`Node.redrawn_of_outline`). Nothing else of an expression depends on where it is written.
-/

namespace DocQuery

/-! ### Contexts in which other numbers are drawn -/

/-- The context in which generators draw these numbers. -/
def Context.redraw (ctx : Context) (draw : Nat → Option Value → Nat) : Context :=
  { ctx with ambient := { ctx.ambient with draw } }

/-- What is drawn at some offsets can be drawn at as many others that are all different. -/
theorem exists_redraw {sites sites' : List Nat} (hlength : sites.length = sites'.length)
    (hnodup : sites'.Nodup) (draw : Nat → Option Value → Nat) :
    ∃ draw', sites.map draw = sites'.map draw' := by
  refine ⟨fun site => draw (sites.getD (sites'.idxOf site) 0), ?_⟩
  refine List.ext_getElem (by simp [hlength]) fun i hi hi' => ?_
  rw [List.length_map] at hi hi'
  rw [List.getElem_map, List.getElem_map, hnodup.idxOf_getElem i hi', List.getD_eq_getElem?_getD,
    List.getElem?_eq_getElem hi]
  rfl

/-- A generator yields the same if it draws the same. -/
theorem Generator.value_redraw {generator : Generator} {site site' : Nat} {ctx : Context}
    {draw : Nat → Option Value → Nat}
    (h : (Form.generate generator site : Form Node).site.map ctx.ambient.draw =
      (Form.generate generator site' : Form Node).site.map draw) :
    generator.value site ctx = generator.value site' (ctx.redraw draw) := by
  have hdraw (heq : [ctx.ambient.draw site] = [draw site']) :
      ctx.ambient.draw site ctx.current = draw site' (ctx.redraw draw).current :=
    congrFun (List.head_eq_of_cons_eq heq) _
  cases generator with
  | now | nowUtc | today => rfl
  | guid => exact congrArg (fun number => Value.guid (Guid.generate number)) (hdraw h)
  | objectId =>
      exact congrArg (fun number => Value.objectId (ObjectId.generate ctx.ambient.now number))
        (hdraw h)

/-- Layers that are the same but for an offset are the same, or calls of one generator. -/
theorem Form.eq_or_generate {ν μ : Type} {f g : ν → μ} {form form' : Form ν}
    (h : (form.mapParts f).eraseSite = (form'.mapParts g).eraseSite) :
    form.mapParts f = form'.mapParts g ∨
      ∃ generator site site', form = .generate generator site ∧
        form' = .generate generator site' := by
  cases form with
  | generate generator site =>
      cases form' with
      | generate generator' site' =>
          cases h
          exact .inr ⟨generator, site, site', rfl, rfl⟩
      | _ => cases h
  | _ => cases form' <;> first | exact .inl h | cases h

/-- A layer is acted on as it is, or its right side is a pattern that is written out. -/
theorem Action.eq_of_ofForm {ν : Type} {pattern? : ν → Option Text.Glob} {form form' : Form ν}
    (h : ofForm pattern? form = .layer form') : form = form' := by
  unfold ofForm at h
  split at h
  · split at h <;> cases h
    rfl
  · split at h <;> cases h
    rfl
  · exact Action.layer.inj h

/-- What is done with the parts takes no more from two contexts than the layers do. -/
theorem Action.grounded_of_form {ν μ : Type} {R : Places ν μ} {K : ErrorRel} {c c' : Context}
    {p : ν → Option Text.Glob} {q : μ → Option Text.Glob} {form : Form ν} {form' : Form μ}
    (haction : (ofForm p form).Lifts R (ofForm q form')) (h : form.Grounded K c c' form') :
    (ofForm p form).Grounded K c c' (ofForm q form') := by
  generalize hleft : ofForm p form = action, hright : ofForm q form' = action' at haction
  cases haction with
  | layer _ =>
      rw [eq_of_ofForm hleft, eq_of_ofForm hright] at h
      exact h
  | like | likeEach => trivial

namespace Node

theorem length_sites_outline (n : Node) : n.outline.sites.length = n.sites.length := by
  induction n using Node.induction with
  | step n ih =>
      obtain ⟨info, form⟩ := n
      have hsite : (form.mapParts outline).eraseSite.site.length = form.site.length := by
        cases form with
        | generate generator site => cases generator <;> rfl
        | _ => rfl
      have hparts : (form.children.map fun part => part.outline.sites.length) =
          form.children.map fun part => part.sites.length :=
        List.map_congr_left ih
      rw [outline_mk, sites_eq, sites_eq, List.length_append, List.length_append,
        List.length_flatMap, List.length_flatMap]
      change (form.mapParts outline).eraseSite.site.length +
          ((form.mapParts outline).eraseSite.children.map fun part => part.sites.length).sum =
        form.site.length + (form.children.map fun part => part.sites.length).sum
      rw [hsite, Form.children_eraseSite, Form.children_mapParts, List.map_map,
        ← hparts]
      rfl

/-! ### Evaluation where other numbers are drawn -/

/-- Two expressions side by side in the same context, but for the numbers that are drawn. -/
def redrawing (draw draw' : Nat → Option Value → Nat) : Setting Node Node where
  left := evaluator
  right := evaluator
  errors := EvalError.SameKind
  contexts c c' := c.ambient.draw = draw ∧ c' = c.redraw draw'
  errors_about := likewise.errors_about
  contexts_collation h := by rw [h.2]; rfl
  contexts_withCurrent value h := ⟨h.1, congrArg (·.withCurrent value) h.2⟩

/-- The evaluations of two expressions agree where the ones draw these numbers and the others
draw those. -/
structure Redrawn (draw draw' : Nat → Option Value → Nat) (n m : Node) : Prop where
  isScalar : n.isScalar = m.isScalar
  pattern : Pool.patternOf? n = Pool.patternOf? m
  scalar : (redrawing draw draw').ScalarAgree n m
  values : (redrawing draw draw').ValuesAgree n m

variable {draw draw' : Nat → Option Value → Nat}

theorem Redrawn.meets (one : Bool) {n m : Node} (h : Redrawn draw draw' n m) :
    ((redrawing draw draw').places one).Meets n m := by
  refine ⟨h.scalar, h.values, ⟨h.isScalar, fun _ => h.scalar, fun _ => h.values⟩, ?_, h.scalar,
    rfl⟩
  cases one
  · exact h.values
  · exact h.scalar

/-- Two layers that draw the same take the same from the two contexts. -/
theorem grounded_redraw {R : Places Node Node} {form form' : Form Node} {ctx : Context}
    (h : form.Lifts R form') (hsite : form.site.map ctx.ambient.draw = form'.site.map draw') :
    form.Grounded EvalError.SameKind ctx (ctx.redraw draw') form' := by
  cases h with
  | parameter | documents => rfl
  | generate generator site => exact Generator.value_redraw hsite
  | path root h =>
      refine Agree.of_eq (fun _ => rfl) ?_
      cases h with
      | nil => rfl
      | cons hstep _ => cases hstep <;> rfl
  | _ => trivial

/-- Two layers of the same kind that yield as many values and draw the same, with parts that do
so in the same places, are evaluated alike. -/
theorem Redrawn.of_lifts {n m : Node} (hscalar : n.isScalar = m.isScalar)
    (hpattern : Pool.patternOf? n = Pool.patternOf? m)
    (hsite : n.form.site.map draw = m.form.site.map draw')
    (h : n.form.Lifts (.same (Redrawn draw draw')) m.form) : Redrawn draw draw' n m := by
  have haction : n.action.Lifts (.same (Redrawn draw draw')) m.action :=
    Action.lifts_ofForm (fun _ _ hab => hab.pattern) h
  have hmeets (one : Bool) : n.action.Lifts ((redrawing draw draw').places one) m.action :=
    haction.of_same fun _ _ hab => hab.meets one
  have hground {c c' : Context} (hc : (redrawing draw draw').contexts c c') :
      n.action.Grounded EvalError.SameKind c c' m.action := by
    obtain ⟨rfl, rfl⟩ := hc
    exact Action.grounded_of_form haction (grounded_redraw h hsite)
  refine ⟨hscalar, hpattern, fun c c' hc => ?_, fun c c' hc => ?_⟩
  · change Agree _ (n.scalar c) (m.scalar c')
    rw [scalar_eq, scalar_eq, ← hscalar]
    exact (redrawing draw draw').actionScalar_agree (hmeets _) hc (hground hc) fun _ => rfl
  · change AgreeAll _ (n.values c) (m.values c')
    rw [values_eq, values_eq, ← hscalar]
    exact (redrawing draw draw').actionValues_agree (hmeets _) hc (hground hc) fun _ => rfl

/-- Two calls of a generator that draw the same are evaluated alike. -/
theorem Redrawn.generate {info info' : NodeInfo} {generator : Generator} {site site' : Nat}
    (hscalar : info.isScalar = info'.isScalar)
    (h : (Form.generate generator site : Form Node).site.map draw =
      (Form.generate generator site' : Form Node).site.map draw') :
    Redrawn draw draw' (Node.mk info (.generate generator site))
      (Node.mk info' (.generate generator site')) := by
  have hone {c c' : Context} (hc : (redrawing draw draw').contexts c c') :
      Agree EvalError.SameKind (.ok (generator.value site c)) (.ok (generator.value site' c')) := by
    obtain ⟨rfl, rfl⟩ := hc
    rw [Generator.value_redraw h]
    exact .ok _
  refine ⟨hscalar, rfl, fun c c' hc => ?_, fun c c' hc => ?_⟩
  · change Agree _ (Node.scalar _ c) (Node.scalar _ c')
    rw [scalar_eq, scalar_eq]
    change Agree _ (Pool.actionScalar evaluator info.isScalar _ _ c)
      (Pool.actionScalar evaluator info'.isScalar _ _ c')
    rw [← hscalar]
    cases info.isScalar with
    | true => exact hone hc
    | false => exact .error rfl
  · change AgreeAll _ (Node.values _ c) (Node.values _ c')
    rw [values_eq, values_eq]
    change AgreeAll _ (Pool.actionValues evaluator info.isScalar _ _ c)
      (Pool.actionValues evaluator info'.isScalar _ _ c')
    rw [← hscalar]
    cases info.isScalar with
    | true => exact .ofOne (hone hc)
    | false => exact .failed rfl

/-- What is drawn for a list of parts is drawn for each of them in its turn. -/
theorem forall₂_of_sites {S : Node → Node → Prop} {parts parts' : List Node}
    (h : parts.map outline = parts'.map outline)
    (hsites : (parts.flatMap sites).map draw = (parts'.flatMap sites).map draw')
    (hparts : ∀ n ∈ parts, ∀ m : Node, n.outline = m.outline →
      n.sites.map draw = m.sites.map draw' → S n m) : List.Forall₂ S parts parts' := by
  induction parts generalizing parts' with
  | nil =>
      rw [List.map_eq_nil_iff.mp h.symm]
      exact .nil
  | cons n rest ih =>
      obtain ⟨m, rest', rfl⟩ : ∃ m rest', parts' = m :: rest' := by
        cases parts' with
        | nil => cases h
        | cons m rest' => exact ⟨m, rest', rfl⟩
      rw [List.map_cons, List.map_cons] at h
      obtain ⟨hhead, htail⟩ := List.cons.inj h
      rw [List.flatMap_cons, List.flatMap_cons, List.map_append, List.map_append] at hsites
      -- Both parts call generators equally often, so what is drawn is parted in the same place.
      have hlength : (n.sites.map draw).length = (m.sites.map draw').length := by
        rw [List.length_map, List.length_map, ← length_sites_outline, hhead, length_sites_outline]
      obtain ⟨hfront, hrest⟩ := List.append_inj hsites hlength
      exact .cons (hparts n List.mem_cons_self m hhead hfront)
        (ih htail hrest fun a ha => hparts a (List.mem_cons_of_mem _ ha))

/-- Expressions of the same outline are evaluated alike where the same is drawn for the calls in
the one and for the calls in the other, one after the other. -/
theorem redrawn_of_outline {n m : Node} (h : n.outline = m.outline)
    (hsites : n.sites.map draw = m.sites.map draw') : Redrawn draw draw' n m := by
  induction n using Node.induction generalizing m with
  | step n ih =>
      have hpattern : Pool.patternOf? n = Pool.patternOf? m := by
        rw [← patternOf_outline, h, patternOf_outline]
      obtain ⟨info, form⟩ := n
      obtain ⟨info', form'⟩ := m
      rw [outline_mk, outline_mk] at h
      injection h with hinfo hform
      have hscalar : info.outline.isScalar = info'.outline.isScalar :=
        congrArg NodeInfo.isScalar hinfo
      -- Only calls of generators differ in what their outline leaves out.
      rcases Form.eq_or_generate hform with hsame | ⟨generator, site, site', rfl, rfl⟩
      · have hsite : form.site = form'.site := by
          rw [← Form.site_mapParts outline, hsame, Form.site_mapParts]
        have hchildren : form.children.map outline = form'.children.map outline := by
          rw [← Form.children_mapParts, hsame, Form.children_mapParts]
        rw [sites_eq, sites_eq, List.map_append, List.map_append] at hsites
        change form.site.map draw ++ (form.children.flatMap sites).map draw =
          form'.site.map draw' ++ (form'.children.flatMap sites).map draw' at hsites
        -- The layer draws as often on both sides, so its draws and those of its parts can be told
        -- apart.
        obtain ⟨hdraws, hrest⟩ := List.append_inj hsites (by simp [hsite])
        refine .of_lifts hscalar hpattern hdraws (.of_children ?_ (forall₂_of_sites hchildren hrest
          fun n hn m => ih n hn))
        have hleft : (form.mapParts outline).Lifts (.same fun _ _ => True) form :=
          Form.lifts_mapParts (S := fun (_ _ : Node) => True) fun _ _ => trivial
        have hright : (form'.mapParts outline).Lifts (.same fun _ _ => True) form' :=
          Form.lifts_mapParts (S := fun (_ _ : Node) => True) fun _ _ => trivial
        rw [← hsame] at hright
        exact hleft.symm.trans (fun _ _ _ _ _ => trivial) hright
      · exact .generate hscalar (by simpa [sites_eq, Node.form, Node.children, Form.children]
          using hsites)

end Node

end DocQuery
