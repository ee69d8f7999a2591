import DocQuery.Node
/-!
# DocQuery.Proofs.Forms

`Form.mapParts` puts something else in the places of the parts of a layer and leaves the
layer as it is: it keeps the parts in their order, composes, and does nothing if it puts
every part back.
-/

namespace DocQuery

variable {ν μ ξ : Type}

namespace PathStep

@[simp] theorem children_map (f : ν → μ) (step : PathStep ν) :
    (step.map f).children = step.children.map f := by
  cases step <;> rfl

@[simp] theorem isEnumerable_map (f : ν → μ) (step : PathStep ν) :
    (step.map f).isEnumerable = step.isEnumerable := by
  cases step <;> rfl

@[simp] theorem map_map (f : ν → μ) (g : μ → ξ) (step : PathStep ν) :
    (step.map f).map g = step.map fun a => g (f a) := by
  cases step <;> rfl

theorem map_congr {f g : ν → μ} {step : PathStep ν} (h : ∀ a ∈ step.children, f a = g a) :
    step.map f = step.map g := by
  cases step with
  | indexOf a => exact congrArg PathStep.indexOf (h a (List.mem_singleton_self a))
  | filter a => exact congrArg PathStep.filter (h a (List.mem_singleton_self a))
  | _ => rfl

end PathStep

namespace Form

/-- The parts of a layer with other parts are these other parts. -/
@[simp] theorem children_mapParts (f : ν → μ) (form : Form ν) :
    (form.mapParts f).children = form.children.map f := by
  cases form with
  | document entries => simp [mapParts, children, Function.comp_def]
  | path root steps =>
      simp only [mapParts, children, List.flatMap_map, List.map_flatMap, PathStep.children_map]
  | sort source key order => cases order <;> rfl
  | _ => rfl

@[simp] theorem mapParts_mapParts (f : ν → μ) (g : μ → ξ) (form : Form ν) :
    (form.mapParts f).mapParts g = form.mapParts fun a => g (f a) := by
  cases form with
  | sort source key order => cases order <;> rfl
  | _ => simp [mapParts, Function.comp_def]

/-- Every part put back leaves the layer as it is. -/
@[simp] theorem mapParts_id (form : Form ν) : form.mapParts (fun a => a) = form := by
  have hsteps (steps : List (PathStep ν)) : steps.map (PathStep.map fun a => a) = steps := by
    refine (List.map_congr_left fun step _ => ?_).trans steps.map_id
    cases step <;> rfl
  cases form with
  | sort source key order => cases order <;> rfl
  | _ => simp [mapParts, hsteps]

theorem mapParts_congr {f g : ν → μ} {form : Form ν} (h : ∀ a ∈ form.children, f a = g a) :
    form.mapParts f = form.mapParts g := by
  cases form with
  | document entries =>
      refine congrArg Form.document (List.map_congr_left fun entry hentry => ?_)
      exact congrArg (Prod.mk entry.1) (h entry.2 (List.mem_map_of_mem hentry))
  | array items => exact congrArg Form.array (List.map_congr_left h)
  | path root steps =>
      refine congrArg (Form.path root) (List.map_congr_left fun step hstep => ?_)
      exact PathStep.map_congr fun a ha => h a (List.mem_flatMap.mpr ⟨step, hstep, ha⟩)
  | call function args => exact congrArg (Form.call function) (List.map_congr_left h)
  | sort source key order => cases order <;> simp_all [mapParts, children]
  | _ => simp_all [mapParts, children]

end Form

end DocQuery
