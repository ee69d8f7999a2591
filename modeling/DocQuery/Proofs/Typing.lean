import DocQuery.Proofs.Closure
/-!
# DocQuery.Proofs.Typing

What is read keeps the discipline of cardinalities: all constructions keep it, so what a
well-formed phrase stands for does, and so does every expression that a text is parsed
into.
-/

namespace DocQuery

namespace Phrase

variable {scope : Scope}

theorem disciplined_path {start : PathStart} {ws : List (WrittenStep Phrase)}
    (hwf : ∀ e, .part e ∈ ws → e.WellFormed)
    (hsingle : ws.dropLast.any (WrittenStep.isMany isParameter) = false)
    {steps : List (PathStep Node)} (hn : stepNodes node ws = some steps)
    (hparts : ∀ part ∈ steps.flatMap PathStep.children, part.Disciplined) :
    (start.node scope steps).Disciplined := by
  have hplaces := (forall_stepNodes (P := fun _ => True) hwf hn fun _ _ _ _ => trivial).1
  have hlast : steps.dropLast.any PathStep.isEnumerable = false := by
    have hmap := congrArg List.dropLast (map_isEnumerable_stepNodes hwf hn)
    rw [← List.map_dropLast, ← List.map_dropLast] at hmap
    calc steps.dropLast.any PathStep.isEnumerable
        = (steps.dropLast.map PathStep.isEnumerable).any id := any_eq_any_id ..
      _ = (ws.dropLast.map (WrittenStep.isMany isParameter)).any id := by rw [hmap]
      _ = false := (any_eq_any_id ..).symm.trans hsingle
  have hfirst {P : List (PathStep Node) → Prop} (hmember : ∀ name, P (.member name :: steps))
      (hsteps : P steps) :
      P (if !start.field.isEmpty then .member start.field :: steps else steps) := by
    split
    · exact hmember _
    · exact hsteps
  refine .path ?_ ?_ ?_
  · refine hfirst (P := fun steps => steps.dropLast.any PathStep.isEnumerable = false) ?_ hlast
    intro name
    cases steps with
    | nil => rfl
    | cons step rest => exact hlast
  · refine hfirst (P := fun steps => ∀ part, .indexOf part ∈ steps →
      part.isScalar = true) ?_ hplaces
    intro name part hpart
    exact hplaces part (by simpa using hpart)
  · exact hfirst (P := fun steps => ∀ part ∈ steps.flatMap PathStep.children, part.Disciplined)
      (fun name => hparts) hparts

/-- The constructions keep the discipline. -/
theorem keeps_disciplined : Keeps (fun _ => True) Node.Disciplined where
  constant := .constant
  parameter := .parameter
  documents := .documents
  generate := .generate
  shorthand _ _ := .shorthand _
  path _ _ hwf hsteps h :=
    disciplined_path (fun _ he => hwf.part (mem_children_path he)) hwf.layer.2.2.1 hsteps h
  parenthesized h := h.parenthesized
  asSequence h := h.asSequence
  asScalar h := h.asScalar
  document := .document
  array := .array
  map := .map
  filter := .filter
  sort := .sort
  call := .call
  conditional := .conditional
  joined _ _ _ hm htail hn := .reduce hm htail hn
  bounds := .bounds

/-- What a well-formed phrase stands for keeps the discipline. -/
theorem disciplined {e : Phrase} (hwf : e.WellFormed) {n : Node} (h : e.node scope = some n) :
    n.Disciplined :=
  keeps_node keeps_disciplined hwf (.of_forall (fun _ => trivial) e) h

end Phrase

/-- Every expression that a text is parsed into keeps the discipline of cardinalities. -/
theorem disciplined_of_parse {code : String} {scope : Scope} {mode : ParseMode} {n : Node}
    (h : parse code scope mode = .ok n) : n.Disciplined := by
  obtain ⟨stream, s', e, -, -, hread, -⟩ := parse_reads h
  exact Phrase.disciplined hread.wellFormed hread.node

end DocQuery
