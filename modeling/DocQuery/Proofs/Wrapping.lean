import DocQuery.Proofs.Spelling
import DocQuery.Proofs.Substitution
/-!
# DocQuery.Proofs.Wrapping

Terms in parentheses, within a phrase. One phrase may be written for another one
(`Phrase.Replaces`) if it may be written wherever the other one may, and stands for an expression
that may be read in the place of the other one's. A phrase in parentheses may be written for the
phrase, and every layer is a congruence for this (`Phrase.Replaces.layer`): what may be written
for the parts may be written for the whole.
-/

namespace DocQuery

/-- The beginning of a path goes on over replaced steps. -/
theorem PathStart.node_replaces (start : PathStart) {scope : Scope}
    {steps steps' : List (PathStep Node)}
    (h : List.Forall₂ (PathStep.Lifts (.same Node.Substitutes)) steps steps') :
    (start.node scope steps).Replaces (start.node scope steps') := by
  unfold PathStart.node
  extract_lets named fields
  refine .path fields _ ?_
  split
  · exact .cons (.member _) h
  · exact h

namespace Phrase

variable {ν μ : Type}

/-! ### What parts stand for

For lists of parts and for single ones, one lemma for each way in which a layer takes its parts:
what they stood for is taken apart, the new parts are put for the old ones, and the constructions of
`Substitution` say that the results may replace one another. Whether the layer stands for something
is asked of the parts in terms that replacing keeps: their cardinality, their type, and whether they
are the documents. -/

/-- What the part stands for in the second reading may replace what it stands for in the first. -/
def PartReplaces (f f' : ν → Scope → Option Node) (part : ν) : Prop :=
  ∀ scope n, f part scope = some n → ∃ n', f' part scope = some n' ∧ n.Replaces n'

section

variable {f f' : ν → Scope → Option Node} {scope : Scope}

/-- Parts in a list are replaced one by one. -/
theorem nodes_replaces {parts : List ν} (hf : ∀ part ∈ parts, PartReplaces f f' part)
    {ns : List Node} (h : nodes f scope parts = some ns) :
    ∃ ns', nodes f' scope parts = some ns' ∧ List.Forall₂ Node.Replaces ns ns' := by
  induction parts generalizing ns with
  | nil =>
      cases h
      exact ⟨[], rfl, .nil⟩
  | cons part rest ih =>
      obtain ⟨n, hn, ns, hns, rfl⟩ := nodes_cons_eq_some.mp h
      obtain ⟨hpart, hrest⟩ := List.forall_mem_cons.mp hf
      obtain ⟨n', hn', hreplaces⟩ := hpart scope n hn
      obtain ⟨ns', hns', hall⟩ := ih hrest hns
      exact ⟨n' :: ns', nodes_cons_eq_some.mpr ⟨n', hn', ns', hns', rfl⟩, .cons hreplaces hall⟩

/-- An entry without a value is a shorthand for its name, which nothing is replaced in. -/
theorem valueNode_replaces {key : EntryName} {value : Option ν}
    (hf : ∀ part ∈ value, PartReplaces f f' part) {n : Node}
    (h : valueNode f scope key value = some n) :
    ∃ n', valueNode f' scope key value = some n' ∧ n.Replaces n' := by
  cases value with
  | none => exact ⟨n, h, .refl n⟩
  | some part => exact hf part rfl scope n h

/-- The names of entries do not depend on the values: each value is replaced under its own name. -/
theorem entryNodes_replaces {entries : List (EntryName × Option ν)}
    (hf : ∀ entry ∈ entries, ∀ part ∈ entry.2, PartReplaces f f' part) {others : List String}
    {counter : Nat} {list : List (String × Node)}
    (h : entryNodes f scope entries others counter = some list) :
    ∃ list', entryNodes f' scope entries others counter = some list' ∧
      List.Forall₂ (fun entry entry' => entry.1 = entry'.1 ∧ entry.2.Substitutes entry'.2)
        list list' := by
  induction entries generalizing others counter list with
  | nil =>
      cases h
      exact ⟨[], rfl, .nil⟩
  | cons entry rest ih =>
      obtain ⟨n, hn, name, next, hname, list, hlist, rfl⟩ := entryNodes_cons_eq_some.mp h
      obtain ⟨hentry, hrest⟩ := List.forall_mem_cons.mp hf
      obtain ⟨n', hn', hreplaces⟩ := valueNode_replaces hentry hn
      obtain ⟨list', hlist', hall⟩ := ih hrest hlist
      exact ⟨_, entryNodes_cons_eq_some.mpr ⟨n', hn', name, next, hname, list', hlist', rfl⟩,
        .cons ⟨rfl, hreplaces.asScalar⟩ hall⟩

/-- A step in brackets is a place or a condition by the type of its part, which is the same. -/
theorem stepNode_replaces {w : WrittenStep ν} (hf : ∀ part ∈ w.children, PartReplaces f f' part)
    {step : PathStep Node} (h : stepNode f w = some step) :
    ∃ step', stepNode f' w = some step' ∧ step.Lifts (.same Node.Substitutes) step' := by
  cases w with
  | member field =>
      cases h
      exact ⟨_, rfl, .member _⟩
  | place negative digits =>
      obtain ⟨i, hi, rfl⟩ := Option.map_eq_some_iff.mp h
      exact ⟨_, Option.map_eq_some_iff.mpr ⟨i, hi, rfl⟩, .index _⟩
  | all =>
      cases h
      exact ⟨_, rfl, .all⟩
  | part part =>
      obtain ⟨n, hn, rfl⟩ := Option.map_eq_some_iff.mp h
      obtain ⟨n', hn', hreplaces⟩ := hf part (List.mem_singleton_self part) .current n hn
      refine ⟨_, Option.map_eq_some_iff.mpr ⟨n', hn', rfl⟩, ?_⟩
      rw [hreplaces.type]
      split
      · exact .indexOf hreplaces.toSubstitutes
      · exact .filter hreplaces.toSubstitutes

/-- The steps of a path are replaced one by one. -/
theorem stepNodes_replaces {ws : List (WrittenStep ν)}
    (hf : ∀ part ∈ ws.flatMap WrittenStep.children, PartReplaces f f' part)
    {steps : List (PathStep Node)} (h : stepNodes f ws = some steps) :
    ∃ steps', stepNodes f' ws = some steps' ∧
      List.Forall₂ (PathStep.Lifts (.same Node.Substitutes)) steps steps' := by
  induction ws generalizing steps with
  | nil =>
      cases h
      exact ⟨[], rfl, .nil⟩
  | cons w rest ih =>
      obtain ⟨step, hstep, steps, hsteps, rfl⟩ := stepNodes_cons_eq_some.mp h
      rw [List.flatMap_cons, List.forall_mem_append] at hf
      obtain ⟨step', hstep', hlifts⟩ := stepNode_replaces hf.1 hstep
      obtain ⟨steps', hsteps', hall⟩ := ih hf.2 hsteps
      exact ⟨step' :: steps', stepNodes_cons_eq_some.mpr ⟨step', hstep', steps', hsteps', rfl⟩,
        .cons hlifts hall⟩

/-- The operators of a row stay, and bounds stand where there were bounds. -/
theorem tailNodes_replaces {isBounds isBounds' : ν → Bool} {row : List (Operator × ν)}
    (hbounds : ∀ part ∈ row.map Prod.snd, isBounds' part = isBounds part)
    (hf : ∀ part ∈ row.map Prod.snd, PartReplaces f f' part) {tail : Precedence.Tail}
    (h : tailNodes isBounds f scope row = some tail) :
    ∃ tail', tailNodes isBounds' f' scope row = some tail' ∧
      Precedence.TailReplaces tail tail' := by
  induction row generalizing tail with
  | nil =>
      cases h
      exact ⟨[], rfl, .nil⟩
  | cons entry rest ih =>
      obtain ⟨op, part⟩ := entry
      obtain ⟨hbetween, n, hn, tail, htail, rfl⟩ := tailNodes_cons_eq_some.mp h
      obtain ⟨hpart, hrest⟩ := List.forall_mem_cons.mp hf
      obtain ⟨hclass, hclasses⟩ := List.forall_mem_cons.mp hbounds
      obtain ⟨n', hn', hreplaces⟩ := hpart scope n hn
      obtain ⟨tail', htail', hall⟩ := ih hclasses hrest htail
      exact ⟨(op, n') :: tail', tailNodes_cons_eq_some.mpr
        ⟨fun hop => hclass.trans (hbetween hop), n', hn', tail', htail', rfl⟩,
        .cons ⟨rfl, hreplaces⟩ hall⟩

/-- The sequence is the documents if it was, so the part for each element is read in the scope in
which it was read. -/
theorem sequenceNodes_replaces {source part : ν} (hsource : PartReplaces f f' source)
    (hpart : PartReplaces f f' part) {a b : Node}
    (h : sequenceNodes f scope source part = some (a, b)) :
    ∃ a' b', sequenceNodes f' scope source part = some (a', b') ∧ a.Substitutes a' ∧
      b.Replaces b' := by
  obtain ⟨k, hk, hb, rfl⟩ := sequenceNodes_eq_some.mp h
  obtain ⟨k', hk', hreplaces⟩ := hsource scope k hk
  obtain ⟨b', hb', hinner⟩ := hpart _ b hb
  -- The scope of the inner part is told by whether the source is the documents.
  refine ⟨_, b', sequenceNodes_eq_some.mpr ⟨k', hk', ?_, rfl⟩, hreplaces.asSequence, hinner⟩
  rwa [if_congr hreplaces.isSource rfl rfl]

/-- A direction is asked to be one value, and its replacement is one as well. -/
theorem orderNode_replaces {order : Option ν} (hf : ∀ part ∈ order, PartReplaces f f' part)
    {o : Option Node} (h : orderNode f scope order = some o) :
    ∃ o', orderNode f' scope order = some o' ∧ Option.Rel Node.Replaces o o' := by
  cases order with
  | none =>
      cases h
      exact ⟨none, rfl, .none⟩
  | some part =>
      obtain ⟨n, hn, hscalar, rfl⟩ := orderNode_some_eq_some.mp h
      obtain ⟨n', hn', hreplaces⟩ := hf part rfl scope n hn
      exact ⟨some n', orderNode_some_eq_some.mpr
        ⟨n', hn', hreplaces.isScalar.symm.trans hscalar, rfl⟩, .some hreplaces⟩

/-- A function is found by the number of arguments, and a generator has none to replace. -/
theorem callNode_replaces {name : String} {site : Nat} {args args' : List Node}
    (hargs : List.Forall₂ Node.Replaces args args') {n : Node}
    (h : callNode? name site args = some n) :
    ∃ n', callNode? name site args' = some n' ∧ n.Replaces n' := by
  unfold callNode? at h ⊢
  rw [← hargs.length_eq]
  split at h
  · rename_i function _
    cases h
    exact ⟨_, rfl, .call function hargs⟩
  · cases h
    exact ⟨_, rfl, .refl _⟩
  · cases h

/-- A call of the same name takes what replaces its arguments. -/
theorem applyNode_replaces {name : String} {site : Nat} {args args' : List Node}
    (hargs : List.Forall₂ Node.Replaces args args') {n : Node}
    (h : applyNode? name site args = some n) :
    ∃ n', applyNode? name site args' = some n' ∧ n.Replaces n' := by
  unfold applyNode? at h
  -- A choice is told by its name and its three arguments; every other call is one of the lemma
  -- above.
  split at h
  · rename_i test ifTrue ifFalse
    obtain ⟨test', ifTrue', ifFalse', rfl⟩ : ∃ a b c, args' = [a, b, c] := by
      have hlength := hargs.length_eq.symm
      exact List.length_eq_three.mp hlength
    unfold applyNode?
    obtain ⟨htest, hargs'⟩ := List.forall₂_cons.mp hargs
    obtain ⟨htrue, hargs'⟩ := List.forall₂_cons.mp hargs'
    obtain ⟨hfalse, -⟩ := List.forall₂_cons.mp hargs'
    dsimp only
    split at h
    · rename_i hname
      split at h
      · rename_i hscalar
        cases h
        rw [if_pos hname, if_pos (htest.isScalar.symm.trans hscalar)]
        exact ⟨_, rfl, .conditional htest htrue hfalse⟩
      · cases h
    · rename_i hname
      rw [if_neg hname]
      exact callNode_replaces hargs h
  · -- Not three arguments before, so not three after.
    rename_i hother
    obtain ⟨n', hn', hreplaces⟩ := callNode_replaces hargs h
    refine ⟨n', ?_, hreplaces⟩
    unfold applyNode?
    split
    · have hlength := hargs.length_eq
      obtain ⟨a, b, c, heq⟩ := List.length_eq_three.mp hlength
      exact absurd heq (hother a b c)
    · exact hn'

/-- A layer stands for what may replace what it stood for, if its parts do. -/
theorem Layer.node_replaces {isBounds isBounds' : ν → Bool} {layer : Layer ν}
    (hbounds : ∀ part ∈ layer.children, isBounds' part = isBounds part)
    (hf : ∀ part ∈ layer.children, PartReplaces f f' part) {n : Node}
    (h : Layer.node isBounds f scope layer = some n) :
    ∃ n', Layer.node isBounds' f' scope layer = some n' ∧ n.Replaces n' := by
  -- One case for each layer, and in each the same steps: the node is taken apart into those of the
  -- parts, every part is replaced by the hypothesis on it, and the layer is put together again from
  -- the new ones. What differs is in which scope a part is read, and what the layer asks of it.
  cases layer with
  | documents selector =>
      cases selector with
      | none => exact ⟨n, h, .refl n⟩
      | some selector =>
          obtain ⟨m, hm, rfl⟩ := Option.map_eq_some_iff.mp h
          obtain ⟨m', hm', hreplaces⟩ := hf selector (List.mem_singleton_self _) .source m hm
          exact ⟨_, Option.map_eq_some_iff.mpr ⟨m', hm', rfl⟩, .map (.refl _) hreplaces⟩
  | document entries =>
      obtain ⟨list, hlist, rfl⟩ := Option.map_eq_some_iff.mp h
      have hentries : ∀ entry ∈ entries, ∀ part ∈ entry.2, PartReplaces f f' part :=
        fun entry hentry part hpart =>
          hf part (List.mem_flatMap.mpr ⟨entry, hentry, Option.mem_toList.mpr hpart⟩)
      obtain ⟨list', hlist', hall⟩ := entryNodes_replaces hentries hlist
      exact ⟨_, Option.map_eq_some_iff.mpr ⟨list', hlist', rfl⟩, .document hall⟩
  | array items =>
      obtain ⟨ns, hns, rfl⟩ := Option.map_eq_some_iff.mp h
      obtain ⟨ns', hns', hall⟩ := nodes_replaces hf hns
      exact ⟨_, Option.map_eq_some_iff.mpr ⟨ns', hns', rfl⟩, .array hall⟩
  | path start ws behind =>
      -- The steps, and what stands behind them, which is read for each value.
      rw [Layer.children, List.forall_mem_append] at hf
      cases behind with
      | none =>
          obtain ⟨steps, hsteps, rfl⟩ := Option.map_eq_some_iff.mp h
          obtain ⟨steps', hsteps', hall⟩ := stepNodes_replaces hf.1 hsteps
          exact ⟨_, Option.map_eq_some_iff.mpr ⟨steps', hsteps', rfl⟩, start.node_replaces hall⟩
      | some behind =>
          obtain ⟨steps, hsteps, m, hm, rfl⟩ := Layer.node_behind_eq_some.mp h
          obtain ⟨steps', hsteps', hall⟩ := stepNodes_replaces hf.1 hsteps
          obtain ⟨m', hm', hreplaces⟩ := hf.2 behind (List.mem_singleton_self _) .current m hm
          exact ⟨_, Layer.node_behind_eq_some.mpr ⟨steps', hsteps', m', hm', rfl⟩,
            .map (start.node_replaces hall).toSubstitutes hreplaces⟩
  | map source part =>
      obtain ⟨hsource, hrest⟩ := List.forall_mem_cons.mp hf
      obtain ⟨a, b, hab, rfl⟩ := Layer.node_map_eq_some.mp h
      obtain ⟨a', b', hab', ha, hb⟩ :=
        sequenceNodes_replaces hsource (hrest part (List.mem_singleton_self _)) hab
      exact ⟨_, Layer.node_map_eq_some.mpr ⟨a', b', hab', rfl⟩, .map ha hb⟩
  | filter source part =>
      obtain ⟨hsource, hrest⟩ := List.forall_mem_cons.mp hf
      obtain ⟨a, b, hab, rfl⟩ := Layer.node_filter_eq_some.mp h
      obtain ⟨a', b', hab', ha, hb⟩ :=
        sequenceNodes_replaces hsource (hrest part (List.mem_singleton_self _)) hab
      exact ⟨_, Layer.node_filter_eq_some.mpr ⟨a', b', hab', rfl⟩, .filter ha hb⟩
  | sort source key order =>
      obtain ⟨hsource, hrest⟩ := List.forall_mem_cons.mp hf
      obtain ⟨hkey, horder⟩ := List.forall_mem_cons.mp hrest
      obtain ⟨a, b, hab, o, ho, rfl⟩ := Layer.node_sort_eq_some.mp h
      obtain ⟨a', b', hab', ha, hb⟩ := sequenceNodes_replaces hsource hkey hab
      obtain ⟨o', ho', hrel⟩ :=
        orderNode_replaces (fun e he => horder e (Option.mem_toList.mpr he)) ho
      exact ⟨_, Layer.node_sort_eq_some.mpr ⟨a', b', hab', o', ho', rfl⟩, .sort ha hb hrel⟩
  | call name site args =>
      obtain ⟨ns, hns, h⟩ := Layer.node_call_eq_some.mp h
      obtain ⟨ns', hns', hall⟩ := nodes_replaces hf hns
      obtain ⟨n', hn', hreplaces⟩ := applyNode_replaces hall h
      exact ⟨n', Layer.node_call_eq_some.mpr ⟨ns', hns', hn'⟩, hreplaces⟩
  | parens inner =>
      obtain ⟨m, hm, rfl⟩ := Option.map_eq_some_iff.mp h
      obtain ⟨m', hm', hreplaces⟩ := hf inner (List.mem_singleton_self _) scope m hm
      exact ⟨_, Option.map_eq_some_iff.mpr ⟨m', hm', rfl⟩, hreplaces.parenthesized⟩
  | joined first tail =>
      obtain ⟨hfirst, htail⟩ := List.forall_mem_cons.mp hf
      obtain ⟨m, hm, row, hrow, h⟩ := Layer.node_joined_eq_some.mp h
      obtain ⟨m', hm', hreplaces⟩ := hfirst scope m hm
      obtain ⟨row', hrow', hall⟩ :=
        tailNodes_replaces (List.forall_mem_cons.mp hbounds).2 htail hrow
      -- Reducing a row is a congruence by itself: the operators, and so the tree, are the same.
      obtain ⟨n', hn', hjoined⟩ :=
        Precedence.reduce_replaces hreplaces hall (Precedence.toOption_eq_some.mp h)
      exact ⟨n', Layer.node_joined_eq_some.mpr
        ⟨m', hm', row', hrow', Precedence.toOption_eq_some.mpr hn'⟩, hjoined⟩
  | bounds lower upper =>
      obtain ⟨hlower, hrest⟩ := List.forall_mem_cons.mp hf
      obtain ⟨l, hl, u, hu, ⟨hlone, huone⟩, rfl⟩ := Layer.node_bounds_eq_some.mp h
      obtain ⟨l', hl', hlr⟩ := hlower scope l hl
      obtain ⟨u', hu', hur⟩ := hrest upper (List.mem_singleton_self _) scope u hu
      -- Bounds have to be one value each, and stay so.
      have hone : l'.isScalar = true ∧ u'.isScalar = true :=
        ⟨hlr.isScalar.symm.trans hlone, hur.isScalar.symm.trans huone⟩
      exact ⟨_, Layer.node_bounds_eq_some.mpr ⟨l', hl', u', hu', hone, rfl⟩, .bounds hlr hur⟩
  | _ => exact ⟨n, h, .refl n⟩

end

/-! ### Phrases -/

/-- The second phrase may be written for the first one: it may stand wherever this may, and it
stands for what may be read in the place of what this stands for. -/
structure Replaces (p p' : Phrase) : Prop where
  isTerm : p.isTerm = true → p'.isTerm = true
  isBounds : p'.isBounds = p.isBounds
  isPlain : p.isPlain = true → p'.isPlain = true
  isParameter : p'.isParameter = p.isParameter
  wellFormed : p.WellFormed → p'.WellFormed
  reads : ∀ scope n, p.node scope = some n → ∃ n', p'.node scope = some n' ∧ n.Replaces n'

theorem Replaces.refl (p : Phrase) : p.Replaces p where
  isTerm := id
  isBounds := rfl
  isPlain := id
  isParameter := rfl
  wellFormed := id
  reads _ n h := ⟨n, h, .refl n⟩

/-- A phrase may be written in parentheses. -/
theorem Replaces.parens {p : Phrase} (hwf : p.WellFormed) (hclass : p.isBounds = false) :
    p.Replaces (.mk (.parens p)) where
  isTerm _ := rfl
  isBounds := hclass.symm
  isPlain _ := rfl
  isParameter := isParameter_eq _
  wellFormed _ := .mk hclass (List.forall_mem_singleton.mpr hwf)
  reads scope n h := by
    refine ⟨n.parenthesized, ?_, .to_parenthesized (p.built hwf False.elim h)⟩
    rw [node_eq]
    exact Option.map_eq_some_iff.mpr ⟨n, h, rfl⟩

theorem Layer.children_mapParts (g : ν → μ) (layer : Layer ν) :
    (layer.mapParts g).children = layer.children.map g := by
  cases layer with
  | documents selector => cases selector <;> rfl
  | document entries =>
      simp only [mapParts, children, List.flatMap_map, List.map_flatMap]
      exact List.flatMap_congr fun entry _ => by cases entry.2 <;> rfl
  | path start steps behind =>
      simp only [mapParts, children, List.flatMap_map, List.map_append, List.map_flatMap]
      congr 1
      · exact List.flatMap_congr fun step _ => by cases step <;> rfl
      · cases behind <;> rfl
  | sort source key order => cases order <;> rfl
  | joined first tail => simp [mapParts, children, Function.comp_def]
  | _ => rfl

section

variable {g g' : ν → Phrase}

/-- Whether a step yields many values is told by whether its part is a parameter. -/
theorem isMany_replaces {w : WrittenStep ν} (h : ∀ part ∈ w.children, (g part).Replaces (g' part)) :
    (w.map g').isMany isParameter = (w.map g).isMany isParameter := by
  cases w with
  | part part => exact congrArg (!·) (h part (List.mem_singleton_self part)).isParameter
  | _ => rfl

/-- The same for all steps, in the form in which the last of them is asked for. -/
theorem map_isMany_replaces {ws : List (WrittenStep ν)}
    (h : ∀ part ∈ ws.flatMap WrittenStep.children, (g part).Replaces (g' part)) :
    (ws.map (WrittenStep.map g')).map (WrittenStep.isMany isParameter) =
      (ws.map (WrittenStep.map g)).map (WrittenStep.isMany isParameter) := by
  rw [List.map_map, List.map_map]
  refine List.map_congr_left fun w hw => isMany_replaces fun part hpart => ?_
  exact h part (List.mem_flatMap.mpr ⟨w, hw, hpart⟩)

/-- What is asked of the last element depends on the answers for all of them. -/
theorem any_getLast?_congr {α : Type} {p : α → Bool} {list list' : List α}
    (h : list.map p = list'.map p) : list.getLast?.any p = list'.getLast?.any p := by
  have hlast := congrArg (fun flags => flags.getLast?.any id) h
  rw [List.getLast?_map, List.getLast?_map, Option.any_map, Option.any_map] at hlast
  exact hlast

/-- Behind an operator that asks for bounds there are bounds as before. -/
theorem bounded_replaces {tail : List (Operator × ν)}
    (h : ∀ part ∈ tail.map Prod.snd, (g part).Replaces (g' part))
    (hbounded : Bounded (tail.map fun (op, term) => (op, g term))) :
    Bounded (tail.map fun (op, term) => (op, g' term)) := by
  induction tail with
  | nil => trivial
  | cons entry rest ih =>
      obtain ⟨hentry, hrest⟩ := List.forall_mem_cons.mp h
      refine ⟨fun hop => ?_, ih hrest hbounded.2⟩
      have hnext := hbounded.1 hop
      rw [hentry.isBounds]
      cases rest with
      | nil => exact hnext
      | cons next rest => exact hnext

variable {outer : Layer ν} (h : ∀ part ∈ outer.children, (g part).Replaces (g' part))

include h

/-- A layer is still well-formed when its parts are replaced. -/
theorem Layer.WellFormed.replaces (hwf : (outer.mapParts g).WellFormed) :
    (outer.mapParts g').WellFormed := by
  -- Where no bounds may stand there are none, and where a term has to stand there is one.
  have hclass {part : ν} (hpart : part ∈ outer.children) (hg : (g part).isBounds = false) :
      (g' part).isBounds = false := (h part hpart).isBounds.trans hg
  have hterm {part : ν} (hpart : part ∈ outer.children) (hg : (g part).isTerm = true) :
      (g' part).isTerm = true := (h part hpart).isTerm hg
  -- Then each layer asks the same of the new parts as of the old ones. A path asks more: its first
  -- step, and which of its steps yields many values, have to be as before.
  cases outer with
  | documents selector =>
      intro e he
      obtain ⟨part, hpart, rfl⟩ := Option.mem_map.mp he
      exact hterm (Option.mem_toList.mpr hpart) (hwf _ (Option.mem_map_of_mem g hpart))
  | document entries =>
      intro entry' hentry e he
      obtain ⟨entry, hmem, rfl⟩ := List.mem_map.mp hentry
      obtain ⟨part, hpart, rfl⟩ := Option.mem_map.mp he
      exact hclass (List.mem_flatMap.mpr ⟨entry, hmem, Option.mem_toList.mpr hpart⟩)
        (hwf _ (List.mem_map_of_mem hmem) _ (Option.mem_map_of_mem g hpart))
  | array items =>
      intro e he
      obtain ⟨part, hpart, rfl⟩ := List.mem_map.mp he
      exact hclass hpart (hwf _ (List.mem_map_of_mem hpart))
  | path start ws behind =>
      obtain ⟨hstart, hsteps, hsingle, hbehind⟩ := hwf
      have hmany := map_isMany_replaces fun part hpart => h part (List.mem_append_left _ hpart)
      refine ⟨?_, fun e he => ?_, ?_, fun e he => ?_⟩
      · -- Without a first field no field may come first: which steps are fields does not depend on
        -- the parts.
        rcases start with ⟨root, _ | field⟩ | name
        · refine Eq.trans ?_ hstart
          rw [List.head?_map, List.head?_map, Option.any_map, Option.any_map]
          congr 1
          funext w
          cases w <;> rfl
        · trivial
        · exact hstart
      · obtain ⟨w, hw, heq⟩ := List.mem_map.mp he
        cases w with
        | part part =>
            cases heq
            obtain ⟨hg, hplain⟩ := hsteps _ (List.mem_map_of_mem hw)
            have hpart : part ∈ (Layer.path start ws behind).children :=
              List.mem_append_left _ (List.mem_flatMap.mpr ⟨_, hw, List.mem_singleton_self _⟩)
            exact ⟨hclass hpart hg, (h part hpart).isPlain hplain⟩
        | _ => cases heq
      · -- Only the last step yields many values, as the flags of the steps are the same.
        rw [any_eq_any_id, List.map_dropLast, hmany, ← List.map_dropLast, ← any_eq_any_id]
        exact hsingle
      · obtain ⟨part, hpart, rfl⟩ := Option.mem_map.mp he
        obtain ⟨hg, hlast⟩ := hbehind _ (Option.mem_map_of_mem g hpart)
        refine ⟨hterm (List.mem_append_right _ (Option.mem_toList.mpr hpart)) hg, ?_⟩
        exact (any_getLast?_congr hmany).trans hlast
  | map source part | filter source part =>
      exact ⟨hterm (List.mem_cons_self ..) hwf.1,
        hclass (List.mem_cons_of_mem _ (List.mem_singleton_self _)) hwf.2⟩
  | sort source key order =>
      refine ⟨hterm (List.mem_cons_self ..) hwf.1,
        hclass (List.mem_cons_of_mem _ (List.mem_cons_self ..)) hwf.2.1, fun e he => ?_⟩
      obtain ⟨part, hpart, rfl⟩ := Option.mem_map.mp he
      exact hclass (List.mem_cons_of_mem _ (List.mem_cons_of_mem _ (Option.mem_toList.mpr hpart)))
        (hwf.2.2 _ (Option.mem_map_of_mem g hpart))
  | call name site args =>
      refine ⟨hwf.1, hwf.2.1, fun e he => ?_⟩
      obtain ⟨part, hpart, rfl⟩ := List.mem_map.mp he
      exact hclass hpart (hwf.2.2 _ (List.mem_map_of_mem hpart))
  | parens inner => exact hclass (List.mem_singleton_self _) hwf
  | joined first tail =>
      obtain ⟨hfirst, hne, hclasses, hbounded⟩ := hwf
      refine ⟨hterm (List.mem_cons_self ..) hfirst, by simpa using hne, fun entry' hentry => ?_,
        bounded_replaces (List.forall_mem_cons.mp h).2 hbounded⟩
      obtain ⟨entry, hmem, rfl⟩ := List.mem_map.mp hentry
      have hpart : entry.2 ∈ (Layer.joined first tail).children :=
        List.mem_cons_of_mem _ (List.mem_map_of_mem hmem)
      rcases hclasses _ (List.mem_map_of_mem hmem) with hg | ⟨hop, hg⟩
      · exact .inl (hterm hpart hg)
      · exact .inr ⟨hop, (h _ hpart).isBounds.trans hg⟩
  | bounds lower upper =>
      exact ⟨hterm (List.mem_cons_self ..) hwf.1,
        hterm (List.mem_cons_of_mem _ (List.mem_singleton_self _)) hwf.2⟩
  | _ => trivial

/-- What may be written for the parts of a phrase may be written for the phrase. -/
theorem Replaces.layer :
    (Phrase.mk (outer.mapParts g)).Replaces (Phrase.mk (outer.mapParts g')) where
  isTerm := by
    cases outer <;> exact id
  isBounds := by
    cases outer <;> rfl
  isPlain := by
    rw [isPlain_eq, isPlain_eq]
    cases outer with
    | joined first tail => exact (h first (List.mem_cons_self ..)).isPlain
    | bounds lower upper => exact (h lower (List.mem_cons_self ..)).isPlain
    | _ => exact id
  isParameter := by
    rw [isParameter_eq, isParameter_eq]
    cases outer with
    | parens inner => exact (h inner (List.mem_singleton_self inner)).isParameter
    | _ => rfl
  wellFormed hwf := by
    refine .mk (hwf.layer.replaces h) fun part hpart => ?_
    rw [Layer.children_mapParts] at hpart
    obtain ⟨c, hc, rfl⟩ := List.mem_map.mp hpart
    refine (h c hc).wellFormed (hwf.part ?_)
    rw [children, Phrase.layer, Layer.children_mapParts]
    exact List.mem_map_of_mem hc
  reads scope n hn := by
    rw [node_eq, Phrase.layer, Layer.node_mapParts] at hn ⊢
    exact Layer.node_replaces (fun part hpart => (h part hpart).isBounds)
      (fun part hpart => (h part hpart).reads) hn

end

end Phrase

end DocQuery
