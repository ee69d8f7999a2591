import DocQuery.Proofs.Composition
import DocQuery.Proofs.Reading
/-!
# DocQuery.Proofs.Closure

What holds of every expression that is read. The nodes of well-formed phrases are put
together by a few constructions; a property that all of these keep (`Phrase.Keeps`) holds
of every such node, by induction on the phrase (`Phrase.keeps_node`). Where a construction
depends on how the phrase is written, the property is told of the layer.
-/

namespace DocQuery

namespace Phrase

variable {P : Node → Prop} {scope : Scope}

/-! ### Parts

What holds of the nodes of all parts holds of the nodes in a list, in the entries of a document, in
a row and in the steps of a path. Each is an induction on the list that the nodes are read from. -/

/-- Items and arguments. -/
theorem forall_nodes {es : List Phrase} {ns : List Node}
    (h : ∀ e ∈ es, ∀ n, e.node scope = some n → P n) (hn : nodes node scope es = some ns) :
    ∀ n ∈ ns, P n := by
  induction es generalizing ns with
  | nil =>
      cases hn
      simp
  | cons e es ih =>
      obtain ⟨n, he, rest, hrest, rfl⟩ := nodes_cons_eq_some.mp hn
      obtain ⟨hhead, htail⟩ := List.forall_mem_cons.mp h
      exact List.forall_mem_cons.mpr ⟨hhead n he, ih htail hrest⟩

/-- Entries: their values are coerced, and a shorthand has none that is written. -/
theorem forall_entryNodes {es : List (EntryName × Option Phrase)} {others : List String}
    {counter : Nat} {entries : List (String × Node)}
    (hshort : ∀ entry ∈ es, entry.2 = none → P (Node.shorthand entry.1.name).asScalar)
    (h : ∀ entry ∈ es, ∀ e ∈ entry.2, ∀ n, e.node scope = some n → P n.asScalar)
    (hn : entryNodes node scope es others counter = some entries) :
    ∀ n ∈ entries.map Prod.snd, P n := by
  induction es generalizing others counter entries with
  | nil =>
      cases hn
      simp
  | cons entry es ih =>
      obtain ⟨n, hvalue, _, _, -, rest, hrest, rfl⟩ := entryNodes_cons_eq_some.mp hn
      obtain ⟨hhead, htail⟩ := List.forall_mem_cons.mp h
      obtain ⟨hfirst, hothers⟩ := List.forall_mem_cons.mp hshort
      refine List.forall_mem_cons.mpr ⟨?_, ih hothers htail hrest⟩
      obtain ⟨key, value⟩ := entry
      -- A shorthand is the field of its name; a written value is the node of its phrase.
      cases value with
      | none =>
          cases hvalue
          exact hfirst rfl
      | some e => exact hhead e rfl n hvalue

/-- The terms behind operators. -/
theorem forall_tailNodes {row : List (Operator × Phrase)} {tail : Precedence.Tail}
    (h : ∀ entry ∈ row, ∀ n, entry.2.node scope = some n → P n)
    (hn : tailNodes isBounds node scope row = some tail) : ∀ n ∈ tail.map Prod.snd, P n := by
  induction row generalizing tail with
  | nil =>
      cases hn
      simp
  | cons entry row ih =>
      obtain ⟨-, n, hterm, rest, hrest, rfl⟩ := tailNodes_cons_eq_some.mp hn
      obtain ⟨hhead, htail⟩ := List.forall_mem_cons.mp h
      exact List.forall_mem_cons.mpr ⟨hhead n hterm, ih htail hrest⟩

/-- A parameter yields one value. -/
theorem isScalar_of_isParameter {e : Phrase} (h : e.isParameter = true) {n : Node}
    (hn : e.node scope = some n) : n.isScalar = true := by
  induction e using Phrase.induction generalizing n with
  | step e ih =>
      rw [isParameter_eq] at h
      rw [node_eq] at hn
      obtain ⟨layer⟩ := e
      cases layer with
      | parameter isInt name =>
          cases hn
          rfl
      | parens inner =>
          obtain ⟨part, hpart, rfl⟩ := Option.map_eq_some_iff.mp hn
          rw [Node.isScalar_parenthesized]
          exact ih inner (List.mem_singleton_self inner) h hpart
      | _ => cases h

/-- Every part of the steps of a path is what a part of the written steps stands for; it
yields one value if it is a place. -/
theorem forall_stepNodes {ws : List (WrittenStep Phrase)}
    (hwf : ∀ e, .part e ∈ ws → e.WellFormed) {steps : List (PathStep Node)}
    (hn : stepNodes node ws = some steps)
    (h : ∀ e, .part e ∈ ws → ∀ n, e.node .current = some n → P n) :
    (∀ part, .indexOf part ∈ steps → part.isScalar = true) ∧
      ∀ part ∈ steps.flatMap PathStep.children, P part := by
  induction ws generalizing steps with
  | nil =>
      cases hn
      simp
  | cons w ws ih =>
      obtain ⟨step, hstep, rest, hrest, rfl⟩ := stepNodes_cons_eq_some.mp hn
      obtain ⟨hplaces, hparts⟩ := ih (fun e he => hwf e (List.mem_cons_of_mem _ he)) hrest
        fun e he => h e (List.mem_cons_of_mem _ he)
      -- Only an expression in brackets has a part. If its type is that of a parameter it is one,
      -- possibly in parentheses.
      have hfirst : (∀ part, .indexOf part = step → part.isScalar = true) ∧
          ∀ part ∈ step.children, P part := by
        cases w with
        | member field | all =>
            cases hstep
            exact ⟨by rintro _ ⟨⟩, List.forall_mem_nil _⟩
        | place negative digits =>
            obtain ⟨n, -, rfl⟩ := Option.map_eq_some_iff.mp hstep
            exact ⟨by rintro _ ⟨⟩, List.forall_mem_nil _⟩
        | part e =>
            obtain ⟨n, hnode, rfl⟩ := Option.map_eq_some_iff.mp hstep
            have hmem : WrittenStep.part e ∈ WrittenStep.part e :: ws := List.mem_cons_self ..
            split
            · rename_i htype
              have hparameter := (type_eq_parameter (hwf e hmem) hnode).mp htype
              refine ⟨?_, by simpa [PathStep.children] using h e hmem n hnode⟩
              rintro _ ⟨⟩
              exact isScalar_of_isParameter hparameter hnode
            · exact ⟨by rintro _ ⟨⟩, by simpa [PathStep.children] using h e hmem n hnode⟩
      constructor
      · intro part hpart
        rcases List.mem_cons.mp hpart with heq | hpart
        · exact hfirst.1 part heq
        · exact hplaces part hpart
      · intro part hpart
        rw [List.flatMap_cons] at hpart
        rcases List.mem_append.mp hpart with hpart | hpart
        · exact hfirst.2 part hpart
        · exact hparts part hpart

/-- A part of a step is a part of the path. -/
theorem mem_children_path {start : PathStart} {ws : List (WrittenStep Phrase)}
    {behind : Option Phrase} {e : Phrase} (h : .part e ∈ ws) :
    e ∈ (mk (.path start ws behind)).children :=
  List.mem_append_left _ (List.mem_flatMap.mpr ⟨.part e, h, List.mem_singleton_self e⟩)

/-! ### Constructions -/

/-- The constructions that nodes are put together by keep the property, where the layers of the
phrase are of this kind. -/
structure Keeps (L : Layer Phrase → Prop) (P : Node → Prop) : Prop where
  constant (type : ExprType) (value : Value) (source : String) : P (.constant type value source)
  parameter (name : String) : P (.parameter name)
  documents : P .documents
  generate (generator : Generator) (site : Nat) : P (.generate generator site)
  shorthand {entries : List (EntryName × Option Phrase)} {key : EntryName}
    (hlayer : L (.document entries)) (h : (key, none) ∈ entries) : P (.shorthand key.name)
  path {start : PathStart} {ws : List (WrittenStep Phrase)} {behind : Option Phrase}
    {steps : List (PathStep Node)} (scope : Scope) (hlayer : L (.path start ws behind))
    (hwf : (Phrase.mk (.path start ws behind)).WellFormed) (hsteps : stepNodes node ws = some steps)
    (h : ∀ part ∈ steps.flatMap PathStep.children, P part) : P (start.node scope steps)
  parenthesized {n : Node} (h : P n) : P n.parenthesized
  asSequence {n : Node} (h : P n) : P n.asSequence
  asScalar {n : Node} (h : P n) : P n.asScalar
  document {entries : List (String × Node)}
    (h : ∀ part ∈ entries.map Prod.snd, part.isScalar = true ∧ P part) : P (.document entries)
  array {items : List Node} (h : ∀ item ∈ items, item.isScalar = true ∧ P item) : P (.array items)
  map {source selector : Node} (hs : P source) (hmany : source.isScalar = false)
    (h : P selector) : P (.map source selector)
  filter {source predicate : Node} (hs : P source) (hmany : source.isScalar = false)
    (h : P predicate) : P (.filter source predicate)
  sort {source key : Node} {order : Option Node} (hs : P source)
    (hmany : source.isScalar = false) (h : P key)
    (ho : ∀ part ∈ order, part.isScalar = true ∧ P part) : P (.sort source key order)
  call {function : Builtin} {args : List Node}
    (hlength : function.signature.params.length = args.length) (h : ∀ arg ∈ args, P arg) :
    P (.call function args)
  conditional {test ifTrue ifFalse : Node} (ht : P test) (hone : test.isScalar = true)
    (hi : P ifTrue) (hf : P ifFalse) : P (.conditional test ifTrue ifFalse)
  joined {first : Phrase} {row : List (Operator × Phrase)} {scope : Scope} {m n : Node}
    {tail : Precedence.Tail} (hlayer : L (.joined first row))
    (hfirst : first.node scope = some m) (hrow : tailNodes isBounds node scope row = some tail)
    (hm : P m) (htail : ∀ m ∈ tail.map Prod.snd, P m) (hn : Precedence.reduce m tail = .ok n) : P n
  bounds {lower upper : Node} (hl : P lower) (hu : P upper) (hlone : lower.isScalar = true)
    (huone : upper.isScalar = true) : P (.bounds lower upper)

section

variable {L : Layer Phrase → Prop} (hkeeps : Keeps L P)

include hkeeps

/-- What the elements are taken from has been coerced to a sequence. -/
theorem keeps_sequence {source part : Phrase} {n m : Node}
    (hsource : ∀ {scope n}, source.node scope = some n → P n)
    (hpart : ∀ {scope n}, part.node scope = some n → P n)
    (h : sequenceNodes node scope source part = some (n, m)) :
    P n ∧ n.isScalar = false ∧ P m := by
  obtain ⟨k, hk, hm, rfl⟩ := sequenceNodes_eq_some.mp h
  exact ⟨hkeeps.asSequence (hsource hk), Node.isScalar_asSequence _, hpart hm⟩

/-- A name with arguments is a conditional, a function, or a generator. -/
theorem keeps_apply {name : String} {site : Nat} {args : List Node} {n : Node}
    (hargs : ∀ arg ∈ args, P arg) (h : applyNode? name site args = some n) : P n := by
  rcases applyNode_cases h with ⟨test, ifTrue, ifFalse, -, rfl, htest, rfl⟩ | ⟨f, hf, rfl⟩ |
    ⟨g, -, rfl⟩
  · simp only [List.mem_cons, List.not_mem_nil, or_false, forall_eq_or_imp, forall_eq] at hargs
    exact hkeeps.conditional hargs.1 htest hargs.2.1 hargs.2.2
  · exact hkeeps.call (Callable.find?_eq_some hf).2 hargs
  · exact hkeeps.generate g site

/-- The values of entries are coerced to one value each, whether they are written or not. -/
theorem keeps_document {entries : List (EntryName × Option Phrase)} {n : Node}
    (hlayer : L (.document entries))
    (hpart : ∀ part ∈ (mk (.document entries)).children, ∀ {scope n},
      part.node scope = some n → P n)
    (h : Layer.node isBounds node scope (.document entries) = some n) : P n := by
  obtain ⟨list, hlist, rfl⟩ := Option.map_eq_some_iff.mp h
  refine hkeeps.document (forall_entryNodes (P := fun n => n.isScalar = true ∧ P n) ?_ ?_ hlist)
  · rintro ⟨key, value⟩ hentry rfl
    exact ⟨Node.isScalar_asScalar _, hkeeps.asScalar (hkeeps.shorthand hlayer hentry)⟩
  · intro entry hentry e he n hn
    have hmem : e ∈ (mk (.document entries)).children :=
      List.mem_flatMap.mpr ⟨entry, hentry, Option.mem_toList.mpr he⟩
    exact ⟨n.isScalar_asScalar, hkeeps.asScalar (hpart _ hmem hn)⟩

/-- What stands behind a path is evaluated for each of its values. -/
theorem keeps_path {start : PathStart} {ws : List (WrittenStep Phrase)} {behind : Option Phrase}
    {n : Node} (hwf : (Phrase.mk (.path start ws behind)).WellFormed)
    (hlayer : L (.path start ws behind))
    (hpart : ∀ part ∈ (mk (.path start ws behind)).children, ∀ {scope n},
      part.node scope = some n → P n)
    (h : Layer.node isBounds node scope (.path start ws behind) = some n) : P n := by
  have hpath {steps : List (PathStep Node)} (hsteps : stepNodes node ws = some steps) :
      P (start.node scope steps) :=
    hkeeps.path scope hlayer hwf hsteps
      (forall_stepNodes (fun e he => hwf.part (mem_children_path he)) hsteps
        fun e he n hn => hpart _ (mem_children_path he) hn).2
  cases behind with
  | none =>
      obtain ⟨steps, hsteps, rfl⟩ := Option.map_eq_some_iff.mp h
      exact hpath hsteps
  | some behind =>
      obtain ⟨steps, hsteps, selector, hselector, rfl⟩ := Layer.node_behind_eq_some.mp h
      refine hkeeps.map (hpath hsteps) ?_ (hpart _ ?_ hselector)
      · rw [PathStart.isScalar_node,
          any_isEnumerable_stepNodes (fun e he => hwf.part (mem_children_path he)) hsteps,
          any_of_any_getLast? (hwf.layer.2.2.2 behind rfl).2]
        rfl
      · exact List.mem_append_right _ (List.mem_singleton_self behind)

/-- What the constructions keep holds of what a well-formed phrase stands for. It is an induction on
the phrase over all scopes, since parts are read in scopes of their own. -/
theorem keeps_node {e : Phrase} (hwf : e.WellFormed) (hlayers : e.Everywhere L) {n : Node}
    (h : e.node scope = some n) : P n := by
  induction e using Phrase.induction generalizing scope n with
  | step e ih =>
      rw [node_eq] at h
      have hlayer := hlayers.layer
      have hpart : ∀ part ∈ e.children, ∀ {scope n}, part.node scope = some n → P n :=
        fun part hmem _ _ hn => ih part hmem (hwf.part hmem) (hlayers.part hmem) hn
      obtain ⟨layer⟩ := e
      -- Each layer stands for one construction, and its parts have the property by induction.
      cases layer with
      | number negative isDouble text =>
          -- Whatever range a number falls into, its node is a constant.
          rcases numberNode_cases h with ⟨i, rfl⟩ | ⟨i, rfl⟩ | ⟨x, rfl⟩ <;>
            exact hkeeps.constant _ _ _
      | truth b | null | string s =>
          cases h
          exact hkeeps.constant _ _ _
      | parameter isInt name =>
          cases h
          exact hkeeps.parameter name
      | documents selector =>
          cases selector with
          | none =>
              cases h
              exact hkeeps.documents
          -- Behind the sign of the documents stands what is evaluated for each of them.
          | some selector =>
              obtain ⟨n, hn, rfl⟩ := Option.map_eq_some_iff.mp h
              exact hkeeps.map hkeeps.documents rfl (hpart _ (List.mem_singleton_self _) hn)
      | document entries =>
          exact keeps_document hkeeps hlayer hpart h
      | array items =>
          obtain ⟨list, hlist, rfl⟩ := Option.map_eq_some_iff.mp h
          have hitems := forall_nodes (fun e he n hn => hpart e he hn) hlist
          refine hkeeps.array fun item hitem => ?_
          obtain ⟨n, hn, rfl⟩ := List.mem_map.mp hitem
          exact ⟨n.isScalar_asScalar, hkeeps.asScalar (hitems n hn)⟩
      | path start ws behind =>
          exact keeps_path hkeeps hwf hlayer hpart h
      | map source part =>
          obtain ⟨n, m, hnodes, rfl⟩ := Layer.node_map_eq_some.mp h
          obtain ⟨hn, hmany, hm⟩ := keeps_sequence hkeeps (hpart _ (List.mem_cons_self ..))
            (hpart _ (List.mem_cons_of_mem _ (List.mem_singleton_self part))) hnodes
          exact hkeeps.map hn hmany hm
      | filter source part =>
          obtain ⟨n, m, hnodes, rfl⟩ := Layer.node_filter_eq_some.mp h
          obtain ⟨hn, hmany, hm⟩ := keeps_sequence hkeeps (hpart _ (List.mem_cons_self ..))
            (hpart _ (List.mem_cons_of_mem _ (List.mem_singleton_self part))) hnodes
          exact hkeeps.filter hn hmany hm
      | sort source part order =>
          obtain ⟨n, m, hnodes, o, ho, rfl⟩ := Layer.node_sort_eq_some.mp h
          obtain ⟨hn, hmany, hm⟩ := keeps_sequence hkeeps (hpart _ (List.mem_cons_self ..))
            (hpart _ (List.mem_cons_of_mem _ (List.mem_cons_self ..))) hnodes
          refine hkeeps.sort hn hmany hm ?_
          cases order with
          | none =>
              cases ho
              rintro _ ⟨⟩
          | some order =>
              obtain ⟨k, hk, hone, rfl⟩ := orderNode_some_eq_some.mp ho
              rintro _ ⟨⟩
              have hmem : order ∈ (mk (.sort source part (some order))).children := by
                simp [children, Phrase.layer, Layer.children]
              exact ⟨hone, hpart _ hmem hk⟩
      | call name site args =>
          obtain ⟨list, hlist, h⟩ := Layer.node_call_eq_some.mp h
          exact keeps_apply hkeeps (forall_nodes (fun e he n hn => hpart e he hn) hlist) h
      | parens inner =>
          obtain ⟨n, hn, rfl⟩ := Option.map_eq_some_iff.mp h
          exact hkeeps.parenthesized (hpart _ (List.mem_singleton_self inner) hn)
      | joined first tail =>
          obtain ⟨m, hm, list, hlist, h⟩ := Layer.node_joined_eq_some.mp h
          refine hkeeps.joined hlayer hm hlist (hpart _ (List.mem_cons_self ..) hm) ?_
            (Precedence.toOption_eq_some.mp h)
          refine forall_tailNodes (fun entry hentry n hn => hpart entry.2 ?_ hn) hlist
          exact List.mem_cons_of_mem _ (List.mem_map_of_mem hentry)
      | bounds lower upper =>
          obtain ⟨l, hl, u, hu, ⟨hlone, huone⟩, rfl⟩ := Layer.node_bounds_eq_some.mp h
          exact hkeeps.bounds (hpart _ (List.mem_cons_self ..) hl)
            (hpart _ (List.mem_cons_of_mem _ (List.mem_singleton_self upper)) hu) hlone huone

end

end Phrase

end DocQuery
