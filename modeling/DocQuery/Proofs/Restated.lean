import DocQuery.Proofs.Restated.Parts
/-!
# DocQuery.Proofs.Restated

Every expression that is read can be restated: whatever a phrase stands for, there is a phrase
that writes its canonical text and stands for the expression read again (`exists_renders`). There
is one lemma for each layer, and the induction on the phrase puts them together.
-/

namespace DocQuery

namespace Phrase

open Node (Kept)

variable {named exact : Prop} {scope : Scope}

/-! ### Paths -/

/-- A field that an entry without a value stands for. -/
theorem exists_shorthand {name : String} (hnamed : named → name ≠ "") :
    ∃ e', RestatesItem named exact scope (Node.shorthand name) e' := by
  have huncoerced : Uncoerced [PathStep.member name] := ⟨by simp, rfl⟩
  have hfields (hn : named) :
      Fields.single name = firstFields .document scope [PathStep.member (ν := Node) name] := by
    have hempty : name.isEmpty = false :=
      Bool.eq_false_iff.mpr fun hempty => hnamed hn (String.isEmpty_iff.mp hempty)
    simp [firstFields, hempty]
  -- The path of one field and no steps behind it.
  have hws : List.Forall₂ StepWrites [] [] := .nil
  obtain ⟨start, ws, hrestates, -⟩ := exists_path_member hws (fun same => .some .nil) huncoerced
    fun hn => ⟨hnamed hn, hfields hn⟩
  exact ⟨_, hrestates, rfl⟩

/-- What is written is no coerced step, and a field only if it is written as one. -/
theorem stepNode_spec {w : WrittenStep Phrase} {step : PathStep Node}
    (h : stepNode node w = some step) :
    step ≠ .items ∧ ∀ name, step = .member name → w.isMember = true := by
  cases w with
  | member field | all =>
      cases h
      exact ⟨by rintro ⟨⟩, by simp [WrittenStep.isMember]⟩
  | place negative digits =>
      obtain ⟨n, -, rfl⟩ := Option.map_eq_some_iff.mp h
      exact ⟨by rintro ⟨⟩, by rintro _ ⟨⟩⟩
  | part e =>
      obtain ⟨n, -, rfl⟩ := Option.map_eq_some_iff.mp h
      -- An expression in brackets is a place or a condition.
      split <;> exact ⟨by rintro ⟨⟩, by rintro _ ⟨⟩⟩

/-- What is written between the steps of a path has not been made a sequence: no step is one of
coercion, and only the last may yield many values. -/
theorem uncoerced_of_stepNodes {ws : List (WrittenStep Phrase)} {steps : List (PathStep Node)}
    (hwf : ∀ e, .part e ∈ ws → e.WellFormed)
    (hsingle : ws.dropLast.any (WrittenStep.isMany isParameter) = false)
    (h : stepNodes node ws = some steps) : Uncoerced steps where
  items := by
    induction ws generalizing steps with
    | nil =>
        cases h
        exact List.not_mem_nil
    | cons w ws ih =>
        obtain ⟨step, hstep, rest, hrest, rfl⟩ := stepNodes_cons_eq_some.mp h
        intro hmem
        rcases List.mem_cons.mp hmem with heq | hmem
        · exact (stepNode_spec hstep).1 heq.symm
        · refine ih (fun e he => hwf e (List.mem_cons_of_mem _ he)) ?_ hrest hmem
          cases ws with
          | nil => rfl
          | cons next ws => exact (Bool.or_eq_false_iff.mp hsingle).2
  single := by
    have hmap := congrArg List.dropLast (map_isEnumerable_stepNodes hwf h)
    rw [← List.map_dropLast, ← List.map_dropLast] at hmap
    rw [any_eq_any_id, hmap, ← any_eq_any_id]
    exact hsingle

/-- A step in front that yields one value changes nothing. -/
theorem Uncoerced.member {steps : List (PathStep Node)} (h : Uncoerced steps) (name : String) :
    Uncoerced (.member name :: steps) where
  items := by simpa using h.items
  single := by
    cases steps with
    | nil => rfl
    | cons step rest => exact h.single

/-- Only a path without a first field begins without the name of one, if it is named. -/
theorem exists_sigil {start : PathStart} {ws : List (WrittenStep Phrase)} {behind : Option Phrase}
    (hfits : (mk (.path start ws behind)).Restatable named exact) (hnamed : named)
    (hempty : start.field = "") : ∃ root, start = .sigil root none := by
  -- A word that is written is not empty, so of the empty name only the quoted one is left, which a
  -- named phrase does not begin with.
  have hword {name : String} (hmark : Mark.token false (.word name) ∈ start.marks) : name ≠ "" := by
    rintro rfl
    have hproper : (TokenKind.word "").IsProper := by
      refine hfits.isProper (.token false (.word "")) ?_
      rw [marks_eq]
      exact List.mem_append_left _ (List.mem_append_left _ hmark)
    cases hproper
  have hlayer : Layer.IsNamed (.path start ws behind) := (hfits.isNamed hnamed).layer
  cases start with
  | bare name => exact absurd hempty (hword (List.mem_cons_self ..))
  | sigil root field =>
      cases field with
      | none => exact ⟨root, rfl⟩
      | some field =>
          cases field with
          | quoted name => exact absurd (congrArg FieldName.quoted hempty) hlayer
          | word name =>
              refine absurd hempty (hword ?_)
              rw [PathStart.marks_sigil]
              exact List.mem_append_right _ (List.mem_cons_of_mem _ (List.mem_singleton_self _))

section

variable {start : PathStart} {ws : List (WrittenStep Phrase)} {behind : Option Phrase}
  {steps : List (PathStep Node)}

variable (scope) in
/-- A path is restated by a path. -/
theorem exists_path (hfits : (mk (.path start ws behind)).Restatable named exact)
    (h : ∀ e, .part e ∈ ws → ∀ n, e.node .current = some n →
      ∃ e', Renders named exact .current e n e')
    (hsteps : stepNodes node ws = some steps) :
    ∃ start' ws', Restates named exact scope (start.node scope steps)
        (mk (.path start' ws' none)) ∧
      Extends (start.node scope steps) (mk (.path start' ws' none)) := by
  obtain ⟨hallows, hplain, hsingle, -⟩ := hfits.wellFormed.layer
  have hwf : ∀ e, .part e ∈ ws → e.WellFormed := fun e he =>
    hfits.wellFormed.part (List.mem_append_left _
      (List.mem_flatMap.mpr ⟨.part e, he, List.mem_singleton_self e⟩))
  have hparts : ∀ e, .part e ∈ ws → e.WellFormed ∧ e.isBounds = false ∧ e.isPlain = true :=
    fun e he => ⟨hwf e he, hplain e he⟩
  have huncoerced := uncoerced_of_stepNodes hwf hsingle hsteps
  have hfields : (start.node scope steps) = Node.path
      (if !start.field.isEmpty && (start.root scope = .document || scope = .source)
        then Fields.single start.field else Fields.empty) (start.root scope)
      (if !start.field.isEmpty then .member start.field :: steps else steps) := rfl
  -- With a first field the path is written with it. Without one it is written from the root sign
  -- on, unless the first step is a field: then this is written as the first field.
  rw [hfields]
  cases hempty : start.field.isEmpty with
  | false =>
      obtain ⟨ws', hws, hagain⟩ := exists_steps hparts hsteps h
      refine exists_path_member hws hagain (huncoerced.member _) fun _ => ⟨?_, ?_⟩
      · rintro hname
        rw [hname] at hempty
        cases hempty
      · rw [firstFields, hempty]
  | true =>
      have hname : start.field = "" := String.isEmpty_iff.mp hempty
      -- The field that is read first may be the first of the steps.
      by_cases hmember : ws.head?.any WrittenStep.isMember = true
      · -- Only a quoted empty name leaves the field to the steps, so the phrase is not named and
        -- nothing is promised of the fields.
        have hunnamed : ¬ named := fun hnamed => by
          obtain ⟨root, rfl⟩ := exists_sigil hfits hnamed hname
          rw [hallows] at hmember
          cases hmember
        cases ws with
        | nil => cases hmember
        | cons w rest =>
            cases w with
            | member field =>
                obtain ⟨_, hfield, others, hothers, rfl⟩ := stepNodes_cons_eq_some.mp hsteps
                cases hfield
                obtain ⟨ws', hws, hagain⟩ := exists_steps
                  (fun e he => hparts e (List.mem_cons_of_mem _ he)) hothers
                  fun e he => h e (List.mem_cons_of_mem _ he)
                exact exists_path_member hws hagain huncoerced fun hnamed => absurd hnamed hunnamed
            | _ => cases hmember
      · obtain ⟨ws', hws, hagain⟩ := exists_steps hparts hsteps h
        refine exists_path_other hws hagain huncoerced (fun name hhead => hmember ?_) fun _ => rfl
        cases ws with
        | nil =>
            cases hsteps
            cases hhead
        | cons w rest =>
            obtain ⟨step, hstep, others, -, rfl⟩ := stepNodes_cons_eq_some.mp hsteps
            exact (stepNode_spec hstep).2 name (Option.some.inj hhead)

end

/-! ### Calls, parentheses and bounds -/

/-- A choice is restated by a call of `IIF` with its three parts. -/
theorem restates_conditional {test ifTrue ifFalse : Node} {es : List Phrase}
    (hscalar : test.isScalar = true)
    (h : List.Forall₂ (RestatesItem named exact scope) [test, ifTrue, ifFalse] es) :
    Restates named exact scope (Node.conditional test ifTrue ifFalse) (mk (.call "IIF" 0 es)) := by
  refine ⟨?_, fun scope' => ?_⟩
  · have hsource : (Node.conditional test ifTrue ifFalse).source =
        "IIF" ++ "(" ++ ",".intercalate ([test, ifTrue, ifFalse].map Node.source) ++ ")" := by
      rw [← String.toList_inj]
      unfold Node.conditional
      split <;> simp [Node.compose, Node.source, Node.info]
    rw [hsource]
    exact writes_call rfl rfl rfl 0 (writes_items h)
  · have hkeeps : (Node.conditional test ifTrue ifFalse).keepsBounds =
        ([test, ifTrue, ifFalse].all Node.keepsBounds && true) := by
      rw [Node.keepsBounds_conditional]
      simp
    rw [hkeeps, node_eq, Node.reread_conditional]
    refine (again_items scope' h).bind fun args hargs => ?_
    -- The call is a choice again, as it has the name, three arguments and one value to test.
    cases hargs with
    | cons htest hargs =>
        cases hargs with
        | cons htrue hargs =>
            cases hargs with
            | cons hfalse hargs =>
                cases hargs
                have hone := htest.isScalar.trans ((Node.isScalar_reread _).trans hscalar)
                have hiif : Text.sameName "IIF" "IIF" = true := by decide
                rw [applyNode?, if_pos hiif, if_pos hone]
                exact .some (.conditional htest htrue hfalse)

/-- A call is restated by a call of the same function. -/
theorem exists_apply {name : String} {site : Nat} {args : List Node} {es : List Phrase} {n : Node}
    (h : List.Forall₂ (RestatesItem named exact scope) args es)
    (hn : applyNode? name site args = some n) :
    (∃ name es, Restates named exact scope n (mk (.call name 0 es))) ∧
      ∀ root steps, n.form ≠ .path root steps := by
  -- A choice, a function that has been found, or a generator.
  rcases applyNode_cases hn with
    ⟨test, ifTrue, ifFalse, -, rfl, hscalar, rfl⟩ | ⟨f, hf, rfl⟩ | ⟨g, -, rfl⟩
  · refine ⟨⟨_, _, restates_conditional hscalar h⟩, ?_⟩
    unfold Node.conditional
    dsimp only
    split <;> rintro _ _ ⟨⟩
  · exact ⟨⟨_, _, restates_call (Callable.find?_eq_some hf).2 h⟩, by rintro _ _ ⟨⟩⟩
  · exact ⟨⟨_, _, restates_generate g site⟩, by rintro _ _ ⟨⟩⟩

/-- Parentheses are restated around the phrase that restates what is in them. -/
theorem renders_parens {e e' : Phrase} {n : Node} (h : Renders named exact scope e n e')
    (hclass : e.isBounds = false) :
    Renders named exact scope (mk (.parens e)) n.parenthesized (mk (.parens e')) where
  restates := by
    obtain ⟨hrestates, hbounds⟩ := h.item hclass
    refine ⟨?_, fun scope' => ?_⟩
    · have hsource : n.parenthesized.source = "(" ++ n.source ++ ")" := by
        obtain ⟨info, form⟩ := n
        rfl
      rw [hsource]
      exact writes_parens ⟨hrestates.writes, hbounds⟩
    · rw [Node.keepsBounds_parenthesized, node_eq, Node.reread_parenthesized]
      exact (hrestates.again scope').map fun _ hkept => hkept.parenthesized
  isBounds := rfl
  isTerm _ := rfl
  isPlain _ := rfl
  isParameter := by
    rw [isParameter_eq, isParameter_eq]
    exact h.isParameter
  extend := by
    refine ⟨fun hopen => ?_, ?_⟩
    · rw [Node.isOpenPath_parenthesized] at hopen
      cases hopen
    · have hsequence := h.extend.sequence
      rw [Node.reread_parenthesized, Node.rereadSequence_parenthesized, hsequence]

/-- Two terms with `AND` between them write a pair of bounds. -/
theorem writes_bounds {lower upper : Phrase} {l u : String} (hlower : lower.Writes l)
    (hlowerTerm : lower.isTerm = true) (hupper : upper.Writes u)
    (hupperTerm : upper.isTerm = true) :
    (mk (.bounds lower upper)).Writes (l ++ " AND " ++ u) := by
  refine .of_layer ⟨hlowerTerm, hupperTerm⟩ ?_
    ((hlower.marks.append (.blank (.keyword rfl (.blank .nil)))).append hupper.marks) ?_
  · simpa [Layer.children] using ⟨hlower.wellFormed, hupper.wellFormed⟩
  · simp

/-- Bounds are restated one by one, and each is still one value. -/
theorem renders_bounds {lower upper lower' upper' : Phrase} {l u : Node}
    (hwf : (mk (.bounds lower upper)).WellFormed) (hl : Renders named exact scope lower l lower')
    (hu : Renders named exact scope upper u upper') (hlscalar : l.isScalar = true)
    (huscalar : u.isScalar = true) :
    Renders named exact scope (mk (.bounds lower upper)) (Node.bounds l u)
      (mk (.bounds lower' upper')) where
  restates := by
    obtain ⟨hlterm, huterm⟩ := hwf.layer
    refine ⟨writes_bounds hl.restates.writes (hl.isTerm hlterm) hu.restates.writes
      (hu.isTerm huterm), fun scope' => ?_⟩
    have hkeeps : (Node.bounds l u).keepsBounds = (l.keepsBounds && (u.keepsBounds && true)) :=
      Node.keepsBounds_compose ..
    rw [hkeeps, node_eq, Node.reread_bounds]
    refine (hl.restates.again scope').bind fun l' hl' => ?_
    refine (hu.restates.again scope').bind fun u' hu' => ?_
    rw [hl'.isScalar, hu'.isScalar, Node.isScalar_reread, Node.isScalar_reread, hlscalar, huscalar]
    exact .some (.bounds hl' hu')
  isBounds := rfl
  isTerm := by rintro ⟨⟩
  isPlain h := by
    rw [isPlain_eq] at h ⊢
    exact hl.isPlain h
  isParameter := by
    rw [isParameter_eq, isParameter_eq]
    rfl
  extend := .of_not_path (by rintro _ _ ⟨⟩)

/-! ### Phrases -/

/-- The order of a sort is restated. -/
theorem exists_order {order : Option Phrase} {o : Option Node}
    (hclass : ∀ e ∈ order, e.isBounds = false)
    (h : ∀ e ∈ order, ∀ n, e.node scope = some n → ∃ e', Renders named exact scope e n e')
    (hn : orderNode node scope order = some o) :
    ∃ order', Option.Rel (fun n e => RestatesItem named exact scope n e ∧ n.isScalar = true)
      o order' := by
  cases order with
  | none =>
      cases hn
      exact ⟨none, .none⟩
  | some e =>
      obtain ⟨n, he, hscalar, rfl⟩ := orderNode_some_eq_some.mp hn
      obtain ⟨e', hrenders⟩ := h e rfl n he
      exact ⟨some e', .some ⟨hrenders.item (hclass e rfl), hscalar⟩⟩

/-- The values of entries are restated, whether they are written or not. -/
theorem exists_values_of_entries {es : List (EntryName × Option Phrase)} {others : List String}
    {counter : Nat} {entries : List (String × Node)}
    (hclass : ∀ entry ∈ es, ∀ e ∈ entry.2, e.isBounds = false)
    (hnamed : named → ∀ entry ∈ es, entry.2 = none → entry.1.name ≠ "")
    (h : ∀ entry ∈ es, ∀ e ∈ entry.2, ∀ n, e.node scope = some n →
      ∃ e', Renders named exact scope e n e')
    (hn : entryNodes node scope es others counter = some entries) :
    ∃ ps, List.Forall₂ (RestatesItem named exact scope) (entries.map Prod.snd) ps := by
  induction es generalizing others counter entries with
  | nil =>
      cases hn
      exact ⟨[], .nil⟩
  | cons entry es ih =>
      obtain ⟨n, hvalue, _, _, -, rest, hrest, rfl⟩ := entryNodes_cons_eq_some.mp hn
      obtain ⟨hclass, hclasses⟩ := List.forall_mem_cons.mp hclass
      obtain ⟨h, hs⟩ := List.forall_mem_cons.mp h
      obtain ⟨ps, hps⟩ := ih hclasses
        (fun hn entry hentry => hnamed hn entry (List.mem_cons_of_mem _ hentry)) hs hrest
      -- A shorthand is restated as the path of its name, which is written out.
      have hitem : ∃ e', RestatesItem named exact scope n e' := by
        obtain ⟨key, value⟩ := entry
        cases value with
        | none =>
            cases hvalue
            exact exists_shorthand fun hn => hnamed hn (key, none) (List.mem_cons_self ..) rfl
        | some e =>
            obtain ⟨e', hrenders⟩ := h e rfl n hvalue
            exact ⟨e', hrenders.item (hclass e rfl)⟩
      obtain ⟨e, he⟩ := hitem
      obtain ⟨e', he'⟩ := exists_asScalar he
      exact ⟨e' :: ps, .cons he' hps⟩

/-- The entries of a document that fits are restated; its names are not empty where that is asked
for. -/
theorem exists_entries {es : List (EntryName × Option Phrase)} {entries : List (String × Node)}
    {others : List String} {counter : Nat}
    (hfits : (mk (.document es)).Restatable named exact)
    (hclass : ∀ entry ∈ es, ∀ e ∈ entry.2, e.isBounds = false)
    (h : ∀ e ∈ (mk (.document es)).children, ∀ n, e.node scope = some n →
      ∃ e', Renders named exact scope e n e')
    (hn : entryNodes node scope es others counter = some entries) :
    ∃ ps, List.Forall₂ (RestatesItem named exact scope) (entries.map Prod.snd) ps := by
  refine exists_values_of_entries hclass (fun hnamed entry hentry hnone => ?_)
    (fun entry hentry e he => h e
      (List.mem_flatMap.mpr ⟨entry, hentry, Option.mem_toList.mpr he⟩)) hn
  have hlayer : Layer.IsNamed (.document es) := (hfits.isNamed hnamed).layer
  have hproper : entry.1.mark.IsProper := by
    refine hfits.isProper _ ?_
    rw [marks_eq]
    refine List.mem_append_left _ (List.mem_cons_of_mem _ ?_)
    refine mem_separated (List.mem_map_of_mem hentry) ?_
    obtain ⟨key, value⟩ := entry
    cases value <;> exact List.mem_cons_self ..
  have hstring := hlayer entry hentry hnone
  -- Words and integers that can be written are not empty; of a string this is the condition.
  cases hkey : entry.1 with
  | word name =>
      rw [hkey] at hproper
      rintro rfl
      cases hproper
  | int name =>
      rw [hkey] at hproper
      rintro rfl
      exact absurd rfl hproper.1
  | string name =>
      rw [hkey] at hstring
      exact fun hname => hstring (congrArg EntryName.string hname)

/-- The source of a function on sequences is restated as a sequence, and the scope of what is
evaluated for its elements is that in which this was read. -/
theorem exists_sequence {source part : Phrase} {a b : Node} (hterm : source.isTerm = true)
    (hclass : part.isBounds = false)
    (hsource : ∀ n, source.node scope = some n → ∃ e', Renders named exact scope source n e')
    (hpart : ∀ inner n, part.node inner = some n → ∃ e', Renders named exact inner part n e')
    (hn : sequenceNodes node scope source part = some (a, b)) :
    ∃ source' part' inner, RestatesAs named exact scope a a.reread.rereadSequence source' ∧
      source'.isTerm = true ∧ a.isScalar = false ∧
      inner = (if a.info.type = .source then Scope.source else .current) ∧
      RestatesItem named exact inner b part' := by
  -- The source is made a sequence, and so its restatement is written as one.
  obtain ⟨k, hk, hm, rfl⟩ := sequenceNodes_eq_some.mp hn
  obtain ⟨s, hs⟩ := hsource k hk
  obtain ⟨p, hp⟩ := hpart _ _ hm
  obtain ⟨source', hrestates, hterm', -⟩ := exists_asSequence (hs.item (isBounds_of_isTerm hterm))
    hs.extend fun _ => hs.isTerm hterm
  exact ⟨source', p, _, hrestates, hterm', k.isScalar_asSequence, rfl, hp.item hclass⟩

/-- A phrase that is neither a parameter nor plain or not, whatever its parts are. -/
theorem Renders.of_restates {e e' : Phrase} {n : Node} (h : Restates named exact scope n e')
    (hbounds : e'.isBounds = e.isBounds) (hterm : e'.isTerm = true) (hplain : e'.isPlain = true)
    (hparameter : e'.isParameter = e.isParameter) (hextend : Extends n e') :
    Renders named exact scope e n e' :=
  ⟨h, hbounds, fun _ => hterm, fun _ => hplain, hparameter, hextend⟩

/-- A path is restated, and so is a path with a part for each element behind it. -/
theorem exists_path_renders {start : PathStart} {ws : List (WrittenStep Phrase)}
    {behind : Option Phrase} {n : Node}
    (hfits : (mk (.path start ws behind)).Restatable named exact)
    (hpart : ∀ part ∈ (mk (.path start ws behind)).children, ∀ scope n, part.node scope = some n →
      ∃ e', Renders named exact scope part n e')
    (hn : (mk (.path start ws behind)).node scope = some n) :
    ∃ e', Renders named exact scope (mk (.path start ws behind)) n e' := by
  have hwf := hfits.wellFormed
  rw [node_eq] at hn
  have hmem {e : Phrase} (he : .part e ∈ ws) : e ∈ (mk (.path start ws behind)).children :=
    List.mem_append_left _ (List.mem_flatMap.mpr ⟨.part e, he, List.mem_singleton_self e⟩)
  have hsteps : ∀ e, .part e ∈ ws → ∀ n, e.node .current = some n →
      ∃ e', Renders named exact .current e n e' := fun e he => hpart e (hmem he) .current
  cases behind with
  | none =>
      obtain ⟨steps, hnodes, rfl⟩ := Option.map_eq_some_iff.mp hn
      obtain ⟨start', ws', hpath, hextend⟩ := exists_path scope hfits hsteps hnodes
      exact ⟨_, .of_restates hpath rfl rfl rfl rfl hextend⟩
  | some behind =>
      obtain ⟨steps, hnodes, selector, hselector, rfl⟩ := Layer.node_behind_eq_some.mp hn
      obtain ⟨start', ws', hpath, hextend⟩ := exists_path scope hfits hsteps hnodes
      obtain ⟨hterm, hlast⟩ := hwf.layer.2.2.2 behind rfl
      -- Only behind many values there is something for each of them, so the path is a sequence
      -- already.
      have hscalar : (start.node scope steps).isScalar = false := by
        rw [PathStart.isScalar_node,
          any_isEnumerable_stepNodes (fun e he => hwf.part (hmem he)) hnodes,
          any_of_any_getLast? hlast]
        rfl
      have hsource : RestatesAs named exact scope (start.node scope steps)
          (start.node scope steps).reread.rereadSequence (mk (.path start' ws' none)) := by
        rw [hextend.sequence]
        exact hpath
      obtain ⟨s, hs⟩ := hpart behind (List.mem_append_right _ (List.mem_singleton_self _))
        .current selector hselector
      -- This is written as a call of `MAP`.
      exact ⟨_, .of_restates (restates_map hsource rfl hscalar rfl
        (hs.item (isBounds_of_isTerm hterm))) rfl rfl rfl rfl (.of_not_path (by rintro _ _ ⟨⟩))⟩

/-- The documents are restated, and so is a part for each of them: it is read in their scope, which
does not depend on that of the whole. -/
theorem exists_documents_renders {selector : Option Phrase} {n : Node}
    (hterm : ∀ e ∈ selector, e.isTerm = true)
    (hpart : ∀ e ∈ selector, ∀ n, e.node .source = some n →
      ∃ e', Renders named exact .source e n e')
    (hn : Layer.node isBounds node scope (.documents selector) = some n) :
    ∃ e', Renders named exact scope (mk (.documents selector)) n e' := by
  cases selector with
  | none =>
      cases hn
      exact ⟨_, restates_documents, rfl, fun _ => rfl, id, rfl, .of_not_path (by rintro _ _ ⟨⟩)⟩
  | some selector =>
      obtain ⟨m, hm, rfl⟩ := Option.map_eq_some_iff.mp hn
      obtain ⟨s, hs⟩ := hpart selector rfl m hm
      have hsource : RestatesAs named exact scope Node.documents
          Node.documents.reread.rereadSequence (mk (.documents none)) := by
        rw [Node.reread_documents]
        exact Node.reread_documents ▸ restates_documents
      have hitem := hs.item (isBounds_of_isTerm (hterm selector rfl))
      exact ⟨_, .of_restates (restates_map hsource rfl rfl rfl hitem) rfl rfl rfl rfl
        (.of_not_path (by rintro _ _ ⟨⟩))⟩

/-- What a phrase stands for is restated by a phrase that may stand in the same places. -/
theorem exists_renders {e : Phrase} {n : Node} (hfits : e.Restatable named exact)
    (hn : e.node scope = some n) : ∃ e', Renders named exact scope e n e' := by
  induction e using Phrase.induction generalizing scope n with
  | step e ih =>
      have hwf := hfits.wellFormed
      have hlayer := hwf.layer
      -- The parts are read in scopes of their own, so they are restated in every scope.
      have hpart (part : Phrase) (hmem : part ∈ e.children) (scope : Scope) (n : Node)
          (hn : part.node scope = some n) : ∃ e', Renders named exact scope part n e' :=
        ih part hmem (hfits.part hmem) hn
      obtain ⟨layer⟩ := e
      -- One case for each layer. The parts are restated by the induction hypothesis, the lemma on
      -- the layer writes them in canonical form, and what is left are the classes that tell where
      -- the new phrase may stand. A row comes first, as its restatement follows the tree of its
      -- operators and not the row.
      cases layer with
      | joined first tail =>
          exact exists_joined hwf hn fun e he n hn => hpart e he scope n hn
      | number negative isDouble text =>
          rw [node_eq] at hn
          exact exists_number hfits hn
      | truth b =>
          rw [node_eq] at hn
          cases hn
          exact ⟨_, renders_constant (writes_truth b) (fun _ => node_eq ..) rfl rfl
            (fun _ => rfl) rfl⟩
      | null =>
          rw [node_eq] at hn
          cases hn
          exact ⟨_, renders_constant writes_null (fun _ => node_eq ..) rfl rfl (fun _ => rfl) rfl⟩
      | string s =>
          rw [node_eq] at hn
          cases hn
          exact ⟨_, renders_constant (writes_string s) (fun _ => node_eq ..) rfl rfl
            (fun _ => rfl) rfl⟩
      | parameter isInt name =>
          rw [node_eq] at hn
          cases hn
          exact exists_parameter hfits
      | documents selector =>
          rw [node_eq] at hn
          exact exists_documents_renders hlayer
            (fun e he => hpart e (Option.mem_toList.mpr he) .source) hn
      | document entries =>
          rw [node_eq] at hn
          obtain ⟨list, hlist, rfl⟩ := Option.map_eq_some_iff.mp hn
          obtain ⟨es, hes⟩ := exists_entries hfits hlayer (fun e he n => hpart e he scope n) hlist
          have hscalar := forall_entryNodes (P := fun n => n.isScalar = true)
            (fun _ _ _ => Node.isScalar_asScalar _) (fun _ _ _ _ n _ => n.isScalar_asScalar) hlist
          -- The keys are fresh, so reading the document again changes none of them.
          obtain ⟨e', he⟩ := restates_document (freshNames_entryNodes hlist) hscalar hes
          exact ⟨_, .of_restates he rfl rfl rfl rfl (.of_not_path (by rintro _ _ ⟨⟩))⟩
      | array items =>
          rw [node_eq] at hn
          obtain ⟨list, hlist, rfl⟩ := Option.map_eq_some_iff.mp hn
          obtain ⟨es, hes⟩ := exists_items hlayer (fun e he n => hpart e he scope n) hlist
          -- Items are one value each, so a sequence among them is gathered.
          obtain ⟨es', hes'⟩ := exists_values hes
          have hscalar : ∀ n ∈ list.map Node.asScalar, n.isScalar = true :=
            List.forall_mem_map.mpr fun n _ => n.isScalar_asScalar
          exact ⟨_, .of_restates (restates_array hscalar hes') rfl rfl rfl rfl
            (.of_not_path (by rintro _ _ ⟨⟩))⟩
      | path start ws behind => exact exists_path_renders hfits hpart hn
      | map source part =>
          rw [node_eq] at hn
          obtain ⟨a, b, hnodes, rfl⟩ := Layer.node_map_eq_some.mp hn
          obtain ⟨_, _, _, hsource, hterm, hscalar, hinner, hitem⟩ := exists_sequence hlayer.1
            hlayer.2 (hpart source (List.mem_cons_self ..) scope)
            (hpart part (List.mem_cons_of_mem _ (List.mem_singleton_self _))) hnodes
          exact ⟨_, .of_restates (restates_map hsource hterm hscalar hinner hitem) rfl rfl rfl rfl
            (.of_not_path (by rintro _ _ ⟨⟩))⟩
      | filter source part =>
          rw [node_eq] at hn
          obtain ⟨a, b, hnodes, rfl⟩ := Layer.node_filter_eq_some.mp hn
          obtain ⟨_, _, _, hsource, hterm, hscalar, hinner, hitem⟩ := exists_sequence hlayer.1
            hlayer.2 (hpart source (List.mem_cons_self ..) scope)
            (hpart part (List.mem_cons_of_mem _ (List.mem_singleton_self _))) hnodes
          exact ⟨_, .of_restates (restates_filter hsource hterm hscalar hinner hitem) rfl rfl rfl
            rfl (.of_not_path (by rintro _ _ ⟨⟩))⟩
      | sort source part order =>
          rw [node_eq] at hn
          obtain ⟨a, b, hnodes, o, ho, rfl⟩ := Layer.node_sort_eq_some.mp hn
          obtain ⟨_, _, _, hsource, hterm, hscalar, hinner, hitem⟩ := exists_sequence hlayer.1
            hlayer.2.1 (hpart source (List.mem_cons_self ..) scope)
            (hpart part (List.mem_cons_of_mem _ (List.mem_cons_self ..))) hnodes
          obtain ⟨orderPart, horder⟩ := exists_order hlayer.2.2
            (fun e he n => hpart e (List.mem_cons_of_mem _ (List.mem_cons_of_mem _
              (Option.mem_toList.mpr he))) scope n) ho
          exact ⟨_, .of_restates (restates_sort hsource hterm hscalar hinner hitem horder) rfl rfl
            rfl rfl (.of_not_path (by rintro _ _ ⟨⟩))⟩
      | call name site args =>
          rw [node_eq] at hn
          obtain ⟨list, hlist, hn⟩ := Layer.node_call_eq_some.mp hn
          obtain ⟨es, hes⟩ := exists_items hlayer.2.2 (fun e he n => hpart e he scope n) hlist
          obtain ⟨⟨_, _, hrestates⟩, hform⟩ := exists_apply hes hn
          exact ⟨_, .of_restates hrestates rfl rfl rfl rfl (.of_not_path hform)⟩
      | parens inner =>
          rw [node_eq] at hn
          obtain ⟨m, hm, rfl⟩ := Option.map_eq_some_iff.mp hn
          obtain ⟨e', he⟩ := hpart inner (List.mem_singleton_self _) scope m hm
          exact ⟨_, renders_parens he hlayer⟩
      | bounds lower upper =>
          rw [node_eq] at hn
          obtain ⟨l, hl, u, hu, hscalar, rfl⟩ := Layer.node_bounds_eq_some.mp hn
          obtain ⟨l', hl'⟩ := hpart lower (List.mem_cons_self ..) scope l hl
          obtain ⟨u', hu'⟩ := hpart upper (List.mem_cons_of_mem _ (List.mem_singleton_self _))
            scope u hu
          exact ⟨_, renders_bounds hwf hl' hu' hscalar.1 hscalar.2⟩

end Phrase

end DocQuery
