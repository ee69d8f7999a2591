import DocQuery.Proofs.Parsed
import DocQuery.Proofs.RoundTrip
/-!
# DocQuery.Proofs.Faithful

What canonical text keeps of the meaning. An expression without floating-point numbers and
without generators, read again from its canonical text, is evaluated as it was (`alike_source`),
except where a path of one value has been made a sequence: it is written with `[*]`, which takes
the elements of an array and of nothing else. Expressions that have no such path keep their
elements (`Node.keepsItems`).
-/

namespace DocQuery

open Pool (Evaluator origin firstField)

/-- The token is a floating-point number. -/
def TokenKind.isDouble : TokenKind → Bool
  | .double _ => true
  | _ => false

theorem EvalError.SameKind.trans {e₁ e₂ e₃ : EvalError} (h : EvalError.SameKind e₁ e₂)
    (h' : EvalError.SameKind e₂ e₃) : EvalError.SameKind e₁ e₃ :=
  Eq.trans h h'

/-- The step takes the elements of an array or a binary, or any other value by itself. -/
def PathStep.isItems {ν : Type} : PathStep ν → Bool
  | .items => true
  | _ => false

/-- Where a sequence is asked for stands a path that has been made one. -/
def Form.coerces {ν : Type} (isCoerced : ν → Bool) : Form ν → Bool
  | .map source _ | .filter source _ | .sort source _ _ | .quantified _ _ source _ =>
    isCoerced source
  | _ => false

namespace Node

/-- The node is a path that has been made a sequence. -/
def isCoerced (n : Node) : Bool :=
  match n.form with
  | .path _ steps => steps.any PathStep.isItems
  | _ => false

/-- No path of one value has been made a sequence where one is asked for in the text. -/
def keepsItems : Node → Bool :=
  fold fun _ form => !form.coerces (fun part => part.1.isCoerced) && form.children.all Prod.snd

theorem keepsItems_mk (info : NodeInfo) (form : Form Node) :
    (mk info form).keepsItems = (!form.coerces isCoerced && form.children.all keepsItems) := by
  rw [keepsItems, fold_mk, Form.children_mapParts, List.all_map]
  congr 2
  cases form <;> rfl

/-- A sequence that is no coerced path is read as it is. -/
theorem rereadSequence_reread {n : Node} (h : n.isCoerced = false) :
    n.reread.rereadSequence = n.reread := by
  obtain ⟨info, form⟩ := n
  cases form with
  | path root steps =>
      exact rereadSequence_path fun hitems =>
        Bool.eq_false_iff.mp h (List.any_eq_true.mpr ⟨.items, hitems, rfl⟩)
  | _ => rw [reread_mk]; rfl

/-! ### Alike nodes -/

namespace Alike

theorem refl (n : Node) : n.Alike n where
  isScalar := rfl
  pattern := rfl
  scalar _ := Agree.of_eq (fun _ => rfl) rfl
  values _ := AgreeAll.of_eq (fun _ => rfl) rfl

theorem trans {n m k : Node} (h : n.Alike m) (h' : m.Alike k) : n.Alike k where
  isScalar := h.isScalar.trans h'.isScalar
  pattern := h.pattern.trans h'.pattern
  scalar ctx := (h.scalar ctx).trans (fun _ _ _ => .trans) (h'.scalar ctx)
  values ctx := (h.values ctx).trans (fun _ _ _ => .trans) (h'.values ctx)

end Alike

/-! ### A field with the empty name -/

/-- The origin of a path is the same whatever its first field, but for the error. -/
theorem origin_agree (ctx : Context) (root : PathRoot) (field field' : String) :
    Agree EvalError.SameKind (origin ctx root field) (origin ctx root field') := by
  unfold origin
  extract_lets binding
  cases binding with
  | some value => exact .ok value
  | none => exact .error rfl

/-- The empty name stands for the value itself, so a step by it changes nothing. -/
theorem resolve_empty (source : String) (ctx : Context) (root : PathRoot)
    (steps : List (PathStep Node)) (field field' : String) :
    Agree EvalError.SameKind
      (Pool.resolve evaluator source ctx root (.member "" :: steps) field)
      (Pool.resolve evaluator source ctx root steps field') := by
  have hfollow (value : Value) : Pool.follow evaluator source ctx value (.member "" :: steps) =
      Pool.follow evaluator source ctx value steps := by
    rw [Pool.follow]
    rfl
  unfold Pool.resolve
  refine (origin_agree ctx root field field').bind fun value => ?_
  rw [hfollow]
  exact Agree.of_eq (fun _ => rfl) rfl

/-- The values of a path are those without a first field with the empty name. -/
theorem stepValues_empty (source : String) (ctx : Context) (root : PathRoot)
    (steps : List (PathStep Node)) :
    AgreeAll EvalError.SameKind
      (Pool.stepValues evaluator source (.layer (.path root (.member "" :: steps))) ctx)
      (Pool.stepValues evaluator source (.layer (.path root steps)) ctx) := by
  simp only [Pool.stepValues, Pool.pathValues]
  cases hsteps : steps with
  | nil => exact .ofOne (resolve_empty source ctx root [] _ _)
  | cons step rest =>
      have hbefore := resolve_empty source ctx root (step :: rest).dropLast
        (firstField (.member "" :: step :: rest)) (firstField (step :: rest))
      rw [List.getLast?_cons_cons, List.dropLast_cons_cons]
      split
      · generalize Pool.resolve evaluator source ctx root (step :: rest).dropLast
          (firstField (step :: rest)) = y at hbefore ⊢
        generalize Pool.resolve evaluator source ctx root
          (.member "" :: (step :: rest).dropLast) (firstField (.member "" :: step :: rest)) = x
          at hbefore ⊢
        cases hbefore with
        | ok value => exact AgreeAll.of_eq (fun _ => rfl) rfl
        | error he => exact .failed he
      · exact .ofExcept (hbefore.map _)
      · exact .ofExcept (hbefore.map _)
      · exact .ofOne (resolve_empty source ctx root (step :: rest) _ _)

/-- A path is evaluated as without a first field with the empty name. -/
theorem alike_path_empty (info : NodeInfo) (root : PathRoot) (steps : List (PathStep Node)) :
    (mk info (.path root (.member "" :: steps))).Alike (mk info (.path root steps)) := by
  have hscalar (ctx : Context) : Agree EvalError.SameKind
      (Pool.stepScalar evaluator info.source (.layer (.path root (.member "" :: steps))) ctx)
      (Pool.stepScalar evaluator info.source (.layer (.path root steps)) ctx) :=
    resolve_empty info.source ctx root steps _ _
  refine ⟨rfl, rfl, fun ctx => ?_, fun ctx => ?_⟩
  · rw [scalar_eq, scalar_eq]
    change Agree _ (Pool.actionScalar _ info.isScalar _ (.layer _) ctx)
      (Pool.actionScalar _ info.isScalar _ (.layer _) ctx)
    unfold Pool.actionScalar
    split
    · exact hscalar ctx
    · exact .error rfl
  · rw [values_eq, values_eq]
    change AgreeAll _ (Pool.actionValues _ info.isScalar _ (.layer _) ctx)
      (Pool.actionValues _ info.isScalar _ (.layer _) ctx)
    unfold Pool.actionValues
    split
    · exact .ofOne (hscalar ctx)
    · exact stepValues_empty info.source ctx root steps

/-! ### Expressions -/

/-- An expression whose elements are kept is evaluated as what is read from its canonical text. -/
theorem alike_reread {n : Node} (h : n.keepsItems = true) : n.Alike n.reread := by
  induction n using Node.induction with
  | step n ih =>
      obtain ⟨info, form⟩ := n
      rw [keepsItems_mk, Bool.and_eq_true, Bool.not_eq_true', List.all_eq_true] at h
      obtain ⟨hcoerces, hparts⟩ := h
      have hlifts : form.Lifts (.same Alike) (form.mapParts reread) :=
        (Form.lifts_mapParts (S := fun (a : Node) b => a.Alike b) fun a ha => ih a ha
          (hparts a ha)).symm
      have hpattern : Pool.patternOf? (mk info form) =
          Pool.patternOf? (mk info (form.mapParts reread)) := by
        cases form <;> rfl
      have hmap : (mk info form).Alike (mk info (form.mapParts reread)) :=
        .of_lifts rfl hpattern hlifts
      -- Reading again does two things more than to the parts: it drops a first field with the
      -- empty name, and it makes elements of what a coerced path yields.
      rw [reread_mk]
      cases form with
      | path root steps =>
          refine hmap.trans ?_
          change (mk info (.path root (steps.map (PathStep.map reread)))).Alike
            (mk info (.path root (rereadFirst (steps.map (PathStep.map reread)))))
          unfold rereadFirst
          split
          · rename_i name rest hsteps
            rw [hsteps]
            split
            · rename_i hempty
              rw [String.isEmpty_iff.mp hempty]
              exact alike_path_empty info root rest
            · exact .refl _
          · exact .refl _
      | map source part | filter source part | sort source part order
      | quantified quantifier op source part =>
          have hsource := rereadSequence_reread hcoerces
          simp only [Form.mapParts, Form.reread, hsource] at hmap ⊢
          exact hmap
      | _ => exact hmap

/-! ### Generators -/

theorem rereadFirst_map {ν μ : Type} (f : ν → μ) (steps : List (PathStep ν)) :
    (rereadFirst steps).map (PathStep.map f) = rereadFirst (steps.map (PathStep.map f)) := by
  cases steps with
  | nil => rfl
  | cons step rest =>
      cases step with
      | member name =>
          simp only [List.map_cons, PathStep.map, rereadFirst]
          split <;> rfl
      | _ => rfl

theorem unsited_rereadSequence (n : Node) :
    n.rereadSequence.unsited = n.unsited.rereadSequence := by
  obtain ⟨info, form⟩ := n
  cases form with
  | path root steps =>
      simp [rereadSequence, unsited_mk, Form.mapParts, Form.eraseSite, PathStep.map_reread]
  | _ => simp only [rereadSequence, unsited_mk]; rfl

/-- Reading again goes with forgetting the offsets of generators. -/
theorem unsited_reread (n : Node) : n.reread.unsited = n.unsited.reread := by
  induction n using Node.induction with
  | step n ih =>
      obtain ⟨info, form⟩ := n
      have hparts : (form.mapParts reread).mapParts unsited =
          (form.mapParts unsited).mapParts reread := by
        rw [Form.mapParts_mapParts, Form.mapParts_mapParts]
        exact Form.mapParts_congr ih
      have hreread (form : Form Node) :
          (form.reread.mapParts unsited).eraseSite = (form.mapParts unsited).eraseSite.reread := by
        cases form with
        | path root steps =>
            simp only [Form.reread, Form.mapParts, Form.eraseSite, rereadFirst_map]
        | map source part | filter source part | sort source part order
        | quantified quantifier op source part =>
            simp only [Form.reread, Form.mapParts, Form.eraseSite, unsited_rereadSequence]
        | _ => rfl
      rw [reread_mk, unsited_mk, unsited_mk, reread_mk, hreread, hparts, mapParts_eraseSite]

theorem isSteady_rereadSequence (n : Node) : n.rereadSequence.isSteady = n.isSteady := by
  obtain ⟨info, form⟩ := n
  cases form with
  | path root steps =>
      simp [rereadSequence, isSteady_mk, Form.children, List.flatMap_map]
  | _ => rfl

/-- No generator comes in when an expression is read again. -/
theorem isSteady_reread (n : Node) : n.reread.isSteady = n.isSteady := by
  induction n using Node.induction with
  | step n ih =>
      obtain ⟨info, form⟩ := n
      have hparts : (form.mapParts reread).children.all isSteady = form.children.all isSteady := by
        rw [Form.children_mapParts, List.all_map, Bool.eq_iff_iff, List.all_eq_true,
          List.all_eq_true]
        exact forall₂_congr fun part hpart => by rw [Function.comp_apply, ih part hpart]
      have hreread (form : Form Node) :
          form.reread.children.all isSteady = form.children.all isSteady := by
        cases form with
        | path root steps =>
            simp only [Form.reread, Form.children, Form.flatMap_children_rereadFirst]
        | map source part | filter source part | sort source part order
        | quantified quantifier op source part =>
            simp only [Form.reread, Form.children, List.all_cons, isSteady_rereadSequence]
        | _ => rfl
      rw [reread_mk, isSteady_mk, isSteady_mk, hreread, hparts]
      cases form <;> rfl

end Node

/-! ### Texts -/

namespace Phrase

/-- A phrase without a token for one has no floating-point number in it. -/
theorem isExact_of_marks {e : Phrase}
    (h : ∀ touching text, Mark.token touching (.double text) ∉ e.marks) :
    e.Everywhere Layer.IsExact := by
  induction e using Phrase.induction with
  | step e ih =>
      have hparts : ∀ part ∈ e.children, part.Everywhere Layer.IsExact := fun part hpart =>
        ih part hpart fun touching text hmem => h touching text (mem_marks hpart hmem)
      obtain ⟨layer⟩ := e
      refine .mk ?_ hparts
      cases layer with
      | number negative isDouble text =>
          cases isDouble with
          | false => rfl
          | true =>
              rw [marks_eq] at h
              cases negative with
              | true => exact absurd (by simp [layer, Layer.marks]) (h true text)
              | false => exact absurd (by simp [layer, Layer.marks]) (h false text)
      | _ => trivial

theorem readsBack_of_isExact {layer : Layer Phrase} (h : layer.IsExact) : layer.ReadsBack := by
  cases layer with
  | number negative isDouble text =>
      cases h
      trivial
  | _ => trivial

/-- A phrase has no floating-point number if the text that it is written as has none. -/
theorem IsTextOf.isExact {code : String} {e : Phrase} (h : IsTextOf code e)
    (hdouble : ∀ s, TokenStream.ofText code = .ok s → ∀ t ∈ s.ahead, t.kind.isDouble = false) :
    e.Everywhere Layer.IsExact := by
  obtain ⟨s, s', hcode, hspells, -⟩ := h.spells
  refine isExact_of_marks fun touching text hmem => ?_
  rcases mem_of_spells hspells hmem with hfinish | ⟨t, ht, hkind⟩
  · have hended : s.finish.kind = .finish := TokenStream.ended_of_text hcode
    rw [hended] at hfinish
    cases hfinish
  · have hkind' := hdouble s hcode t ht
    rw [hkind] at hkind'
    cases hkind'

end Phrase

/-- An expression parsed from a text without floating-point numbers and without generators is
evaluated in every context as what its canonical text (`Node.source`) is parsed into: to the same
values in the same places, and to errors of the same kind where it yields errors. The condition is
that no path of one value has been made a sequence where one is asked for. -/
theorem alike_source {code : String} {scope : Scope} {n m : Node}
    (h : parse code scope .full = .ok n)
    (hdouble : ∀ s, TokenStream.ofText code = .ok s → ∀ t ∈ s.ahead, t.kind.isDouble = false)
    (hsteady : n.isSteady = true) (hitems : n.keepsItems = true)
    (hm : parse n.source scope .full = .ok m) (parameters : Document) (ctx : Context) :
    AgreeAll EvalError.SameKind
      ((Expression.ofNode .instructions n (.pool n.flatten) parameters).execute ctx)
      ((Expression.ofNode .instructions m (.pool m.flatten) parameters).execute ctx) := by
  obtain ⟨e, he⟩ := Phrase.exists_isTextOf h
  have hexact := he.isExact hdouble
  have hfits : e.Restatable False True := he.restatable
    (hexact.imp fun _ => Phrase.readsBack_of_isExact) False.elim fun _ => hexact
  obtain ⟨n', hn', hunsited⟩ := he.exists_node h
  have hsource : n'.source = n.source := by rw [← n'.source_unsited, hunsited, n.source_unsited]
  have hagain := Phrase.again_parse hfits he.isBounds hn' scope
  rw [hsource, hm] at hagain
  have hread : ∃ m', Node.Kept False (scope = scope) True n'.reread m' ∧
      m.unsited = m'.unsited := by
    cases hkeeps : n'.keepsBounds with
    | true =>
        rw [hkeeps] at hagain
        obtain ⟨_, heq, hkept⟩ := hagain
        cases heq
        exact hkept
    | false =>
        rw [hkeeps] at hagain
        cases hagain
  obtain ⟨m', hkept, hm'⟩ := hread
  -- The round trip is about the node of the phrase; `n` is that node but for the offsets of
  -- generators, and an outline has none.
  have houtline : n.reread.outline = m.outline :=
    calc n.reread.outline
        = n.unsited.reread.outline := by rw [← Node.outline_unsited, Node.unsited_reread]
      _ = n'.reread.outline := by rw [← hunsited, ← Node.unsited_reread, Node.outline_unsited]
      _ = m'.outline := (hkept.outline trivial).symm
      _ = m.outline := by rw [← m.outline_unsited, hm', m'.outline_unsited]
  have hsteady' : n.reread.isSteady = true := n.isSteady_reread.trans hsteady
  rw [Expression.execute_pool, Expression.execute_pool]
  exact ((Node.alike_reread hitems).trans (Node.alike_of_outline hsteady' houtline)).values ctx

/-- `MAP` over the elements of a field yields the same sums when it is read again. -/
theorem alike_source_map : ∃ n m, parse "MAP(a[*]=>@.b+1)" .root .full = .ok n ∧
    parse n.source .root .full = .ok m ∧ ∀ parameters ctx, AgreeAll EvalError.SameKind
      ((Expression.ofNode .instructions n (.pool n.flatten) parameters).execute ctx)
      ((Expression.ofNode .instructions m (.pool m.flatten) parameters).execute ctx) := by
  have htokens : ((TokenStream.ofText "MAP(a[*]=>@.b+1)").toOption.map fun s =>
      s.ahead.all fun t => !t.kind.isDouble) = some true := by decide +kernel
  have hparsed : ((parse "MAP(a[*]=>@.b+1)" .root .full).toOption.map fun n =>
      n.isSteady && n.keepsItems && (parse n.source .root .full).toOption.isSome) = some true := by
    decide +kernel
  have hdouble : ∀ s, TokenStream.ofText "MAP(a[*]=>@.b+1)" = .ok s →
      ∀ t ∈ s.ahead, t.kind.isDouble = false := by
    intro s hs t ht
    rw [hs] at htokens
    have hall : (s.ahead.all fun t => !t.kind.isDouble) = true := Option.some.inj htokens
    simpa using List.all_eq_true.mp hall t ht
  cases h : parse "MAP(a[*]=>@.b+1)" .root .full with
  | error e =>
      rw [h] at hparsed
      cases hparsed
  | ok n =>
      rw [h] at hparsed
      have hall : (n.isSteady && n.keepsItems && (parse n.source .root .full).toOption.isSome) =
          true :=
        Option.some.inj hparsed
      rw [Bool.and_eq_true, Bool.and_eq_true] at hall
      obtain ⟨m, hm⟩ := Option.isSome_iff_exists.mp hall.2
      exact ⟨n, m, rfl, Precedence.toOption_eq_some.mp hm,
        alike_source h hdouble hall.1.1 hall.1.2 (Precedence.toOption_eq_some.mp hm)⟩

/-- A field that is no array is a sequence of itself, and read again it has no elements. -/
theorem alike_source_fails : ∃ n m ctx, parse "MAP(a=>@)" .root .full = .ok n ∧
    n.isSteady = true ∧ parse n.source .root .full = .ok m ∧
    ¬ AgreeAll EvalError.SameKind
      ((Expression.ofNode .instructions n (.pool n.flatten) []).execute ctx)
      ((Expression.ofNode .instructions m (.pool m.flatten) []).execute ctx) := by
  have hparsed : ((parse "MAP(a=>@)" .root .full).toOption.bind fun n =>
      (parse n.source .root .full).toOption.map fun m =>
        let ctx := Context.ofDocument (.document [("a", .int32 5)]) [] .binary
            ⟨.ofDate .epoch, fun _ _ => 0⟩
        n.isSteady &&
          ((Expression.ofNode .instructions n (.pool n.flatten) []).execute ctx).length == 1 &&
          ((Expression.ofNode .instructions m (.pool m.flatten) []).execute ctx).length == 0) =
      some true := by
    decide +kernel
  obtain ⟨n, hn, hmap⟩ := Option.bind_eq_some_iff.mp hparsed
  obtain ⟨m, hm, hall⟩ := Option.map_eq_some_iff.mp hmap
  extract_lets ctx at hall
  simp only [Bool.and_eq_true, beq_iff_eq] at hall
  refine ⟨n, m, ctx, Precedence.toOption_eq_some.mp hn, hall.1.1,
    Precedence.toOption_eq_some.mp hm, fun hagree => ?_⟩
  have hlength := hagree.length_eq
  rw [hall.1.2, hall.2] at hlength
  cases hlength

end DocQuery
