import DocQuery.Proofs.Forms
import DocQuery.Proofs.Precedence
/-!
# DocQuery.Proofs.Sites

Expressions without the offsets of their generators. A generator remembers where its call
is written, and nothing else does: two texts that differ in their blanks are parsed into
expressions that are the same once these offsets are erased (`Node.unsited`). Every way to
put nodes together goes with erasing.
-/

namespace DocQuery

namespace Form

variable {ν μ : Type}

/-- The form with the beginning of the text in the place of an offset. -/
def eraseSite : Form ν → Form ν
  | .generate generator _ => .generate generator 0
  | form => form

@[simp] theorem children_eraseSite (form : Form ν) : form.eraseSite.children = form.children := by
  cases form <;> rfl

end Form

namespace Node

/-- The expression without the offsets of its generators. -/
def unsited : Node → Node := fold fun info form => .mk info (form.mapParts Prod.snd).eraseSite

theorem unsited_mk (info : NodeInfo) (form : Form Node) :
    (mk info form).unsited = mk info (form.mapParts unsited).eraseSite := by
  rw [unsited, fold_mk, Form.mapParts_mapParts]

@[simp] theorem info_unsited (n : Node) : n.unsited.info = n.info := by
  obtain ⟨info, form⟩ := n
  rw [unsited_mk]
  rfl

@[simp] theorem isScalar_unsited (n : Node) : n.unsited.isScalar = n.isScalar :=
  congrArg NodeInfo.isScalar n.info_unsited

@[simp] theorem source_unsited (n : Node) : n.unsited.source = n.source :=
  congrArg NodeInfo.source n.info_unsited

@[simp] theorem isParenthesized_unsited (n : Node) :
    n.unsited.isParenthesized = n.isParenthesized := by
  unfold isParenthesized
  rw [source_unsited]

/-- Nodes that differ in offsets alone are scalar or not together. -/
theorem isScalar_eq_of_unsited {n m : Node} (h : n.unsited = m.unsited) :
    n.isScalar = m.isScalar := by
  rw [← isScalar_unsited, h, isScalar_unsited]

/-- They also have one type. -/
theorem type_eq_of_unsited {n m : Node} (h : n.unsited = m.unsited) :
    n.info.type = m.info.type := by
  rw [← info_unsited, h, info_unsited]

/-- What is known of a composed node comes from what is known of its parts. -/
theorem unsited_compose (type : ExprType) (isScalar : Bool) (source : String)
    (form : Form Node) :
    (compose type isScalar source form).unsited =
      compose type isScalar source (form.mapParts unsited).eraseSite := by
  simp only [compose, unsited_mk, Form.children_eraseSite, Form.children_mapParts, List.all_map,
    List.any_map, List.foldl_map, Function.comp_def, info_unsited]

theorem unsited_varying (n : Node) : n.varying.unsited = n.unsited.varying := by
  obtain ⟨info, form⟩ := n
  simp only [varying, unsited_mk]

theorem unsited_reading (fields : Fields) (n : Node) :
    (n.reading fields).unsited = n.unsited.reading fields := by
  obtain ⟨info, form⟩ := n
  simp only [reading, unsited_mk]

theorem unsited_parenthesized (n : Node) : n.parenthesized.unsited = n.unsited.parenthesized := by
  obtain ⟨info, form⟩ := n
  simp only [parenthesized, unsited_mk]

/-- The offset of a generator is forgotten. -/
theorem unsited_generate (generator : Generator) (site : Nat) :
    (generate generator site).unsited = generate generator 0 := by
  rw [generate, unsited_varying, unsited_compose]
  rfl

theorem text_map_unsited (step : PathStep Node) : (step.map unsited).text = step.text := by
  cases step <;> simp [PathStep.map, PathStep.text]

theorem unsited_path (fields : Fields) (root : PathRoot) (steps : List (PathStep Node)) :
    (path fields root steps).unsited = path fields root (steps.map (PathStep.map unsited)) := by
  simp only [path, unsited_reading, unsited_varying, unsited_compose, Form.mapParts,
    Form.eraseSite, List.map_map, List.any_map, Function.comp_def, PathStep.isEnumerable_map,
    text_map_unsited]

theorem unsited_spread (n : Node) : n.spread.unsited = n.unsited.spread := by
  obtain ⟨info, form⟩ := n
  cases form with
  | path root steps =>
      have hparenthesized := (mk info (.path root steps)).isParenthesized_unsited
      rw [unsited_mk] at hparenthesized ⊢
      simp only [Form.mapParts, Form.eraseSite] at hparenthesized ⊢
      simp only [spread, hparenthesized]
      -- The text decides how a path becomes a sequence, and it has no offsets in it.
      split
      · rw [unsited_compose]
        simp only [Form.mapParts, Form.eraseSite, List.map_cons, List.map_nil, unsited_mk]
      · simp only [unsited_mk, Form.mapParts, Form.eraseSite, List.map_append, List.map_cons,
          List.map_nil, PathStep.map]
  | _ =>
      simp only [spread, unsited_compose, Form.mapParts, Form.eraseSite, List.map_cons,
        List.map_nil, unsited_mk]

theorem unsited_gather (n : Node) : n.gather.unsited = n.unsited.gather := by
  simp only [gather, unsited_compose, Form.mapParts, Form.eraseSite, List.map_cons, List.map_nil,
    source_unsited]

theorem unsited_asSequence (n : Node) : n.asSequence.unsited = n.unsited.asSequence := by
  unfold asSequence
  rw [isScalar_unsited]
  split
  · exact n.unsited_spread
  · rfl

theorem unsited_asScalar (n : Node) : n.asScalar.unsited = n.unsited.asScalar := by
  unfold asScalar
  rw [isScalar_unsited]
  split
  · rfl
  · exact n.unsited_gather

theorem unsited_document (entries : List (String × Node)) :
    (document entries).unsited = document (entries.map fun (name, n) => (name, n.unsited)) := by
  simp only [document, unsited_compose, Form.mapParts, Form.eraseSite, List.map_map,
    Function.comp_def, source_unsited]

theorem unsited_array (items : List Node) : (array items).unsited = array (items.map unsited) := by
  simp only [array, unsited_compose, Form.mapParts, Form.eraseSite, List.map_map,
    Function.comp_def, source_unsited]

theorem unsited_map (sequence selector : Node) :
    (map sequence selector).unsited = map sequence.unsited selector.unsited := by
  simp only [map, unsited_compose, Form.mapParts, Form.eraseSite, source_unsited]

theorem unsited_filter (sequence predicate : Node) :
    (filter sequence predicate).unsited = filter sequence.unsited predicate.unsited := by
  simp only [filter, unsited_compose, Form.mapParts, Form.eraseSite, source_unsited]

theorem unsited_sort (sequence key : Node) (order : Option Node) :
    (sort sequence key order).unsited = sort sequence.unsited key.unsited (order.map unsited) := by
  cases order <;>
    simp only [sort, unsited_compose, Form.mapParts, Form.eraseSite, source_unsited,
      Option.map_none, Option.map_some]

theorem unsited_coerce (cardinality : Cardinality) (n : Node) :
    (coerce cardinality n).unsited = coerce cardinality n.unsited := by
  cases cardinality with
  | scalar => exact n.unsited_asScalar
  | sequence => exact n.unsited_asSequence

/-- Arguments are coerced without a look at offsets. -/
theorem unsited_call (function : Builtin) (args : List Node) :
    (call function args).unsited = call function (args.map unsited) := by
  simp only [call, unsited_compose, Form.mapParts, Form.eraseSite, List.map_map,
    Function.comp_def, source_unsited, List.map_zipWith, List.zipWith_map_right, unsited_coerce]

/-- Whether both branches are scalar does not depend on offsets. -/
theorem unsited_conditional (test ifTrue ifFalse : Node) :
    (conditional test ifTrue ifFalse).unsited =
      conditional test.unsited ifTrue.unsited ifFalse.unsited := by
  simp only [conditional, isScalar_unsited]
  split <;>
    simp only [unsited_compose, Form.mapParts, Form.eraseSite, source_unsited, unsited_asSequence]

theorem unsited_bounds (lower upper : Node) :
    (bounds lower upper).unsited = bounds lower.unsited upper.unsited := by
  simp only [bounds, unsited_compose, Form.mapParts, Form.eraseSite, source_unsited, List.map_cons,
    List.map_nil]

theorem unsited_operation (op : Operator) (left right : Node) :
    (operation op left right).unsited = operation op left.unsited right.unsited := by
  cases op <;>
    simp only [operation, unsited_compose, Form.mapParts, Form.eraseSite, source_unsited]

end Node

/-! ### Rows

The reducer looks at how many values a node yields and at its text, and both are the same without
offsets. So it makes the same decisions, in `combine`, in a pass and in all passes. -/

namespace Precedence

open Node (unsited)

/-- The row without the offsets of its generators. -/
def unsitedTail (tail : Tail) : Tail := tail.map fun (op, n) => (op, n.unsited)

/-- Two nodes are joined, or fail to be, whatever their offsets are. -/
theorem combine_unsited (op : Operator) (left right : Node) :
    combine op left.unsited right.unsited = (combine op left right).map unsited := by
  cases op with
  | quantified quantifier op =>
      simp only [combine, pure_bind, Node.isScalar_unsited, Node.source_unsited]
      split
      · exact congrArg Except.ok (by rw [Node.unsited_operation, Node.unsited_asSequence])
      · rfl
  | binary op | logic op =>
      simp only [combine, Node.isScalar_unsited, Node.source_unsited]
      split
      · simp only [pure_bind]
        split
        · exact congrArg Except.ok (Node.unsited_operation ..).symm
        · rfl
      · rfl

theorem pass_unsited (level : Nat) (first : Node) (tail : Tail) :
    pass level first.unsited (unsitedTail tail) =
      (pass level first tail).map fun (n, rest) => (unsited n, unsitedTail rest) := by
  induction tail generalizing first with
  | nil => rfl
  | cons entry rest ih =>
      obtain ⟨op, term⟩ := entry
      simp only [unsitedTail, List.map_cons, pass]
      -- An operator of this level joins its terms; any other is left to a later pass.
      split
      · rw [combine_unsited]
        cases combine op first term with
        | error e => rfl
        | ok n => exact ih n
      · have hrest := ih term
        rw [unsitedTail] at hrest
        rw [hrest]
        cases pass level term rest <;> rfl

theorem passes_unsited (levels : List Nat) (first : Node) (tail : Tail) :
    levels.foldlM (fun (first, tail) level => pass level first tail)
        (first.unsited, unsitedTail tail) =
      (levels.foldlM (fun (first, tail) level => pass level first tail) (first, tail)).map
        fun (n, rest) => (unsited n, unsitedTail rest) := by
  induction levels generalizing first tail with
  | nil => rfl
  | cons level levels ih =>
      simp only [List.foldlM_cons, pass_unsited]
      cases pass level first tail with
      | error e => rfl
      | ok p => exact ih p.1 p.2

/-- A row is reduced to the same node up to offsets, or fails with the same error. -/
theorem reduce_unsited (first : Node) (tail : Tail) :
    reduce first.unsited (unsitedTail tail) = (reduce first tail).map unsited := by
  rw [reduce, passes_unsited, reduce]
  cases (List.range Operator.levels).foldlM (fun (first, tail) level => pass level first tail)
    (first, tail) <;> rfl

end Precedence

end DocQuery
