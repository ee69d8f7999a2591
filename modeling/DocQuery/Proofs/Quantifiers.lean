import DocQuery.Proofs.Comparisons
/-!
# DocQuery.Proofs.Quantifiers

Comparisons of the elements of a sequence. The first element that fails or decides settles the
result, and what comes behind it does not matter (`Quantifier.holds_append`). Some element is
related to a value just if not every one stands to it in the opposite relation
(`Quantifier.any_holds`), and a sequence of one value is compared as the value is
(`ComparisonOp.scalar_of_combine`). `quantifier_laws` puts this together.
-/

namespace DocQuery

namespace ComparisonOp

/-- The comparison that holds just where this one does not. -/
def opposite? : ComparisonOp → Option ComparisonOp
  | .equal => some .notEqual
  | .notEqual => some .equal
  | .greater => some .lessEqual
  | .lessEqual => some .greater
  | .less => some .greaterEqual
  | .greaterEqual => some .less
  | .like | .between | .isIn => none

end ComparisonOp

/-- A comparison that has an opposite never fails, and of the two just one holds. -/
theorem Comparison.apply_opposite {op opposite : ComparisonOp} (h : op.opposite? = some opposite)
    (c : Collation) (a b : Value) :
    ∃ holds, apply c op a b = .ok holds ∧ apply c opposite a b = .ok (!holds) := by
  cases op with
  | like | between | isIn => cases h
  | equal =>
      cases h
      exact ⟨_, rfl, rfl⟩
  | notEqual =>
      cases h
      exact ⟨_, rfl, by rw [Bool.not_not]; rfl⟩
  | greater | greaterEqual | less | lessEqual =>
      cases h
      refine ⟨_, rfl, congrArg Except.ok ?_⟩
      cases Value.compare c a b <;> rfl

namespace Quantifier

variable (quantifier : Quantifier) (condition : Value → Except EvalError Bool)

/-- The element fails, or its result decides that of the sequence. -/
def settles (element : Except EvalError Value) : Bool :=
  match element >>= condition with
  | .ok matched => quantifier.isDecidedBy matched
  | .error _ => true

/-- An element that settles the result is the result; any other one is passed over. -/
theorem holds_cons (element : Except EvalError Value) (rest : Results) :
    quantifier.holds condition (element :: rest) =
      if quantifier.settles condition element then element >>= condition
      else quantifier.holds condition rest := by
  rw [holds, settles]
  cases element with
  | error e => rfl
  | ok value =>
      change (condition value >>= fun matched => if quantifier.isDecidedBy matched then
        return matched else quantifier.holds condition rest) = if (match condition value with
          | .ok matched => quantifier.isDecidedBy matched
          | .error _ => true) then condition value else quantifier.holds condition rest
      cases condition value with
      | error e => rfl
      | ok matched => rfl

/-- The first element that settles the result is the result, whatever comes behind it. -/
theorem holds_append {before : Results} {element : Except EvalError Value} (later : Results)
    (hbefore : ∀ passed ∈ before, quantifier.settles condition passed = false)
    (h : quantifier.settles condition element = true) :
    quantifier.holds condition (before ++ element :: later) = element >>= condition := by
  induction before with
  | nil => rw [List.nil_append, holds_cons, if_pos h]
  | cons passed before ih =>
      obtain ⟨hpassed, hbefore⟩ := List.forall_mem_cons.mp hbefore
      rw [List.cons_append, holds_cons, hpassed, if_neg Bool.false_ne_true, ih hbefore]

variable {condition}

/-- Some element satisfies a condition just if not all satisfy the opposite one. -/
theorem any_holds {opposite : Value → Except EvalError Bool}
    (h : ∀ value, opposite value = (condition value).map (!·)) (elements : Results) :
    any.holds condition elements = (all.holds opposite elements).map (!·) := by
  induction elements with
  | nil => rfl
  | cons element rest ih =>
      cases element with
      | error e => rfl
      | ok value =>
          rw [holds, holds]
          change (condition value >>= _) = (opposite value >>= _).map (!·)
          rw [h]
          cases condition value with
          | error e => rfl
          | ok matched =>
              cases matched with
              | true => rfl
              | false => exact ih

/-- One value satisfies a condition, whatever the quantifier is. -/
theorem holds_one (value : Value) :
    quantifier.holds condition (.ofValues [value]) = condition value := by
  rw [Results.ofValues, List.map_singleton, holds_cons, settles]
  change (if (match condition value with
    | .ok matched => quantifier.isDecidedBy matched
    | .error _ => true) then condition value else _) = _
  cases condition value with
  | error e => rfl
  | ok matched => cases quantifier <;> cases matched <;> rfl

/-- Where nothing fails, the quantifiers are those on the values. -/
theorem holds_ofValues {test : Value → Bool} (h : ∀ value, condition value = .ok (test value))
    (values : List Value) :
    any.holds condition (.ofValues values) = .ok (values.any test) ∧
      all.holds condition (.ofValues values) = .ok (values.all test) := by
  induction values with
  | nil => exact ⟨rfl, rfl⟩
  | cons value rest ih =>
      obtain ⟨hany, hall⟩ := ih
      rw [Results.ofValues, List.map_cons, ← Results.ofValues, holds_cons, holds_cons, hany, hall]
      have hvalue : (Except.ok value >>= condition) = .ok (test value) := h value
      rw [settles, settles, hvalue, List.any_cons, List.all_cons]
      cases test value <;> exact ⟨rfl, rfl⟩

end Quantifier

/-! ### Quantified comparisons of one value -/

namespace ComparisonOp

/-- The operator that compares what is on its left, or as many elements of it as a quantifier asks
for. -/
def joining (op : ComparisonOp) : Option Quantifier → Operator
  | none => .binary (.comparison op)
  | some quantifier => .quantified quantifier op

/-- One value that is not taken as several is compared alike with a quantifier and without one. -/
theorem scalar_of_combine {op : ComparisonOp} {quantifier : Option Quantifier}
    {left right n : Node} (h : Precedence.combine (op.joining quantifier) left right = .ok n)
    (hl : left.isScalar = true) {ctx : Context} {a b : Value} (ha : left.scalar ctx = .ok a)
    (hspread : a.isSpread = false) (hb : right.scalar ctx = .ok b) :
    n.scalar ctx = (Comparison.apply ctx.collation op a b).map Value.boolean := by
  obtain ⟨-, hr, rfl⟩ := Precedence.combine_eq_ok.mp h
  cases quantifier with
  | none =>
      have htaken : Precedence.takenLeft (op.joining none) left = left := rfl
      rw [Node.scalar_comparison rfl rfl hr, htaken, ha, hb]
      rfl
  | some quantifier =>
      rw [Node.scalar_quantified rfl rfl hr, joining, Precedence.takenLeft,
        Node.values_asSequence hl ha, Value.spread_eq_self hspread, hb]
      exact congrArg (Except.map Value.boolean) (quantifier.holds_one a)

end ComparisonOp

/-- `ANY` and `ALL` are dual: some element is related to a value just if not every one stands to it
in the opposite relation. The first element that fails or decides is the result; where nothing
fails, the quantifiers are those on the values. And one value that is not taken as several is
compared alike with `ANY`, with `ALL` and with neither. -/
theorem quantifier_laws {op opposite : ComparisonOp} (h : op.opposite? = some opposite) :
    (∀ c right items, Quantifier.any.holds (fun left => Comparison.apply c op left right) items =
      (Quantifier.all.holds (fun left => Comparison.apply c opposite left right) items).map (!·)) ∧
    (∀ (quantifier : Quantifier) c right before item later,
      (∀ passed ∈ before,
        quantifier.settles (fun left => Comparison.apply c op left right) passed = false) →
      quantifier.settles (fun left => Comparison.apply c op left right) item = true →
      quantifier.holds (fun left => Comparison.apply c op left right) (before ++ item :: later) =
        item >>= fun left => Comparison.apply c op left right) ∧
    (∀ c right values, ∃ some every : Bool,
      Quantifier.any.holds (fun left => Comparison.apply c op left right) (.ofValues values) =
        .ok some ∧
      (some = true ↔ ∃ left ∈ values, Comparison.apply c op left right = .ok true) ∧
      Quantifier.all.holds (fun left => Comparison.apply c op left right) (.ofValues values) =
        .ok every ∧
      (every = true ↔ ∀ left ∈ values, Comparison.apply c op left right = .ok true)) ∧
    ∀ left right : Node, left.Disciplined → right.Disciplined → left.isScalar = true →
      right.isScalar = true → ∀ (compared : ComparisonOp) (quantifier : Option Quantifier),
      ∃ n, Precedence.combine (compared.joining quantifier) left right = .ok n ∧
        ∀ (backend : Backend) l r, backend.build left = .ok l → backend.build right = .ok r →
          ∃ program, backend.build n = .ok program ∧ ∀ parameters ctx a b,
            (Expression.ofNode backend left l parameters).execute ctx = [.ok a] →
            a.isSpread = false →
            (Expression.ofNode backend right r parameters).execute ctx = [.ok b] →
            (Expression.ofNode backend n program parameters).execute ctx =
              [(Comparison.apply ctx.collation compared a b).map Value.boolean] := by
  refine ⟨fun c right items => ?_, fun quantifier c right before item later hbefore hitem => ?_,
    fun c right values => ?_, fun left right hl hr hlscalar hrscalar compared quantifier => ?_⟩
  · refine Quantifier.any_holds (fun left => ?_) items
    obtain ⟨holds, hop, hopposite⟩ := Comparison.apply_opposite h c left right
    rw [hop, hopposite]
    rfl
  · exact quantifier.holds_append _ later hbefore hitem
  · -- A comparison that has an opposite never fails on values, so it is a test.
    choose test htest _ using fun left => Comparison.apply_opposite h c left right
    obtain ⟨hany, hall⟩ := Quantifier.holds_ofValues htest values
    refine ⟨_, _, hany, ?_, hall, ?_⟩
    · simp [htest]
    · simp [htest]
  · -- Three programs that yield one value each; the node itself compares the two values.
    have hcombine : Precedence.combine (compared.joining quantifier) left right = .ok _ :=
      Precedence.combine_eq_ok.mpr ⟨fun _ => hlscalar, hrscalar, rfl⟩
    refine ⟨_, hcombine, fun backend l r hlbuild hrbuild => ?_⟩
    obtain ⟨program, hprogram⟩ := Backend.build_combine hl hr hcombine hlbuild hrbuild
    refine ⟨program, hprogram, fun parameters ctx a b ha hspread hb => ?_⟩
    rw [Expression.execute_one hl hlscalar hlbuild] at ha
    rw [Expression.execute_one hr hrscalar hrbuild] at hb
    rw [Expression.execute_one (hl.combine hr hcombine) (Node.isScalar_of_combine hcombine)
      hprogram, ComparisonOp.scalar_of_combine hcombine hlscalar (List.singleton_inj.mp ha) hspread
      (List.singleton_inj.mp hb)]

/-- An element that is greater decides for `ANY >` and against `ALL <=`, so the error behind it does
not show; and a field that is one number is compared alike with `ANY` and without it. -/
theorem quantifier_laws_greater :
    let greater (left : Value) := Comparison.apply .binary .greater left (.int32 3)
    let elements : Results := [.ok (.int32 1), .ok (.int32 5), .error .zeroDivision]
    let ctx := Context.ofDocument (.document [("a", .int32 5)]) [] .binary
      ⟨.ofDate .epoch, fun _ _ => 0⟩
    Quantifier.any.holds greater elements = .ok true ∧
    (Quantifier.all.holds (fun left => Comparison.apply .binary .lessEqual left (.int32 3))
      elements).map (!·) = .ok true ∧
    Quantifier.all.holds greater (.ofValues [.int32 4, .int32 5]) = .ok true ∧
    ∀ quantifier, ∃ n, Precedence.combine (ComparisonOp.greater.joining quantifier)
        (.shorthand "a") (.int32 3) = .ok n ∧
      ∃ program, Backend.functions.build n = .ok program ∧
        (Expression.ofNode .functions n program []).execute ctx = [.ok (.boolean true)] := by
  intro greater elements ctx
  have hopposite : ComparisonOp.greater.opposite? = some .lessEqual := rfl
  obtain ⟨hdual, hprefix, hvalues, hone⟩ := quantifier_laws hopposite
  have hany : Quantifier.any.holds greater elements = .ok true :=
    hprefix .any .binary (.int32 3) [.ok (.int32 1)] (.ok (.int32 5)) [.error .zeroDivision]
      (List.forall_mem_singleton.mpr rfl) rfl
  refine ⟨hany, (hdual .binary (.int32 3) elements).symm.trans hany, ?_, fun quantifier => ?_⟩
  · obtain ⟨-, every, -, -, hall, hiff⟩ := hvalues .binary (.int32 3) [.int32 4, .int32 5]
    rw [hall, hiff.mpr (by simp [Comparison.apply]; decide)]
  · obtain ⟨n, hn, hexecute⟩ := hone (.shorthand "a") (.int32 3) (.shorthand "a")
      (.constant _ _ _) rfl rfl .greater quantifier
    obtain ⟨program, hprogram, hexecute⟩ := hexecute .functions _ _ rfl rfl
    exact ⟨n, hn, program, hprogram, hexecute [] ctx (.int32 5) (.int32 3) rfl rfl rfl⟩

end DocQuery
