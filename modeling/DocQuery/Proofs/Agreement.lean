import DocQuery.Pool.Eval
import Mathlib.Data.List.Forall2
/-!
# DocQuery.Proofs.Agreement

When two evaluations agree. Both yield the same value, or both fail with errors that
a relation `K` allows to stand for each other: equality where two evaluators have to
do exactly the same, something coarser where an error may name another text.

Sequences agree place by place (`AgreeAll`). Everything that evaluation does with
values and sequences is a congruence for agreement, and the lemmas here say so, one
for each operation on sequences. Nothing in this module knows about expressions.
-/

namespace DocQuery

/-- Which error may stand for which other one. -/
abbrev ErrorRel := EvalError → EvalError → Prop

/-- Both evaluations yield the same value, or fail with errors that may stand for each
other. -/
inductive Agree (K : ErrorRel) {α : Type} : Except EvalError α → Except EvalError α → Prop where
  | ok (a : α) : Agree K (.ok a) (.ok a)
  | error {e e' : EvalError} (h : K e e') : Agree K (.error e) (.error e')

/-- The sequences have as many places, and what stands in them agrees. -/
abbrev AgreeAll (K : ErrorRel) : Results → Results → Prop := List.Forall₂ (Agree K)

namespace Agree

variable {K : ErrorRel} {α β : Type}

/-! ### Agreement as a relation -/

/-- An evaluation agrees with itself if its own error may stand for itself. -/
theorem refl_of {x : Except EvalError α} (h : ∀ e, x = .error e → K e e) : Agree K x x := by
  cases x with
  | ok a => exact .ok a
  | error e => exact .error (h e rfl)

theorem of_eq {x y : Except EvalError α} (hK : ∀ e, K e e) (h : x = y) : Agree K x y := by
  subst h
  exact refl_of fun e _ => hK e

theorem eq_of_agree {x y : Except EvalError α} (h : Agree Eq x y) : x = y := by
  cases h with
  | ok a => rfl
  | error he => rw [he]

theorem symm (hK : ∀ e e', K e e' → K e' e) {x y : Except EvalError α} (h : Agree K x y) :
    Agree K y x := by
  cases h with
  | ok a => exact .ok a
  | error he => exact .error (hK _ _ he)

theorem trans (hK : ∀ a b c, K a b → K b c → K a c) {x y z : Except EvalError α}
    (h : Agree K x y) (h' : Agree K y z) : Agree K x z := by
  cases h with
  | ok a => exact h'
  | error he =>
      cases h' with
      | error he' => exact .error (hK _ _ _ he he')

/-! ### One value -/

theorem bind {x y : Except EvalError α} {f g : α → Except EvalError β} (h : Agree K x y)
    (hf : ∀ a, Agree K (f a) (g a)) : Agree K (x >>= f) (y >>= g) := by
  cases h with
  | ok a => exact hf a
  | error he => exact .error he

theorem map (f : α → β) {x y : Except EvalError α} (h : Agree K x y) :
    Agree K (x.map f) (y.map f) := by
  cases h with
  | ok a => exact .ok (f a)
  | error he => exact .error he

end Agree

namespace AgreeAll

variable {K : ErrorRel}

/-! ### Sequences -/

theorem eq_of_agreeAll {rs rs' : Results} (h : AgreeAll Eq rs rs') : rs = rs' := by
  induction h with
  | nil => rfl
  | cons hr _ ih => rw [Agree.eq_of_agree hr, ih]

theorem of_eq {rs rs' : Results} (hK : ∀ e, K e e) (h : rs = rs') : AgreeAll K rs rs' := by
  subst h
  exact List.forall₂_same.mpr fun r _ => Agree.of_eq hK rfl

theorem symm (hK : ∀ e e', K e e' → K e' e) {rs rs' : Results} (h : AgreeAll K rs rs') :
    AgreeAll K rs' rs := by
  induction h with
  | nil => exact .nil
  | cons hr _ ih => exact .cons (hr.symm hK) ih

theorem trans (hK : ∀ a b c, K a b → K b c → K a c) {rs rs' rs'' : Results}
    (h : AgreeAll K rs rs') (h' : AgreeAll K rs' rs'') : AgreeAll K rs rs'' := by
  induction h generalizing rs'' with
  | nil => exact h'
  | cons hr _ ih =>
      cases h' with
      | cons hr' hrest => exact .cons (hr.trans hK hr') (ih hrest)

theorem ofValues (values : List Value) : AgreeAll K (Results.ofValues values)
    (Results.ofValues values) := by
  induction values with
  | nil => exact .nil
  | cons v rest ih => exact .cons (.ok v) ih

theorem failed {e e' : EvalError} (h : K e e') :
    AgreeAll K (Results.failed e) (Results.failed e') :=
  .cons (.error h) .nil

theorem ofOne {x y : Except EvalError Value} (h : Agree K x y) :
    AgreeAll K (Results.ofOne x) (Results.ofOne y) :=
  .cons h .nil

theorem ofExcept {x y : Except EvalError (List Value)} (h : Agree K x y) :
    AgreeAll K (Results.ofExcept x) (Results.ofExcept y) := by
  cases h with
  | ok values => exact ofValues values
  | error he => exact failed he

variable {rs rs' : Results}

theorem keep {f g : Value → Except EvalError Value} (h : AgreeAll K rs rs')
    (hf : ∀ v, Agree K (f v) (g v)) : AgreeAll K (rs.keep f) (rs'.keep g) := by
  induction h with
  | nil => exact .nil
  | cons hr _ ih =>
      cases hr with
      | error he => exact .cons (.error he) ih
      | ok v =>
          simp only [Results.keep]
          have hv := hf v
          generalize f v = x, g v = y at hv
          cases hv with
          | error he => exact .cons (.error he) ih
          | ok b =>
              by_cases hb : b.isTrue = true
              · simpa [hb] using List.Forall₂.cons (.ok v) ih
              · simpa [hb] using ih

theorem mapEach {f g : Value → Except EvalError Value} (h : AgreeAll K rs rs')
    (hf : ∀ v, Agree K (f v) (g v)) : AgreeAll K (rs.mapEach f) (rs'.mapEach g) := by
  induction h with
  | nil => exact .nil
  | cons hr _ ih => exact .cons (hr.bind hf) ih

theorem flatMapEach {f g : Value → Results} (h : AgreeAll K rs rs')
    (hf : ∀ v, AgreeAll K (f v) (g v)) : AgreeAll K (rs.flatMapEach f) (rs'.flatMapEach g) := by
  induction h with
  | nil => exact .nil
  | cons hr _ ih =>
      cases hr with
      | ok v => exact List.rel_append (hf v) ih
      | error he => exact .cons (.error he) ih

theorem collect (h : AgreeAll K rs rs') : Agree K rs.collect rs'.collect := by
  induction h with
  | nil => exact .ok []
  | cons hr _ ih =>
      cases hr with
      | ok v => exact ih.map (v :: ·)
      | error he => exact .error he

theorem holds (quantifier : Quantifier) {f g : Value → Except EvalError Bool}
    (h : AgreeAll K rs rs') (hf : ∀ v, Agree K (f v) (g v)) :
    Agree K (quantifier.holds f rs) (quantifier.holds g rs') := by
  induction h with
  | nil => exact .ok _
  | cons hr _ ih =>
      refine hr.bind fun v => (hf v).bind fun matched => ?_
      by_cases hm : quantifier.isDecidedBy matched = true
      · rw [if_pos hm, if_pos hm]
        exact .ok matched
      · rw [if_neg hm, if_neg hm]
        exact ih

theorem withKeys {f g : Value → Except EvalError Value} (h : AgreeAll K rs rs')
    (hf : ∀ v, Agree K (f v) (g v)) : Agree K (rs.withKeys f) (rs'.withKeys g) := by
  induction h with
  | nil => exact .ok []
  | cons hr _ ih =>
      refine hr.bind fun v => (hf v).bind fun k => ?_
      exact ih.bind fun keyed => .ok ((k, v) :: keyed)

theorem sortBy (c : Collation) (descending : Bool) {f g : Value → Except EvalError Value}
    (h : AgreeAll K rs rs') (hf : ∀ v, Agree K (f v) (g v))
    (hsort : ∀ pairs, Agree K (Results.sortPairs c descending pairs)
      (Results.sortPairs c descending pairs)) :
    Agree K (rs.sortBy c descending f) (rs'.sortBy c descending g) :=
  (h.withKeys hf).bind hsort

end AgreeAll

end DocQuery
