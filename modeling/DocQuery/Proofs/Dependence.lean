import DocQuery.Proofs.Construction
import DocQuery.Proofs.Outline
import DocQuery.Proofs.Parsed
/-!
# DocQuery.Proofs.Dependence

What the values of an expression depend on. An expression is evaluated in two contexts, and if
every node within it takes the same from both, it has the same values in both
(`Likeness.fixes_of_grounds`). So what is known of an expression can be relied on: one that is
immutable has the same values in all contexts of one collation, and one that does not use the
documents has the same values whatever the documents are (`flags_sound`).
-/

namespace DocQuery

open Pool (origin)

/-! ### Two contexts -/

/-- Contexts in which an expression is compared with itself. -/
structure Likeness where
  alike : Context → Context → Prop
  collation : ∀ {c c'}, alike c c' → c.collation = c'.collation
  withCurrent : ∀ {c c'} (v : Value), alike c c' → alike (c.withCurrent v) (c'.withCurrent v)

namespace Likeness

variable (L : Likeness)

/-- The evaluation of nodes in two contexts side by side. -/
def setting : Setting Node Node where
  left := Node.evaluator
  right := Node.evaluator
  errors := Eq
  contexts := L.alike
  errors_about _ _ := rfl
  contexts_collation := L.collation
  contexts_withCurrent := L.withCurrent

/-- The node takes the same from contexts that are alike. -/
def Grounds (n : Node) : Prop :=
  ∀ c c', L.alike c c' → n.form.Grounded Eq c c' n.form

/-- The node has the same values in contexts that are alike. -/
def Fixes (n : Node) : Prop :=
  ∀ c c', L.alike c c' → n.scalar c = n.scalar c' ∧ n.values c = n.values c'

variable {L}

theorem Fixes.meets {n : Node} (h : L.Fixes n) (one : Bool) : (L.setting.places one).Meets n n := by
  have hscalar : L.setting.ScalarAgree n n := fun c c' hc =>
    Agree.of_eq (fun _ => rfl) (h c c' hc).1
  have hvalues : L.setting.ValuesAgree n n := fun c c' hc =>
    AgreeAll.of_eq (fun _ => rfl) (h c c' hc).2
  refine ⟨hscalar, hvalues, ⟨rfl, fun _ => hscalar, fun _ => hvalues⟩, ?_, hscalar, rfl⟩
  cases one <;> assumption

/-- An expression has the same values in two contexts from which every node in it takes the
same. -/
theorem fixes_of_grounds {n : Node} (h : ∀ m, n.Within m → L.Grounds m) : L.Fixes n := by
  induction n using Node.induction with
  | step n ih =>
      -- Each part has the same values in any two contexts, so the layers are those of one node
      -- with parts that agree; what the node takes itself is `h` at the node.
      have hpart (part : Node) (hpart : part ∈ n.children) : L.Fixes part :=
        ih part hpart fun m hm => h m ((Node.Within.self.part hpart).trans hm)
      have hlifts : n.form.Lifts (.same fun a b => a = b ∧ L.Fixes a) n.form := by
        have hback : (n.form.mapParts fun a => a).Lifts (.same fun b a => a = b ∧ L.Fixes a)
            n.form := Form.lifts_mapParts fun a ha => ⟨rfl, hpart a ha⟩
        rw [Form.mapParts_id] at hback
        exact hback.symm
      have haction : n.action.Lifts (.same fun a b => a = b ∧ L.Fixes a) n.action :=
        Action.lifts_ofForm (fun a b hab => congrArg _ hab.1) hlifts
      have hmeets (one : Bool) : n.action.Lifts (L.setting.places one) n.action := by
        refine haction.of_same ?_
        rintro a _ ⟨rfl, ha⟩
        exact ha.meets one
      intro c c' hc
      have hground : n.action.Grounded Eq c c' n.action :=
        Action.grounded_ofForm _ (h n .self c c' hc)
      constructor
      · rw [Node.scalar_eq, Node.scalar_eq]
        exact Agree.eq_of_agree (L.setting.actionScalar_agree (hmeets _) hc hground fun _ => rfl)
      · rw [Node.values_eq, Node.values_eq]
        exact AgreeAll.eq_of_agreeAll
          (L.setting.actionValues_agree (hmeets _) hc hground fun _ => rfl)

end Likeness

/-! ### What is known of an expression -/

namespace Node

/-- The node calls a generator. -/
def IsGenerator (n : Node) : Prop := ∃ generator site, n.form = .generate generator site

theorem not_isGenerator_of_isSteady {n : Node} (h : n.isSteady = true) :
    ∀ m, n.Within m → ¬ m.IsGenerator := by
  induction n using Node.induction with
  | step n ih =>
      obtain ⟨info, form⟩ := n
      rw [isSteady_mk, Bool.and_eq_true, List.all_eq_true] at h
      refine forall_within.mpr ⟨?_, fun part hpart => ih part hpart (h.2 part hpart)⟩
      rintro ⟨generator, site, rfl⟩
      cases h.1

namespace Built

variable {named : Prop} {n : Node}

/-- Nothing in an immutable expression takes anything from a context. -/
theorem isClosed_of_isImmutable (h : n.Built named) (hn : n.info.isImmutable = true) :
    ∀ m, n.Within m → m.form.isClosed = true := by
  induction h with
  -- whatever takes something from a context is known not to be immutable
  | parameter | documents | generate | shorthand | path => cases hn
  | @compose _ _ _ form hform _ ih =>
      have hparts : form.children.all (·.info.isImmutable) = true := hn
      rw [List.all_eq_true] at hparts
      exact forall_within.mpr ⟨hform, fun part hpart => ih part hpart (hparts part hpart)⟩
  | @parenthesized n _ ih =>
      obtain ⟨info, form⟩ := n
      exact forall_within.mpr (forall_within.mp (ih hn))
  | spread _ ih => cases ih hn _ .self

/-- Nothing in an expression that does not use the documents is the sequence of them. -/
theorem ne_documents_of_usesSource (h : n.Built named) (hn : n.info.usesSource = false) :
    ∀ m, n.Within m → m.form ≠ .documents := by
  induction h with
  | documents => cases hn
  | parameter | generate | shorthand =>
      exact forall_within.mpr ⟨by rintro ⟨⟩, List.forall_mem_nil _⟩
  | @path start scope steps _ _ ih =>
      obtain ⟨fields, steps', heq, hchildren, -⟩ := start.node_eq scope steps
      rw [heq] at hn ⊢
      have hparts : (steps'.flatMap PathStep.children).any (·.info.usesSource) = false := hn
      rw [hchildren, List.any_eq_false] at hparts
      refine forall_within.mpr ⟨by rintro ⟨⟩, fun part hpart => ?_⟩
      have hmem : part ∈ steps.flatMap PathStep.children := hchildren ▸ hpart
      exact ih part hmem (by simpa using hparts part hmem)
  | @compose _ _ _ form hform _ ih =>
      have hparts : form.children.any (·.info.usesSource) = false := hn
      rw [List.any_eq_false] at hparts
      refine forall_within.mpr
        ⟨?_, fun part hpart => ih part hpart (by simpa using hparts part hpart)⟩
      rintro rfl
      cases hform
  | @parenthesized n _ ih =>
      obtain ⟨info, form⟩ := n
      exact forall_within.mpr (forall_within.mp (ih hn))
  | @spread info root steps _ ih =>
      obtain ⟨-, hparts⟩ := forall_within.mp (ih hn)
      refine forall_within.mpr ⟨by rintro ⟨⟩, fun part hpart => hparts part ?_⟩
      simpa [children, Node.form, Form.children, PathStep.children] using hpart

end Built

end Node

/-! ### Which contexts give the same values -/

namespace Likeness

/-- Contexts with the same collation. -/
def collated : Likeness where
  alike c c' := c.collation = c'.collation
  collation h := h
  withCurrent _ h := h

/-- Contexts that differ in nothing but the documents and what generators draw on. -/
def bound : Likeness where
  alike c c' := c.root = c'.root ∧ c.current = c'.current ∧ c.parameters = c'.parameters ∧
    c.collation = c'.collation
  collation h := h.2.2.2
  withCurrent _ h := ⟨h.1, rfl, h.2.2⟩

theorem grounds_of_isClosed {L : Likeness} {n : Node} (h : n.form.isClosed = true) :
    L.Grounds n := by
  obtain ⟨info, form⟩ := n
  intro c c' _
  cases form with
  | parameter | documents | path | generate => cases h
  | _ => trivial

theorem grounds_bound {n : Node} (hdocuments : n.form ≠ .documents) (hsteady : ¬ n.IsGenerator) :
    bound.Grounds n := by
  obtain ⟨info, form⟩ := n
  rintro c c' ⟨hroot, hcurrent, hparameters, -⟩
  cases form with
  | parameter name =>
      change c.parameter name = c'.parameter name
      rw [Context.parameter, Context.parameter, hparameters]
  | documents => exact absurd rfl hdocuments
  | generate generator site => exact absurd ⟨generator, site, rfl⟩ hsteady
  | path root steps =>
      refine Agree.of_eq (fun _ => rfl) ?_
      unfold entrance origin
      rw [hroot, hcurrent]
  | _ => trivial

end Likeness

/-- What is compiled yields the same in two contexts that its node cannot tell apart. -/
theorem Likeness.Fixes.execute {L : Likeness} {backend : Backend} {code : String}
    {options : CompileOptions} {e : Expression}
    (h : Expression.build backend code options = .ok e) (hfixes : L.Fixes e.node) {c c' : Context}
    (hc : L.alike c c') : e.execute c = e.execute c' ∧ e.executeScalar c = e.executeScalar c' := by
  obtain ⟨n, program, hparse, hprogram, rfl⟩ := Expression.exists_of_build h
  have hn := disciplined_of_parse hparse
  obtain ⟨hscalar, hvalues⟩ := hfixes c c' hc
  change n.scalar c = n.scalar c' at hscalar
  change n.values c = n.values c' at hvalues
  constructor
  · rw [Expression.execute_of_build _ _ hn hprogram, Expression.execute_of_build _ _ hn hprogram,
      hvalues]
  · rw [Expression.executeScalar_of_build _ _ hn hprogram,
      Expression.executeScalar_of_build _ _ hn hprogram, hscalar]

/-- What is known of a compiled expression can be relied on, whatever backend it is compiled by.
An immutable one (`isImmutable`) yields the same in any two contexts with the same collation, errors
included. One that does not use the documents (`usesSource`) and calls no generator yields the same
in any two contexts that agree in everything but the documents. -/
theorem flags_sound {backend : Backend} {code : String} {options : CompileOptions} {e : Expression}
    (h : Expression.build backend code options = .ok e) (c c' : Context) :
    (e.node.info.isImmutable = true → c.collation = c'.collation →
      e.execute c = e.execute c' ∧ e.executeScalar c = e.executeScalar c') ∧
    (e.node.info.usesSource = false → e.node.isSteady = true → c.root = c'.root →
      c.current = c'.current → c.parameters = c'.parameters → c.collation = c'.collation →
      e.execute c = e.execute c' ∧ e.executeScalar c = e.executeScalar c') := by
  obtain ⟨n, program, hparse, -, rfl⟩ := Expression.exists_of_build h
  have hbuilt : n.Built False := built_of_parse hparse
  constructor
  · intro himmutable hcollation
    have hfixes : Likeness.collated.Fixes n := Likeness.fixes_of_grounds fun m hm =>
      Likeness.grounds_of_isClosed (hbuilt.isClosed_of_isImmutable himmutable m hm)
    exact hfixes.execute h hcollation
  · intro huses hsteady hroot hcurrent hparameters hcollation
    have hfixes : Likeness.bound.Fixes n := Likeness.fixes_of_grounds fun m hm =>
      Likeness.grounds_bound (hbuilt.ne_documents_of_usesSource huses m hm)
        (Node.not_isGenerator_of_isSteady hsteady m hm)
    exact hfixes.execute h ⟨hroot, hcurrent, hparameters, hcollation⟩

/-- `MAP` over an array that is written out yields the same wherever it is evaluated, and over a
field whatever the documents are. -/
theorem flags_sound_map :
    (∃ e, Expression.build .functions "MAP([1,2]=>3)" {} = .ok e ∧ ∀ c c' : Context,
      c.collation = c'.collation → e.execute c = e.execute c') ∧
    ∃ e, Expression.build .functions "MAP(a=>@.b+1)" {} = .ok e ∧ ∀ c c' : Context,
      c.root = c'.root → c.current = c'.current → c.parameters = c'.parameters →
        c.collation = c'.collation → e.execute c = e.execute c' := by
  have himmutable : ((Expression.build .functions "MAP([1,2]=>3)" {}).toOption.map fun e =>
      e.node.info.isImmutable) = some true := by decide +kernel
  have huses : ((Expression.build .functions "MAP(a=>@.b+1)" {}).toOption.map fun e =>
      !e.node.info.usesSource && e.node.isSteady) = some true := by decide +kernel
  constructor
  · obtain ⟨e, he, hflag⟩ := Option.map_eq_some_iff.mp himmutable
    have hbuild := Precedence.toOption_eq_some.mp he
    exact ⟨e, hbuild, fun c c' hcollation =>
      ((flags_sound hbuild c c').1 hflag hcollation).1⟩
  · obtain ⟨e, he, hflags⟩ := Option.map_eq_some_iff.mp huses
    have hbuild := Precedence.toOption_eq_some.mp he
    rw [Bool.and_eq_true, Bool.not_eq_true'] at hflags
    exact ⟨e, hbuild, fun c c' hroot hcurrent hparameters hcollation =>
      ((flags_sound hbuild c c').2 hflags.1 hflags.2 hroot hcurrent hparameters hcollation).1⟩

end DocQuery
