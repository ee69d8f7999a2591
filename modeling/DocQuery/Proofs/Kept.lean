import DocQuery.Proofs.Restating
/-!
# DocQuery.Proofs.Kept

What an expression keeps when it is read from its canonical text: what is known of it, and its
outline. `Node.Kept` relates an expression and what has been read, and it is a congruence:
nodes that are put together from parts that are kept are kept themselves.

Some of it is kept on a condition only: the text and the fields if no field has the empty
name, the fields if the scope is the same, and the outline if there are no floating-point
numbers, whose text leaves digits out.
-/

namespace DocQuery

namespace Node

/-- The node is a path that another step can be written behind. -/
def isOpenPath (n : Node) : Bool :=
  match n.form with
  | .path _ _ => !n.isParenthesized
  | _ => false

/-- Reading a node again opens and closes no path. -/
theorem isOpenPath_reread (n : Node) : n.reread.isOpenPath = n.isOpenPath := by
  have hparenthesized := n.isParenthesized_reread
  obtain ⟨info, form⟩ := n
  unfold isOpenPath
  rw [hparenthesized, reread_mk]
  cases form <;> rfl

/-- Behind parentheses a path does not go on. -/
theorem isOpenPath_parenthesized (n : Node) : n.parenthesized.isOpenPath = false := by
  obtain ⟨info, form⟩ := n
  have hhead : (mk info form).parenthesized.isParenthesized = true := by
    simp [isParenthesized, Node.source, Node.parenthesized, Node.info, String.toList_append]
  unfold isOpenPath
  rw [hhead]
  -- Whatever the form is, the text begins with a parenthesis.
  split <;> rfl

/-- What stands for `a` has been read as `b`. -/
structure Kept (named same exact : Prop) (a b : Node) : Prop where
  type : b.info.type = a.info.type
  isScalar : b.isScalar = a.isScalar
  isImmutable : b.info.isImmutable = a.info.isImmutable
  usesSource : b.info.usesSource = a.info.usesSource
  isOpenPath : b.isOpenPath = a.isOpenPath
  source : named → b.source = a.source
  fields : named → same → b.info.fields = a.info.fields
  outline : exact → b.outline = a.outline

namespace Kept

variable {named same exact : Prop} {a b : Node}

theorem refl (a : Node) : Kept named same exact a a :=
  ⟨rfl, rfl, rfl, rfl, rfl, fun _ => rfl, fun _ _ => rfl, fun _ => rfl⟩

theorem mono {named' same' exact' : Prop} (hnamed : named' → named) (hsame : same' → same)
    (hexact : exact' → exact) (h : Kept named same exact a b) : Kept named' same' exact' a b :=
  ⟨h.type, h.isScalar, h.isImmutable, h.usesSource, h.isOpenPath, fun hn => h.source (hnamed hn),
    fun hn hs => h.fields (hnamed hn) (hsame hs), fun he => h.outline (hexact he)⟩

/-! ### Parts in a row

What a list of parts contributes to the node above it is kept entry by entry: texts and outlines on
their conditions, the two flags always, and fields in the same order. -/

section

variable {parts parts' : List Node} (h : List.Forall₂ (Kept named same exact) parts parts')

include h

theorem map_source (hnamed : named) : parts'.map Node.source = parts.map Node.source := by
  induction h with
  | nil => rfl
  | cons hpart _ ih => rw [List.map_cons, List.map_cons, hpart.source hnamed, ih]

theorem map_outline (hexact : exact) : parts'.map Node.outline = parts.map Node.outline := by
  induction h with
  | nil => rfl
  | cons hpart _ ih => rw [List.map_cons, List.map_cons, hpart.outline hexact, ih]

theorem all_isImmutable :
    parts'.all (·.info.isImmutable) = parts.all (·.info.isImmutable) := by
  induction h with
  | nil => rfl
  | cons hpart _ ih => rw [List.all_cons, List.all_cons, hpart.isImmutable, ih]

theorem any_usesSource : parts'.any (·.info.usesSource) = parts.any (·.info.usesSource) := by
  induction h with
  | nil => rfl
  | cons hpart _ ih => rw [List.any_cons, List.any_cons, hpart.usesSource, ih]

theorem foldl_fields (hnamed : named) (hsame : same) (fields : Fields) :
    parts'.foldl (fun fields part => fields.union part.info.fields) fields =
      parts.foldl (fun fields part => fields.union part.info.fields) fields := by
  induction h generalizing fields with
  | nil => rfl
  | cons hpart _ ih => rw [List.foldl_cons, List.foldl_cons, hpart.fields hnamed hsame, ih]

end

/-! ### Composed nodes -/

/-- A composed node is kept if its parts and its layer are. -/
theorem compose {type : ExprType} {isScalar : Bool} {source source' : String}
    {form form' : Form Node}
    (hparts : List.Forall₂ (Kept named same exact) form.children form'.children)
    (hsource : named → source' = source)
    (hopen : (Node.compose type isScalar source' form').isOpenPath =
      (Node.compose type isScalar source form).isOpenPath)
    (hform : exact → (form'.mapParts Node.outline).eraseSite =
      (form.mapParts Node.outline).eraseSite) :
    Kept named same exact (Node.compose type isScalar source form)
      (Node.compose type isScalar source' form') where
  type := rfl
  isScalar := rfl
  isImmutable := all_isImmutable hparts
  usesSource := any_usesSource hparts
  isOpenPath := hopen
  source := hsource
  fields hnamed hsame := foldl_fields hparts hnamed hsame _
  -- The outline of a node forgets what is known of it, so only its layer has to be looked at.
  outline hexact := by
    simp only [Node.compose, outline_mk, hform hexact]
    rfl

/-- A node that may give another result each time is kept as such. -/
theorem varying (h : Kept named same exact a b) : Kept named same exact a.varying b.varying := by
  obtain ⟨info, form⟩ := a
  obtain ⟨info', form'⟩ := b
  refine ⟨h.type, h.isScalar, rfl, h.usesSource, h.isOpenPath, h.source, h.fields, fun hexact => ?_⟩
  have houtline := h.outline hexact
  simp only [outline_mk] at houtline
  simp only [Node.varying, outline_mk]
  exact houtline

theorem parenthesized (h : Kept named same exact a b) :
    Kept named same exact a.parenthesized b.parenthesized := by
  have hopen : b.parenthesized.isOpenPath = a.parenthesized.isOpenPath := by
    rw [isOpenPath_parenthesized, isOpenPath_parenthesized]
  obtain ⟨info, form⟩ := a
  obtain ⟨info', form'⟩ := b
  refine ⟨h.type, h.isScalar, h.isImmutable, h.usesSource, hopen, ?_, h.fields, ?_⟩
  · intro hnamed
    have hinfo : info'.source = info.source := h.source hnamed
    change "(" ++ info'.source ++ ")" = "(" ++ info.source ++ ")"
    rw [hinfo]
  · intro hexact
    have houtline := h.outline hexact
    simp only [outline_mk] at houtline
    simp only [Node.parenthesized, outline_mk]
    exact houtline

/-- The array of the elements of a sequence is kept with the sequence. -/
theorem gather (h : Kept named same exact a b) : Kept named same exact a.gather b.gather := by
  refine compose (.cons h .nil) (fun hnamed => ?_) rfl fun hexact => ?_
  · rw [h.source hnamed]
  · simp only [Form.mapParts, List.map_cons, List.map_nil, h.outline hexact]

theorem asScalar (h : Kept named same exact a b) :
    Kept named same exact a.asScalar b.asScalar := by
  unfold Node.asScalar
  rw [h.isScalar]
  -- Both nodes are scalar or neither is, so both are gathered or neither is.
  split
  · exact h
  · exact h.gather

end Kept

/-! ### Coercion to a sequence -/

/-- The path with a step behind it that yields any number of values. -/
def widened (step : PathStep Node) : Node → Node
  | .mk info (.path root steps) =>
    .mk { info with isScalar := false, source := info.source ++ "[*]" }
      (.path root (steps ++ [step]))
  | n => n

/-- The call that takes the elements of one value. -/
def itemsCall (n : Node) : Node :=
  compose .call false ("ITEMS(" ++ n.source ++ ")") (.call .items [n])

theorem reread_itemsCall (n : Node) : n.itemsCall.reread = n.reread.itemsCall := by
  simp only [itemsCall, reread_compose, Form.mapParts, Form.reread, List.map_cons, List.map_nil,
    source_reread]

/-- A path that can go on becomes a sequence by another step. -/
theorem spread_of_isOpenPath {n : Node} (h : n.isOpenPath = true) :
    n.spread = n.widened .items := by
  obtain ⟨info, form⟩ := n
  cases form with
  | path root steps =>
      have hopen : (mk info (.path root steps)).isParenthesized = false := by
        simpa [isOpenPath, form] using h
      simp only [spread, hopen]
      rfl
  | _ => cases h

/-- Any other value becomes a sequence by a call. -/
theorem spread_of_not_isOpenPath {n : Node} (h : n.isOpenPath = false) :
    n.spread = n.itemsCall := by
  obtain ⟨info, form⟩ := n
  cases form with
  | path root steps =>
      have hclosed : (mk info (.path root steps)).isParenthesized = true := by
        simpa [isOpenPath, form] using h
      simp only [spread, hclosed, if_true]
      rfl
  | _ => rfl

theorem exists_of_isOpenPath {n : Node} (h : n.isOpenPath = true) :
    ∃ info root steps, n = mk info (.path root steps) := by
  obtain ⟨info, form⟩ := n
  cases form with
  | path root steps => exact ⟨info, root, steps, rfl⟩
  | _ => cases h

/-- An open path keeps being one when a step is written behind it. -/
theorem isOpenPath_widened {n : Node} (h : n.isOpenPath = true) (step : PathStep Node) :
    (n.widened step).isOpenPath = true := by
  obtain ⟨info, root, steps, rfl⟩ := exists_of_isOpenPath h
  have hopen : (info.source.toList.head? == some '(') = false := by
    simpa [isOpenPath, form, isParenthesized, Node.source, Node.info] using h
  -- A step is written behind a path, so the text begins as before.
  have hhead : ((info.source ++ "[*]").toList.head? == some '(') = false := by
    rw [String.toList_append]
    cases hchars : info.source.toList with
    | nil => rfl
    | cons c rest =>
        rw [hchars] at hopen
        exact hopen
  unfold widened isOpenPath isParenthesized
  rw [Node.source, Node.info, hhead]
  rfl

namespace Kept

variable {named same exact : Prop} {a b : Node}

theorem itemsCall (h : Kept named same exact a b) :
    Kept named same exact a.itemsCall b.itemsCall := by
  refine compose (.cons h .nil) (fun hnamed => ?_) rfl fun hexact => ?_
  · rw [h.source hnamed]
  · simp only [Form.mapParts, List.map_cons, List.map_nil, h.outline hexact]

theorem widened (h : Kept named same exact a b) (hopen : a.isOpenPath = true)
    (step : PathStep Node) :
    Kept named same exact (a.widened step) (b.widened step) := by
  have hopen' : b.isOpenPath = true := h.isOpenPath.trans hopen
  have hboth : (b.widened step).isOpenPath = (a.widened step).isOpenPath := by
    rw [isOpenPath_widened hopen, isOpenPath_widened hopen']
  -- Both nodes are paths, and each of them gets the same step behind its own.
  obtain ⟨info, root, steps, rfl⟩ := exists_of_isOpenPath hopen
  obtain ⟨info', root', steps', rfl⟩ := exists_of_isOpenPath hopen'
  refine ⟨h.type, rfl, h.isImmutable, h.usesSource, hboth, ?_, h.fields, ?_⟩
  · intro hnamed
    have hinfo : info'.source = info.source := h.source hnamed
    change info'.source ++ "[*]" = info.source ++ "[*]"
    rw [hinfo]
  · intro hexact
    have houtline := h.outline hexact
    simp only [outline_mk, Form.mapParts, Form.eraseSite, mk.injEq, Form.path.injEq] at houtline
    simp only [Node.widened, outline_mk, Form.mapParts, Form.eraseSite, List.map_append,
      houtline.2.1, houtline.2.2]
    rfl

/-- A scalar that becomes a sequence is kept, since a path is one that can go on if what it was read
from is. -/
theorem spread (h : Kept named same exact a b) : Kept named same exact a.spread b.spread := by
  cases hopen : a.isOpenPath with
  | true =>
      rw [spread_of_isOpenPath hopen, spread_of_isOpenPath (h.isOpenPath.trans hopen)]
      exact h.widened hopen _
  | false =>
      rw [spread_of_not_isOpenPath hopen, spread_of_not_isOpenPath (h.isOpenPath.trans hopen)]
      exact h.itemsCall

theorem asSequence (h : Kept named same exact a b) :
    Kept named same exact a.asSequence b.asSequence := by
  unfold Node.asSequence
  rw [h.isScalar]
  split
  · exact h.spread
  · exact h

theorem coerce (cardinality : Cardinality) (h : Kept named same exact a b) :
    Kept named same exact (Node.coerce cardinality a) (Node.coerce cardinality b) := by
  cases cardinality with
  | scalar => exact h.asScalar
  | sequence => exact h.asSequence

/-! ### Composed nodes -/

variable {a₁ a₂ a₃ b₁ b₂ b₃ : Node}

theorem array {items items' : List Node}
    (h : List.Forall₂ (Kept named same exact) items items') :
    Kept named same exact (Node.array items) (Node.array items') := by
  refine compose h (fun hnamed => ?_) rfl fun hexact => ?_
  · rw [map_source h hnamed]
  · simp only [Form.mapParts, map_outline h hexact]

/-- The texts of entries are made of the texts of their names and of their values. -/
theorem map_entry_text (entries : List (String × Node)) :
    entries.map (fun (name, part) => keyText name ++ ":" ++ part.source) =
      List.zipWith (fun name source => keyText name ++ ":" ++ source)
        (entries.map Prod.fst) ((entries.map Prod.snd).map Node.source) := by
  simp [List.zipWith_map, List.zipWith_self]

/-- The outlines of entries are made of their names and of the outlines of their values. -/
theorem map_entry_outline (entries : List (String × Node)) :
    entries.map (fun (name, part) => (name, part.outline)) =
      (entries.map Prod.fst).zip ((entries.map Prod.snd).map Node.outline) := by
  rw [List.map_map, List.zip_map', List.map_inj_left]
  exact fun _ _ => rfl

theorem document {entries entries' : List (String × Node)}
    (hnames : entries'.map Prod.fst = entries.map Prod.fst)
    (h : List.Forall₂ (Kept named same exact) (entries.map Prod.snd) (entries'.map Prod.snd)) :
    Kept named same exact (Node.document entries) (Node.document entries') := by
  refine compose h (fun hnamed => ?_) rfl fun hexact => ?_
  · rw [map_entry_text, map_entry_text, hnames, map_source h hnamed]
  · simp only [Form.mapParts, map_entry_outline, hnames, map_outline h hexact]

theorem map (h₁ : Kept named same exact a₁ b₁) (h₂ : Kept named same exact a₂ b₂) :
    Kept named same exact (Node.map a₁ a₂) (Node.map b₁ b₂) := by
  refine compose (.cons h₁ (.cons h₂ .nil)) (fun hnamed => ?_) rfl fun hexact => ?_
  · rw [h₁.source hnamed, h₂.source hnamed]
  · simp only [Form.mapParts, h₁.outline hexact, h₂.outline hexact]

theorem filter (h₁ : Kept named same exact a₁ b₁) (h₂ : Kept named same exact a₂ b₂) :
    Kept named same exact (Node.filter a₁ a₂) (Node.filter b₁ b₂) := by
  refine compose (.cons h₁ (.cons h₂ .nil)) (fun hnamed => ?_) rfl fun hexact => ?_
  · rw [h₁.source hnamed, h₂.source hnamed]
  · simp only [Form.mapParts, h₁.outline hexact, h₂.outline hexact]

/-- The key is always there, the order may be; it is there in both nodes or in neither. -/
theorem sort {order order' : Option Node} (h₁ : Kept named same exact a₁ b₁)
    (h₂ : Kept named same exact a₂ b₂) (h₃ : Option.Rel (Kept named same exact) order order') :
    Kept named same exact (Node.sort a₁ a₂ order) (Node.sort b₁ b₂ order') := by
  cases h₃ with
  | none =>
      refine compose (.cons h₁ (.cons h₂ .nil)) (fun hnamed => ?_) rfl fun hexact => ?_
      · rw [h₁.source hnamed, h₂.source hnamed]
      · simp only [Form.mapParts, h₁.outline hexact, h₂.outline hexact, Option.map_none]
  | some h₃ =>
      refine compose (.cons h₁ (.cons h₂ (.cons h₃ .nil))) (fun hnamed => ?_) rfl fun hexact => ?_
      · simp only [h₁.source hnamed, h₂.source hnamed, h₃.source hnamed]
      · simp only [Form.mapParts, h₁.outline hexact, h₂.outline hexact, h₃.outline hexact,
          Option.map_some]

/-- Arguments are kept when they are made scalars or sequences as the parameters ask, one by one. -/
theorem zipWith_coerce {params : List Cardinality} {args args' : List Node}
    (h : List.Forall₂ (Kept named same exact) args args') :
    List.Forall₂ (Kept named same exact) (List.zipWith Node.coerce params args)
      (List.zipWith Node.coerce params args') := by
  induction h generalizing params with
  | nil => cases params <;> exact .nil
  | cons harg _ ih =>
      cases params with
      | nil => exact .nil
      | cons cardinality params => exact .cons (harg.coerce cardinality) ih

theorem call (function : Builtin) {args args' : List Node}
    (h : List.Forall₂ (Kept named same exact) args args') :
    Kept named same exact (Node.call function args) (Node.call function args') := by
  refine compose (zipWith_coerce h) (fun hnamed => ?_) rfl fun hexact => ?_
  · rw [map_source h hnamed]
  · simp only [Form.mapParts, map_outline (zipWith_coerce h) hexact]

/-- Generators of the same name are kept, wherever they are called. -/
theorem generate (generator : Generator) (site site' : Nat) :
    Kept named same exact (Node.generate generator site) (Node.generate generator site') := by
  refine varying (compose .nil (fun _ => rfl) rfl fun _ => ?_)
  rfl

theorem conditional (h₁ : Kept named same exact a₁ b₁) (h₂ : Kept named same exact a₂ b₂)
    (h₃ : Kept named same exact a₃ b₃) :
    Kept named same exact (Node.conditional a₁ a₂ a₃) (Node.conditional b₁ b₂ b₃) := by
  have hsource (hnamed : named) :
      "IIF(" ++ b₁.source ++ "," ++ b₂.source ++ "," ++ b₃.source ++ ")" =
        "IIF(" ++ a₁.source ++ "," ++ a₂.source ++ "," ++ a₃.source ++ ")" := by
    rw [h₁.source hnamed, h₂.source hnamed, h₃.source hnamed]
  unfold Node.conditional
  rw [h₂.isScalar, h₃.isScalar]
  split
  · refine compose (.cons h₁ (.cons h₂ (.cons h₃ .nil))) hsource rfl fun hexact => ?_
    simp only [Form.mapParts, h₁.outline hexact, h₂.outline hexact, h₃.outline hexact]
  · refine compose (.cons h₁ (.cons h₂.asSequence (.cons h₃.asSequence .nil))) hsource rfl
      fun hexact => ?_
    simp only [Form.mapParts, h₁.outline hexact, h₂.asSequence.outline hexact,
      h₃.asSequence.outline hexact]

theorem bounds (h₁ : Kept named same exact a₁ b₁) (h₂ : Kept named same exact a₂ b₂) :
    Kept named same exact (Node.bounds a₁ a₂) (Node.bounds b₁ b₂) := by
  refine compose (.cons h₁ (.cons h₂ .nil)) (fun hnamed => ?_) rfl fun hexact => ?_
  · rw [h₁.source hnamed, h₂.source hnamed]
  · simp only [Form.mapParts, List.map_cons, List.map_nil, h₁.outline hexact, h₂.outline hexact]

theorem operation (op : Operator) (h₁ : Kept named same exact a₁ b₁)
    (h₂ : Kept named same exact a₂ b₂) :
    Kept named same exact (Node.operation op a₁ a₂) (Node.operation op b₁ b₂) := by
  have hsource (hnamed : named) : b₁.source ++ op.separator ++ b₂.source =
      a₁.source ++ op.separator ++ a₂.source := by
    rw [h₁.source hnamed, h₂.source hnamed]
  have hparts := List.Forall₂.cons h₁ (.cons h₂ .nil)
  cases op with
  | binary op =>
      refine compose hparts hsource rfl fun hexact => ?_
      simp only [Form.mapParts, h₁.outline hexact, h₂.outline hexact]
  | quantified quantifier op =>
      refine compose hparts hsource rfl fun hexact => ?_
      simp only [Form.mapParts, h₁.outline hexact, h₂.outline hexact]
  | logic op =>
      refine compose hparts hsource rfl fun hexact => ?_
      simp only [Form.mapParts, h₁.outline hexact, h₂.outline hexact]

end Kept

end Node

end DocQuery
