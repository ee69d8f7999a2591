import DocQuery.Proofs.Writing
/-!
# DocQuery.Proofs.Canonical

Canonical text as a phrase. A phrase restates a node (`Phrase.Restates`) if it writes the
canonical text of the node and stands, in any scope, for what the node becomes when it is
read again; or for nothing, if the node cannot be read again. The lemmas here say how a
phrase that restates a coerced or composed node is put together from phrases that restate its
parts.
-/

namespace DocQuery

/-- There is something of that kind, or nothing if it is not kept. -/
def Again {α : Type} (keeps : Bool) (P : α → Prop) (x : Option α) : Prop :=
  match keeps with
  | true => ∃ a, x = some a ∧ P a
  | false => x = none

namespace Again

variable {α β : Type} {keeps keeps' : Bool} {P : α → Prop} {Q : β → Prop} {x : Option α}

theorem some {a : α} (h : P a) : Again true P (some a) := ⟨a, rfl, h⟩

/-- Something is made of what there is; if there is nothing, nothing is made. -/
theorem bind {f : α → Option β} (h : Again keeps P x) (hf : ∀ a, P a → Again keeps' Q (f a)) :
    Again (keeps && keeps') Q (x >>= f) := by
  cases keeps with
  | true =>
      obtain ⟨a, rfl, ha⟩ := h
      exact hf a ha
  | false =>
      have hx : x = none := h
      rw [hx]
      rfl

theorem map {f : α → β} (h : Again keeps P x) (hf : ∀ a, P a → Q (f a)) :
    Again keeps Q (x.map f) := by
  have hbind := h.bind fun a ha => Again.some (hf a ha)
  rw [Bool.and_true] at hbind
  cases x <;> exact hbind

theorem imp {P' : α → Prop} (h : Again keeps P x) (hP : ∀ a, P a → P' a) : Again keeps P' x := by
  have hmap := h.map (f := id) hP
  rwa [Option.map_id] at hmap

end Again

namespace Phrase

open Node (Kept)

/-- The phrase writes the canonical text of `n` and, read again, stands for something of which
`m` tells what is kept. -/
structure RestatesAs (named exact : Prop) (scope : Scope) (n m : Node) (e : Phrase) : Prop where
  writes : e.Writes n.source
  again : ∀ scope', Again n.keepsBounds (Kept named (scope' = scope) exact m) (e.node scope')

/-- The phrase writes the canonical text of the node, and stands for the node read again. -/
abbrev Restates (named exact : Prop) (scope : Scope) (n : Node) (e : Phrase) : Prop :=
  RestatesAs named exact scope n n.reread e

variable {named exact : Prop} {scope : Scope} {n m : Node} {e : Phrase}

/-- In a scope that does not depend on that of the whole, the fields are always the same. -/
theorem RestatesAs.inner (h : RestatesAs named exact scope n m e) (same : Prop) :
    Again n.keepsBounds (Kept named same exact m) (e.node scope) :=
  (h.again scope).imp fun _ hkept => hkept.mono id (fun _ => rfl) id

/-! ### Calls -/

/-- Phrases that restate nodes stand for these nodes one after the other. -/
theorem again_nodes {ns : List Node} {es : List Phrase} {same : Prop}
    (h : List.Forall₂ (fun n e => Again n.keepsBounds (Kept named same exact n.reread)
      (e.node scope))
      ns es) :
    Again (ns.all Node.keepsBounds)
      (List.Forall₂ (Kept named same exact) (ns.map Node.reread)) (nodes node scope es) := by
  induction h with
  | nil => exact .some .nil
  | cons hpart _ ih =>
      rw [List.all_cons, nodes]
      refine hpart.bind fun a ha => ?_
      rw [← Bool.and_true (List.all _ _)]
      exact ih.bind fun rest hrest => .some (.cons ha hrest)

/-- What is restated as a part of a row of parts. -/
def RestatesItem (named exact : Prop) (scope : Scope) (n : Node) (e : Phrase) : Prop :=
  Restates named exact scope n e ∧ e.isBounds = false

theorem writes_items {ns : List Node} {es : List Phrase}
    (h : List.Forall₂ (RestatesItem named exact scope) ns es) :
    List.Forall₂ WritesItem es (ns.map Node.source) :=
  List.forall₂_map_right_iff.mpr (h.flip.imp fun _ _ hitem => ⟨hitem.1.writes, hitem.2⟩)

theorem again_items {ns : List Node} {es : List Phrase} (scope' : Scope)
    (h : List.Forall₂ (RestatesItem named exact scope) ns es) :
    Again (ns.all Node.keepsBounds)
      (List.Forall₂ (Kept named (scope' = scope) exact) (ns.map Node.reread))
      (nodes node scope' es) :=
  again_nodes (h.imp fun _ _ hitem => hitem.1.again scope')

/-- A call by a canonical name of phrases that restate its arguments. -/
theorem restates_call {function : Builtin} {args : List Node} {es : List Phrase}
    (harity : function.signature.arity = args.length)
    (h : List.Forall₂ (RestatesItem named exact scope) args es) :
    Restates named exact scope (Node.call function args) (mk (.call function.name 0 es)) := by
  obtain ⟨-, hword, hconstant, hsequence, -⟩ := (Callable.builtin function).isNamed
  refine ⟨writes_call hword hconstant hsequence 0 (writes_items h), fun scope' => ?_⟩
  rw [Node.keepsBounds_call harity, Node.reread_call, node_eq, ← Bool.and_true (List.all _ _)]
  refine (again_items scope' h).bind fun args' hargs => ?_
  have hlength : (Callable.builtin function).signature.arity = args'.length := by
    rw [← hargs.length_eq, List.length_map]
    exact harity
  rw [show applyNode? function.name 0 args' = _ from applyNode_name hlength 0]
  exact .some (.call function hargs)

theorem restates_generate (generator : Generator) (site : Nat) :
    Restates named exact scope (Node.generate generator site) (mk (.call generator.name 0 [])) := by
  obtain ⟨-, hword, hconstant, hsequence, -⟩ := (Callable.generator generator).isNamed
  have hwrites := writes_call hword hconstant hsequence 0 .nil
  refine ⟨?_, fun scope' => ?_⟩
  · have hsource : (Node.generate generator site).source =
        (Callable.generator generator).signature.name ++ "(" ++ ",".intercalate [] ++ ")" := by
      rw [← String.toList_inj]
      simp [Node.generate, Node.varying, Node.compose, Node.source, Node.info, Callable.signature]
    rw [hsource]
    exact hwrites
  · rw [Node.reread_generate, node_eq]
    have hcall := @applyNode_name (.generator generator) [] rfl 0
    have hnode : Layer.node isBounds node scope' (.call generator.name 0 []) =
        some (Node.generate generator 0) := hcall
    rw [layer, hnode]
    exact .some (.generate generator site 0)

/-! ### Coercions -/

theorem call_array {b : Node} (h : b.isScalar = false) : Node.call .array [b] = b.gather := by
  have hcoerced : b.asSequence = b := by
    rw [Node.asSequence, h, if_neg Bool.false_ne_true]
  simp only [Node.call, Node.gather, Builtin.signature, List.zipWith_cons_cons,
    List.zipWith_nil_left,
    Node.coerce, hcoerced]
  congr 1

theorem call_items {b : Node} (h : b.isScalar = true) : Node.call .items [b] = b.itemsCall := by
  have hcoerced : b.asScalar = b := by
    rw [Node.asScalar, h, if_pos rfl]
  simp only [Node.call, Node.itemsCall, Builtin.signature, List.zipWith_cons_cons,
    List.zipWith_nil_left, Node.coerce, hcoerced]
  congr 1

/-- A phrase for the node as one value. -/
theorem exists_asScalar (h : RestatesItem named exact scope n e) :
    ∃ e', RestatesItem named exact scope n.asScalar e' := by
  cases hscalar : n.isScalar with
  | true =>
      rw [Node.asScalar, hscalar, if_pos rfl]
      exact ⟨e, h⟩
  | false =>
      rw [Node.asScalar, hscalar, if_neg Bool.false_ne_true, ← call_array hscalar]
      exact ⟨_, restates_call rfl (.cons h .nil), rfl⟩

/-- What is known of the node and the phrase that restates it when a sequence is asked for: a
path that can be written on is one, and no step of it has been coerced. -/
structure Extends (n : Node) (e : Phrase) : Prop where
  path : n.isOpenPath = true → ∃ start ws, e = mk (.path start ws none) ∧
    (n.isScalar = true → ws.any (WrittenStep.isMany isParameter) = false)
  sequence : n.reread.rereadSequence = n.reread

theorem stepNodes_append (f : Phrase → Scope → Option Node) (ws ws' : List (WrittenStep Phrase)) :
    stepNodes f (ws ++ ws') = do return (← stepNodes f ws) ++ (← stepNodes f ws') := by
  induction ws with
  | nil => cases h : stepNodes f ws' <;> simp [stepNodes, h]
  | cons w ws ih =>
      rw [List.cons_append, stepNodes, stepNodes, ih]
      cases stepNode f w <;> cases stepNodes f ws <;> cases stepNodes f ws' <;> rfl

theorem path_concat (fields : Fields) (root : PathRoot) (steps : List (PathStep Node)) :
    Node.path fields root (steps ++ [.all]) = (Node.path fields root steps).widened .all := by
  have hany : (steps ++ [PathStep.all]).any PathStep.isEnumerable = true := by
    rw [List.any_append]
    exact Bool.or_true _
  have hsource : root.sigil ++ String.join ((steps ++ [PathStep.all]).map PathStep.text) =
      root.sigil ++ String.join (steps.map PathStep.text) ++ "[*]" := by
    rw [← String.toList_inj]
    simp [PathStep.text]
  simp only [Node.path, Node.reading, Node.varying, Node.compose, Node.widened, hany, hsource,
    Form.children, List.flatMap_append, List.flatMap_cons, List.flatMap_nil, PathStep.children,
    List.append_nil, Bool.not_true]

/-- With `[*]` behind it, a path stands for the path it was with one step more. -/
theorem node_concat (start : PathStart) (ws : List (WrittenStep Phrase)) (scope : Scope) :
    (mk (.path start (ws ++ [.all]) none)).node scope =
      ((mk (.path start ws none)).node scope).map (Node.widened .all) := by
  have hnode (steps : List (PathStep Node)) :
      start.node scope (steps ++ [.all]) = (start.node scope steps).widened .all := by
    unfold PathStart.node
    extract_lets named fields
    rw [← path_concat]
    congr 1
    split <;> rfl
  rw [node_eq, node_eq]
  simp only [layer, Layer.node, stepNodes_append]
  cases stepNodes node ws with
  | none => rfl
  | some steps => exact congrArg some (hnode steps)

/-- A path of single values is written with `[*]` behind it. -/
theorem Writes.concat {start : PathStart} {ws : List (WrittenStep Phrase)} {source : String}
    (h : (Phrase.mk (.path start ws none)).Writes source)
    (hsingle : ws.any (WrittenStep.isMany isParameter) = false) :
    (Phrase.mk (.path start (ws ++ [.all]) none)).Writes (source ++ "[*]") := by
  obtain ⟨hwf, hmarks⟩ := h
  obtain ⟨hstart, hsteps, -, -⟩ := hwf.layer
  rw [marks_eq] at hmarks
  -- The mark that ends the path has no text, so what stands before it writes all of the source.
  have hbefore : MarksWrite (start.marks ++ ws.flatMap (stepMarks Phrase.marks)) source.toList := by
    refine ⟨fun mark hmark => hmarks.isWritten mark (List.mem_append_left _ hmark), ?_⟩
    rw [← hmarks.text, layer, Layer.marks, Phrase.text, Phrase.text, List.flatMap_append]
    unfold behindMarks
    dsimp only
    split <;> simp [Mark.written, Mark.kind?]
  have hall : MarksWrite (stepMarks Phrase.marks .all) "[*]".toList :=
    .symbol true .leftBracket (.symbol false .asterisk (.symbol false .rightBracket .nil))
  have hchars : source.toList ++ "[*]".toList ++ [] = (source ++ "[*]").toList := by
    rw [String.toList_append, List.append_nil]
  have hlayer : Layer.marks isParameter Phrase.marks (.path start (ws ++ [.all]) none) =
      start.marks ++ ws.flatMap (stepMarks Phrase.marks) ++ stepMarks Phrase.marks .all ++
        behindMarks isParameter Phrase.marks (ws ++ [.all]) none := by
    simp only [Layer.marks, List.flatMap_append, List.flatMap_cons, List.flatMap_nil,
      List.append_nil, List.append_assoc]
  refine .of_layer ⟨?_, ?_, ?_, by rintro _ ⟨⟩⟩ ?_
    (hlayer ▸ (hbefore.append hall).append (marksWrite_behind _)) hchars
  · cases start with
    | bare name => exact hstart
    | sigil root field =>
        cases field with
        | some field => trivial
        | none =>
            cases ws with
            | nil => rfl
            | cons w ws => exact hstart
  · intro e he
    rcases List.mem_append.mp he with he | he
    · exact hsteps e he
    · cases List.mem_singleton.mp he
  · rw [List.dropLast_concat]
    exact hsingle
  · intro part hpart
    rw [Layer.children, Option.toList_none, List.append_nil, List.flatMap_append] at hpart
    rcases List.mem_append.mp hpart with hpart | hpart
    · exact hwf.part (List.mem_append_left _ hpart)
    · cases hpart

theorem rereadSequence_widened {n : Node} (hopen : n.isOpenPath = true)
    (h : n.rereadSequence = n) : (n.widened .items).rereadSequence = n.widened .all := by
  obtain ⟨info, root, steps, rfl⟩ := Node.exists_of_isOpenPath hopen
  simp only [Node.rereadSequence, Node.mk.injEq, Form.path.injEq, true_and] at h
  simp only [Node.widened, Node.rereadSequence, List.map_append, h]
  rfl

/-- A phrase for the node as a sequence. It is a term, whether the phrase is one or not. -/
theorem exists_asSequence (h : RestatesItem named exact scope n e) (hextends : Extends n e)
    (hterm : n.isScalar = false → e.isTerm = true) :
    ∃ e', RestatesAs named exact scope n.asSequence n.asSequence.reread.rereadSequence e' ∧
      e'.isTerm = true ∧ (e.isPlain = true → e'.isPlain = true) := by
  have hopenPath := n.isOpenPath_reread
  cases hscalar : n.isScalar with
  | false =>
      rw [Node.asSequence, hscalar, if_neg Bool.false_ne_true, hextends.sequence]
      exact ⟨e, h.1, hterm hscalar, id⟩
  | true =>
      rw [Node.asSequence, hscalar, if_pos rfl, Node.reread_spread]
      -- A path is made a sequence by a step behind it, which is read as one that was written
      -- there; anything else, by a call around it.
      cases hopen : n.isOpenPath with
      | true =>
          obtain ⟨start, ws, rfl, hsingle⟩ := hextends.path hopen
          refine ⟨mk (.path start (ws ++ [.all]) none), ⟨?_, fun scope' => ?_⟩, rfl, fun _ => rfl⟩
          · rw [Node.spread_of_isOpenPath hopen]
            obtain ⟨info, root, steps, rfl⟩ := Node.exists_of_isOpenPath hopen
            exact h.1.writes.concat (hsingle hscalar)
          · rw [Node.keepsBounds_spread, node_concat,
              Node.spread_of_isOpenPath (hopenPath.trans hopen),
              rereadSequence_widened (hopenPath.trans hopen) hextends.sequence]
            exact (h.1.again scope').map fun b hb => hb.widened (hopenPath.trans hopen) .all
      | false =>
          have hcall : Restates named exact scope (Node.call .items [n])
              (mk (.call Builtin.items.name 0 [e])) := restates_call rfl (.cons h .nil)
          rw [call_items hscalar, Restates, Node.reread_itemsCall] at hcall
          rw [Node.spread_of_not_isOpenPath hopen,
            Node.spread_of_not_isOpenPath (hopenPath.trans hopen)]
          exact ⟨_, hcall, rfl, fun _ => rfl⟩

/-- What is made of a phrase to restate the node that it stands for: a phrase that may be written
in the same places. -/
structure Renders (named exact : Prop) (scope : Scope) (e : Phrase) (n : Node) (e' : Phrase) :
    Prop where
  restates : Restates named exact scope n e'
  isBounds : e'.isBounds = e.isBounds
  isTerm : e.isTerm = true → e'.isTerm = true
  isPlain : e.isPlain = true → e'.isPlain = true
  isParameter : e'.isParameter = e.isParameter
  extend : Extends n e'

theorem Renders.item {e' : Phrase} (h : Renders named exact scope e n e')
    (hclass : e.isBounds = false) : RestatesItem named exact scope n e' :=
  ⟨h.restates, h.isBounds.trans hclass⟩

end Phrase

end DocQuery
