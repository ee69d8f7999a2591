import DocQuery.Proofs.Instructions
/-!
# DocQuery.Proofs.WriteOrder

In which order an expression is written. Whatever it is written to, the parts of its action are
written one after the other, and the operation that comes out refers to them in this order
(`Pool.writeOp_run`). So what writing a node does to a store is told by what writing a list of
nodes does to it.

An expression can be flattened into two stores, one of operations and one of texts, that grow
by one entry each for every instruction. They stay in step: at any time they are two columns of
one list of instructions (`Stores.writeNode_run`).
-/

namespace DocQuery

/-! ### The parts of actions -/

namespace Action

variable {ν μ : Type}

/-- Actions of the same kind are equal if they have the same parts. -/
theorem eq_of_children {a b : Action ν} {c : Action μ} (ha : a.Lifts (.same fun _ _ => True) c)
    (hb : b.Lifts (.same fun _ _ => True) c) (h : a.children = b.children) : a = b := by
  have hab : a.Lifts (.same fun _ _ => True) b := ha.trans (fun _ _ _ _ _ => trivial) hb.symm
  have hparts : List.Forall₂ (fun a b => id a = id b) a.children b.children := by
    rw [h]
    exact List.forall₂_same.mpr fun _ _ => rfl
  have heq := Lifts.mapParts_eq (hab.of_children hparts)
  rwa [mapParts_id, mapParts_id] at heq

end Action

namespace Node

/-- The node is a constant text. -/
def isText (n : Node) : Bool :=
  match n.form with
  | .constant (.string _) => true
  | _ => false

/-- The node is a comparison with a pattern that is written out. -/
def comparesText (n : Node) : Bool :=
  match n.form with
  | .binary (.comparison .like) _ right | .quantified _ .like _ right => right.isText
  | _ => false

theorem patternOf?_cases (n : Node) :
    n.isText = false ∧ Pool.patternOf? n = none ∨
      n.isText = true ∧ ∃ pattern, n.form = .constant (.string pattern) ∧
        Pool.patternOf? n = some (Text.Glob.ofText pattern.toList) := by
  unfold isText Pool.patternOf?
  split <;> simp_all

/-- A pattern that is written out belongs to its comparison. Any other node is one layer, whose
parts are all its parts. -/
theorem action_cases (n : Node) :
    n.comparesText = false ∧ n.action = .layer n.form ∨
      n.comparesText = true ∧ ∃ left right pattern, n.children = [left, right] ∧
        right.form = .constant (.string pattern) ∧
        ∃ quantifier, n.action = .like quantifier left (Text.Glob.ofText pattern.toList) := by
  obtain ⟨info, form⟩ := n
  cases form with
  | binary op left right =>
      rcases op with op | op
      · exact .inl ⟨rfl, rfl⟩
      · cases op with
        | like =>
            rcases right.patternOf?_cases with ⟨htext, hnone⟩ | ⟨htext, pattern, hform, hsome⟩
            · exact .inl ⟨htext, by simp only [action, form, Action.ofForm, hnone]⟩
            · refine .inr ⟨htext, left, right, pattern, rfl, hform, none, ?_⟩
              simp only [action, form, Action.ofForm, hsome]
        | _ => exact .inl ⟨rfl, rfl⟩
  | quantified quantifier op left right =>
      cases op with
      | like =>
          rcases right.patternOf?_cases with ⟨htext, hnone⟩ | ⟨htext, pattern, hform, hsome⟩
          · exact .inl ⟨htext, by simp only [action, form, Action.ofForm, hnone]⟩
          · refine .inr ⟨htext, left, right, pattern, rfl, hform, some quantifier, ?_⟩
            simp only [action, form, Action.ofForm, hsome]
      | _ => exact .inl ⟨rfl, rfl⟩
  | _ => exact .inl ⟨rfl, rfl⟩

theorem mem_children_of_action {n part : Node} (h : part ∈ n.action.children) :
    part ∈ n.children := by
  rcases n.action_cases with ⟨-, hlayer⟩ | ⟨-, left, right, _, hchildren, -, _, hlike⟩
  · rwa [hlayer] at h
  · rw [hchildren]
    rw [hlike] at h
    obtain rfl := List.mem_singleton.mp h
    exact List.mem_cons_self ..

end Node

/-! ### Writers of parts -/

namespace Pool

variable {α β γ σ : Type}

theorem run_mapM_cons (f : γ → StateM σ β) (c : γ) (rest : List γ) (s : σ) :
    ((c :: rest).mapM f).run s =
      (((f c).run s).1 :: ((rest.mapM f).run ((f c).run s).2).1,
        ((rest.mapM f).run ((f c).run s).2).2) := by
  rw [List.mapM_cons]
  rfl

theorem run_mapM_append (f : γ → StateM σ β) (front rest : List γ) (s : σ) :
    ((front ++ rest).mapM f).run s =
      (((front.mapM f).run s).1 ++ ((rest.mapM f).run ((front.mapM f).run s).2).1,
        ((rest.mapM f).run ((front.mapM f).run s).2).2) := by
  rw [List.mapM_append]
  rfl

/-- The writer adds what the writers of these parts add, one after the other, and the places of
the parts, in the same order, are the references of its result. -/
def InOrder (parts : List (α × StateM σ OpRef)) (references : β → List OpRef) (shape : β → Prop)
    (writer : StateM σ β) : Prop :=
  ∀ s, (writer.run s).2 = ((parts.mapM Prod.snd).run s).2 ∧
    references (writer.run s).1 = ((parts.mapM Prod.snd).run s).1 ∧ shape (writer.run s).1

/-- Writers in a row write their parts in a row. -/
theorem InOrder.mapM {references : β → List OpRef} {parts : γ → List (α × StateM σ OpRef)}
    {shape : β → γ → Prop} {writer : γ → StateM σ β} {items : List γ}
    (h : ∀ c ∈ items, InOrder (parts c) references (shape · c) (writer c)) :
    InOrder (items.flatMap parts) (List.flatMap references)
      (List.Forall₂ shape · items) (items.mapM writer) := by
  induction items with
  | nil => exact fun s => ⟨rfl, rfl, .nil⟩
  | cons c rest ih =>
      intro s
      obtain ⟨hstate, hrefs, hshape⟩ := h c (List.mem_cons_self ..) s
      obtain ⟨hstate', hrefs', hshape'⟩ :=
        ih (fun c hc => h c (List.mem_cons_of_mem _ hc)) ((writer c).run s).2
      rw [List.flatMap_cons, run_mapM_append, run_mapM_cons, ← hstate, ← hrefs]
      exact ⟨hstate', congrArg (references _ ++ ·) hrefs', .cons hshape hshape'⟩

theorem writeStep_inOrder (step : PathStep (α × StateM σ OpRef)) :
    InOrder step.children PathStep.children (PathStep.Lifts (.same fun _ _ => True) · step)
      (writeStep step) := by
  intro s
  cases step with
  | member name => exact ⟨rfl, rfl, .member name⟩
  | index place => exact ⟨rfl, rfl, .index place⟩
  | indexOf part => exact ⟨rfl, rfl, .indexOf trivial⟩
  | all => exact ⟨rfl, rfl, .all⟩
  | filter part => exact ⟨rfl, rfl, .filter trivial⟩
  | items => exact ⟨rfl, rfl, .items⟩

/-- Writers of one part each write their parts in a row. -/
theorem InOrder.mapM_one {part : γ → α × StateM σ OpRef} {reference : β → OpRef}
    {shape : β → γ → Prop} {writer : γ → StateM σ β} {items : List γ}
    (h : ∀ c ∈ items, InOrder [part c] (fun b => [reference b]) (shape · c) (writer c)) :
    InOrder (items.map part) (List.map reference) (List.Forall₂ shape · items)
      (items.mapM writer) := by
  intro s
  obtain ⟨hstate, hrefs, hshape⟩ := InOrder.mapM h s
  rw [← List.map_eq_flatMap] at hstate
  rw [← List.map_eq_flatMap, ← List.map_eq_flatMap] at hrefs
  exact ⟨hstate, hrefs, hshape⟩

/-- What is made of a result in the end adds nothing. -/
theorem InOrder.map {ξ : Type} {parts : List (α × StateM σ OpRef)} {references : β → List OpRef}
    {references' : ξ → List OpRef} {shape : β → Prop} {shape' : ξ → Prop} {writer : StateM σ β}
    (h : InOrder parts references shape writer) (f : β → ξ)
    (hrefs : ∀ b, references' (f b) = references b) (hshape : ∀ b, shape b → shape' (f b)) :
    InOrder parts references' shape' (do return f (← writer)) := by
  intro s
  obtain ⟨hstate, hrefs', hshape'⟩ := h s
  exact ⟨hstate, (hrefs _).trans hrefs', hshape _ hshape'⟩

theorem writeList_inOrder (parts : List (α × StateM σ OpRef)) :
    InOrder parts id (List.Forall₂ (fun _ _ => True) · parts) (parts.mapM Prod.snd) := by
  have h : InOrder (parts.map id) (List.map id) (List.Forall₂ (fun _ _ => True) · parts)
      (parts.mapM Prod.snd) := .mapM_one fun _ _ _ => ⟨rfl, rfl, trivial⟩
  rwa [List.map_id, List.map_id_fun] at h

theorem writeEntries_inOrder (entries : List (String × α × StateM σ OpRef)) :
    InOrder (entries.map Prod.snd) (List.map Prod.snd)
      (List.Forall₂ (fun a b => a.1 = b.1 ∧ True) · entries)
      (entries.mapM fun (name, _, part) => return (name, ← part)) :=
  .mapM_one fun _ _ _ => ⟨rfl, rfl, rfl, trivial⟩

/-- The parts of a layer are written in their order. -/
theorem writeParts_inOrder (form : Form (α × StateM σ OpRef)) :
    InOrder form.children Form.children (Form.Lifts (.same fun _ _ => True) · form)
      (writeParts form) := by
  cases form with
  | constant value => exact fun s => ⟨rfl, rfl, .constant value⟩
  | parameter name => exact fun s => ⟨rfl, rfl, .parameter name⟩
  | documents => exact fun s => ⟨rfl, rfl, .documents⟩
  | document entries =>
      exact (writeEntries_inOrder entries).map _ (fun _ => rfl) fun _ h => .document h
  | array items => exact (writeList_inOrder items).map _ (fun _ => rfl) fun _ h => .array h
  | path root steps =>
      have hsteps : InOrder (steps.flatMap PathStep.children) (List.flatMap PathStep.children)
          (List.Forall₂ (PathStep.Lifts (.same fun _ _ => True)) · steps)
          (steps.mapM writeStep) := .mapM fun step _ => writeStep_inOrder step
      exact hsteps.map _ (fun _ => rfl) fun _ h => .path root h
  | map source selector => exact fun s => ⟨rfl, rfl, .map trivial trivial⟩
  | filter source predicate => exact fun s => ⟨rfl, rfl, .filter trivial trivial⟩
  | sort source key order =>
      cases order with
      | none => exact fun s => ⟨rfl, rfl, .sort trivial trivial .none⟩
      | some order => exact fun s => ⟨rfl, rfl, .sort trivial trivial (.some trivial)⟩
  | call function args =>
      exact (writeList_inOrder args).map _ (fun _ => rfl) fun _ h => .call function h
  | generate generator site => exact fun s => ⟨rfl, rfl, .generate generator site⟩
  | binary op left right => exact fun s => ⟨rfl, rfl, .binary op trivial trivial⟩
  | quantified quantifier op left right =>
      exact fun s => ⟨rfl, rfl, .quantified quantifier op trivial trivial⟩
  | logic op left right => exact fun s => ⟨rfl, rfl, .logic op trivial trivial⟩
  | conditional test ifTrue ifFalse =>
      exact fun s => ⟨rfl, rfl, .conditional trivial trivial trivial⟩

/-- The parts of an action are written in their order. -/
theorem writeOp_inOrder (form : Form (Node × StateM σ OpRef)) :
    InOrder (Action.ofForm (fun part => patternOf? part.1) form).children Action.children
      (Action.Lifts (.same fun _ _ => True) · (.ofForm (fun part => patternOf? part.1) form))
      (writeOp form) := by
  have hlayer : InOrder (Action.layer form).children Action.children
      (Action.Lifts (.same fun _ _ => True) · (.layer form))
      (do return .layer (← writeParts form)) :=
    (writeParts_inOrder form).map _ (fun _ => rfl) fun _ h => .layer h
  cases form with
  | binary op left right =>
      rcases op with op | op
      · exact hlayer
      · cases op with
        | like =>
            simp only [writeOp, Action.ofForm]
            cases patternOf? right.1 with
            | none => exact hlayer
            | some pattern => exact fun s => ⟨rfl, rfl, .like pattern trivial⟩
        | _ => exact hlayer
  | quantified quantifier op left right =>
      cases op with
      | like =>
          simp only [writeOp, Action.ofForm]
          cases patternOf? right.1 with
          | none => exact hlayer
          | some pattern => exact fun s => ⟨rfl, rfl, .likeEach quantifier pattern trivial⟩
      | _ => exact hlayer
  | _ => exact hlayer

/-- The writer of the action of a node adds what the writers of its parts add, and its operation
is this action with their places. -/
theorem writeOp_run (f : Node → StateM σ OpRef) (n : Node) (s : σ) :
    ((writeOp (n.form.mapParts fun m => (m, f m))).run s).2 =
        ((n.action.children.mapM f).run s).2 ∧
      Action.children ((writeOp (n.form.mapParts fun m => (m, f m))).run s).1 =
        ((n.action.children.mapM f).run s).1 ∧
      Action.Lifts (.same fun _ _ => True)
        ((writeOp (n.form.mapParts fun m => (m, f m))).run s).1 n.action := by
  have hlifts := Node.action_lifts f n.form
  have hparts : (Action.ofForm (fun part => patternOf? part.1)
      (n.form.mapParts fun m => (m, f m))).children =
        n.action.children.map fun m => (m, f m) := by
    have hmap := map_eq_of_forall₂ (f := id) hlifts.children
    rwa [List.map_id] at hmap
  obtain ⟨hstate, hrefs, hshape⟩ := writeOp_inOrder (n.form.mapParts fun m => (m, f m)) s
  rw [hparts, List.mapM_map] at hstate hrefs
  exact ⟨hstate, hrefs, hshape.trans (fun _ _ _ _ _ => trivial) hlifts⟩

end Pool

/-! ### Two stores in step -/

/-- Operations in one store and canonical texts in another. Places are counted without limit, as
those of a pool are (`OpRef`). -/
structure Stores where
  /-- What is done, and whether it yields one value. -/
  instructions : Array (Op × Bool)
  /-- The texts by which errors name the operations. -/
  sources : Array String

namespace Stores

/-- Stores that hold nothing. -/
def empty : Stores := ⟨#[], #[]⟩

/-- Adds the text of the operation that is added next. -/
def register (source : String) : StateM Stores OpRef := do
  let stores ← get
  set { stores with sources := stores.sources.push source }
  return stores.sources.size

/-- Adds an operation. -/
def alloc (op : Op) (isScalar : Bool) : StateM Stores OpRef := do
  let stores ← get
  set { stores with instructions := stores.instructions.push (op, isScalar) }
  return stores.instructions.size

/-- The operation at a place, with the text at the same place of the other store. -/
def get? (stores : Stores) (ref : OpRef) : Option Instruction :=
  stores.instructions[ref]?.map fun (op, isScalar) =>
    { op, isScalar, source := stores.sources[ref]?.getD "" }

/-- Adds the operations of a node and their texts. -/
def writeNode : Node → StateM Stores OpRef :=
  Node.fold fun info form => do
    let op ← Pool.writeOp form
    let _ ← register info.source
    alloc op info.isScalar

/-- The stores with one instruction after the other. -/
def ofPool (pool : Pool) : Stores where
  instructions :=
    (pool.inOrder.map fun instruction => (instruction.op, instruction.isScalar)).toArray
  sources := (pool.inOrder.map Instruction.source).toArray

theorem ofPool_cons (instruction : Instruction) (pool : Pool) :
    ofPool (instruction :: pool) =
      ⟨(ofPool pool).instructions.push (instruction.op, instruction.isScalar),
        (ofPool pool).sources.push instruction.source⟩ := by
  simp [ofPool, Pool.inOrder]

/-- Every instruction finds its text. -/
theorem get?_ofPool (pool : Pool) (ref : OpRef) : (ofPool pool).get? ref = pool.get? ref := by
  simp only [get?, ofPool, Pool.get?, Pool.inOrder, List.getElem?_toArray, List.getElem?_map]
  cases pool.reverse[ref]? <;> rfl

theorem size_ofPool (pool : Pool) : (ofPool pool).instructions.size = pool.length := by
  simp [ofPool, Pool.inOrder]

/-- A node is added by adding its action and then its own text and operation. -/
theorem writeNode_mk (n : Node) (s : Stores) :
    let r := (Pool.writeOp (n.form.mapParts fun m => (m, writeNode m))).run s
    (writeNode n).run s =
      (r.2.instructions.size,
        ⟨r.2.instructions.push (r.1, n.isScalar), r.2.sources.push n.source⟩) := by
  obtain ⟨info, form⟩ := n
  rw [writeNode, Node.fold_mk]
  rfl

/-- Nodes written in a row leave the stores in step if each of them does. -/
theorem mapM_writeNode {ns : List Node}
    (h : ∀ n ∈ ns, ∀ pool, (writeNode n).run (ofPool pool) =
      (((Pool.writeNode n).run pool).1, ofPool ((Pool.writeNode n).run pool).2)) (pool : Pool) :
    (ns.mapM writeNode).run (ofPool pool) =
      (((ns.mapM Pool.writeNode).run pool).1, ofPool ((ns.mapM Pool.writeNode).run pool).2) := by
  induction ns generalizing pool with
  | nil => rfl
  | cons n rest ih =>
      rw [Pool.run_mapM_cons, Pool.run_mapM_cons, h n (List.mem_cons_self ..),
        ih fun m hm => h m (List.mem_cons_of_mem _ hm)]

/-- The two stores that a node is written to are the columns of its instructions. -/
theorem writeNode_run (n : Node) (pool : Pool) :
    (writeNode n).run (ofPool pool) =
      (((Pool.writeNode n).run pool).1, ofPool ((Pool.writeNode n).run pool).2) := by
  induction n using Node.induction generalizing pool with
  | step n ih =>
      obtain ⟨hstate, hrefs, hshape⟩ := Pool.writeOp_run writeNode n (ofPool pool)
      obtain ⟨hstate', hrefs', hshape'⟩ := Pool.writeOp_run Pool.writeNode n pool
      rw [mapM_writeNode fun m hm => ih m (Node.mem_children_of_action hm)] at hstate hrefs
      rw [← hstate'] at hstate
      have hop := Action.eq_of_children hshape hshape' (hrefs.trans hrefs'.symm)
      rw [writeNode_mk, Pool.writeNode_run, ofPool_cons]
      simp only [hop, hstate, size_ofPool]

end Stores

end DocQuery
