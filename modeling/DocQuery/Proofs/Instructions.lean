import DocQuery.Proofs.Discipline
import DocQuery.Proofs.Meaning
/-!
# DocQuery.Proofs.Instructions

Flattening keeps the meaning. The instructions of an expression, evaluated by the last
of them, do what the expression means (`Node.flatten_scalar`, `Node.flatten_values`).

What a place in a pool stands for never changes while instructions are added behind it,
so the specification of a writer (`Writes`) speaks of the pool that it leaves, and is
kept by all that is written later. Two writers in a row then have the conjunction of
what they are specified to write, and writing a node is an induction over its parts.
-/

namespace DocQuery.Pool

variable {α β : Type}

/-! ### What a place stands for -/

/-- The place of a pool stands for the node. -/
structure Denotes (pool : Pool) (ref : OpRef) (n : Node) : Prop where
  inside : ref < pool.length
  same : Evaluator.Same (evaluator pool) Node.evaluator ref n

/-- An instruction that is added changes nothing in front of it. -/
theorem evaluator_cons (instruction : Instruction) (pool : Pool) {ref : OpRef}
    (h : ref < pool.length) :
    Evaluator.Same (evaluator (instruction :: pool)) (evaluator pool) ref ref := by
  have hne : ref ≠ pool.length := Nat.ne_of_lt h
  constructor <;> simp [evaluator, Evaluator.add, hne]

theorem Denotes.cons (instruction : Instruction) {pool : Pool} {ref : OpRef} {n : Node}
    (h : Denotes pool ref n) : Denotes (instruction :: pool) ref n := by
  have hcons := evaluator_cons instruction pool h.inside
  refine ⟨Nat.lt_succ_of_lt h.inside, ?_, ?_, ?_, ?_⟩
  · rw [hcons.isScalar, h.same.isScalar]
  · rw [hcons.source, h.same.source]
  · rw [hcons.scalar, h.same.scalar]
  · rw [hcons.values, h.same.values]

/-- What a place stands for is kept by all that is added. -/
theorem Denotes.mono {pool pool' : Pool} {ref : OpRef} {n : Node} (hp : pool <:+ pool')
    (h : Denotes pool ref n) : Denotes pool' ref n := by
  obtain ⟨added, rfl⟩ := hp
  induction added with
  | nil => exact h
  | cons instruction rest ih => exact ih.cons instruction

/-! ### Specifications of writers -/

theorem Denotes.lifts_mono {pool pool' : Pool} (hp : pool <:+ pool') {op : Op}
    {action : Action Node} (h : op.Lifts (.same (Denotes pool)) action) :
    op.Lifts (.same (Denotes pool')) action := by
  refine h.of_same fun ref n hn => ?_
  have : Denotes pool' ref n := hn.mono hp
  exact ⟨this, this, this, this, this⟩

/-- The instruction is that of one of these nodes. -/
def Stems (N : Node → Prop) (pool : Pool) (instruction : Instruction) : Prop :=
  ∃ n, N n ∧ instruction.op.Lifts (.same (Denotes pool)) n.action ∧
    instruction.isScalar = n.isScalar ∧ instruction.source = n.source

theorem Stems.mono {N : Node → Prop} {pool pool' : Pool} {instruction : Instruction}
    (hp : pool <:+ pool') (h : Stems N pool instruction) : Stems N pool' instruction := by
  obtain ⟨n, hn, hop, hinfo⟩ := h
  exact ⟨n, hn, Denotes.lifts_mono hp hop, hinfo⟩

/-- The writer only adds to a pool, namely instructions of these nodes, and its result is
as specified in the pool that it leaves. -/
def Writes (N : Node → Prop) (writer : Writer α) (post : Pool → α → Prop) : Prop :=
  ∀ pool, ∃ added, (writer.run pool).2 = added ++ pool ∧
    (∀ instruction ∈ added, Stems N (writer.run pool).2 instruction) ∧
    post (writer.run pool).2 (writer.run pool).1

/-- What is specified is kept by all that is added. -/
def Kept (post : Pool → α → Prop) : Prop :=
  ∀ pool pool' a, pool <:+ pool' → post pool a → post pool' a

/-- What is kept of each one of a list is kept of the list. -/
theorem Kept.forall₂ {R : Pool → α → β → Prop} (hR : ∀ b, Kept fun pool a => R pool a b)
    (bs : List β) : Kept fun pool as => List.Forall₂ (R pool) as bs :=
  fun pool pool' _ hp has => has.imp fun a b hab => hR b pool pool' a hp hab

namespace Writes

variable {N : Node → Prop}

theorem pure {a : α} {P : Pool → α → Prop} (h : ∀ pool, P pool a) :
    Writes N (Pure.pure a) P :=
  fun pool => ⟨[], rfl, by simp, h pool⟩

theorem bind {writer : Writer α} {next : α → Writer β} {P : Pool → α → Prop}
    {Q : α → Pool → β → Prop} (hw : Writes N writer P) (hP : Kept P)
    (hn : ∀ a, Writes N (next a) (Q a)) :
    Writes N (writer >>= next) fun pool b => ∃ a, P pool a ∧ Q a pool b := by
  intro pool
  obtain ⟨added, hadded, hstems, hpost⟩ := hw pool
  obtain ⟨added', hadded', hstems', hpost'⟩ := hn (writer.run pool).1 (writer.run pool).2
  have hsuffix : (writer.run pool).2 <:+ ((next (writer.run pool).1).run (writer.run pool).2).2 :=
    ⟨added', hadded'.symm⟩
  refine ⟨added' ++ added, ?_, ?_, _, hP _ _ _ hsuffix hpost, hpost'⟩
  · rw [List.append_assoc, ← hadded]
    exact hadded'
  · intro instruction hmem
    rcases List.mem_append.mp hmem with h | h
    · exact hstems' instruction h
    · exact (hstems instruction h).mono hsuffix

theorem mono {writer : Writer α} {P Q : Pool → α → Prop} (hw : Writes N writer P)
    (h : ∀ pool a, P pool a → Q pool a) : Writes N writer Q := by
  intro pool
  obtain ⟨added, hadded, hstems, hpost⟩ := hw pool
  exact ⟨added, hadded, hstems, h _ _ hpost⟩

/-- A writer of some nodes is one of more nodes. -/
theorem weaken {N' : Node → Prop} {writer : Writer α} {P : Pool → α → Prop}
    (hw : Writes N writer P) (h : ∀ n, N n → N' n) : Writes N' writer P := by
  intro pool
  obtain ⟨added, hadded, hstems, hpost⟩ := hw pool
  refine ⟨added, hadded, fun instruction hmem => ?_, hpost⟩
  obtain ⟨n, hn, hop⟩ := hstems instruction hmem
  exact ⟨n, h n hn, hop⟩

theorem map {writer : Writer α} {P : Pool → α → Prop} {Q : Pool → β → Prop} (f : α → β)
    (hw : Writes N writer P) (hP : Kept P) (h : ∀ pool a, P pool a → Q pool (f a)) :
    Writes N (do return f (← writer)) Q := by
  refine (hw.bind hP fun a => pure (P := fun _ b => b = f a) fun _ => rfl).mono ?_
  rintro pool b ⟨a, ha, rfl⟩
  exact h pool a ha

theorem map₂ {γ : Type} {writer : Writer α} {writer' : Writer β} {P : Pool → α → Prop}
    {Q : Pool → β → Prop} {R : Pool → γ → Prop} (f : α → β → γ) (hw : Writes N writer P)
    (hP : Kept P) (hw' : Writes N writer' Q) (hQ : Kept Q)
    (h : ∀ pool a b, P pool a → Q pool b → R pool (f a b)) :
    Writes N (do return f (← writer) (← writer')) R := by
  refine (hw.bind hP fun a => hw'.map (Q := fun pool c => ∃ b, Q pool b ∧ c = f a b) (f a) hQ
    fun pool b hb => ⟨b, hb, rfl⟩).mono ?_
  rintro pool _ ⟨a, ha, b, hb, rfl⟩
  exact h pool a b ha hb

theorem map₃ {γ δ : Type} {first : Writer α} {second : Writer β} {third : Writer γ}
    {P : Pool → α → Prop} {Q : Pool → β → Prop} {R : Pool → γ → Prop} {S : Pool → δ → Prop}
    (f : α → β → γ → δ) (hfirst : Writes N first P) (hP : Kept P) (hsecond : Writes N second Q)
    (hQ : Kept Q) (hthird : Writes N third R) (hR : Kept R)
    (h : ∀ pool a b c, P pool a → Q pool b → R pool c → S pool (f a b c)) :
    Writes N (do return f (← first) (← second) (← third)) S := by
  refine (hfirst.bind hP fun a => hsecond.map₂
    (R := fun pool d => ∃ b c, Q pool b ∧ R pool c ∧ d = f a b c) (f a) hQ hthird hR
    fun pool b c hb hc => ⟨b, c, hb, hc, rfl⟩).mono ?_
  rintro pool _ ⟨a, ha, b, c, hb, hc, rfl⟩
  exact h pool a b c ha hb hc

theorem mapM {γ : Type} {f : γ → Writer β} {R : Pool → β → γ → Prop}
    (hR : ∀ c, Kept fun pool b => R pool b c) {items : List γ}
    (h : ∀ c ∈ items, Writes N (f c) fun pool b => R pool b c) :
    Writes N (items.mapM f) fun pool bs => List.Forall₂ (R pool) bs items := by
  induction items with
  | nil => exact pure fun _ => .nil
  | cons c rest ih =>
      rw [List.mapM_cons]
      have hrest := ih fun c hc => h c (List.mem_cons_of_mem _ hc)
      exact (h c (List.mem_cons_self ..)).map₂ List.cons (hR c) hrest (.forall₂ hR rest)
        fun _ _ _ hb hbs => .cons hb hbs

end Writes

/-! ### Writing a node -/

section

variable {N : Node → Prop}

/-- A part of a layer comes with a writer that writes it. -/
abbrev WritesPart (N : Node → Prop) (part : Node × Writer OpRef) : Prop :=
  Writes N part.2 fun pool ref => Denotes pool ref part.1

/-- The place of a pool stands for the node of a part. -/
abbrev DenotesPart (pool : Pool) (ref : OpRef) (part : Node × Writer OpRef) : Prop :=
  Denotes pool ref part.1

theorem kept_denotes (n : Node) : Kept fun pool ref => Denotes pool ref n :=
  fun _ _ _ hp h => h.mono hp

theorem PathStep.Lifts.mono {pool pool' : Pool} (hp : pool <:+ pool') {step : PathStep OpRef}
    {parts : PathStep (Node × Writer OpRef)} (h : step.Lifts (.same (DenotesPart pool)) parts) :
    step.Lifts (.same (DenotesPart pool')) parts := by
  refine h.of_same fun ref part hpart => ?_
  have : Denotes pool' ref part.1 := hpart.mono hp
  exact ⟨this, this, this, this, this⟩

theorem writeStep_writes {step : PathStep (Node × Writer OpRef)}
    (h : ∀ part ∈ step.children, WritesPart N part) :
    Writes N (writeStep step) fun pool step' => step'.Lifts (.same (DenotesPart pool)) step := by
  cases step with
  | member name => exact .pure fun _ => .member name
  | index place => exact .pure fun _ => .index place
  | indexOf part =>
      exact (h part (List.mem_singleton_self _)).map _ (kept_denotes _) fun _ _ ha => .indexOf ha
  | all => exact .pure fun _ => .all
  | filter part =>
      exact (h part (List.mem_singleton_self _)).map _ (kept_denotes _) fun _ _ ha => .filter ha
  | items => exact .pure fun _ => .items

theorem writeSteps_writes {steps : List (PathStep (Node × Writer OpRef))}
    (h : ∀ part ∈ steps.flatMap PathStep.children, WritesPart N part) :
    Writes N (steps.mapM writeStep) fun pool steps' =>
      List.Forall₂ (PathStep.Lifts (.same (DenotesPart pool))) steps' steps :=
  .mapM (R := fun pool (a : PathStep OpRef) b => a.Lifts (.same (DenotesPart pool)) b)
    (fun _ _ _ _ hp => PathStep.Lifts.mono hp) fun step hstep =>
      writeStep_writes fun part hpart => h part (List.mem_flatMap.mpr ⟨step, hstep, hpart⟩)

theorem writeEntries_writes {entries : List (String × Node × Writer OpRef)}
    (h : ∀ part ∈ entries.map Prod.snd, WritesPart N part) :
    Writes N (entries.mapM fun (name, _, part) => return (name, ← part)) fun pool entries' =>
      List.Forall₂ (fun a b => a.1 = b.1 ∧ DenotesPart pool a.2 b.2) entries' entries := by
  refine Writes.mapM (fun entry pool pool' a hp ha => ⟨ha.1, ha.2.mono hp⟩) ?_
  intro entry hentry
  exact (h entry.2 (List.mem_map_of_mem hentry)).map _ (kept_denotes _) fun _ _ ha => ⟨rfl, ha⟩

theorem writeList_writes {parts : List (Node × Writer OpRef)}
    (h : ∀ part ∈ parts, WritesPart N part) :
    Writes N (parts.mapM fun (_, part) => part) fun pool refs =>
      List.Forall₂ (DenotesPart pool) refs parts :=
  .mapM (fun part : Node × Writer OpRef => kept_denotes part.1) h

theorem writeOrder_writes {order : Option (Node × Writer OpRef)}
    (h : ∀ part ∈ order, WritesPart N part) :
    Writes N (order.mapM fun (_, part) => part) fun pool ref =>
      Option.Rel (DenotesPart pool) ref order := by
  cases order with
  | none => exact .pure fun _ => .none
  | some part => exact (h part rfl).map some (kept_denotes _) fun _ _ ha => .some ha

/-- The parts of a layer are written one after the other. -/
theorem writeParts_writes {form : Form (Node × Writer OpRef)}
    (h : ∀ part ∈ form.children, WritesPart N part) :
    Writes N (writeParts form) fun pool form' => form'.Lifts (.same (DenotesPart pool)) form := by
  -- The parts are written in order; what the earlier ones denote is kept by the later ones.
  cases form with
  | constant value => exact .pure fun _ => .constant value
  | parameter name => exact .pure fun _ => .parameter name
  | documents => exact .pure fun _ => .documents
  | document entries =>
      refine (writeEntries_writes h).map _ ?_ fun _ _ ha => .document ha
      exact fun _ _ _ hp ha => ha.imp fun _ _ hab => ⟨hab.1, hab.2.mono hp⟩
  | array items =>
      exact (writeList_writes h).map _ (.forall₂ (fun part => kept_denotes part.1) items)
        fun _ _ ha => .array ha
  | path root steps =>
      refine (writeSteps_writes h).map _ ?_ fun _ _ ha => .path root ha
      exact fun _ _ _ hp ha => ha.imp fun _ _ => PathStep.Lifts.mono hp
  | map source selector =>
      exact (h source (by simp [Form.children])).map₂ _ (kept_denotes _)
        (h selector (by simp [Form.children])) (kept_denotes _) fun _ _ _ ha hb => .map ha hb
  | filter source predicate =>
      exact (h source (by simp [Form.children])).map₂ _ (kept_denotes _)
        (h predicate (by simp [Form.children])) (kept_denotes _) fun _ _ _ ha hb => .filter ha hb
  | sort source key order =>
      have horder : ∀ part ∈ order, WritesPart N part := fun part hpart =>
        h part (by simp_all [Form.children])
      have hkept : Kept fun pool (ref : Option OpRef) =>
          Option.Rel (DenotesPart pool) ref order := by
        intro pool pool' ref hp href
        cases href with
        | none => exact .none
        | some href => exact .some (href.mono hp)
      exact (h source (by simp [Form.children])).map₃ _ (kept_denotes _)
        (h key (by simp [Form.children])) (kept_denotes _) (writeOrder_writes horder) hkept
          fun _ _ _ _ hs hk ho => .sort hs hk ho
  | call function args =>
      exact (writeList_writes h).map _ (.forall₂ (fun part => kept_denotes part.1) args)
        fun _ _ ha => .call function ha
  | generate generator site => exact .pure fun _ => .generate generator site
  | binary op left right =>
      exact (h left (by simp [Form.children])).map₂ _ (kept_denotes _)
        (h right (by simp [Form.children])) (kept_denotes _) fun _ _ _ ha hb => .binary op ha hb
  | quantified quantifier op left right =>
      exact (h left (by simp [Form.children])).map₂ _ (kept_denotes _)
        (h right (by simp [Form.children])) (kept_denotes _)
          fun _ _ _ ha hb => .quantified quantifier op ha hb
  | logic op left right =>
      exact (h left (by simp [Form.children])).map₂ _ (kept_denotes _)
        (h right (by simp [Form.children])) (kept_denotes _) fun _ _ _ ha hb => .logic op ha hb
  | conditional test ifTrue ifFalse =>
      exact (h test (by simp [Form.children])).map₃ _ (kept_denotes _)
        (h ifTrue (by simp [Form.children])) (kept_denotes _)
          (h ifFalse (by simp [Form.children])) (kept_denotes _)
            fun _ _ _ _ ht ha hb => .conditional ht ha hb

theorem kept_formLifts (form : Form (Node × Writer OpRef)) :
    Kept fun pool (form' : Form OpRef) => form'.Lifts (.same (DenotesPart pool)) form := by
  intro pool pool' form' hp h
  refine h.of_same fun ref part hpart => ?_
  have : Denotes pool' ref part.1 := hpart.mono hp
  exact ⟨this, this, this, this, this⟩

/-- The operation of a layer is its action. -/
theorem writeOp_writes {form : Form (Node × Writer OpRef)}
    (h : ∀ part ∈ form.children, WritesPart N part) :
    Writes N (writeOp form) fun pool op =>
      op.Lifts (.same (DenotesPart pool)) (.ofForm (fun part => patternOf? part.1) form) := by
  have hlayer : Writes N (do return .layer (← writeParts form)) fun pool (op : Op) =>
      op.Lifts (.same (DenotesPart pool)) (.layer form) :=
    (writeParts_writes h).map _ (kept_formLifts form) fun _ _ ha => .layer ha
  cases form with
  | binary op left right =>
      rcases op with op | op
      · exact hlayer
      · cases op with
        | like =>
            simp only [writeOp, Action.ofForm]
            cases patternOf? right.1 with
            | none => exact hlayer
            | some pattern =>
                exact (h left (by simp [Form.children])).map _ (kept_denotes _)
                  fun _ _ ha => .like pattern ha
        | _ => exact hlayer
  | quantified quantifier op left right =>
      cases op with
      | like =>
          simp only [writeOp, Action.ofForm]
          cases patternOf? right.1 with
          | none => exact hlayer
          | some pattern =>
              exact (h left (by simp [Form.children])).map _ (kept_denotes _)
                fun _ _ ha => .likeEach quantifier pattern ha
      | _ => exact hlayer
  | _ => exact hlayer

end

/-- An instruction whose operation is the action of a node stands for the node. -/
theorem denotes_write {pool : Pool} {op : Op} {n : Node}
    (h : op.Lifts (.same (Denotes pool)) n.action) :
    Denotes ({ op, isScalar := n.isScalar, source := n.source } :: pool) pool.length n := by
  have hsame : op.Lifts (.same (Evaluator.Same (evaluator pool) Node.evaluator)) n.action :=
    h.of_same fun ref part hpart =>
      ⟨hpart.same, hpart.same, hpart.same, hpart.same, hpart.same⟩
  refine ⟨Nat.lt_succ_self _, ?_, ?_, ?_, ?_⟩
  · simp [evaluator, Evaluator.add, Node.evaluator]
  · simp [evaluator, Evaluator.add, Node.evaluator]
  · funext ctx
    simp only [evaluator, Evaluator.add, if_true]
    exact (Evaluator.Same.actionScalar hsame _ _ ctx).trans (n.scalar_eq ctx).symm
  · funext ctx
    simp only [evaluator, Evaluator.add, if_true]
    exact (Evaluator.Same.actionValues hsame _ _ ctx).trans (n.values_eq ctx).symm

/-- The writer of the action of a layer. -/
abbrev writeLayer (form : Form Node) : Writer Op :=
  writeOp (form.mapParts fun n => (n, writeNode n))

/-- A node is written by writing its action and then its own instruction. -/
theorem writeNode_run (n : Node) (pool : Pool) :
    (writeNode n).run pool =
      (((writeLayer n.form).run pool).2.length,
        { op := ((writeLayer n.form).run pool).1, isScalar := n.isScalar, source := n.source } ::
          ((writeLayer n.form).run pool).2) := by
  obtain ⟨info, form⟩ := n
  rw [writeNode, Node.fold_mk]
  rfl

/-- The place of a node is the last of the pool that its writer leaves. -/
theorem writeNode_root (n : Node) (pool : Pool) :
    ((writeNode n).run pool).1 = ((writeNode n).run pool).2.root := by
  rw [writeNode_run]
  simp [root]

/-- Writing a node adds instructions of what is within it, and leaves a pool in which
its place stands for the node. -/
theorem writeNode_writes (n : Node) :
    Writes n.Within (writeNode n) fun pool ref => Denotes pool ref n := by
  induction n using Node.induction with
  | step n ih =>
      intro pool
      have hparts : ∀ part ∈ (n.form.mapParts fun n => (n, writeNode n)).children,
          WritesPart n.Within part := by
        intro part hpart
        rw [Form.children_mapParts] at hpart
        obtain ⟨m, hm, rfl⟩ := List.mem_map.mp hpart
        exact (ih m hm).weaken fun k hk => (Node.Within.self.part hm).trans hk
      obtain ⟨added, hadded, hstems, hlifts⟩ := writeOp_writes hparts pool
      -- The parts are nodes beside their writers; what is written refers to the nodes.
      have haction := hlifts.trans (Q := Denotes _) (fun ref part m hpart hm => by
        rw [hm] at hpart
        exact hpart) (Node.action_lifts writeNode n.form)
      have hlast := List.suffix_cons
        ({ op := ((writeLayer n.form).run pool).1, isScalar := n.isScalar, source := n.source } :
          Instruction) ((writeLayer n.form).run pool).2
      rw [writeNode_run]
      refine ⟨_ :: added, congrArg (List.cons _) hadded, ?_, denotes_write haction⟩
      intro instruction hmem
      rcases List.mem_cons.mp hmem with rfl | hmem
      · exact ⟨n, .self, Denotes.lifts_mono hlast haction, rfl, rfl⟩
      · exact (hstems instruction hmem).mono hlast

end DocQuery.Pool

namespace DocQuery.Node

/-- The last instruction of a flattened expression stands for the expression. -/
theorem flatten_denotes (n : Node) : n.flatten.Denotes n.flatten.root n := by
  obtain ⟨_, _, _, h⟩ := Pool.writeNode_writes n []
  rw [Pool.writeNode_root] at h
  exact h

/-- Every instruction of a flattened expression is that of something within it. -/
theorem flatten_stems {n : Node} {instruction : Instruction} (h : instruction ∈ n.flatten) :
    n.flatten.Stems n.Within instruction := by
  obtain ⟨added, hadded, hstems, _⟩ := Pool.writeNode_writes n []
  rw [List.append_nil] at hadded
  exact hstems instruction (hadded ▸ h)

/-- The instructions of an expression yield its one value. -/
theorem flatten_scalar (n : Node) (ctx : Context) : n.flatten.evalScalar ctx = n.scalar ctx :=
  congrFun n.flatten_denotes.same.scalar ctx

/-- The instructions of an expression yield its values. -/
theorem flatten_values (n : Node) (ctx : Context) : n.flatten.evalValues ctx = n.values ctx :=
  congrFun n.flatten_denotes.same.values ctx

end DocQuery.Node
