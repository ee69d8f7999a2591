import Mathlib.Data.Set.Basic
import DocQuery.Proofs.Ranges
/-!
# DocQuery.Proofs.Contained

What is written in a phrase is in the expression that it stands for. The parser takes its nodes
apart nowhere: it makes sequences and single values of them, writes them in parentheses and joins
them, and all of these keep the documents that are written out in the parts (`Node.literals`). So
every document written in a phrase is one in its expression (`Phrase.exists_node_within`).
-/

namespace DocQuery

/-- What holds of all leaves may be weakened. -/
theorem OpTree.All.imp {α : Type} {P Q : α → Prop} {t : OpTree α} (h : t.All P)
    (hPQ : ∀ a, P a → Q a) : t.All Q := by
  induction t with
  | leaf a => exact hPQ a h
  | node op left right ihl ihr => exact ⟨ihl h.1, ihr h.2⟩

namespace Node

/-- The documents that are written out in an expression, by their entries. -/
def literals (n : Node) : Set (List (String × Node)) :=
  {entries | ∃ m, n.Within m ∧ m.form = .document entries}

/-- A document within a part is within the node. -/
theorem literals_part {n part : Node} (h : part ∈ n.children) : part.literals ⊆ n.literals :=
  fun _ ⟨m, hm, hform⟩ => ⟨m, (Within.self.part h).trans hm, hform⟩

/-- What is known of a node does not matter. -/
theorem literals_of_form {n n' : Node} (h : n.form = n'.form) : n.literals ⊆ n'.literals := by
  rintro entries ⟨m, hm, hform⟩
  -- A document is the node itself, or it is within a part; and both nodes have the same parts.
  rcases within_iff.mp hm with rfl | ⟨part, hpart, hm⟩
  · exact ⟨n', .self, h.symm.trans hform⟩
  · have hpart : part ∈ n'.children := by rwa [children, ← h]
    exact literals_part hpart ⟨m, hm, hform⟩

/-- A node that is no document itself has none but those of its parts. -/
theorem literals_of_children {n n' : Node} (hn : ∀ entries, n.form ≠ .document entries)
    (h : n.children ⊆ n'.children) : n.literals ⊆ n'.literals := by
  rintro entries ⟨m, hm, hform⟩
  rcases within_iff.mp hm with rfl | ⟨part, hpart, hm⟩
  · exact absurd hform (hn entries)
  · exact literals_part (h hpart) ⟨m, hm, hform⟩

/-! ### Parts taken as they are asked for

A coercion puts a call around a node or another step behind a path, and both leave the parts. -/

/-- A sequence made of a value keeps its documents. -/
theorem literals_asSequence (n : Node) : n.literals ⊆ n.asSequence.literals := by
  have hcall (info : NodeInfo) : n.literals ⊆ (mk info (.call .items [n])).literals :=
    literals_part (List.mem_singleton_self n)
  unfold asSequence
  split
  · obtain ⟨info, form⟩ := n
    cases form with
    | path root steps =>
        simp only [spread]
        split
        · exact hcall _
        · refine literals_of_children (by rintro _ ⟨⟩) ?_
          rw [children, children, form, form, Form.children, Form.children, List.flatMap_append]
          exact List.subset_append_left _ _
    | _ => exact hcall _
  · exact subset_rfl

/-- A value made of a sequence keeps its documents. -/
theorem literals_asScalar (n : Node) : n.literals ⊆ n.asScalar.literals := by
  unfold asScalar
  split
  · exact subset_rfl
  · exact literals_part (List.mem_singleton_self n)

theorem literals_coerce (cardinality : Cardinality) (n : Node) :
    n.literals ⊆ (coerce cardinality n).literals := by
  cases cardinality with
  | scalar => exact n.literals_asScalar
  | sequence => exact n.literals_asSequence

/-! ### Parts put together -/

/-- Every argument is coerced and is then a part of the call. -/
theorem literals_call {function : Builtin} {args : List Node} {arg : Node}
    (hlength : function.signature.params.length = args.length) (h : arg ∈ args) :
    arg.literals ⊆ (call function args).literals := by
  obtain ⟨i, hi, rfl⟩ := List.mem_iff_getElem.mp h
  have hparam : i < function.signature.params.length := hlength ▸ hi
  refine (literals_coerce function.signature.params[i] args[i]).trans (literals_part ?_)
  change _ ∈ List.zipWith coerce function.signature.params args
  exact List.mem_iff_getElem.mpr ⟨i, by simp [hi, hparam], List.getElem_zipWith ..⟩

/-- The branches of a choice may be made sequences, the test is taken as it is. -/
theorem literals_conditional {test ifTrue ifFalse part : Node}
    (h : part ∈ [test, ifTrue, ifFalse]) :
    part.literals ⊆ (conditional test ifTrue ifFalse).literals := by
  unfold conditional
  extract_lets source
  split
  · exact literals_part h
  · simp only [List.mem_cons, List.not_mem_nil, or_false] at h
    rcases h with rfl | rfl | rfl
    · exact literals_part List.mem_cons_self
    · exact part.literals_asSequence.trans
        (literals_part (List.mem_cons_of_mem _ List.mem_cons_self))
    · exact part.literals_asSequence.trans
        (literals_part (List.mem_cons_of_mem _ (List.mem_cons_of_mem _ List.mem_cons_self)))

theorem children_operation (op : Operator) (left right : Node) :
    (operation op left right).children = [left, right] := by
  cases op <;> rfl

/-- An operator keeps both of its sides. -/
theorem literals_combine {op : Operator} {left right n : Node}
    (h : Precedence.combine op left right = .ok n) :
    left.literals ⊆ n.literals ∧ right.literals ⊆ n.literals := by
  obtain ⟨-, -, rfl⟩ := Precedence.combine_eq_ok.mp h
  have htaken : left.literals ⊆ (Precedence.takenLeft op left).literals := by
    cases op with
    | quantified quantifier op => exact left.literals_asSequence
    | binary op | logic op => exact subset_rfl
  constructor
  · exact htaken.trans (literals_part (by simp [children_operation]))
  · exact literals_part (by simp [children_operation])

/-- A tree of operators is built to something that keeps all of its leaves. -/
theorem literals_build {t : OpTree Node} {n : Node} (h : t.build = some n) :
    t.All fun leaf => leaf.literals ⊆ n.literals := by
  induction t generalizing n with
  | leaf m =>
      cases h
      exact subset_rfl
  | node op left right ihl ihr =>
      obtain ⟨l, hl, r, hr, hcombine⟩ := OpTree.build_node_eq_some.mp h
      obtain ⟨hleft, hright⟩ := literals_combine hcombine
      exact ⟨(ihl hl).imp fun _ hleaf => hleaf.trans hleft,
        (ihr hr).imp fun _ hleaf => hleaf.trans hright⟩

/-- So does a row of terms when it is reduced. -/
theorem literals_reduce {first n : Node} {tail : Precedence.Tail}
    (h : Precedence.reduce first tail = .ok n) :
    first.literals ⊆ n.literals ∧ ∀ m ∈ tail.map Prod.snd, m.literals ⊆ n.literals := by
  -- A row is reduced to what its tree is built to.
  have hbuild := Precedence.reduce_eq_build (OpTree.ordered_ofRow first tail)
  rw [OpTree.first_ofRow, OpTree.tail_ofRow, h] at hbuild
  have hall := OpTree.all_iff.mp (literals_build hbuild.symm)
  rwa [OpTree.first_ofRow, OpTree.tail_ofRow] at hall

end Node

namespace Phrase

variable {n : Node} {scope : Scope}

/-- The phrase stands for something whose documents are kept in the node. -/
def KeptIn (n : Node) (e : Phrase) : Prop :=
  ∃ scope k, e.node scope = some k ∧ k.literals ⊆ n.literals

/-- Parts in a row are kept one by one. -/
theorem keptIn_nodes {es : List Phrase} {ns : List Node} (h : nodes node scope es = some ns)
    (hns : ∀ k ∈ ns, k.literals ⊆ n.literals) : ∀ e ∈ es, e.KeptIn n := by
  induction es generalizing ns with
  | nil => exact List.forall_mem_nil _
  | cons e es ih =>
      obtain ⟨k, hk, rest, hrest, rfl⟩ := nodes_cons_eq_some.mp h
      obtain ⟨hfirst, hns⟩ := List.forall_mem_cons.mp hns
      exact List.forall_mem_cons.mpr ⟨⟨scope, k, hk, hfirst⟩, ih hrest hns⟩

/-- The value of an entry becomes one value first. -/
theorem keptIn_entryNodes {es : List (EntryName × Option Phrase)} {others : List String}
    {counter : Nat} {entries : List (String × Node)}
    (h : entryNodes node scope es others counter = some entries)
    (hentries : ∀ k ∈ entries.map Prod.snd, k.literals ⊆ n.literals) :
    ∀ entry ∈ es, ∀ e ∈ entry.2, e.KeptIn n := by
  induction es generalizing others counter entries with
  | nil => exact List.forall_mem_nil _
  | cons entry es ih =>
      obtain ⟨k, hk, name, next, -, rest, hrest, rfl⟩ := entryNodes_cons_eq_some.mp h
      obtain ⟨hfirst, hentries⟩ := List.forall_mem_cons.mp hentries
      refine List.forall_mem_cons.mpr ⟨fun e he => ?_, ih hrest hentries⟩
      rw [Option.mem_def.mp he] at hk
      exact ⟨scope, k, hk, k.literals_asScalar.trans hfirst⟩

theorem keptIn_tailNodes {row : List (Operator × Phrase)} {tail : Precedence.Tail}
    (h : tailNodes isBounds node scope row = some tail)
    (htail : ∀ k ∈ tail.map Prod.snd, k.literals ⊆ n.literals) :
    ∀ e ∈ row.map Prod.snd, e.KeptIn n := by
  induction row generalizing tail with
  | nil => exact List.forall_mem_nil _
  | cons entry row ih =>
      obtain ⟨op, e⟩ := entry
      obtain ⟨-, k, hk, rest, hrest, rfl⟩ := tailNodes_cons_eq_some.mp h
      obtain ⟨hfirst, htail⟩ := List.forall_mem_cons.mp htail
      exact List.forall_mem_cons.mpr ⟨⟨scope, k, hk, hfirst⟩, ih hrest htail⟩

/-- Parts of steps are read in the scope of the element. -/
theorem keptIn_stepNodes {ws : List (WrittenStep Phrase)} {steps : List (PathStep Node)}
    (h : stepNodes node ws = some steps)
    (hsteps : ∀ k ∈ steps.flatMap PathStep.children, k.literals ⊆ n.literals) :
    ∀ e ∈ ws.flatMap WrittenStep.children, e.KeptIn n := by
  induction ws generalizing steps with
  | nil => exact List.forall_mem_nil _
  | cons w ws ih =>
      obtain ⟨step, hstep, rest, hrest, rfl⟩ := stepNodes_cons_eq_some.mp h
      rw [List.flatMap_cons, List.forall_mem_append] at hsteps ⊢
      refine ⟨fun e he => ?_, ih hrest hsteps.2⟩
      cases w with
      | member field | all | place negative digits => cases he
      | part part =>
          obtain rfl := List.mem_singleton.mp he
          obtain ⟨k, hk, rfl⟩ := Option.map_eq_some_iff.mp hstep
          refine ⟨.current, k, hk, hsteps.1 k ?_⟩
          split <;> exact List.mem_singleton_self k

/-- What is evaluated for each element of a sequence is kept, and so is the sequence. -/
theorem keptIn_sequence {source part : Phrase} {a b : Node}
    (h : sequenceNodes node scope source part = some (a, b)) (ha : a.literals ⊆ n.literals)
    (hb : b.literals ⊆ n.literals) : source.KeptIn n ∧ part.KeptIn n := by
  obtain ⟨k, hk, hm, rfl⟩ := sequenceNodes_eq_some.mp h
  exact ⟨⟨_, k, hk, k.literals_asSequence.trans ha⟩, _, b, hm, hb⟩

/-- The arguments of a call are kept, whatever is called. -/
theorem keptIn_apply {name : String} {site : Nat} {args : List Phrase} {ns : List Node}
    (hargs : nodes node scope args = some ns) (h : applyNode? name site ns = some n) :
    ∀ e ∈ args, e.KeptIn n := by
  rcases applyNode_cases h with ⟨test, ifTrue, ifFalse, -, rfl, -, rfl⟩ | ⟨f, hf, rfl⟩ |
    ⟨g, hg, rfl⟩
  · exact keptIn_nodes hargs fun k hk => Node.literals_conditional hk
  · exact keptIn_nodes hargs fun k hk =>
      Node.literals_call (Callable.find?_eq_some hf).2 hk
  · -- A generator takes no arguments.
    have hnil : ns = [] := by
      refine List.length_eq_zero_iff.mp ?_
      rw [← (Callable.find?_eq_some hg).2]
      cases g <;> rfl
    exact keptIn_nodes hargs (hnil ▸ List.forall_mem_nil _)

theorem keptIn_path {start : PathStart} {ws : List (WrittenStep Phrase)} {behind : Option Phrase}
    (h : Layer.node isBounds node scope (.path start ws behind) = some n) :
    ∀ e ∈ (mk (.path start ws behind)).children, e.KeptIn n := by
  -- A first field with the empty name is lost, and it has no parts.
  have hpath {steps : List (PathStep Node)} :
      ∀ k ∈ steps.flatMap PathStep.children, k.literals ⊆ (start.node scope steps).literals := by
    intro k hk
    obtain ⟨fields, steps', hnode, hchildren, -⟩ := PathStart.node_eq start scope steps
    rw [hnode]
    exact Node.literals_part (by rwa [← hchildren] at hk)
  change ∀ e ∈ ws.flatMap WrittenStep.children ++ behind.toList, e.KeptIn n
  refine List.forall_mem_append.mpr ?_
  cases behind with
  | none =>
      obtain ⟨steps, hsteps, rfl⟩ := Option.map_eq_some_iff.mp h
      exact ⟨keptIn_stepNodes hsteps fun k => hpath k, List.forall_mem_nil _⟩
  | some behind =>
      obtain ⟨steps, hsteps, selector, hselector, rfl⟩ := Layer.node_behind_eq_some.mp h
      refine ⟨keptIn_stepNodes hsteps fun k hk => (hpath k hk).trans ?_, ?_⟩
      · exact Node.literals_part List.mem_cons_self
      · refine List.forall_mem_singleton.mpr ⟨_, selector, hselector, Node.literals_part ?_⟩
        exact List.mem_cons_of_mem _ List.mem_cons_self

/-- What a part of a phrase stands for is kept in what the phrase stands for. -/
theorem keptIn_children {e : Phrase} (h : e.node scope = some n) :
    ∀ part ∈ e.children, part.KeptIn n := by
  rw [node_eq] at h
  obtain ⟨layer⟩ := e
  have hpart {k : Node} (hk : k ∈ n.children) : k.literals ⊆ n.literals := Node.literals_part hk
  -- What a construction makes of a part may stand below a coercion, which keeps its literals.
  cases layer with
  | number | truth | null | string | parameter => exact List.forall_mem_nil _
  | documents selector =>
      cases selector with
      | none => exact List.forall_mem_nil _
      | some selector =>
          obtain ⟨k, hk, rfl⟩ := Option.map_eq_some_iff.mp h
          exact List.forall_mem_singleton.mpr
            ⟨_, k, hk, hpart (List.mem_cons_of_mem _ List.mem_cons_self)⟩
  | document entries =>
      obtain ⟨list, hlist, rfl⟩ := Option.map_eq_some_iff.mp h
      intro part hmem
      obtain ⟨entry, hentry, he⟩ := List.mem_flatMap.mp hmem
      exact keptIn_entryNodes hlist (fun k hk => hpart hk) entry hentry part
        (Option.mem_toList.mp he)
  | array items =>
      obtain ⟨list, hlist, rfl⟩ := Option.map_eq_some_iff.mp h
      refine keptIn_nodes hlist fun k hk => k.literals_asScalar.trans (hpart ?_)
      exact List.mem_map_of_mem hk
  | path start ws behind => exact keptIn_path h
  | map source part =>
      obtain ⟨a, b, hnodes, rfl⟩ := Layer.node_map_eq_some.mp h
      obtain ⟨hsource, hselector⟩ := keptIn_sequence hnodes (hpart List.mem_cons_self)
        (hpart (List.mem_cons_of_mem _ List.mem_cons_self))
      exact List.forall_mem_cons.mpr ⟨hsource, List.forall_mem_singleton.mpr hselector⟩
  | filter source part =>
      obtain ⟨a, b, hnodes, rfl⟩ := Layer.node_filter_eq_some.mp h
      obtain ⟨hsource, hpredicate⟩ := keptIn_sequence hnodes (hpart List.mem_cons_self)
        (hpart (List.mem_cons_of_mem _ List.mem_cons_self))
      exact List.forall_mem_cons.mpr ⟨hsource, List.forall_mem_singleton.mpr hpredicate⟩
  | sort source part order =>
      obtain ⟨a, b, hnodes, o, ho, rfl⟩ := Layer.node_sort_eq_some.mp h
      obtain ⟨hsource, hkey⟩ := keptIn_sequence hnodes (hpart List.mem_cons_self)
        (hpart (List.mem_cons_of_mem _ List.mem_cons_self))
      refine List.forall_mem_cons.mpr ⟨hsource, List.forall_mem_cons.mpr ⟨hkey, ?_⟩⟩
      cases order with
      | none => exact List.forall_mem_nil _
      | some order =>
          obtain ⟨k, hk, -, rfl⟩ := orderNode_some_eq_some.mp ho
          refine List.forall_mem_singleton.mpr ⟨_, k, hk, hpart ?_⟩
          exact List.mem_cons_of_mem _ (List.mem_cons_of_mem _ List.mem_cons_self)
  | call name site args =>
      obtain ⟨list, hlist, h⟩ := Layer.node_call_eq_some.mp h
      exact keptIn_apply hlist h
  | parens inner =>
      obtain ⟨k, hk, rfl⟩ := Option.map_eq_some_iff.mp h
      refine List.forall_mem_singleton.mpr ⟨_, k, hk, Node.literals_of_form ?_⟩
      cases k
      rfl
  | joined first row =>
      obtain ⟨m, hm, tail, htail, h⟩ := Layer.node_joined_eq_some.mp h
      obtain ⟨hfirst, hrest⟩ := Node.literals_reduce (Precedence.toOption_eq_some.mp h)
      exact List.forall_mem_cons.mpr ⟨⟨_, m, hm, hfirst⟩, keptIn_tailNodes htail hrest⟩
  | bounds lower upper =>
      obtain ⟨l, hl, u, hu, -, rfl⟩ := Layer.node_bounds_eq_some.mp h
      refine List.forall_mem_cons.mpr ⟨⟨_, l, hl, hpart List.mem_cons_self⟩, ?_⟩
      refine List.forall_mem_singleton.mpr ⟨_, u, hu, hpart ?_⟩
      exact List.mem_cons_of_mem _ List.mem_cons_self

/-- What is written anywhere in a phrase stands for something that is kept. -/
theorem keptIn_within {e m : Phrase} (h : e.node scope = some n) (hm : e.Within m) :
    m.KeptIn n := by
  induction hm with
  | self => exact ⟨scope, n, h, subset_rfl⟩
  | part _ hpart ih =>
      obtain ⟨inner, k, hk, hkept⟩ := ih
      obtain ⟨inner', k', hk', hkept'⟩ := keptIn_children hk _ hpart
      exact ⟨inner', k', hk', hkept'.trans hkept⟩

/-- A document that is written anywhere in a phrase is a node with its entries within what the
phrase stands for, and is the whole of it if nothing else is written. -/
theorem exists_node_within {e : Phrase} {written : List (EntryName × Option Phrase)}
    (h : e.node scope = some n) (hm : e.Within (.mk (.document written))) :
    ∃ inner entries, entryNodes node inner written [] 1 = some entries ∧
      ∃ m, n.Within m ∧ m.form = .document entries ∧ (e = .mk (.document written) → m = n) := by
  by_cases he : e = .mk (.document written)
  · rw [he, node_eq] at h
    obtain ⟨entries, hentries, rfl⟩ := Option.map_eq_some_iff.mp h
    exact ⟨scope, entries, hentries, _, .self, rfl, fun _ => rfl⟩
  · obtain ⟨inner, k, hk, hkept⟩ := keptIn_within h hm
    rw [node_eq] at hk
    obtain ⟨entries, hentries, rfl⟩ := Option.map_eq_some_iff.mp hk
    obtain ⟨m, hwithin, hform⟩ := hkept ⟨_, .self, rfl⟩
    exact ⟨inner, entries, hentries, m, hwithin, hform, fun hsame => absurd hsame he⟩

end Phrase

end DocQuery
