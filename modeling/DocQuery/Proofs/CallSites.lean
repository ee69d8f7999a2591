import DocQuery.Proofs.Blame
import DocQuery.Proofs.Substitution
/-!
# DocQuery.Proofs.CallSites

Where generators are called. The offsets that an expression remembers are those at which some of
the tokens begin that it has been read from, in the order in which these are written
(`Parser.Cites`). There is one lemma for each way to put readers together, and with them one for
each reader. So no two calls in an expression have the same offset (`sites_ascend`).
-/

namespace DocQuery

/-! ### Offsets in composed expressions

Every way to compose an expression keeps the offsets of its parts in the order of the parts. What a
coercion adds has no offset of its own, and a call may drop arguments that it has no parameters for.
-/

namespace Node

variable (n left right : Node)

/-- The offsets of a composed expression are its own, if it has one, and then those of its parts. -/
theorem sites_compose (type : ExprType) (isScalar : Bool) (source : String) (form : Form Node) :
    (compose type isScalar source form).sites = form.site ++ form.children.flatMap sites :=
  sites_eq _

theorem sites_parenthesized : n.parenthesized.sites = n.sites := by
  obtain ⟨info, form⟩ := n
  exact (sites_eq _).trans (sites_eq _).symm

theorem sites_gather : n.gather.sites = n.sites := by
  rw [gather, sites_compose]
  simp [Form.site, Form.children]

theorem sites_asScalar : n.asScalar.sites = n.sites := by
  unfold asScalar
  split
  · rfl
  · exact n.sites_gather

theorem sites_coerce (cardinality : Cardinality) : (coerce cardinality n).sites = n.sites := by
  cases cardinality with
  | scalar => exact n.sites_asScalar
  | sequence => exact n.sites_asSequence

theorem sites_operation (op : Operator) :
    (operation op left right).sites = left.sites ++ right.sites := by
  cases op <;> exact (sites_compose _ _ _ _).trans (by simp [Form.site, Form.children])

theorem sites_bounds : (bounds left right).sites = left.sites ++ right.sites := by
  rw [bounds, sites_compose]
  simp [Form.site, Form.children]

theorem sites_map : (map left right).sites = left.sites ++ right.sites := by
  rw [map, sites_compose]
  simp [Form.site, Form.children]

theorem sites_filter : (filter left right).sites = left.sites ++ right.sites := by
  rw [filter, sites_compose]
  simp [Form.site, Form.children]

theorem sites_sort (order : Option Node) :
    (sort left right order).sites = left.sites ++ right.sites ++ order.toList.flatMap sites := by
  unfold sort
  rw [sites_compose]
  simp [Form.site, Form.children]

theorem sites_conditional (test : Node) :
    (conditional test left right).sites = test.sites ++ left.sites ++ right.sites := by
  unfold conditional
  extract_lets source
  split
  · rw [sites_compose]
    simp [Form.site, Form.children]
  · rw [sites_compose]
    simp [Form.site, Form.children, sites_asSequence]

theorem sites_document (entries : List (String × Node)) :
    (document entries).sites = entries.flatMap fun entry => entry.2.sites := by
  rw [document, sites_compose]
  simp [Form.site, Form.children, List.flatMap_map]

theorem sites_array (items : List Node) : (array items).sites = items.flatMap sites := by
  rw [array, sites_compose]
  rfl

theorem sites_path (fields : Fields) (root : PathRoot) (steps : List (PathStep Node)) :
    (path fields root steps).sites = (steps.flatMap PathStep.children).flatMap sites :=
  sites_eq _

/-- A call coerces as many arguments as it has parameters, so it may leave some out. -/
theorem sites_call (function : Builtin) (args : List Node) :
    (call function args).sites.Sublist (args.flatMap sites) := by
  have hcoerce (params : List Cardinality) (args : List Node) :
      ((List.zipWith coerce params args).flatMap sites).Sublist (args.flatMap sites) := by
    induction args generalizing params with
    | nil => simp
    | cons arg rest ih =>
        cases params with
        | nil => simp
        | cons cardinality params =>
            simp only [List.zipWith_cons_cons, List.flatMap_cons, sites_coerce]
            exact (ih params).append_left _
  rw [call, sites_compose]
  exact hcoerce _ args

/-- Only a generator whose values are drawn anew at each place has an offset. -/
theorem sites_generate (generator : Generator) (site : Nat) :
    (generate generator site).sites.Sublist [site] := by
  have hsites : (generate generator site).sites =
      (Form.generate generator site : Form Node).site :=
    (sites_eq _).trans (List.append_nil _)
  rw [hsites]
  cases generator with
  | guid | objectId => exact .refl _
  | _ => exact List.nil_sublist _

end Node

/-- The offset at which the token begins. -/
def Token.site (t : Token) : Nat := t.range.start.offset

/-! ### Rows -/

/-- Operators leave the offsets in the order of the terms. -/
theorem OpTree.sites_build {t : OpTree Node} {n : Node} (h : t.build = some n) :
    n.sites = t.first.sites ++ t.tail.flatMap fun entry => entry.2.sites := by
  induction t generalizing n with
  | leaf m =>
      cases h
      exact (List.append_nil _).symm
  | node op left right ihl ihr =>
      obtain ⟨l, hl, r, hr, hcombine⟩ := OpTree.build_node_eq_some.mp h
      obtain ⟨-, -, rfl⟩ := Precedence.combine_eq_ok.mp hcombine
      -- An operator that is quantified takes its left side as a sequence, which has the same
      -- offsets.
      have hleft : (Precedence.takenLeft op l).sites = l.sites := by
        cases op with
        | quantified quantifier op => exact l.sites_asSequence
        | binary op | logic op => rfl
      rw [Node.sites_operation, hleft, ihl hl, ihr hr]
      simp [OpTree.first, OpTree.tail]

/-- The tree of a row has the terms of the row in their order, so reducing keeps that of the
offsets. -/
theorem Precedence.sites_reduce {first n : Node} {tail : Tail} (h : reduce first tail = .ok n) :
    n.sites = first.sites ++ tail.flatMap fun entry => entry.2.sites := by
  have hbuild := reduce_eq_build (OpTree.ordered_ofRow first tail)
  rw [OpTree.first_ofRow, OpTree.tail_ofRow, h] at hbuild
  have hsites := OpTree.sites_build hbuild.symm
  rwa [OpTree.first_ofRow, OpTree.tail_ofRow] at hsites

namespace Parser

variable {α β : Type} {before : List Nat} {f : α → List Nat} {g : β → List Nat}

/-- The reader takes tokens off the front of the stream, and the offsets in what it yields are from
those of calls that have been read `before` and, behind them, from those of the tokens that it
takes, in their order. -/
structure Cites (before : List Nat) (f : α → List Nat) (r : Parser α) : Prop where
  ok : ∀ {s s' a}, s.Ended → r.run s = .ok a s' → s'.Ended ∧
    ∃ taken, s.ahead = taken ++ s'.ahead ∧ (f a).Sublist (before ++ taken.map Token.site)

theorem Cites.pure {a : α} (h : (f a).Sublist before) : Cites before f (pure a) where
  ok hs hrun := by
    obtain ⟨rfl, rfl⟩ := pure_ok.mp hrun
    exact ⟨hs, [], rfl, by rwa [List.map_nil, List.append_nil]⟩

theorem Cites.raise (e : ParseError) : Cites before f (throw e : Parser α) where
  ok _ hrun := (throw_ok.mp hrun).elim

/-- Readers one after the other: what the first one yields is read before the second. -/
theorem Cites.bind {r : Parser α} {k : α → Parser β} (hr : Cites before f r)
    (hk : ∀ a, Cites (f a) g (k a)) : Cites before g (r >>= k) where
  ok hs hrun := by
    obtain ⟨a, t, hfirst, hrest⟩ := bind_ok.mp hrun
    obtain ⟨ht, taken, hsplit, hsub⟩ := hr.ok hs hfirst
    obtain ⟨hs', taken', hsplit', hsub'⟩ := (hk a).ok ht hrest
    -- The tokens of the first reader come in front, and so do their offsets.
    refine ⟨hs', taken ++ taken', by rw [hsplit, hsplit', List.append_assoc], ?_⟩
    rw [List.map_append, ← List.append_assoc]
    exact hsub'.trans (hsub.append_right _)

/-- What fails does not go on. -/
theorem Cites.halts (e : ParseError) {k : α → Parser β} :
    Cites before g ((throw e : Parser α) >>= k) :=
  ⟨fun _ hrun => by
    obtain ⟨_, _, hfirst, -⟩ := bind_ok.mp hrun
    exact (throw_ok.mp hfirst).elim⟩

/-- Fewer offsets may be counted in what is read. -/
theorem Cites.weaken {f' : α → List Nat} {r : Parser α} (h : Cites before f r)
    (hf : ∀ a, (f' a).Sublist (f a)) : Cites before f' r where
  ok hs hrun := by
    obtain ⟨hs', taken, hsplit, hsub⟩ := h.ok hs hrun
    exact ⟨hs', taken, hsplit, (hf _).trans hsub⟩

/-- More may have been read before. -/
theorem Cites.enlarge {before' : List Nat} {r : Parser α} (h : Cites before f r)
    (hbefore : before.Sublist before') : Cites before' f r where
  ok hs hrun := by
    obtain ⟨hs', taken, hsplit, hsub⟩ := h.ok hs hrun
    exact ⟨hs', taken, hsplit, hsub.trans (hbefore.append_right _)⟩

/-! ### Single tokens -/

/-- The offset of a token that has been read may be that of a call, unless it is the end. -/
theorem cites_next (skip : Bool) :
    Cites before (fun t => if t.isFinish then before else before ++ [t.site]) (next skip) where
  ok {s s' t} hs hrun := by
    obtain ⟨rfl, rfl⟩ := next_ok.mp hrun
    obtain ⟨gap, -, hgap⟩ := s.exists_ahead_rest skip
    refine ⟨hs.advance skip, ?_⟩
    -- The token that is read comes behind a gap of blanks. Without one, the end is shown, which is
    -- not among the tokens ahead.
    cases hrest : s.rest skip with
    | nil =>
        have hpeek : s.peek skip = s.finish := by rw [TokenStream.peek, hrest]; rfl
        have hleft : (s.advance skip).ahead = [] := congrArg List.tail hrest
        refine ⟨gap, by rw [hleft, hgap, hrest], ?_⟩
        rw [hpeek, if_pos (Token.isFinish_iff.mpr hs)]
        exact List.sublist_append_left _ _
    | cons t others =>
        have hpeek : s.peek skip = t := by rw [TokenStream.peek, hrest]; rfl
        have hleft : (s.advance skip).ahead = others := congrArg List.tail hrest
        refine ⟨gap ++ [t], by rw [hleft, hgap, hrest, List.append_assoc]; rfl, ?_⟩
        rw [hpeek, List.map_append]
        split
        · exact List.sublist_append_left _ _
        · exact (List.sublist_append_right _ _).append_left _

/-- The reader yields nothing with offsets. -/
abbrev Passes (r : Parser α) : Prop := ∀ before, Cites before (fun _ => before) r

theorem passes_next (skip : Bool) : Passes (next skip) := by
  intro before
  refine (cites_next skip).weaken fun t => ?_
  split
  · exact .refl _
  · exact List.sublist_append_left _ _

theorem passes_pass (skip : Bool) : Passes (pass skip) := fun before =>
  ⟨fun hs hrun => (passes_next skip before).ok hs (next_ok.mpr ⟨rfl, pass_ok.mp hrun⟩)⟩

/-- The reader leaves all tokens where they are. -/
theorem passes_of_run {r : Parser α} (h : ∀ {s s' a}, r.run s = .ok a s' → s = s') : Passes r :=
  fun before => ⟨fun hs hrun => by
    obtain rfl := h hrun
    exact ⟨hs, [], rfl, List.sublist_append_left _ _⟩⟩

theorem passes_peek (skip : Bool) : Passes (peek skip) :=
  passes_of_run fun hrun => (peek_ok.mp hrun).2

theorem passes_remaining : Passes remaining := passes_of_run fun hrun => (remaining_ok.mp hrun).2

theorem passes_get : Passes (get : Parser TokenStream) :=
  passes_of_run fun hrun => (get_ok.mp hrun).2

theorem passes_expect (symbol : Symbol) : Passes (expect symbol) := by
  intro before
  refine .bind (passes_next true before) fun t => ?_
  split
  · exact .pure (.refl _)
  · exact .raise _

theorem cites_failAtNext : Cites before f (failAtNext : Parser α) :=
  .bind (passes_next true before) fun _ => .raise _

theorem passes_operator? : Passes operator? := by
  intro before
  refine .bind (passes_peek true before) fun ahead => ?_
  split
  · exact .bind (passes_pass true before) fun _ => .pure (.refl _)
  · split
    · exact .pure (.refl _)
    · refine .bind (passes_pass true before) fun _ => .bind (passes_next true before) fun t => ?_
      split
      · exact .pure (.refl _)
      · exact .raise _
      · exact .raise _

/-! ### Readers without terms inside -/

/-- What is read is an expression without calls, or none. -/
theorem cites_leaf {n : Node} (h : n.sites = []) :
    Cites before (fun n : Node => before ++ n.sites) (pure n) :=
  .pure (by rw [h, List.append_nil])

/-- A number has no calls in it. -/
theorem sites_number {text : List Char} {n : Node}
    (h : intNode? text = some n ∨ doubleNode? text = some n) : n.sites = [] := by
  rcases h with h | h
  · unfold intNode? at h
    split at h
    · cases h
      rfl
    · obtain ⟨i, -, rfl⟩ := Option.map_eq_some_iff.mp h
      rfl
  · simp only [doubleNode?, Option.bind_eq_bind, Option.bind_eq_some_iff] at h
    obtain ⟨x, -, _, -, h⟩ := h
    cases h
    rfl

theorem cites_number (token : Token) (negative : Bool) :
    Cites before (fun n => before ++ n.sites) (number token negative) := by
  unfold number
  extract_lets signed node?
  have hsites : ∀ n ∈ node?, n.sites = [] := by
    intro n hn
    unfold node? at hn
    split at hn
    · exact sites_number (.inl hn)
    · exact sites_number (.inr hn)
    · cases hn
  cases hnode : node? with
  | none => exact .raise _
  | some n => exact cites_leaf (hsites n hnode)

theorem passes_key : Passes key := by
  intro before
  refine .bind (passes_next true before) fun token => ?_
  split
  · exact .pure (.refl _)
  · exact .pure (.refl _)
  · exact .pure (.refl _)
  · exact .raise _

theorem passes_fieldName (token : Token) : Passes (fieldName token) := by
  intro before
  unfold fieldName
  split
  · exact .pure (.refl _)
  · refine .bind (passes_next true before) fun inner => ?_
    split
    · exact .bind (passes_expect _ before) fun _ => .pure (.refl _)
    · exact .raise _
  · exact .raise _

/-- The offsets of the calls in a step. -/
abbrev stepSites (step : PathStep Node) : List Nat := step.children.flatMap Node.sites

theorem cites_placeStep (token : Token) (text : List Char) :
    Cites before (fun step => before ++ stepSites step) (placeStep token text) := by
  unfold placeStep
  split
  · exact .pure (by simp [PathStep.children])
  · exact .raise _

theorem cites_minusTerm (token : Token) :
    Cites before (fun n => before ++ n.sites) (minusTerm token) := by
  refine .bind (passes_peek false before) fun ahead => ?_
  split
  · exact .bind (passes_pass false before) fun _ => cites_number ahead true
  · exact .bind (passes_pass false before) fun _ => cites_number ahead true
  · exact .raise _

/-- A generator is called where its name is written, in front of its arguments. -/
theorem cites_callOf (token : Token) (name : String) (args : List Node) :
    Cites (before ++ [token.site] ++ args.flatMap Node.sites) (fun n => before ++ n.sites)
      (callOf token name args) := by
  unfold callOf
  split
  · -- The offset of the name is dropped by a function, whose arguments have their own, and kept by
    -- a generator, which drops the arguments.
    rename_i function _
    refine .pure ?_
    rw [List.append_assoc]
    exact ((Node.sites_call function args).trans (List.sublist_append_right _ _)).append_left _
  · rename_i generator _
    refine .pure ?_
    exact ((Node.sites_generate generator _).append_left before).trans
      (List.sublist_append_left _ _)
  · exact .raise _

/-! ### Readers of terms

For each reader of terms the proof follows the text of the reader: a `bind` for every step of it,
with what has been read so far as the state, and a split where the reader looks at a token. In the
end the offsets of the composed expression are those of the state by the lemma on the composition.
-/

section

variable {term : Scope → Parser Node}
variable (hterm : ∀ before scope, Cites before (fun n => before ++ n.sites) (term scope))

include hterm

/-- Bounds are two terms one after the other, so the offsets of the upper one are behind those of
the lower one. -/
theorem cites_rightTerm (op : Operator) (scope : Scope) :
    Cites before (fun n => before ++ n.sites) (rightTerm term op scope) := by
  refine .bind (hterm before scope) fun right => ?_
  dsimp only
  split
  · refine .bind (passes_next true _) fun joint => ?_
    split
    · refine .bind (hterm _ scope) fun upper => ?_
      split
      · exact .halts _
      split
      · exact .halts _
      · refine .pure ?_
        rw [Node.sites_bounds, List.append_assoc]
    · exact .halts _
  · exact .pure (.refl _)

/-- The offsets of the calls in the terms behind operators. -/
abbrev tailSites (tail : Precedence.Tail) : List Nat := tail.flatMap fun entry => entry.2.sites

/-- The terms behind operators, by induction on the bound: each is read behind the one before it. -/
theorem cites_operations (scope : Scope) (bound : Nat) :
    Cites before (fun tail => before ++ tailSites tail) (operations term scope bound) := by
  induction bound generalizing before with
  | zero => exact .pure (by simp)
  | succ bound ih =>
      refine .bind (passes_operator? before) fun op? => ?_
      split
      · exact .pure (by simp)
      · refine .bind (cites_rightTerm hterm _ scope) fun right => .bind ih fun rest => .pure ?_
        simp

/-- Reducing the terms leaves their offsets in order. -/
theorem cites_joined (scope : Scope) :
    Cites before (fun n => before ++ n.sites) (joined term scope) := by
  refine .bind (hterm before scope) fun first => .bind (passes_remaining _) fun n =>
    .bind (cites_operations hterm scope n) fun tail => ?_
  split
  · rename_i node hreduce
    refine .pure ?_
    rw [Precedence.sites_reduce hreduce, List.append_assoc]
  · exact .raise _

/-- A shorthand reads a field of its name and calls nothing. -/
theorem cites_entryValue (name : String) (scope : Scope) :
    Cites before (fun entry => before ++ entry.1.sites) (entryValue term name scope) := by
  refine .bind (passes_next true before) fun separator => ?_
  split
  · exact .bind (cites_joined hterm scope) fun value =>
      .bind (passes_next true _) fun t => .pure (.refl _)
  · have hleaf : (Node.shorthand name).sites = [] := rfl
    exact .pure (by rw [hleaf, List.append_nil])

/-- Entries are read one after the other; the counters behind their keys do not matter. -/
theorem cites_entries (scope : Scope) (bound : Nat) (others : List String) (counter : Nat) :
    Cites before (fun entries => before ++ entries.flatMap fun entry => entry.2.sites)
      (entries term scope bound others counter) := by
  induction bound generalizing before others counter with
  | zero => exact .bind (passes_next true before) fun t => .raise _
  | succ bound ih =>
      refine .bind (passes_key before) fun written =>
        .bind (cites_entryValue hterm written scope) ?_
      rintro ⟨value, terminator⟩
      dsimp only
      split
      · refine .bind (ih _ _) fun rest => .pure ?_
        simp [Node.sites_asScalar]
      · split
        · refine .pure ?_
          simp [Node.sites_asScalar]
        · exact .raise _

theorem cites_document (scope : Scope) :
    Cites before (fun n => before ++ n.sites) (document term scope) := by
  refine .bind (passes_peek true before) fun ahead => ?_
  split
  · exact .bind (passes_pass true before) fun _ => cites_leaf rfl
  · refine .bind (passes_remaining before) fun n => .bind (cites_entries hterm scope n _ _)
      fun entries => .pure ?_
    rw [Node.sites_document]

/-- Items or arguments are read one after the other. -/
theorem cites_listed (scope : Scope) (close : Symbol) (bound : Nat) :
    Cites before (fun items => before ++ items.flatMap Node.sites)
      (listed term scope close bound) := by
  induction bound generalizing before with
  | zero => exact cites_failAtNext
  | succ bound ih =>
      refine .bind (cites_joined hterm scope) fun item => .bind (passes_next true _) fun t => ?_
      split
      · refine .bind ih fun rest => .pure ?_
        simp
      · split
        · exact .pure (by simp)
        · exact .raise _

theorem cites_list (scope : Scope) (close : Symbol) :
    Cites before (fun items => before ++ items.flatMap Node.sites) (list term scope close) := by
  refine .bind (passes_peek true before) fun ahead => ?_
  split
  · exact .bind (passes_pass true before) fun _ => .pure (by simp)
  · exact .bind (passes_remaining before) fun n => cites_listed hterm scope close n

theorem cites_array (scope : Scope) :
    Cites before (fun n => before ++ n.sites) (array term scope) := by
  refine .bind (cites_list hterm scope .rightBracket) fun items => .pure ?_
  simp [Node.sites_array, List.flatMap_map, Node.sites_asScalar]

/-- Only an expression in brackets may have calls in it. -/
theorem cites_bracketed :
    Cites before (fun step => before ++ stepSites step) (bracketed term) := by
  refine .bind (passes_peek true before) fun ahead => ?_
  split
  · exact .bind (passes_pass true before) fun _ => cites_placeStep ahead _
  · refine .bind (passes_pass true before) fun _ => .bind (passes_next true before) fun token => ?_
    split
    · exact cites_placeStep token _
    · exact .raise _
  · exact .bind (passes_pass true before) fun _ => .pure (by simp [PathStep.children])
  · refine .bind (cites_joined hterm .current) fun part => .pure ?_
    split <;> simp [stepSites, PathStep.children]

/-- The steps of a path, by induction on the bound; those behind a step are read behind it. -/
theorem cites_steps (bound : Nat) :
    Cites before (fun steps => before ++ (steps.flatMap PathStep.children).flatMap Node.sites)
      (steps term bound) := by
  induction bound generalizing before with
  | zero => exact .pure (by simp)
  | succ bound ih =>
      refine .bind (passes_peek false before) fun ahead => ?_
      split
      · refine .bind (passes_pass false before) fun _ => .bind (passes_next false before) fun t =>
          .bind (passes_fieldName t before) fun _ => .bind ih fun rest => .pure ?_
        simp [PathStep.children]
      · refine .bind (passes_pass false before) fun _ => .bind
          (.bind (cites_bracketed hterm) fun step => .bind (passes_expect _ _) fun _ =>
            .pure (.refl _)) fun step => ?_
        split
        · exact .pure (by simp)
        · refine .bind ih fun rest => .pure ?_
          simp
      · exact .pure (by simp)

/-- The steps, and behind them what is evaluated for each value. The root and the first field have
no offsets. -/
theorem cites_pathBehind (root : PathRoot) (field : String) (scope : Scope) :
    Cites before (fun n => before ++ n.sites) (pathBehind term root field scope) := by
  refine .bind (passes_remaining before) fun n => .bind (cites_steps hterm n) fun more => ?_
  extract_lets named fields path
  have hpath : path.sites = (more.flatMap PathStep.children).flatMap Node.sites := by
    refine (Node.sites_path ..).trans ?_
    split <;> rfl
  -- So the state behind the steps is the one behind the path.
  rw [← hpath]
  refine .bind (passes_peek false _) fun ahead => ?_
  split
  · refine .bind (passes_pass false _) fun _ => .bind (hterm _ .current) fun part => .pure ?_
    rw [Node.sites_map, List.append_assoc]
  · exact .pure (.refl _)

theorem cites_sigilPath (root : PathRoot) (scope : Scope) :
    Cites before (fun n => before ++ n.sites) (sigilPath term root scope) := by
  refine .bind (passes_peek false before) fun ahead => ?_
  split
  · exact .bind (passes_pass false before) fun _ => .bind (passes_next true before) fun t =>
      .bind (passes_fieldName t before) fun field => cites_pathBehind hterm root field scope
  · exact cites_pathBehind hterm root "" scope

/-- The source stands in front of the inner part. -/
theorem cites_sequenceArgs (scope : Scope) :
    Cites before (fun args => before ++ args.1.sites ++ args.2.sites)
      (sequenceArgs term scope) := by
  refine .bind (passes_expect _ before) fun _ => .bind (hterm before scope) fun source =>
    .bind (passes_expect _ _) fun _ => .bind (cites_joined hterm _) fun part => .pure ?_
  rw [Node.sites_asSequence]

theorem cites_sortOrder? (scope : Scope) :
    Cites before (fun order => before ++ order.toList.flatMap Node.sites)
      (sortOrder? term scope) := by
  refine .bind (passes_peek true before) fun ahead => ?_
  split
  · refine .bind (passes_pass true before) fun _ => .bind (cites_joined hterm scope)
      fun order => ?_
    split
    · exact .halts _
    · exact .pure (by simp)
  · exact .pure (by simp)

/-- The three functions on sequences take their arguments alike. -/
theorem cites_sequenceCall (scope : Scope) :
    Cites before (fun n => before ++ n.sites) (mapCall term scope) ∧
      Cites before (fun n => before ++ n.sites) (filterCall term scope) ∧
      Cites before (fun n => before ++ n.sites) (sortCall term scope) := by
  refine ⟨.bind (cites_sequenceArgs hterm scope) fun args => ?_,
    .bind (cites_sequenceArgs hterm scope) fun args => ?_,
    .bind (cites_sequenceArgs hterm scope) fun args => ?_⟩
  · refine .bind (passes_expect _ _) fun _ => .pure ?_
    rw [Node.sites_map, List.append_assoc]
  · refine .bind (passes_expect _ _) fun _ => .pure ?_
    rw [Node.sites_filter, List.append_assoc]
  · refine .bind (cites_sortOrder? hterm scope) fun order => .bind (passes_expect _ _) fun _ =>
      .pure ?_
    rw [Node.sites_sort]
    simp

/-- A name with its arguments: the offset of the name may be that of the call, in front of those in
the arguments. -/
theorem cites_call (token : Token) (name : String) (scope : Scope) :
    Cites (before ++ [token.site]) (fun n => before ++ n.sites) (call term token name scope) := by
  refine .bind (passes_expect _ _) fun _ => .bind (cites_list hterm scope _) fun args => ?_
  split
  · rename_i test ifTrue ifFalse
    split
    · split
      · exact .halts _
      · refine .pure ?_
        rw [Node.sites_conditional]
        simp
    · exact cites_callOf token name _
  · exact cites_callOf token name _

/-- Of what a word begins only a call of another name may use the offset of the word. -/
theorem cites_wordTerm (token : Token) (word : String) (scope : Scope) :
    Cites (before ++ [token.site]) (fun n => before ++ n.sites)
      (wordTerm term token word scope) := by
  obtain ⟨hmap, hfilter, hsort⟩ := cites_sequenceCall hterm scope
  have hbefore : before.Sublist (before ++ [token.site]) := List.sublist_append_left _ _
  unfold wordTerm
  -- Constants have no calls, and the functions on sequences and paths only those inside them.
  split
  · exact (cites_leaf rfl).enlarge hbefore
  split
  · exact (cites_leaf rfl).enlarge hbefore
  split
  · exact (cites_leaf rfl).enlarge hbefore
  refine .bind (passes_peek true _) fun ahead => ?_
  split
  · split
    · exact hmap.enlarge hbefore
    split
    · exact hfilter.enlarge hbefore
    split
    · exact hsort.enlarge hbefore
    · exact cites_call hterm token word scope
  · exact (cites_pathBehind hterm _ word scope).enlarge hbefore

theorem cites_documentsTerm : Cites before (fun n => before ++ n.sites) (documentsTerm term) := by
  refine .bind (passes_peek false before) fun ahead => ?_
  split
  · refine .bind (passes_pass false before) fun _ => .bind (hterm before .source) fun part =>
      .pure ?_
    rw [Node.sites_map]
    exact .refl _
  · exact cites_leaf rfl

theorem cites_atTerm (scope : Scope) :
    Cites before (fun n => before ++ n.sites) (atTerm term scope) := by
  refine .bind (passes_peek false before) fun ahead => ?_
  split
  · exact .bind (passes_pass false before) fun _ => cites_leaf rfl
  · exact .bind (passes_pass false before) fun _ => cites_leaf rfl
  · exact cites_sigilPath hterm _ scope

theorem cites_termWith (scope : Scope) :
    Cites before (fun n => before ++ n.sites) (termWith term scope) := by
  refine .bind (cites_next true) fun token => ?_
  -- Only a word begins a call, and no word is the end.
  have hbefore : before.Sublist (if token.isFinish then before else before ++ [token.site]) := by
    split
    · exact .refl _
    · exact List.sublist_append_left _ _
  have hword {word : String} (hkind : token.kind = .word word) :
      (if token.isFinish then before else before ++ [token.site]) = before ++ [token.site] := by
    simp [Token.isFinish, hkind]
  generalize (if token.isFinish then before else before ++ [token.site]) = state at hbefore hword ⊢
  split
  case h_4 word hkind =>
    rw [hword hkind]
    exact cites_wordTerm hterm token word scope
  all_goals refine Cites.enlarge ?_ hbefore
  · exact cites_minusTerm token
  · exact cites_number token false
  · exact cites_number token false
  · exact cites_leaf rfl
  · exact cites_documentsTerm hterm
  · exact cites_document hterm scope
  · exact cites_array hterm scope
  · exact cites_atTerm hterm scope
  · exact cites_sigilPath hterm _ scope
  · refine .bind (cites_joined hterm scope) fun inner => .bind (passes_expect _ _) fun _ =>
      .pure ?_
    rw [Node.sites_parenthesized]
  · exact .raise _

end

/-- Terms inside one another, to any depth. -/
theorem cites_termUpTo (bound : Nat) (before : List Nat) (scope : Scope) :
    Cites before (fun n => before ++ n.sites) (termUpTo bound scope) := by
  induction bound generalizing before scope with
  | zero => exact cites_failAtNext
  | succ bound ih => exact cites_termWith ih scope

/-- What is behind the expression in the text is looked at, but gives no offset. -/
theorem cites_inMode (mode : ParseMode) (scope : Scope) :
    Cites before (fun n => before ++ n.sites) (inMode mode scope) := by
  cases mode with
  | single => exact .bind (passes_remaining before) fun n => cites_termUpTo n before scope
  | full =>
      refine .bind (.bind (passes_remaining before) fun n => cites_joined (cites_termUpTo n) scope)
        fun node => .bind (passes_get _) fun _ => ?_
      split
      · exact .pure (.refl _)
      · exact .bind (passes_peek true _) fun _ => .halts _

end Parser

/-! ### Texts -/

/-- The tokens of a text begin one behind the other. -/
theorem Lexer.Tiles.ascend {before after : List Char} {tokens : List Token}
    (h : Tiles before tokens after) :
    (∀ t ∈ tokens, Text.bytes before ≤ t.site) ∧ (tokens.map Token.site).Pairwise (· < ·) := by
  induction h with
  | finish before =>
      exact ⟨List.forall_mem_singleton.mpr (Nat.le_refl _), List.pairwise_singleton ..⟩
  | @token before lexeme after t others hkind hlexeme hcovers hothers ih =>
      obtain ⟨hle, hpairwise⟩ := ih
      have hsite : t.site = Text.bytes before := congrArg Position.offset hcovers.start
      have hlt : ∀ u ∈ others, t.site < u.site := by
        intro u hu
        have hbehind := hle u hu
        have hpos := Text.bytes_pos hlexeme
        rw [Text.bytes_append] at hbehind
        omega
      refine ⟨List.forall_mem_cons.mpr ⟨hsite.ge, fun u hu => ?_⟩, ?_⟩
      · exact hsite ▸ (hlt u hu).le
      · rw [List.map_cons, List.pairwise_cons]
        exact ⟨List.forall_mem_map.mpr hlt, hpairwise⟩

theorem TokenStream.ahead_ofTokens (tokens : List Token) :
    (ofTokens tokens).ahead.Sublist tokens := by
  unfold ofTokens
  split
  · exact List.nil_sublist _
  · split
    · exact List.dropLast_sublist _
    · exact .refl _

/-- The calls of generators in an expression have different offsets, the later ones greater ones. -/
theorem sites_ascend {code : String} {scope : Scope} {mode : ParseMode} {n : Node}
    (h : parse code scope mode = .ok n) : n.sites.Pairwise (· < ·) := by
  obtain ⟨s, s', hs, hrun⟩ := parse_ok.mp h
  have hcites : Parser.Cites [] (fun n => [] ++ n.sites) (Parser.inMode mode scope) :=
    Parser.cites_inMode mode scope
  obtain ⟨-, taken, hsplit, hsub⟩ := hcites.ok (TokenStream.ended_of_text hs) hrun
  obtain ⟨tokens, htokens, rfl⟩ := TokenStream.ofText_ok.mp hs
  have htaken : taken.Sublist tokens := by
    have hahead := TokenStream.ahead_ofTokens tokens
    rw [hsplit] at hahead
    exact (List.sublist_append_left _ _).trans hahead
  have htiles := (Lexer.cuts_of_tokensFrom htokens).tiles Position.behind_nil.symm
  exact htiles.ascend.2.sublist (hsub.trans (htaken.map Token.site))

end DocQuery
