import DocQuery.Proofs.Paths
/-!
# DocQuery.Proofs.Restated.Parts

What is asked of a phrase that is restated, and the layers that put values together: constants,
arrays, documents and functions on sequences.

What is asked (`Restatable`) is that words and numbers can stand in a text and that floating-point
numbers are read back. Two more conditions are only for what they bring: without empty names in
front of paths the text stays the same, and without floating-point numbers the meaning does.
-/

namespace DocQuery

/-- The token that is asked for can stand in a text. -/
def Mark.IsProper : Mark → Prop
  | .token _ kind => kind.IsProper
  | _ => True

namespace Phrase

/-! ### What is asked of a phrase -/

/-- No path begins with a field whose name is written as the empty string. An entry without a
value is such a path. -/
def Layer.IsNamed : Layer Phrase → Prop
  | .path (.sigil _ (some field)) _ _ => field ≠ .quoted ""
  | .document entries => ∀ entry ∈ entries, entry.2 = none → entry.1 ≠ .string ""
  | _ => True

/-- The layer is no floating-point number. -/
def Layer.IsExact : Layer Phrase → Prop
  | .number _ isDouble _ => isDouble = false
  | _ => True

/-- A floating-point number is read back from its canonical text, as far as this text tells. -/
def Layer.ReadsBack : Layer Phrase → Prop
  | .number negative true text =>
    ∀ x, numberNode? negative true text = some (Node.double x) → Number.ReadsBack x
  | _ => True

/-- The phrase can be restated; under the conditions `named` and `exact`, with the same text and
the same meaning. -/
structure Restatable (named exact : Prop) (e : Phrase) : Prop where
  wellFormed : e.WellFormed
  isProper : ∀ mark ∈ e.marks, mark.IsProper
  readsBack : e.Everywhere Layer.ReadsBack
  isNamed : named → e.Everywhere Layer.IsNamed
  isExact : exact → e.Everywhere Layer.IsExact

/-- Commas between the parts take nothing away from these. -/
theorem mem_separated {parts : List (List Mark)} {marks : List Mark} (h : marks ∈ parts)
    {mark : Mark} (hmark : mark ∈ marks) : mark ∈ separated parts := by
  induction parts with
  | nil => cases h
  | cons first rest ih =>
      rcases List.mem_cons.mp h with rfl | h
      · cases rest with
        | nil => exact hmark
        | cons next rest => exact List.mem_append_left _ hmark
      · rw [separated_cons _ (List.ne_nil_of_mem h)]
        exact List.mem_append_right _ (List.mem_cons_of_mem _ (ih h))

/-- The marks of a part are among those of the phrase. -/
theorem mem_marks {e part : Phrase} (hpart : part ∈ e.children) {mark : Mark}
    (h : mark ∈ part.marks) : mark ∈ e.marks := by
  -- Case by case where a layer writes its parts: between brackets, behind a key, among the steps,
  -- or behind an operator.
  rw [marks_eq]
  obtain ⟨layer⟩ := e
  cases layer with
  | number | truth | null | string | parameter => cases hpart
  | documents selector =>
      obtain ⟨rfl⟩ := Option.mem_toList.mp hpart
      exact List.mem_append_right _ h
  | document entries =>
      obtain ⟨⟨key, value⟩, hentry, hvalue⟩ := List.mem_flatMap.mp hpart
      obtain ⟨rfl⟩ := Option.mem_toList.mp hvalue
      refine List.mem_append_left _ (List.mem_cons_of_mem _ ?_)
      exact mem_separated (List.mem_map_of_mem hentry) (List.mem_append_right _ h)
  | array items =>
      refine List.mem_append_left _ (List.mem_cons_of_mem _ ?_)
      exact mem_separated (List.mem_map_of_mem hpart) h
  | call name site args =>
      refine List.mem_append_left _ (List.mem_append_right _ ?_)
      exact mem_separated (List.mem_map_of_mem hpart) h
  | path start ws behind =>
      rcases List.mem_append.mp hpart with hpart | hpart
      · obtain ⟨w, hw, hpart⟩ := List.mem_flatMap.mp hpart
        refine List.mem_append_left _ (List.mem_append_right _ (List.mem_flatMap.mpr ⟨w, hw, ?_⟩))
        cases w with
        | part e =>
            cases List.mem_singleton.mp hpart
            exact List.mem_append_left _ (List.mem_cons_of_mem _ h)
        | _ => cases hpart
      · obtain ⟨rfl⟩ := Option.mem_toList.mp hpart
        exact List.mem_append_right _ (List.mem_cons_of_mem _ h)
  | joined first tail =>
      rcases List.mem_cons.mp hpart with rfl | hpart
      · exact List.mem_append_left _ h
      · obtain ⟨entry, hentry, rfl⟩ := List.mem_map.mp hpart
        refine List.mem_append_right _ (List.mem_flatMap.mpr ⟨entry, hentry, ?_⟩)
        exact List.mem_append_right _ h
  | map source part | filter source part | parens inner | bounds lower upper =>
      simp only [children, layer, Layer.children, List.mem_cons, List.not_mem_nil,
        or_false] at hpart
      rcases hpart with rfl | rfl <;> simp [layer, Layer.marks, sequenceMarks, h]
  | sort source key order =>
      simp only [children, layer, Layer.children, List.mem_cons, Option.mem_toList] at hpart
      cases order <;> rcases hpart with rfl | rfl | ⟨⟨⟩⟩ <;>
        simp [layer, Layer.marks, sequenceMarks, h]

/-- All that is asked of a phrase is asked of its parts. -/
theorem Restatable.part {named exact : Prop} {e part : Phrase} (h : e.Restatable named exact)
    (hpart : part ∈ e.children) : part.Restatable named exact where
  wellFormed := h.wellFormed.part hpart
  isProper _ hmark := h.isProper _ (mem_marks hpart hmark)
  readsBack := h.readsBack.part hpart
  isNamed hnamed := (h.isNamed hnamed).part hpart
  isExact hexact := (h.isExact hexact).part hpart

variable {named exact : Prop} {scope : Scope}

open Node (Kept)

/-! ### Values -/

/-- What is no path is asked for nothing more where a sequence is asked for. -/
theorem Extends.of_not_path {n : Node} {e : Phrase}
    (h : ∀ root steps, n.form ≠ .path root steps) : Extends n e where
  path hopen := by
    obtain ⟨info, root, steps, rfl⟩ := Node.exists_of_isOpenPath hopen
    exact absurd rfl (h root steps)
  sequence := by
    obtain ⟨info, form⟩ := n
    rw [Node.reread_mk]
    cases form with
    | path root steps => exact absurd rfl (h root steps)
    | _ => rfl

/-- A node that stands in the text as it is, whatever the scope. -/
theorem Restates.of_node {n m : Node} {e : Phrase} (hwrites : e.Writes n.source)
    (hkeeps : n.keepsBounds = true) (hkept : ∀ same, Kept named same exact n.reread m)
    (hnode : ∀ scope', e.node scope' = some m) : Restates named exact scope n e := by
  refine ⟨hwrites, fun scope' => ?_⟩
  rw [hkeeps, hnode]
  exact .some (hkept _)

theorem keepsBounds_constant (type : ExprType) (value : Value) (source : String) :
    (Node.constant type value source).keepsBounds = true :=
  Node.keepsBounds_compose ..

/-- A constant is restated by any phrase that is written as its text and read as itself. -/
theorem renders_constant {e e' : Phrase} {type : ExprType} {value : Value} {source : String}
    (hwrites : e'.Writes source)
    (hnode : ∀ scope', e'.node scope' = some (Node.constant type value source))
    (hbounds : e'.isBounds = e.isBounds) (hterm : e'.isTerm = true)
    (hplain : e.isPlain = true → e'.isPlain = true) (hparameter : e'.isParameter = e.isParameter) :
    Renders named exact scope e (Node.constant type value source) e' where
  restates := .of_node hwrites (keepsBounds_constant ..)
    (fun same => by rw [Node.reread_constant]; exact .refl _) hnode
  isBounds := hbounds
  isTerm _ := hterm
  isPlain := hplain
  isParameter := hparameter
  extend := .of_not_path (by rintro _ _ ⟨⟩)

/-- The integer that a number without a period is read as. -/
theorem exists_int {negative : Bool} {text : String} {n : Node}
    (h : numberNode? negative false text = some n) :
    ∃ type value, ∃ i : Int, n = Node.constant type value (Number.intText i) ∧
      Number.readInt? (if negative then '-' :: text.toList else text.toList) = some i := by
  rw [numberNode?, if_neg Bool.false_ne_true, Parser.intNode?] at h
  split at h
  · rename_i i hi
    cases h
    exact ⟨_, _, i.toInt, rfl, Number.readInt_of_readInt32 hi⟩
  · obtain ⟨i, hi, rfl⟩ := Option.map_eq_some_iff.mp h
    exact ⟨_, _, i.toInt, rfl, Number.readInt_of_readInt64 hi⟩

/-- The number that a number with a period is read as. -/
theorem exists_double {negative : Bool} {text : String} {n : Node}
    (h : numberNode? negative true text = some n) :
    ∃ x, n = Node.double x ∧
      Double.read? (if negative then '-' :: text.toList else text.toList) = some x := by
  simp only [numberNode?, if_true, Parser.doubleNode?, Option.bind_eq_bind,
    Option.bind_eq_some_iff] at h
  obtain ⟨x, hx, _, -, h⟩ := h
  exact ⟨x, (Option.some.inj h).symm, hx⟩

/-- An integer is restated by its digits. -/
theorem exists_int_number {negative : Bool} {text : String} {n : Node}
    (hn : numberNode? negative false text = some n) :
    ∃ e', Renders named exact scope (mk (.number negative false text)) n e' := by
  obtain ⟨type, value, i, rfl, hread⟩ := exists_int hn
  refine ⟨_, renders_constant (writes_int i) (fun scope' => ?_) rfl rfl (fun h => ?_) rfl⟩
  · rw [node_eq]
    exact numberNode_digitsText hn hread
  · -- A whole number may not stand where a place could be meant.
    rw [isPlain_eq] at h
    cases negative <;> cases h

/-- A number with a period is not negative unless a minus sign stands in front. -/
theorem isNegative_double {text : String} {x : Double}
    (hproper : (TokenKind.double text).IsProper) (hread : Double.read? text.toList = some x) :
    x.isNegative = false := by
  change text.toList.head?.any Char.isDigit = true at hproper
  cases htext : text.toList with
  | nil =>
      rw [htext] at hproper
      cases hproper
  | cons c rest =>
      rw [htext] at hproper hread
      exact Number.isNegative_of_read hproper hread

/-- A floating-point number is restated by its places. It is the same number if these are read back,
which is asked for. -/
theorem exists_double_number {negative : Bool} {text : String} {n : Node}
    (hfits : (mk (.number negative true text)).Restatable named exact)
    (hn : numberNode? negative true text = some n) :
    ∃ e', Renders named exact scope (mk (.number negative true text)) n e' := by
  obtain ⟨x, rfl, hread⟩ := exists_double hn
  have hback : Number.ReadsBack x := hfits.readsBack.layer x hn
  obtain ⟨y, hnode, hplaces⟩ := numberNode_placesText hback
  refine ⟨mk (.number x.isNegative true (Number.placesText x)),
    .of_node (m := Node.double y) (writes_double x) (keepsBounds_constant ..) (fun same => ?_)
      fun scope' => ?_, rfl, fun _ => rfl, fun h => ?_, rfl, .of_not_path (by rintro _ _ ⟨⟩)⟩
  · -- Neither number is a path; their texts are not for `rfl` to compare.
    have hclosed (z : Double) : (Node.double z).isOpenPath = false := rfl
    rw [Node.double, Node.reread_constant]
    refine .compose .nil (fun _ => ?_) ((hclosed y).trans (hclosed x).symm) fun hexact => ?_
    · rw [hplaces]
    · cases (hfits.isExact hexact).layer
  · rw [node_eq]
    exact hnode
  · rw [isPlain_eq] at h ⊢
    cases negative with
    | true => cases h
    | false =>
        have hproper : (TokenKind.double text).IsProper :=
          hfits.isProper (.token false (.double text)) (by
            rw [marks_eq]
            exact List.mem_singleton_self _)
        rw [layer]
        rw [isNegative_double hproper hread]
        rfl

theorem exists_number {negative isDouble : Bool} {text : String} {n : Node}
    (hfits : (mk (.number negative isDouble text)).Restatable named exact)
    (hn : numberNode? negative isDouble text = some n) :
    ∃ e', Renders named exact scope (mk (.number negative isDouble text)) n e' := by
  cases isDouble with
  | false => exact exists_int_number hn
  | true => exact exists_double_number hfits hn

/-- The name of a parameter is kept as it is written, word or digits. -/
theorem exists_parameter {isInt : Bool} {name : String}
    (hfits : (mk (.parameter isInt name)).Restatable named exact) :
    ∃ e', Renders named exact scope (mk (.parameter isInt name)) (Node.parameter name) e' := by
  have hwritten : (if isInt then TokenKind.int name else .word name).IsWritten := by
    have hproper := hfits.isProper (.token true (if isInt then .int name else .word name)) (by
      rw [marks_eq]
      exact List.mem_cons_of_mem _ (List.mem_singleton_self _))
    cases isInt <;> exact hproper
  have hkeeps : (Node.parameter name).keepsBounds = true := by
    rw [Node.parameter, Node.keepsBounds_varying]
    exact Node.keepsBounds_compose ..
  refine ⟨_, ⟨.of_node (m := Node.parameter name) (writes_parameter hwritten) hkeeps
    (fun same => ?_) fun scope' => ?_, rfl,
    fun _ => rfl, fun _ => rfl, rfl, .of_not_path (by rintro _ _ ⟨⟩)⟩⟩
  · rw [Node.reread_parameter]
    exact .refl _
  · rw [node_eq]
    rfl

theorem restates_documents : Restates named exact scope Node.documents (mk (.documents none)) := by
  refine .of_node (m := Node.documents) writes_documents ?_ (fun same => ?_) fun scope' => ?_
  · exact Node.keepsBounds_mk ..
  · rw [Node.reread_documents]
    exact .refl _
  · rw [node_eq]
    rfl

/-! ### Functions on sequences -/

/-- A sequence and what is evaluated for its elements are read as such again, in the scope in
which the part was read. -/
theorem again_sequence {source part : Phrase} {a b : Node} {inner : Scope}
    (hsource : RestatesAs named exact scope a a.reread.rereadSequence source)
    (hscalar : a.isScalar = false)
    (hinner : inner = if a.info.type = .source then .source else .current)
    (hpart : Restates named exact inner b part) (scope' : Scope) :
    Again (a.keepsBounds && b.keepsBounds)
      (fun ab => Kept named (scope' = scope) exact a.reread.rereadSequence ab.1 ∧
        Kept named (scope' = scope) exact b.reread ab.2)
      (sequenceNodes node scope' source part) := by
  refine (hsource.again scope').bind fun a' ha => ?_
  have hscalar' : a'.isScalar = false := by
    rw [ha.isScalar, Node.isScalar, Node.info_rereadSequence, Node.info_reread]
    exact hscalar
  have htype : a'.info.type = a.info.type := by
    rw [ha.type, Node.info_rereadSequence, Node.info_reread]
  have hsequence : a'.asSequence = a' := by
    rw [Node.asSequence, hscalar', if_neg Bool.false_ne_true]
  simp only [hsequence, htype, ← hinner]
  rw [← Bool.and_true b.keepsBounds]
  exact (hpart.inner (scope' = scope)).bind fun b' hb => .some ⟨ha, hb⟩

section

variable {source part : Phrase} {a b : Node} {inner : Scope}
  (hsource : RestatesAs named exact scope a a.reread.rereadSequence source)
  (hterm : source.isTerm = true) (hscalar : a.isScalar = false)
  (hinner : inner = if a.info.type = .source then .source else .current)
  (hpart : RestatesItem named exact inner b part)

include hsource hterm hscalar hinner hpart

/-- `MAP` keeps the bounds that both of its parts keep, and is read again as `MAP` of both. -/
theorem restates_map : Restates named exact scope (Node.map a b) (mk (.map source part)) := by
  refine ⟨writes_map hsource.writes hterm hpart.1.writes hpart.2, fun scope' => ?_⟩
  have hkeeps : (Node.map a b).keepsBounds = (a.keepsBounds && b.keepsBounds && true) := by
    rw [Node.map, Node.keepsBounds_compose]
    simp [Form.losesBounds, Form.children]
  rw [hkeeps, node_eq, Node.reread_map]
  exact (again_sequence hsource hscalar hinner hpart.1 scope').bind fun ab hab =>
    .some (.map hab.1 hab.2)

theorem restates_filter :
    Restates named exact scope (Node.filter a b) (mk (.filter source part)) := by
  refine ⟨writes_filter hsource.writes hterm hpart.1.writes hpart.2, fun scope' => ?_⟩
  have hkeeps : (Node.filter a b).keepsBounds = (a.keepsBounds && b.keepsBounds && true) := by
    rw [Node.filter, Node.keepsBounds_compose]
    simp [Form.losesBounds, Form.children]
  rw [hkeeps, node_eq, Node.reread_filter]
  exact (again_sequence hsource hscalar hinner hpart.1 scope').bind fun ab hab =>
    .some (.filter hab.1 hab.2)

/-- The order of a `SORT` may be missing; if it is there, it is read again as one value. -/
theorem restates_sort {order : Option Node} {orderPart : Option Phrase}
    (horder : Option.Rel (fun n e => RestatesItem named exact scope n e ∧ n.isScalar = true)
      order orderPart) :
    Restates named exact scope (Node.sort a b order) (mk (.sort source part orderPart)) := by
  have hwrites : Option.Rel WritesItem orderPart (order.map Node.source) := by
    cases horder with
    | none => exact .none
    | some h => exact .some ⟨h.1.1.writes, h.1.2⟩
  have hkeeps : (Node.sort a b order).keepsBounds =
      (a.keepsBounds && b.keepsBounds && (order.toList.all Node.keepsBounds && true)) := by
    unfold Node.sort
    rw [Node.keepsBounds_compose]
    simp [Form.losesBounds, Form.children, Bool.and_assoc]
  -- The order by itself, since it is read after the other two.
  have hagain (scope' : Scope) : Again (order.toList.all Node.keepsBounds)
      (Option.Rel (Kept named (scope' = scope) exact) (order.map Node.reread))
      (orderNode node scope' orderPart) := by
    cases horder with
    | none => exact .some .none
    | @some n e h =>
        obtain ⟨hitem, hone⟩ := h
        rw [Option.toList_some, List.all_cons, List.all_nil]
        refine (hitem.1.again scope').bind fun n' hn => ?_
        have hone' : n'.isScalar = true := by rw [hn.isScalar, Node.isScalar_reread, hone]
        rw [if_pos hone']
        exact .some (.some hn)
  have hsort := writes_sort hsource.writes hterm hpart.1.writes hpart.2 hwrites
  refine ⟨?_, fun scope' => ?_⟩
  · have hsource : (Node.sort a b order).source = "SORT(" ++ a.source ++ "=>" ++ b.source ++
        ((order.map Node.source).elim "" ("," ++ ·)) ++ ")" := by
      cases order <;> rfl
    rw [hsource]
    exact hsort
  · rw [hkeeps, node_eq, Node.reread_sort]
    refine (again_sequence hsource hscalar hinner hpart.1 scope').bind fun ab hab => ?_
    exact (hagain scope').bind fun o ho => .some (.sort hab.1 hab.2 ho)

end

/-! ### Parts in a row -/

/-- What phrases stand for is restated one by one. -/
theorem exists_items {es : List Phrase} {ns : List Node}
    (hclass : ∀ e ∈ es, e.isBounds = false)
    (h : ∀ e ∈ es, ∀ n, e.node scope = some n → ∃ e', Renders named exact scope e n e')
    (hn : nodes node scope es = some ns) :
    ∃ es', List.Forall₂ (RestatesItem named exact scope) ns es' := by
  induction es generalizing ns with
  | nil =>
      cases hn
      exact ⟨[], .nil⟩
  | cons e es ih =>
      obtain ⟨n, he, rest, hrest, rfl⟩ := nodes_cons_eq_some.mp hn
      obtain ⟨e', hrenders⟩ := h e (List.mem_cons_self ..) n he
      obtain ⟨es', hes⟩ := ih (fun e he => hclass e (List.mem_cons_of_mem _ he))
        (fun e he => h e (List.mem_cons_of_mem _ he)) hrest
      exact ⟨e' :: es', .cons (hrenders.item (hclass e (List.mem_cons_self ..))) hes⟩

/-- Single values are restated one by one. -/
theorem exists_values {ns : List Node} {es : List Phrase}
    (h : List.Forall₂ (RestatesItem named exact scope) ns es) :
    ∃ es', List.Forall₂ (RestatesItem named exact scope) (ns.map Node.asScalar) es' := by
  induction h with
  | nil => exact ⟨[], .nil⟩
  | cons hitem _ ih =>
      obtain ⟨e', he⟩ := exists_asScalar hitem
      obtain ⟨es', hes⟩ := ih
      exact ⟨e' :: es', .cons he hes⟩

theorem asScalar_of_isScalar {n : Node} (h : n.isScalar = true) : n.asScalar = n := by
  rw [Node.asScalar, h, if_pos rfl]

/-- What has been kept of single values are single values. -/
theorem map_asScalar_of_kept {ns ns' : List Node} {same : Prop}
    (hscalar : ∀ n ∈ ns, n.isScalar = true) (h : List.Forall₂ (Kept named same exact) ns ns') :
    ns'.map Node.asScalar = ns' := by
  induction h with
  | nil => rfl
  | @cons n n' _ _ hkept _ ih =>
      obtain ⟨hn, hrest⟩ := List.forall_mem_cons.mp hscalar
      rw [List.map_cons, ih hrest, asScalar_of_isScalar (hkept.isScalar.trans hn)]

/-- An array of single values is restated by an array of phrases that restate them. -/
theorem restates_array {ns : List Node} {es : List Phrase}
    (hscalar : ∀ n ∈ ns, n.isScalar = true)
    (h : List.Forall₂ (RestatesItem named exact scope) ns es) :
    Restates named exact scope (Node.array ns) (mk (.array es)) := by
  refine ⟨writes_array (writes_items h), fun scope' => ?_⟩
  have hkeeps : (Node.array ns).keepsBounds = ns.all Node.keepsBounds := by
    rw [Node.array, Node.keepsBounds_compose]
    rfl
  rw [hkeeps, node_eq, Node.reread_array]
  refine (again_items scope' h).map fun ns' hns => ?_
  have hreread : ∀ n ∈ ns.map Node.reread, n.isScalar = true :=
    List.forall_mem_map.mpr fun n hn => (Node.isScalar_reread n).trans (hscalar n hn)
  rw [map_asScalar_of_kept hreread hns]
  exact .array hns

/-! ### Documents -/

/-- Entries with these values behind their names. -/
def entriesOf (pairs : List (String × Phrase)) : List (EntryName × Option Phrase) :=
  pairs.map fun (name, e) => (canonicalKey name, some e)

/-- Entries with fresh names are read with these names, and with the values that stand behind
them. -/
theorem again_entries {entries : List (String × Node)} {pairs : List (String × Phrase)}
    {others : List String} {counter : Nat} (scope' : Scope)
    (hnames : pairs.map Prod.fst = entries.map Prod.fst)
    (hfresh : FreshNames others (entries.map Prod.fst))
    (hscalar : ∀ n ∈ entries.map Prod.snd, n.isScalar = true)
    (h : List.Forall₂ (RestatesItem named exact scope) (entries.map Prod.snd)
      (pairs.map Prod.snd)) :
    Again ((entries.map Prod.snd).all Node.keepsBounds)
      (fun entries' => entries'.map Prod.fst = entries.map Prod.fst ∧
        List.Forall₂ (Kept named (scope' = scope) exact) ((entries.map Prod.snd).map Node.reread)
          (entries'.map Prod.snd))
      (entryNodes node scope' (entriesOf pairs) others counter) := by
  induction entries generalizing pairs others counter with
  | nil =>
      cases pairs with
      | nil => exact .some ⟨rfl, .nil⟩
      | cons pair pairs => cases hnames
  | cons entry entries ih =>
      cases pairs with
      | nil => cases hnames
      | cons pair pairs =>
          obtain ⟨name, n⟩ := entry
          obtain ⟨name', e⟩ := pair
          obtain ⟨rfl, hothers⟩ := List.cons.inj hnames
          cases h with
          | cons hitem hrest =>
              obtain ⟨hn, hscalar⟩ := List.forall_mem_cons.mp hscalar
              obtain ⟨hfree, hfresh⟩ := hfresh
              have hkey : Parser.freshName (canonicalKey name').name others
                  (canonicalKey name').name
                  counter = (name', counter) := by
                rw [name_canonicalKey]
                exact Parser.freshName_eq_self counter hfree
              change Again _ _
                (entryNodes node scope'
                  ((canonicalKey name', some e) :: entriesOf pairs) others counter)
              rw [List.map_cons, List.all_cons, entryNodes]
              refine (hitem.1.again scope').bind fun n' hn' => ?_
              have hone : n'.isScalar = true := by rw [hn'.isScalar, Node.isScalar_reread, hn]
              -- The name is fresh among those before it, so the reader takes it as it is.
              rw [← Bool.and_true (List.all _ _)]
              dsimp only
              rw [hkey, asScalar_of_isScalar hone]
              refine (ih hothers hfresh hscalar hrest).bind fun rest hrest => ?_
              exact .some ⟨congrArg (name' :: ·) hrest.1, .cons hn' hrest.2⟩

/-- A document is written with its names in canonical form. The names are pairwise different up to
case, so that each of them is fresh when it is read again. -/
theorem restates_document {entries : List (String × Node)} {es : List Phrase}
    (hfresh : FreshNames [] (entries.map Prod.fst))
    (hscalar : ∀ n ∈ entries.map Prod.snd, n.isScalar = true)
    (h : List.Forall₂ (RestatesItem named exact scope) (entries.map Prod.snd) es) :
    ∃ e', Restates named exact scope (Node.document entries) (mk (.document e')) := by
  -- As many phrases as entries: each stands behind the name of its entry.
  obtain ⟨pairs, hnames, rfl⟩ : ∃ pairs : List (String × Phrase),
      pairs.map Prod.fst = entries.map Prod.fst ∧ es = pairs.map Prod.snd := by
    have hlength : (entries.map Prod.fst).length = es.length := by
      rw [← h.length_eq, List.length_map, List.length_map]
    exact ⟨(entries.map Prod.fst).zip es, List.map_fst_zip (Nat.le_of_eq hlength),
      (List.map_snd_zip (Nat.le_of_eq hlength.symm)).symm⟩
  refine ⟨entriesOf pairs, ?_, fun scope' => ?_⟩
  · have hsource : (Node.document entries).source = "\x7b" ++ ",".intercalate
        (List.zipWith (fun name source => keyText name ++ ":" ++ source) (entries.map Prod.fst)
          ((entries.map Prod.snd).map Node.source)) ++ "\x7d" := by
      simp [Node.document, Node.compose, Node.source, Node.info, List.zipWith_map,
        List.zipWith_self]
    rw [hsource, ← hnames]
    exact writes_document (writes_items h)
  · have hkeeps : (Node.document entries).keepsBounds =
        (entries.map Prod.snd).all Node.keepsBounds := by
      rw [Node.document, Node.keepsBounds_compose]
      rfl
    rw [hkeeps, node_eq, Node.reread_document]
    refine (again_entries scope' hnames hfresh hscalar h).map fun entries' hentries => ?_
    refine .document ?_ ?_
    · rw [hentries.1, List.map_map]
      rfl
    · have hparts := hentries.2
      rw [List.map_map] at hparts ⊢
      exact hparts

end Phrase

end DocQuery
