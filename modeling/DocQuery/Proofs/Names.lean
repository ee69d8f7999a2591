import DocQuery.Proofs.Elaboration
import DocQuery.Proofs.Numerals
/-!
# DocQuery.Proofs.Names

Names in canonical text. The name of a function is a word that stands for the function
again, and nothing but a call can begin with it. The entries of a document have names of
which no two agree, so that none of them is exchanged when they are read once more.
-/

namespace DocQuery

namespace Callable

/-- What a canonical name of a function has to be: a word under which the function is found,
and which no other reader takes for its own. -/
def IsNamed (f : Callable) : Prop :=
  find? f.signature.name f.signature.arity = some f ∧
    Text.isWord f.signature.name = true ∧ isConstantWord f.signature.name = false ∧
    isSequenceWord f.signature.name = false ∧ Text.sameName f.signature.name "IIF" = false

instance (f : Callable) : Decidable f.IsNamed := inferInstanceAs (Decidable (_ ∧ _ ∧ _ ∧ _ ∧ _))

theorem mem_all (f : Callable) : f ∈ all := by
  cases f with
  | builtin f => exact List.mem_append_left _ (List.mem_map.mpr ⟨f, f.mem_all, rfl⟩)
  | generator g => exact List.mem_append_right _ (List.mem_map.mpr ⟨g, g.mem_all, rfl⟩)

theorem isNamed_all : ∀ f ∈ all, f.IsNamed := by decide +kernel

theorem isNamed (f : Callable) : f.IsNamed := isNamed_all f f.mem_all

end Callable

/-- A call of what a name stands for. -/
def Callable.node (site : Nat) (args : List Node) : Callable → Node
  | .builtin f => Node.call f args
  | .generator g => Node.generate g site

/-- A call by the canonical name of a function is a call of that function. -/
theorem applyNode_name {f : Callable} {args : List Node} (h : f.signature.arity = args.length)
    (site : Nat) : applyNode? f.signature.name site args = some (f.node site args) := by
  obtain ⟨hfind, -, -, -, hname⟩ := f.isNamed
  have hcall : callNode? f.signature.name site args = some (f.node site args) := by
    rw [callNode?, ← h, hfind]
    cases f <;> rfl
  unfold applyNode?
  split
  · rw [hname, if_neg Bool.false_ne_true, hcall]
  · exact hcall

/-! ### Names of entries -/

namespace Text

theorem sameName_trans {a b c : String} (hab : sameName a b = true) (hbc : sameName b c = true) :
    sameName a c = true := by
  simp only [sameName, beq_iff_eq] at hab hbc ⊢
  exact hab.trans hbc

theorem toLower_digits {chars : List Char} (h : chars.all Char.isDigit = true) :
    chars.map Char.toLower = chars := by
  refine (List.map_congr_left fun c hc => ?_).trans chars.map_id
  have hdigit := List.all_eq_true.mp h c hc
  have hle : c.val ≤ '9'.val := (of_decide_eq_true (Bool.and_eq_true_iff.mp hdigit).2)
  refine dif_neg fun hupper => ?_
  exact absurd (UInt32.le_trans hupper.1 hle) (by decide)

theorem all_intText (n : Nat) : (Number.intText n).toList.all Char.isDigit = true := by
  rw [Number.toList_intText, if_neg (by omega)]
  exact Number.all_toDigits _

/-- Names with different counters behind them do not agree. -/
theorem sameName_counted {key : String} {i j : Nat} (h : i ≠ j) :
    sameName (key ++ Number.intText i) (key ++ Number.intText j) = false := by
  rw [Bool.eq_false_iff]
  intro hsame
  simp only [sameName, beq_iff_eq, String.toList_append, List.map_append,
    List.append_cancel_left_eq,
    toLower_digits (all_intText _), String.toList_inj] at hsame
  exact h (Int.ofNat.inj (Number.intText_injective hsame))

/-- No name agrees with itself and a counter behind it. -/
theorem sameName_counter (key : String) (j : Nat) :
    sameName key (key ++ Number.intText j) = false := by
  rw [Bool.eq_false_iff]
  intro hsame
  have hnil : (Number.intText j).toList.map Char.toLower = [] := by
    simpa only [sameName, beq_iff_eq, String.toList_append, List.map_append,
      List.self_eq_append_right] using hsame
  have hread := Number.readInt_intText j
  rw [List.map_eq_nil_iff.mp hnil] at hread
  cases hread

end Text

namespace Parser

/-- A fresh name is the one that is wanted or one with a counter behind the key, and no other
name agrees with it, as long as the counters still to come make new names. -/
theorem freshName_spec {key : String} {others : List String} {name : String} {counter : Nat}
    (hnew : ∀ j, counter ≤ j → Text.sameName name (key ++ Number.intText j) = false) :
    ((freshName key others name counter).1 = name ∨
        ∃ j, counter ≤ j ∧ (freshName key others name counter).1 = key ++ Number.intText j) ∧
      ∀ other ∈ others, Text.sameName other (freshName key others name counter).1 = false := by
  fun_induction freshName key others name counter with
  | case1 others name counter htaken ih =>
      have hnext (j : Nat) (hj : counter + 1 ≤ j) :
          Text.sameName (key ++ Number.intText counter) (key ++ Number.intText j) = false :=
        Text.sameName_counted (by omega)
      obtain ⟨hshape, hothers⟩ := ih hnext
      have hcounted : ∃ j, counter ≤ j ∧
          (freshName key (without others name) (key ++ Number.intText counter) (counter + 1)).1 =
            key ++ Number.intText j := by
        rcases hshape with hshape | ⟨j, hj, hshape⟩
        · exact ⟨counter, Nat.le_refl _, hshape⟩
        · exact ⟨j, by omega, hshape⟩
      refine ⟨.inr hcounted, fun other hother => ?_⟩
      cases hsame : Text.sameName other name with
      | false => exact hothers other (List.mem_filter.mpr ⟨hother, by rw [hsame]; rfl⟩)
      | true =>
          -- What agrees with a name that has been tried agrees with no later one.
          obtain ⟨j, hj, heq⟩ := hcounted
          rw [heq, Bool.eq_false_iff]
          intro hagain
          rw [Text.sameName_comm] at hsame
          have hboth := Text.sameName_trans hsame hagain
          rw [hnew j hj] at hboth
          cases hboth
  | case2 others name counter hfree =>
      refine ⟨.inl rfl, fun other hother => ?_⟩
      rw [Bool.eq_false_iff]
      intro hsame
      exact hfree (List.any_eq_true.mpr ⟨other, hother, hsame⟩)

theorem freshName_free (key : String) (others : List String) (counter : Nat) :
    ∀ other ∈ others, Text.sameName other (freshName key others key counter).1 = false :=
  (freshName_spec fun j _ => Text.sameName_counter key j).2

/-- A name that no other agrees with is not exchanged. -/
theorem freshName_eq_self {key : String} {others : List String} (counter : Nat)
    (h : ∀ other ∈ others, Text.sameName other key = false) :
    freshName key others key counter = (key, counter) := by
  have hfree : others.any (Text.sameName · key) = false :=
    List.any_eq_false.mpr fun other hother => Bool.eq_false_iff.mp (h other hother)
  rw [freshName, hfree, if_neg Bool.false_ne_true]

end Parser

/-- No name agrees with one of the others or with one that stands in front of it. -/
def FreshNames : (others names : List String) → Prop
  | _, [] => True
  | others, name :: rest =>
    (∀ other ∈ others, Text.sameName other name = false) ∧ FreshNames (others ++ [name]) rest

/-- The names of the entries that a document stands for are fresh. -/
theorem Phrase.freshNames_entryNodes {ν : Type} {f : ν → Scope → Option Node} {scope : Scope}
    {es : List (EntryName × Option ν)} {others : List String} {counter : Nat}
    {entries : List (String × Node)} (h : entryNodes f scope es others counter = some entries) :
    FreshNames others (entries.map Prod.fst) := by
  induction es generalizing others counter entries with
  | nil =>
      cases h
      trivial
  | cons entry rest ih =>
      obtain ⟨key, value⟩ := entry
      simp only [entryNodes, Option.bind_eq_bind, Option.bind_eq_some_iff, Option.pure_def,
        Option.some.injEq] at h
      obtain ⟨_, -, _, hrest, rfl⟩ := h
      exact ⟨Parser.freshName_free _ _ _, ih hrest⟩

end DocQuery
