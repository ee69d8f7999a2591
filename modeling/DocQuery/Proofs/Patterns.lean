import DocQuery.Proofs.LowerCase
import DocQuery.Proofs.Quantifiers
/-!
# DocQuery.Proofs.Patterns

What patterns match. A text matches a pattern just if it can be cut into pieces that the
characters of the pattern stand for, one after the other (`Text.Glob.Cuts`). The matcher keeps a
table of the suffixes of the text; each of its passes turns a table that is right for a pattern
into one that is right for the pattern with one character more in front (`Text.Glob.Answers`).
-/

namespace DocQuery

namespace Text.Glob

/-! ### Cutting a text

What a pattern means, said without a matcher: a list of pieces whose text is the whole text, one for
each character of the pattern. The equations for the first character of the pattern are what the
passes of the matcher are compared with. -/

variable {foldCase : Bool}

/-- Matching does not tell the two characters apart. -/
def SameLetter (foldCase : Bool) (p c : Char) : Prop :=
  p = c ∨ foldCase = true ∧ p.toLower = c.toLower

/-- A piece of a text that a character of a pattern stands for. -/
inductive StandsFor (foldCase : Bool) : Char → List Char → Prop where
  | run (piece : List Char) : StandsFor foldCase '%' piece
  | any (c : Char) : StandsFor foldCase '_' [c]
  | char {p c : Char} (hrun : p ≠ '%') (hany : p ≠ '_') (h : SameLetter foldCase p c) :
      StandsFor foldCase p [c]

/-- The text can be cut into pieces that the characters of the pattern stand for, in their
order. -/
def Cuts (foldCase : Bool) (pattern text : List Char) : Prop :=
  ∃ pieces, List.Forall₂ (StandsFor foldCase) pattern pieces ∧ pieces.flatten = text

theorem cuts_nil {text : List Char} : Cuts foldCase [] text ↔ text = [] := by
  constructor
  · rintro ⟨pieces, hpieces, rfl⟩
    cases hpieces
    rfl
  · rintro rfl
    exact ⟨[], .nil, rfl⟩

theorem cuts_cons {p : Char} {pattern text : List Char} :
    Cuts foldCase (p :: pattern) text ↔
      ∃ piece rest, StandsFor foldCase p piece ∧ Cuts foldCase pattern rest ∧
        piece ++ rest = text := by
  constructor
  · rintro ⟨pieces, hpieces, rfl⟩
    cases hpieces with
    | cons hpiece hrest => exact ⟨_, _, hpiece, ⟨_, hrest, rfl⟩, List.flatten_cons.symm⟩
  · rintro ⟨piece, rest, hpiece, ⟨pieces, hpieces, rfl⟩, rfl⟩
    exact ⟨piece :: pieces, .cons hpiece hpieces, List.flatten_cons⟩

theorem cuts_run {pattern text : List Char} :
    Cuts foldCase ('%' :: pattern) text ↔
      ∃ piece rest, Cuts foldCase pattern rest ∧ piece ++ rest = text := by
  rw [cuts_cons]
  exact ⟨fun ⟨piece, rest, _, h⟩ => ⟨piece, rest, h⟩,
    fun ⟨piece, rest, h⟩ => ⟨piece, rest, .run piece, h⟩⟩

theorem cuts_run_nil {pattern : List Char} :
    Cuts foldCase ('%' :: pattern) [] ↔ Cuts foldCase pattern [] := by
  rw [cuts_run]
  constructor
  · rintro ⟨piece, rest, hrest, happend⟩
    obtain ⟨-, rfl⟩ := List.append_eq_nil_iff.mp happend
    exact hrest
  · exact fun h => ⟨[], [], h, rfl⟩

/-- A run stops in front of a character or goes on behind it. -/
theorem cuts_run_cons {pattern text : List Char} {c : Char} :
    Cuts foldCase ('%' :: pattern) (c :: text) ↔
      Cuts foldCase pattern (c :: text) ∨ Cuts foldCase ('%' :: pattern) text := by
  rw [cuts_run, cuts_run]
  constructor
  · rintro ⟨piece, rest, hrest, happend⟩
    cases piece with
    | nil => exact .inl (happend ▸ hrest)
    | cons first piece =>
        obtain ⟨rfl, rfl⟩ := List.cons.inj happend
        exact .inr ⟨piece, rest, hrest, rfl⟩
  · rintro (h | ⟨piece, rest, hrest, rfl⟩)
    · exact ⟨[], c :: text, h, rfl⟩
    · exact ⟨c :: piece, rest, hrest, rfl⟩

/-- What a character of a pattern is read as. -/
theorem ofText_singleton (p : Char) :
    p = '%' ∧ ofText [p] = [.run] ∨ p = '_' ∧ ofText [p] = [.any] ∨
      p ≠ '%' ∧ p ≠ '_' ∧ ofText [p] = [.char p] := by
  by_cases hrun : p = '%'
  · subst hrun
    exact .inl ⟨rfl, rfl⟩
  by_cases hany : p = '_'
  · subst hany
    exact .inr (.inl ⟨rfl, rfl⟩)
  · exact .inr (.inr ⟨hrun, hany, by simp [ofText]⟩)

theorem admits_char {p c : Char} :
    admits foldCase (.char p) c = true ↔ SameLetter foldCase p c := by
  simp [admits, SameLetter]

/-- What is no run stands for the characters that it admits. -/
theorem standsFor_iff {p : Char} {part : GlobPart} (h : ofText [p] = [part]) (hrun : part ≠ .run)
    {piece : List Char} :
    StandsFor foldCase p piece ↔ ∃ c, piece = [c] ∧ admits foldCase part c = true := by
  rcases ofText_singleton p with ⟨rfl, hpart⟩ | ⟨rfl, hpart⟩ | ⟨hp, hany, hpart⟩
  all_goals obtain rfl := List.singleton_inj.mp (h.symm.trans hpart)
  · exact absurd rfl hrun
  · constructor
    · intro hpiece
      cases hpiece with
      | any c => exact ⟨c, rfl, rfl⟩
      | char _ hany _ => exact absurd rfl hany
    · rintro ⟨c, rfl, -⟩
      exact .any c
  · constructor
    · intro hpiece
      cases hpiece with
      | run => exact absurd rfl hp
      | any => exact absurd rfl hany
      | char _ _ hsame => exact ⟨_, rfl, admits_char.mpr hsame⟩
    · rintro ⟨c, rfl, hc⟩
      exact .char hp hany (admits_char.mp hc)

section

variable {p : Char} {part : GlobPart} (hpart : ofText [p] = [part]) (hrun : part ≠ .run)
  {pattern text : List Char}

include hpart hrun

theorem not_cuts_nil : ¬ Cuts foldCase (p :: pattern) [] := by
  rw [cuts_cons]
  rintro ⟨piece, rest, hpiece, -, happend⟩
  obtain ⟨c, rfl, -⟩ := (standsFor_iff hpart hrun).mp hpiece
  cases happend

theorem cuts_char {c : Char} : Cuts foldCase (p :: pattern) (c :: text) ↔
    admits foldCase part c = true ∧ Cuts foldCase pattern text := by
  rw [cuts_cons]
  constructor
  · rintro ⟨piece, rest, hpiece, hrest, happend⟩
    obtain ⟨d, rfl, hd⟩ := (standsFor_iff hpart hrun).mp hpiece
    obtain ⟨rfl, rfl⟩ := List.cons.inj happend
    exact ⟨hd, hrest⟩
  · rintro ⟨hc, hrest⟩
    exact ⟨[c], text, (standsFor_iff hpart hrun).mpr ⟨c, rfl, hc⟩, hrest, rfl⟩

end

/-! ### Tables

The matcher never goes back in the text. Its table holds an answer for every suffix at once, so a
run of any length is an answer that holds for a suffix or for one behind it, and any other character
moves the answers by one place. -/

/-- The table says of each suffix of the text, longest first, whether it is one of these. -/
def Answers (table : List Bool) (P : List Char → Prop) (text : List Char) : Prop :=
  List.Forall₂ (fun answer suffix => answer = true ↔ P suffix) table text.tails

namespace Answers

variable {P Q : List Char → Prop} {table : List Bool} {text : List Char}

theorem nil_iff : Answers table P [] ↔ ∃ answer, table = [answer] ∧ (answer = true ↔ P []) := by
  rw [Answers, List.tails]
  constructor
  · rintro (_ | ⟨h, _ | _⟩)
    exact ⟨_, rfl, h⟩
  · rintro ⟨answer, rfl, h⟩
    exact .cons h .nil

theorem cons_iff {c : Char} : Answers table P (c :: text) ↔
    ∃ answer rest, table = answer :: rest ∧ (answer = true ↔ P (c :: text)) ∧
      Answers rest P text := by
  rw [Answers, List.tails, List.forall₂_cons_right_iff]
  exact ⟨fun ⟨answer, rest, h, hrest, htable⟩ => ⟨answer, rest, htable, h, hrest⟩,
    fun ⟨answer, rest, htable, h, hrest⟩ => ⟨answer, rest, h, hrest, htable⟩⟩

/-- The first entry is about the whole text. -/
theorem head (h : Answers table P text) : table.headD false = true ↔ P text := by
  cases text with
  | nil =>
      obtain ⟨answer, rfl, hanswer⟩ := nil_iff.mp h
      exact hanswer
  | cons c text =>
      obtain ⟨answer, rest, rfl, hanswer, -⟩ := cons_iff.mp h
      exact hanswer

/-- The pass for a run: it may begin where the rest matches or at any earlier place. -/
theorem anyLater (h : Answers table P text) (hnil : Q [] ↔ P [])
    (hcons : ∀ c rest, Q (c :: rest) ↔ P (c :: rest) ∨ Q rest) :
    Answers (Glob.anyLater table) Q text := by
  induction text generalizing table with
  | nil =>
      obtain ⟨answer, rfl, hanswer⟩ := nil_iff.mp h
      refine nil_iff.mpr ⟨_, rfl, ?_⟩
      rw [hnil, ← hanswer]
      simp [Glob.anyLater]
  | cons c text ih =>
      obtain ⟨answer, rest, rfl, hanswer, hrest⟩ := cons_iff.mp h
      refine cons_iff.mpr ⟨_, _, rfl, ?_, ih hrest⟩
      rw [hcons, ← hanswer, ← (ih hrest).head, Bool.or_eq_true]

/-- The pass for one character: it is admitted, and the rest matches behind it. -/
theorem admitted {admitted : Char → Bool} (h : Answers table P text) (hnil : ¬ Q [])
    (hcons : ∀ c rest, Q (c :: rest) ↔ admitted c = true ∧ P rest) :
    Answers (List.zipWith (fun c later => admitted c && later) text table.tail ++ [false]) Q
      text := by
  induction text generalizing table with
  | nil => exact nil_iff.mpr ⟨false, rfl, iff_of_false Bool.false_ne_true hnil⟩
  | cons c text ih =>
      obtain ⟨-, rest, rfl, -, hrest⟩ := cons_iff.mp h
      have hlater := hrest.head
      cases rest with
      | nil => cases text <;> cases hrest
      | cons later rest =>
          refine cons_iff.mpr ⟨admitted c && later, _, rfl, ?_, ih hrest⟩
          rw [hcons, Bool.and_eq_true]
          exact and_congr_right fun _ => hlater

end Answers

/-- The table of a pattern says which suffixes of a text can be cut after it. -/
theorem answers_suffixMatches (foldCase : Bool) (pattern text : List Char) :
    Answers (suffixMatches foldCase (ofText pattern) text) (Cuts foldCase pattern) text := by
  -- Along the pattern, from behind: each part turns the table of the rest into its own.
  induction pattern with
  | nil =>
      change Answers (text.map (fun _ => false) ++ [true]) _ text
      induction text with
      | nil => exact Answers.nil_iff.mpr ⟨true, rfl, iff_of_true rfl (cuts_nil.mpr rfl)⟩
      | cons c text ih =>
          refine Answers.cons_iff.mpr ⟨false, _, rfl, ?_, ih⟩
          exact iff_of_false Bool.false_ne_true fun h => absurd (cuts_nil.mp h) (by simp)
  | cons p pattern ih =>
      obtain ⟨part, hpart⟩ : ∃ part, ofText [p] = [part] := ⟨_, rfl⟩
      have hcons : ofText (p :: pattern) = part :: ofText pattern := by
        obtain rfl := List.singleton_inj.mp hpart
        rfl
      rw [hcons]
      cases part with
      | run =>
          obtain rfl : p = '%' := by
            rcases ofText_singleton p with ⟨hp, -⟩ | ⟨-, hany⟩ | ⟨-, -, hchar⟩
            · exact hp
            · cases hpart.symm.trans hany
            · cases hpart.symm.trans hchar
          exact ih.anyLater cuts_run_nil fun c rest => cuts_run_cons
      | any | char =>
          exact ih.admitted (not_cuts_nil hpart (by rintro ⟨⟩))
            fun c rest => cuts_char hpart (by rintro ⟨⟩)

/-- A pattern accepts the texts that can be cut after it. -/
theorem accepts_iff {pattern text : List Char} :
    accepts foldCase (ofText pattern) text = true ↔ Cuts foldCase pattern text :=
  (answers_suffixMatches foldCase pattern text).head

end Text.Glob

/-! ### Patterns in expressions -/

open Text (Glob)

/-- A comparison depends on what is on its right only through the value of that. -/
theorem ComparisonOp.scalar_congr_right {op : ComparisonOp} {quantifier : Option Quantifier}
    {left right right' n n' : Node}
    (h : Precedence.combine (op.joining quantifier) left right = .ok n)
    (h' : Precedence.combine (op.joining quantifier) left right' = .ok n') {ctx : Context}
    (hvalue : right.scalar ctx = right'.scalar ctx) : n.scalar ctx = n'.scalar ctx := by
  obtain ⟨-, hright, rfl⟩ := Precedence.combine_eq_ok.mp h
  obtain ⟨-, hright', rfl⟩ := Precedence.combine_eq_ok.mp h'
  cases quantifier with
  | none =>
      rw [Node.scalar_comparison rfl rfl hright, hvalue]
      exact (Node.scalar_comparison rfl rfl hright' ctx).symm
  | some quantifier =>
      rw [Node.scalar_quantified rfl rfl hright, hvalue]
      exact (Node.scalar_quantified rfl rfl hright' ctx).symm

/-- `LIKE` holds of a text that can be cut into pieces that the characters of the pattern stand
for, and of nothing but texts. A pattern that is written out is read once; with it the comparison
yields what it yields with any other expression for the same text. -/
theorem like_pattern (c : Collation) (p : String) :
    (∀ s : String, ∃ matched, Comparison.apply c .like (.string s) (.string p) = .ok matched ∧
      (matched = true ↔ Glob.Cuts c.foldsCase p.toList s.toList)) ∧
    (∀ value, .ok (Comparison.isLike c (Glob.ofText p.toList) value) =
      Comparison.apply c .like value (.string p)) ∧
    ∀ (left right : Node) (quantifier : Option Quantifier) (computed : Node),
      left.Disciplined → right.Disciplined →
      Precedence.combine (ComparisonOp.like.joining quantifier) left right = .ok computed →
      ∃ written,
        Precedence.combine (ComparisonOp.like.joining quantifier) left (.string p) = .ok written ∧
        (∃ taken, written.action = .like quantifier taken (Glob.ofText p.toList)) ∧
        ∀ (backend : Backend) l r, backend.build left = .ok l → backend.build right = .ok r →
          ∃ once each, backend.build written = .ok once ∧ backend.build computed = .ok each ∧
            ∀ parameters ctx,
              (Expression.ofNode backend right r parameters).execute ctx = [.ok (.string p)] →
              (Expression.ofNode backend written once parameters).execute ctx =
                (Expression.ofNode backend computed each parameters).execute ctx := by
  refine ⟨fun s => ⟨_, rfl, Glob.accepts_iff⟩, fun value => rfl,
    fun left right quantifier computed hl hr hcomputed => ?_⟩
  obtain ⟨hleft, hright, -⟩ := Precedence.combine_eq_ok.mp hcomputed
  have hstring : (Node.string p).Disciplined := .constant _ _ _
  have hwritten : Precedence.combine (ComparisonOp.like.joining quantifier) left (.string p) =
      .ok _ := Precedence.combine_eq_ok.mpr ⟨hleft, rfl, rfl⟩
  refine ⟨_, hwritten, by cases quantifier <;> exact ⟨_, rfl⟩, fun backend l r hlb hrb => ?_⟩
  obtain ⟨s, hsb⟩ : ∃ s, backend.build (.string p) = .ok s :=
    (Backend.exists_build hstring).mpr fun _ => rfl
  -- Two programs, one with the pattern in it and one that takes it from the right side every time.
  obtain ⟨once, honce⟩ := Backend.build_combine hl hstring hwritten hlb hsb
  obtain ⟨each, heach⟩ := Backend.build_combine hl hr hcomputed hlb hrb
  refine ⟨once, each, honce, heach, fun parameters ctx hvalue => ?_⟩
  rw [Expression.execute_one hr hright hrb] at hvalue
  have hsame : (Node.string p).scalar ctx = right.scalar ctx :=
    (Node.scalar_of_isScalar rfl ctx).trans (List.singleton_inj.mp hvalue).symm
  rw [Expression.execute_one (hl.combine hstring hwritten) (Node.isScalar_of_combine hwritten)
      honce, Expression.execute_one (hl.combine hr hcomputed) (Node.isScalar_of_combine hcomputed)
      heach, ComparisonOp.scalar_congr_right hwritten hcomputed hsame]

/-- A pattern with a run over a line end and a point that is only a point. Given as a parameter it
is read anew for each text, written out only once. -/
theorem like_pattern_lines :
    let ctx := Context.ofDocument (.document [("a", .string "Ab\n.c")])
      [("p", .string "a%._")] .ignoreCase ⟨.ofDate .epoch, fun _ _ => 0⟩
    Comparison.apply .ignoreCase .like (.string "Ab\n.c") (.string "a%._") = .ok true ∧
    ∃ computed written,
      Precedence.combine (.binary (.comparison .like)) (.shorthand "a") (.parameter "p") =
        .ok computed ∧
      Precedence.combine (.binary (.comparison .like)) (.shorthand "a") (.string "a%._") =
        .ok written ∧
      ∃ once each, Backend.functions.build written = .ok once ∧
        Backend.functions.build computed = .ok each ∧
        (Expression.ofNode .functions written once []).execute ctx =
          (Expression.ofNode .functions computed each []).execute ctx := by
  intro ctx
  obtain ⟨hmatches, -, hprograms⟩ := like_pattern .ignoreCase "a%._"
  obtain ⟨matched, happly, hmatched⟩ := hmatches "Ab\n.c"
  have hcuts : Glob.Cuts true ['a', '%', '.', '_'] ['A', 'b', '\n', '.', 'c'] :=
    ⟨[['A'], ['b', '\n'], ['.'], ['c']],
      .cons (.char (by decide) (by decide) (.inr ⟨rfl, rfl⟩)) (.cons (.run _)
        (.cons (.char (by decide) (by decide) (.inl rfl)) (.cons (.any 'c') .nil))), rfl⟩
  obtain ⟨written, hwritten, -, hbackend⟩ := hprograms (.shorthand "a") (.parameter "p") none _
    (.shorthand "a") (.parameter "p") rfl
  obtain ⟨once, each, honce, heach, hsame⟩ := hbackend .functions _ _ rfl rfl
  exact ⟨happly.trans (congrArg Except.ok (hmatched.mpr hcuts)), _, written, rfl, hwritten,
    once, each, honce, heach, hsame [] ctx rfl⟩

/-! ### Patterns without wildcards

Then every character of the pattern stands for one of the text, and what is left to compare is how
both are folded: the pattern letter by letter in ASCII, equality by the lower case of whole texts.
-/

namespace Text

theorem toLower_of_ascii {c : Char} (h : c.toNat < 128) : c.toLower.toNat < 128 := by
  unfold Char.toLower
  split
  · rename_i hupper
    have hle : c.val.toNat ≤ 90 := hupper.2
    have hadd : (c.val + ('a'.val - 'A'.val)).toNat ≤ c.val.toNat + 32 :=
      UInt32.toNat_add .. ▸ Nat.mod_le _ _
    exact Nat.lt_of_le_of_lt hadd (by omega)
  · exact h

theorem toLower_of_not_ascii {c : Char} (h : 128 ≤ c.toNat) : c.toLower = c := by
  unfold Char.toLower
  rw [dif_neg]
  rintro ⟨-, hle⟩
  have hle : c.toNat ≤ 90 := hle
  omega

/-- Letters that are the same in ASCII are the same after Unicode. -/
theorem lowerChar_congr {c d : Char} (h : c.toLower = d.toLower) : lowerChar c = lowerChar d := by
  rcases Nat.lt_or_ge c.toNat 128 with hc | hc
  · rcases Nat.lt_or_ge d.toNat 128 with hd | hd
    · rw [lowerChar, lowerChar, if_pos hc, if_pos hd, h]
    · have hlt := toLower_of_ascii hc
      rw [h, toLower_of_not_ascii hd] at hlt
      omega
  · rcases Nat.lt_or_ge d.toNat 128 with hd | hd
    · have hlt := toLower_of_ascii hd
      rw [← h, toLower_of_not_ascii hc] at hlt
      omega
    · rw [toLower_of_not_ascii hc, toLower_of_not_ascii hd] at h
      rw [h]

end Text

namespace Collation

/-- What a character counts as. -/
def folded (c : Collation) (x : Char) : List Char :=
  match c with
  | .binary => [x]
  | .ignoreCase => Text.lowerChar x

theorem folded_ne_nil (c : Collation) (x : Char) : c.folded x ≠ [] := by
  cases c with
  | binary => exact List.cons_ne_nil _ _
  | ignoreCase => exact Text.lowerChar_ne_nil x

/-- Letters that matching does not tell apart count as the same. -/
theorem folded_congr {c : Collation} {p x : Char} (h : Glob.SameLetter c.foldsCase p x) :
    c.folded p = c.folded x := by
  rcases h with rfl | ⟨hfolds, h⟩
  · rfl
  · cases c with
    | binary => cases hfolds
    | ignoreCase => exact Text.lowerChar_congr h

theorem key_eq (c : Collation) (s : String) :
    c.key s = (s.toList.flatMap c.folded).map Char.toNat := by
  cases c with
  | binary => exact congrArg (List.map Char.toNat) (List.flatMap_singleton' _).symm
  | ignoreCase => rfl

/-- Two strings count as the same if their characters do, one after the other. -/
theorem same_iff (c : Collation) (a b : String) :
    c.same a b = true ↔ a.toList.flatMap c.folded = b.toList.flatMap c.folded := by
  have hinj : Function.Injective Char.toNat := fun _ _ h => Char.toNat_inj.mp h
  rw [same, compare, beq_iff_eq, Std.compare_eq_iff_eq, key_eq, key_eq,
    (List.map_injective_iff.mpr hinj).eq_iff]

end Collation

namespace Text.Glob

variable {foldCase : Bool} {pattern text : List Char}

/-- Without wildcards a pattern matches letter by letter. -/
theorem cuts_letters (h : ∀ p ∈ pattern, p ≠ '%' ∧ p ≠ '_') :
    Cuts foldCase pattern text ↔ List.Forall₂ (SameLetter foldCase) pattern text := by
  induction pattern generalizing text with
  | nil => rw [cuts_nil, List.forall₂_nil_left_iff]
  | cons p pattern ih =>
      obtain ⟨⟨hrun, hany⟩, h⟩ := List.forall_mem_cons.mp h
      have hpart : ofText [p] = [.char p] := by simp [ofText]
      cases text with
      | nil => exact iff_of_false (not_cuts_nil hpart (by rintro ⟨⟩)) (by rintro ⟨⟩)
      | cons c text =>
          rw [cuts_char hpart (by rintro ⟨⟩), admits_char, ih h, List.forall₂_cons]

end Text.Glob

namespace Collation

variable {c : Collation} {pattern text : List Char}

/-- A text that a pattern matches letter by letter counts as the same. -/
theorem flatMap_folded (h : List.Forall₂ (Glob.SameLetter c.foldsCase) pattern text) :
    pattern.flatMap c.folded = text.flatMap c.folded := by
  induction h with
  | nil => rfl
  | cons hletter _ ih => rw [List.flatMap_cons, List.flatMap_cons, folded_congr hletter, ih]

/-- If no two different letters begin alike once they are folded, texts that count as the same are
matched letter by letter. -/
theorem forall₂_sameLetter
    (hletters : ∀ p ∈ pattern, ∀ x ∈ text, (c.folded p).head? = (c.folded x).head? →
      Glob.SameLetter c.foldsCase p x)
    (h : pattern.flatMap c.folded = text.flatMap c.folded) :
    List.Forall₂ (Glob.SameLetter c.foldsCase) pattern text := by
  induction pattern generalizing text with
  | nil =>
      cases text with
      | nil => exact .nil
      | cons x text => exact absurd (List.append_eq_nil_iff.mp h.symm).1 (c.folded_ne_nil x)
  | cons p pattern ih =>
      cases text with
      | nil => exact absurd (List.append_eq_nil_iff.mp h).1 (c.folded_ne_nil p)
      | cons x text =>
          rw [List.flatMap_cons, List.flatMap_cons] at h
          have hhead := congrArg List.head? h
          rw [List.head?_append_of_ne_nil _ (c.folded_ne_nil p),
            List.head?_append_of_ne_nil _ (c.folded_ne_nil x)] at hhead
          have hletter := hletters p List.mem_cons_self x List.mem_cons_self hhead
          rw [folded_congr hletter] at h
          refine .cons hletter (ih (fun q hq y hy => ?_) (List.append_cancel_left h))
          exact hletters q (List.mem_cons_of_mem _ hq) y (List.mem_cons_of_mem _ hy)

end Collation

/-- A text that is `LIKE` a pattern without wildcards is `=` to it under the collation. A text that
is `=` to it is `LIKE` it under the binary collation, and under the other one if letters of the two
that begin alike in lower case differ in the case of ASCII letters at most: patterns fold only that,
the collation folds the case of every letter. -/
theorem like_equal {p : String} (hp : ∀ d ∈ p.toList, d ≠ '%' ∧ d ≠ '_') (c : Collation)
    (s : String) :
    ∃ like equal, Comparison.apply c .like (.string s) (.string p) = .ok like ∧
      Comparison.apply c .equal (.string s) (.string p) = .ok equal ∧
      (like = true → equal = true) ∧
      ((c = .ignoreCase → ∀ d ∈ p.toList, ∀ x ∈ s.toList,
          (Text.lowerChar d).head? = (Text.lowerChar x).head? → d.toLower = x.toLower) →
        equal = true → like = true) := by
  have hlike : Glob.accepts c.foldsCase (Glob.ofText p.toList) s.toList = true ↔ _ :=
    Glob.accepts_iff.trans (Glob.cuts_letters hp)
  have hequal := c.same_iff s p
  refine ⟨_, _, rfl, rfl, fun h => ?_, fun hletters h => ?_⟩
  · exact hequal.mpr (Collation.flatMap_folded (hlike.mp h)).symm
  · refine hlike.mpr (Collation.forall₂_sameLetter (fun d hd x hx hhead => ?_)
      (hequal.mp h).symm)
    cases c with
    | binary => exact .inl (Option.some.inj hhead)
    | ignoreCase => exact .inr ⟨rfl, hletters rfl d hd x hx hhead⟩

/-- An accented letter does not stand in the way of `LIKE` as long as its case is the same. -/
theorem like_equal_accent :
    Comparison.apply .ignoreCase .equal (.string "École") (.string "ÉCOLE") = .ok true ∧
      Comparison.apply .ignoreCase .like (.string "École") (.string "ÉCOLE") = .ok true := by
  have hsame : Comparison.apply .ignoreCase .equal (.string "École") (.string "ÉCOLE") =
      .ok true := by decide +kernel
  have hletters : "ÉCOLE".toList.all (fun d => decide (d ≠ '%' ∧ d ≠ '_')) = true := by
    decide +kernel
  have hfolded : "ÉCOLE".toList.all (fun d => "École".toList.all fun x =>
      decide ((Text.lowerChar d).head? = (Text.lowerChar x).head? → d.toLower = x.toLower)) =
        true := by decide +kernel
  obtain ⟨like, equal, hlike, hequal, -, hmatches⟩ := like_equal
    (fun d hd => of_decide_eq_true (List.all_eq_true.mp hletters d hd)) .ignoreCase "École"
  refine ⟨hsame, hlike.trans (congrArg Except.ok (hmatches (fun _ d hd x hx => ?_) ?_))⟩
  · exact of_decide_eq_true (List.all_eq_true.mp (List.all_eq_true.mp hfolded d hd) x hx)
  · exact Except.ok.inj (hequal.symm.trans hsame)

/-- An accented letter in another case is `=` under the collation, and not `LIKE`. -/
theorem like_ne_equal : ¬ ∀ (c : Collation) (s p : String), (∀ d ∈ p.toList, d ≠ '%' ∧ d ≠ '_') →
    Comparison.apply c .like (.string s) (.string p) =
      Comparison.apply c .equal (.string s) (.string p) := by
  intro h
  have hsame := h .ignoreCase "É" "é" (List.forall_mem_singleton.mpr (by decide))
  have hlike : Comparison.apply .ignoreCase .like (.string "É") (.string "é") = .ok false := by
    decide +kernel
  have hequal : Comparison.apply .ignoreCase .equal (.string "É") (.string "é") = .ok true := by
    decide +kernel
  cases hlike.symm.trans (hsame.trans hequal)

end DocQuery
