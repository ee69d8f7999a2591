import DocQuery.Proofs.Boundary
import DocQuery.Proofs.InStep
/-!
# DocQuery.Proofs.Embedding

An expression in front of a delimiter is read as it is read alone. The text of the expression, a
blank, a delimiter and anything else is cut into the tokens of the expression and what follows
them (`Lexer.Cuts.blank`), so the two streams are in step up to the blank, and `full` keeps step
on them (`Parser.full_keepsStep`): it yields the same node, and stops in front of the delimiter.
-/

namespace DocQuery

namespace Lexer

/-- A delimiter is cut off whole, whatever follows. -/
theorem scan_delimiter {d : Symbol} (hd : d ∈ Symbol.delimiters) (rest : List Char) :
    scan (d.text.toList ++ rest) = some (.symbol d, d.text.toList.length) := by
  refine scan_symbol fun c _ => ?_
  simp only [Symbol.delimiters, List.mem_cons, List.not_mem_nil, or_false] at hd
  rcases hd with rfl | rfl | rfl | rfl | rfl | rfl | rfl <;> rfl

/-- A delimiter does not begin with a blank. -/
theorem not_isSpace_delimiter {d : Symbol} (hd : d ∈ Symbol.delimiters) (rest : List Char) :
    ∀ c ∈ (d.text.toList ++ rest).head?, isSpace c = false := by
  simp only [Symbol.delimiters, List.mem_cons, List.not_mem_nil, or_false] at hd
  rcases hd with rfl | rfl | rfl | rfl | rfl | rfl | rfl <;> simp [Symbol.text, isSpace]

/-- The tokens of a text end with the end. -/
theorem Cuts.exists_finish {start : Position} {chars : List Char} {tokens : List Token}
    (h : Cuts start chars tokens) :
    ∃ body finish, tokens = body ++ [finish] ∧ finish.isFinish = true := by
  induction h with
  | finish start => exact ⟨[], _, rfl, rfl⟩
  | token _ _ _ ih =>
      obtain ⟨body, finish, rfl, hfinish⟩ := ih
      exact ⟨_ :: body, finish, rfl, hfinish⟩

/-- What stands in front of a delimiter is cut as it is cut alone, and then comes the delimiter.
Only the blanks at the end differ. -/
theorem exists_embedding {start : Position} {chars rest : List Char} {tokens all : List Token}
    {d : Symbol} (hd : d ∈ Symbol.delimiters) (h : tokensFrom start chars = .ok tokens)
    (hall : tokensFrom start (chars ++ ' ' :: (d.text.toList ++ rest)) = .ok all) :
    ∃ body gap finish blank delimiter behind last, tokens = body ++ gap ++ [finish] ∧
      all = body ++ blank :: delimiter :: behind ++ [last] ∧
      (∀ t ∈ body, t.isFinish = false) ∧ (∀ t ∈ gap, t.isSpace = true) ∧
      finish.isFinish = true ∧ last.isFinish = true ∧ blank.isSpace = true ∧
      delimiter.kind = .symbol d ∧
      delimiter.range.start = start.advanceOver (chars ++ [' ']) := by
  have hne : d.text.toList ≠ [] := by
    cases d <;> decide
  obtain ⟨body, gap, finish, blank, htokens, hbody, hgap, hfinish, hblank, hsplit⟩ :=
    (cuts_of_tokensFrom h).blank (not_isSpace_delimiter hd rest)
  rw [tokensFrom_lexeme hne (scan_delimiter hd rest)] at hsplit
  rw [hsplit] at hall
  let place := start.advanceOver (chars ++ [' '])
  cases hrest : tokensFrom (place.advanceOver d.text.toList) rest with
  | error e =>
      rw [hrest] at hall
      cases hall
  | ok others =>
      rw [hrest] at hall
      cases hall
      obtain ⟨behind, last, rfl, hlast⟩ := (cuts_of_tokensFrom hrest).exists_finish
      let delimiter : Token := ⟨rangeOf (.symbol d) place d.text.toList, .symbol d⟩
      refine ⟨body, gap, finish, blank, delimiter, behind, last, htokens, ?_, hbody, hgap, hfinish,
        hlast, hblank, rfl, rfl⟩
      simp [delimiter, place]

end Lexer

namespace TokenStream

/-- Where only blanks are left, the end is shown past them. -/
theorem peek_gap {gap : List Token} {finish : Token} (hgap : ∀ t ∈ gap, t.isSpace = true) :
    ({ ahead := gap, finish := finish } : TokenStream).peek true = finish := by
  have hdrop : (gap ++ []).dropWhile Token.isSpace = [].dropWhile Token.isSpace :=
    List.dropWhile_append_of_pos hgap
  rw [List.append_nil, List.dropWhile_nil] at hdrop
  simp [peek, rest, hdrop]

/-- A delimiter that stands behind a blank is shown past it. -/
theorem peek_blank {blank delimiter : Token} {behind : List Token} {last : Token}
    (hblank : blank.isSpace = true) (hdelimiter : delimiter.isSpace = false) :
    ({ ahead := blank :: delimiter :: behind, finish := last } : TokenStream).peek true =
      delimiter := by
  simp [peek, rest, hblank, hdelimiter]

/-- A text alone and the text in front of a delimiter are in step. -/
theorem exists_inStep {a b : String} {d : Symbol} (hd : d ∈ Symbol.delimiters)
    {r s : TokenStream} (hr : ofText a = .ok r) (hs : ofText (a ++ " " ++ d.text ++ b) = .ok s) :
    ∃ x y, Bars x y ∧ InStep x y r.ahead r.remaining s.remaining r s ∧
      (y.peek true).kind = .symbol d ∧
      (y.peek true).range.start = Position.start.advanceOver (a.toList ++ [' ']) := by
  obtain ⟨tokens, htokens, rfl⟩ := ofText_ok.mp hr
  obtain ⟨all, hall, rfl⟩ := ofText_ok.mp hs
  have hchars : (a ++ " " ++ d.text ++ b).toList =
      a.toList ++ ' ' :: (d.text.toList ++ b.toList) := by
    simp
  rw [tokenizeAll, hchars] at hall
  obtain ⟨body, gap, finish, blank, delimiter, behind, last, rfl, rfl, hbody, hgap, hfinish, hlast,
    hblank, hkind, hstart⟩ := Lexer.exists_embedding hd htokens hall
  have hdelimiter : delimiter.isSpace = false := by simp [Token.isSpace, hkind]
  let x : TokenStream := { ahead := gap, finish }
  let y : TokenStream := { ahead := blank :: delimiter :: behind, finish := last }
  have hx : x.peek true = finish := peek_gap hgap
  have hy : y.peek true = delimiter := peek_blank hblank hdelimiter
  rw [ofTokens_concat hfinish, ofTokens_concat hlast]
  refine ⟨x, y, ⟨?_, ?_, ?_⟩, ⟨⟨body, hbody, rfl, rfl⟩, rfl, rfl, rfl, rfl, List.suffix_refl _,
    Nat.le_refl _, Nat.le_refl _⟩, ?_, ?_⟩
  -- Alone the text shows its end here, in front of the delimiter it shows this one.
  · rw [hx]
    exact hfinish
  · rw [hy]
    exact .inr ⟨d, hd, hkind⟩
  · exact .inr (Token.isSpace_iff.mp hblank)
  · rw [hy]
    exact hkind
  · rw [hy]
    exact hstart

end TokenStream

namespace Parser

open TokenStream

/-- An expression in front of a delimiter is read by `Parser.full` as it is read alone, and nothing
behind it. -/
theorem full_embedded {a b : String} {scope : Scope} {n : Node} {d : Symbol}
    (hd : d ∈ Symbol.delimiters) (ha : parse a scope .full = .ok n) {s : TokenStream}
    (hs : ofText (a ++ " " ++ d.text ++ b) = .ok s) :
    ∃ t, (full scope).run s = .ok n t ∧ (t.peek true).kind = .symbol d ∧
      (t.peek true).range.start = Position.start.advanceOver (a.toList ++ [' ']) := by
  obtain ⟨r, t, hr, hmode⟩ := parse_ok.mp ha
  obtain ⟨hrun, hexhausted⟩ := inMode_full_ok.mp hmode
  obtain ⟨x, y, hbars, hin, hkind, hstart⟩ := exists_inStep hd hr hs
  have hkeeps := full_keepsStep hbars scope hin
  unfold KeepsStep at hkeeps
  rw [hrun] at hkeeps
  cases hrun' : (full scope).run s with
  | error e u =>
      rw [hrun'] at hkeeps
      exact hkeeps.elim
  | ok m u =>
      rw [hrun'] at hkeeps
      obtain ⟨rfl, hbehind⟩ := hkeeps
      obtain ⟨v, i, i', -, -, hv, -, hnot, -⟩ | ⟨-, hu⟩ := hbehind.peek_cases true
      · -- The text alone is read to its end, so no token that both show is left.
        rw [isExhausted, hv, hnot] at hexhausted
        cases hexhausted
      · rw [← hu] at hkind hstart
        exact ⟨u, rfl, hkind, hstart⟩

/-- A sum in front of a comma is read as the sum, and the comma is left. -/
theorem full_embedded_comma : ∃ n s t, parse "x + 1" .root .full = .ok n ∧
    ofText ("x + 1" ++ " " ++ Symbol.comma.text ++ "y)") = .ok s ∧
    (full .root).run s = .ok n t ∧ (t.peek true).kind = .symbol .comma ∧
    (t.peek true).range.start = ⟨1, 7, 6⟩ := by
  have hparse : (parse "x + 1" .root .full).isOk = true := by decide +kernel
  have htext : (ofText ("x + 1" ++ " " ++ Symbol.comma.text ++ "y)")).isOk = true := by
    decide +kernel
  have hcomma : Symbol.comma ∈ Symbol.delimiters := by decide
  cases ha : parse "x + 1" .root .full with
  | error e =>
      rw [ha] at hparse
      cases hparse
  | ok n =>
      cases hs : ofText ("x + 1" ++ " " ++ Symbol.comma.text ++ "y)") with
      | error e =>
          rw [hs] at htext
          cases htext
      | ok s =>
          obtain ⟨t, hrun, hkind, hstart⟩ := full_embedded hcomma ha hs
          exact ⟨n, s, t, rfl, rfl, hrun, hkind, hstart⟩

end Parser

end DocQuery
