import DocQuery.Proofs.Rereading.Paths
import DocQuery.Proofs.Writing
/-!
# DocQuery.Proofs.NameText

Names and the text that is written for them. A quoted text is one token that holds what was
quoted, and a text is one word as a whole exactly where it counts as a word, so nothing is lost
by writing a name bare where that is possible. What is written for the name of a field or of an
entry is read as that name.
-/

namespace DocQuery

/-- What the tokens of a text are, wherever they stand. -/
def kindsOf (code : String) (spaces : Bool) : Except LexError (List TokenKind) :=
  (tokenize code spaces).map fun tokens => tokens.map Token.kind

/-- A text that is written for one token is cut into that token. -/
theorem kindsOf_written {kind : TokenKind} {code : String} (h : kind.IsWritten)
    (hblank : kind.isBlank = false) (hcode : code.toList = kind.written) (spaces : Bool) :
    kindsOf code spaces = .ok [kind, .finish] := by
  have hscan : Lexer.scan (kind.written ++ []) = some (kind, kind.written.length) := by
    refine Lexer.scan_written h ?_
    intro c hc
    cases hc
  have hstep := Lexer.tokensFrom_lexeme h.ne_nil hscan Position.start
  rw [List.append_nil, Lexer.tokensFrom] at hstep
  have hspace (range : Range) : Token.isSpace ⟨range, kind⟩ = false := by
    cases kind with
    | space => cases hblank
    | _ => rfl
  rw [kindsOf, tokenize, tokenizeAll, hcode, hstep]
  cases spaces with
  | true => rfl
  | false =>
      -- Without blanks the tokens are the same, since neither is one.
      have hkept (range range' : Range) :
          [(⟨range, kind⟩ : Token), ⟨range', .finish⟩].filter (!·.isSpace) =
            [⟨range, kind⟩, ⟨range', .finish⟩] := by
        have hfinish : Token.isSpace ⟨range', .finish⟩ = false := rfl
        simp [hspace, hfinish]
      exact congrArg (fun tokens => Except.ok (tokens.map Token.kind)) (hkept _ _)

/-- A word among the tokens of a text is one that may be written bare. -/
theorem isWord_of_mem_kindsOf {code word : String} {spaces : Bool} {kinds : List TokenKind}
    (h : kindsOf code spaces = .ok kinds) (hword : .word word ∈ kinds) :
    Text.isWord word = true := by
  unfold kindsOf tokenize at h
  cases htokens : tokenizeAll code with
  | error e =>
      rw [htokens] at h
      cases h
  | ok tokens =>
      rw [htokens] at h
      cases h
      obtain ⟨t, ht, hkind⟩ := List.mem_map.mp hword
      have hmem : t ∈ tokens := by
        cases spaces with
        | true => exact ht
        | false => exact (List.mem_filter.mp ht).1
      have hproper := Lexer.isProper_of_tokensFrom htokens t hmem
      rw [hkind] at hproper
      exact hproper

/-! ### Reading back -/

namespace Phrase

theorem flows_key (name : String) : Flows [(canonicalKey name).mark] := by
  unfold canonicalKey
  split <;> exact ⟨rfl, trivial⟩

theorem flows_field (touching : Bool) (name : String) :
    Flows (.touch .period :: (canonicalField name).marks touching) := by
  unfold canonicalField
  split
  · exact ⟨rfl, rfl, trivial⟩
  · exact ⟨rfl, rfl, rfl, rfl, trivial⟩

end Phrase

namespace Parser

open Phrase

/-- The name of an entry is read back from its text. -/
theorem key_keyText (name : String) :
    ∃ s t, TokenStream.ofText (keyText name) = .ok s ∧ key.run s = .ok name t ∧
      t.isExhausted = true := by
  have hmarks := marksWrite_key name .nil
  rw [List.append_nil] at hmarks
  obtain ⟨s, t, hs, hspells, hend⟩ := hmarks.exists_spells (flows_key name)
  have hrun := key_run hspells
  rw [name_canonicalKey] at hrun
  exact ⟨s, t, hs, hrun, hend⟩

/-- The name of a field is read back from its text, behind the period that it begins with. Behind
a root the reader passes over blanks between the two, which are not written. -/
theorem fieldName_memberText (name : String) (skip : Bool) :
    ∃ s t, TokenStream.ofText (memberText name) = .ok s ∧ (s.peek false).kind = .symbol .period ∧
      (do pass false; fieldName (← next skip)).run s = .ok name t ∧ t.isExhausted = true := by
  obtain ⟨s, t, hs, ⟨hperiod, hspells⟩, hend⟩ :=
    (marksWrite_field (!skip) name).exists_spells (flows_field (!skip) name)
  have hrun := fieldName_run hspells
  rw [name_canonicalField, Bool.not_not] at hrun
  exact ⟨s, t, hs, hperiod, hrun, hend⟩

end Parser

/-- Quoted text is one token, a text is one word exactly where it counts as a word, and names
are read back from what is written for them. -/
theorem names_read_back (name : String) :
    (∀ spaces, kindsOf (Text.quote name) spaces = .ok [.string name, .finish]) ∧
    (∀ spaces, Text.isWord name = true ↔ kindsOf name spaces = .ok [.word name, .finish]) ∧
    (∃ s t, TokenStream.ofText (keyText name) = .ok s ∧ Parser.key.run s = .ok name t ∧
      t.isExhausted = true) ∧
    (∀ skip, ∃ s t, TokenStream.ofText (memberText name) = .ok s ∧
      (s.peek false).kind = .symbol .period ∧
      (do Parser.pass false; Parser.fieldName (← Parser.next skip)).run s = .ok name t ∧
      t.isExhausted = true) := by
  refine ⟨?_, ?_, Parser.key_keyText name, Parser.fieldName_memberText name⟩
  · intro spaces
    have hwritten : (TokenKind.string name).IsWritten := trivial
    exact kindsOf_written hwritten rfl String.toList_ofList spaces
  · intro spaces
    constructor
    · intro hword
      have hwritten : (TokenKind.word name).IsWritten := hword
      exact kindsOf_written hwritten rfl rfl spaces
    · intro hkinds
      exact isWord_of_mem_kindsOf hkinds (List.mem_cons_self ..)

end DocQuery
