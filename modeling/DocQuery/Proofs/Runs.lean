import DocQuery.CommandLine
import DocQuery.Proofs.Comparisons
import DocQuery.Proofs.Reduction
import Mathlib.Data.List.TakeWhile
/-!
# DocQuery.Proofs.Runs

What a run of the command line comes to. It goes through four phases: the parameters, the
expression, the documents and their evaluation. Each phase is a list of steps of which either all
succeed or the first that fails is the result (`mapM_eq_ok`, `mapM_eq_error`), so a run either has
the values of all evaluations in their order, or the first error of the first phase that has one.

The phases are stated without the functions that carry them out: a parameter as the two halves
around its first equals sign, an evaluation as a sequence that is all values or that has its first
error somewhere.
-/

namespace DocQuery

open Precedence (bind_eq_error)

/-! ### Steps of which all have to succeed -/

section

variable {α β ε : Type} {P Q : α → Prop} {f : α → Except ε β}

/-- One of the elements has the one property, and all in front of it have the other one. -/
def Leading (P Q : α → Prop) (elements : List α) : Prop :=
  ∃ before a after, elements = before ++ a :: after ∧ (∀ b ∈ before, P b) ∧ Q a

theorem not_leading_nil : ¬ Leading P Q [] := by
  rintro ⟨before, a, after, h, -⟩
  exact absurd h (by simp)

/-- The first element decides, or it passes and the others decide. -/
theorem leading_cons {first : α} {rest : List α} :
    Leading P Q (first :: rest) ↔ Q first ∨ P first ∧ Leading P Q rest := by
  constructor
  · rintro ⟨before, a, after, h, hbefore, ha⟩
    cases before with
    | nil =>
        obtain ⟨rfl, -⟩ := List.cons.inj h
        exact .inl ha
    | cons b before =>
        obtain ⟨rfl, rfl⟩ := List.cons.inj h
        obtain ⟨hb, hbefore⟩ := List.forall_mem_cons.mp hbefore
        exact .inr ⟨hb, before, a, after, rfl, hbefore, ha⟩
  · rintro (hfirst | ⟨hfirst, before, a, after, rfl, hbefore, ha⟩)
    · exact ⟨[], first, rest, rfl, nofun, hfirst⟩
    · exact ⟨first :: before, a, after, rfl, List.forall_mem_cons.mpr ⟨hfirst, hbefore⟩, ha⟩

/-- All steps succeed just if each of them does, with the results in order. -/
theorem mapM_eq_ok {inputs : List α} {outputs : List β} :
    inputs.mapM f = .ok outputs ↔ List.Forall₂ (fun a b => f a = .ok b) inputs outputs := by
  induction inputs generalizing outputs with
  | nil => exact ⟨fun h => by cases h; exact .nil, fun h => by cases h; rfl⟩
  | cons first rest ih =>
      rw [List.mapM_cons]
      constructor
      · intro h
        cases hfirst : f first with
        | error e =>
            rw [hfirst] at h
            cases h
        | ok output =>
            cases hrest : rest.mapM f with
            | error e =>
                rw [hfirst, hrest] at h
                cases h
            | ok later =>
                rw [hfirst, hrest] at h
                cases h
                exact .cons hfirst (ih.mp hrest)
      · rintro (_ | ⟨hfirst, hrest⟩)
        rw [hfirst, ih.mpr hrest]
        rfl

/-- The first step that fails gives its error to all of them. -/
theorem mapM_eq_error {inputs : List α} {error : ε} :
    inputs.mapM f = .error error ↔
      Leading (fun a => ∃ b, f a = .ok b) (fun a => f a = .error error) inputs := by
  induction inputs with
  | nil => exact iff_of_false nofun not_leading_nil
  | cons first rest ih =>
      rw [List.mapM_cons, leading_cons, ← ih]
      -- The first step fails, or all others are looked at.
      cases f first with
      | error e => simp [bind, Except.bind]
      | ok output => cases rest.mapM f <;> simp [bind, Except.bind, pure, Except.pure]

end

namespace Results

variable {results : Results}

/-- A sequence is collected just if all of its elements are values. -/
theorem collect_eq_ok {values : List Value} :
    results.collect = .ok values ↔ results = ofValues values := by
  induction results generalizing values with
  | nil => cases values <;> simp [collect, ofValues]
  | cons result rest ih =>
      cases result with
      | error e => cases values <;> simp [collect, ofValues]
      | ok value =>
          cases values with
          | nil => cases hrest : collect rest <;> simp [collect, ofValues, hrest, Except.map]
          | cons first later =>
              have hlater := @ih later
              cases hrest : collect rest <;>
                simp_all [collect, ofValues, Except.map]

/-- Where not all elements are values, the first error stands for all of them. -/
theorem collect_eq_error {error : EvalError} :
    results.collect = .error error ↔
      Leading (fun result => ∃ value, result = .ok value) (· = .error error) results := by
  induction results with
  | nil => exact iff_of_false nofun not_leading_nil
  | cons result rest ih =>
      rw [leading_cons, ← ih]
      cases result with
      | error e => simp [collect]
      | ok value => cases hrest : collect rest <;> simp [collect, hrest, Except.map]

end Results

/-! ### The phases of a run -/

namespace CommandLine

/-- The text names a value: up to its first equals sign stands the name, behind it the value. -/
def IsParam (text : String) (entry : String × Value) : Prop :=
  ∃ name value, text.toList = name ++ '=' :: value ∧ '=' ∉ name ∧
    entry = (String.ofList (Text.trim name), paramValue (String.ofList value))

/-- The name is trimmed, the value is read as it stands. -/
theorem param_of_split {text : String} {name value : List Char}
    (h : text.toList = name ++ '=' :: value) (hname : '=' ∉ name) :
    param text =
      .ok (String.ofList (Text.trim name), paramValue (String.ofList value)) := by
  have hpass : ∀ c ∈ name, (c != '=') = true := fun c hc => by
    rw [bne_iff_ne]
    rintro rfl
    exact hname hc
  rw [param, h, List.dropWhile_append_of_pos hpass, List.takeWhile_append_of_pos hpass]
  simp

/-- Without an equals sign a parameter is refused, with its text in the message. -/
theorem param_of_not_mem {text : String} (h : '=' ∉ text.toList) :
    param text =
      .error (.refused ("Invalid parameter `" ++ text ++ "`, expected NAME=JSON")) := by
  have hpass : ∀ c ∈ text.toList, (c != '=') = true := fun c hc => by
    rw [bne_iff_ne]
    rintro rfl
    exact h hc
  rw [param, List.dropWhile_eq_nil_iff.mpr hpass]

/-- A parameter is taken just if it names a value. -/
theorem param_eq_ok {text : String} {entry : String × Value} :
    param text = .ok entry ↔ IsParam text entry := by
  by_cases hmem : '=' ∈ text.toList
  · -- Any two splits at the first equals sign are the same, so it is enough to look at one.
    obtain ⟨name, value, hsplit, hname⟩ := List.eq_append_cons_of_mem hmem
    constructor
    · intro h
      rw [param_of_split hsplit hname] at h
      exact ⟨name, value, hsplit, hname, (Except.ok.inj h).symm⟩
    · rintro ⟨name', value', hsplit', hname', rfl⟩
      exact param_of_split hsplit' hname'
  · rw [param_of_not_mem hmem]
    refine iff_of_false nofun ?_
    rintro ⟨name, value, hsplit, -⟩
    exact hmem (by simp [hsplit])

theorem param_eq_error {text : String} {error : RunError} :
    param text = .error error ↔
      '=' ∉ text.toList ∧
        error = .refused ("Invalid parameter `" ++ text ++ "`, expected NAME=JSON") := by
  by_cases hmem : '=' ∈ text.toList
  · obtain ⟨name, value, hsplit, hname⟩ := List.eq_append_cons_of_mem hmem
    rw [param_of_split hsplit hname]
    exact iff_of_false nofun fun h => h.1 hmem
  · rw [param_of_not_mem hmem, Except.error.injEq, eq_comm, and_iff_right hmem]

/-- What names a value is what has an equals sign. -/
theorem exists_isParam {text : String} : (∃ entry, IsParam text entry) ↔ '=' ∈ text.toList := by
  constructor
  · rintro ⟨entry, name, value, hsplit, -⟩
    simp [hsplit]
  · intro h
    obtain ⟨name, value, hsplit, hname⟩ := List.eq_append_cons_of_mem h
    exact ⟨_, name, value, hsplit, hname, rfl⟩

variable (arguments : Arguments) (inputs : Inputs) (ambient : Ambient)

/-- The expression that the arguments give, with these entries as parameters, or why there is
none. -/
def build (entries : List (String × Value)) : Except Error Expression :=
  Expression.build (arguments.backend.getD .standard) (arguments.expression.getD "")
    { parameters := Entries.ofList entries }

/-- The parameters and the text of the expression are valid, and this is the expression. -/
def Compiles (e : Expression) : Prop :=
  ∃ entries, List.Forall₂ IsParam arguments.params entries ∧ build arguments entries = .ok e

/-- The documents that can be read: those of what comes in, or those of all files in their order.
Where nothing comes in, there is one, which is null. -/
inductive Holds : (files : List String) → (documents : List Value) → Prop where
  | nothing (h : inputs.incoming = none) : Holds [] [.null]
  | incoming {text : String} {jsons : List Json} (h : inputs.incoming = some (.ok text))
      (hread : Json.readAll? text = some jsons) : Holds [] (jsons.map Value.ofJson)
  | files {files texts : List String} {jsons : List (List Json)} (hne : files ≠ [])
      (h : List.Forall₂ (fun name text => inputs.file? name = some (.ok text)) files texts)
      (hread : List.Forall₂ (fun text found => Json.readAll? text = some found) texts jsons) :
      Holds files (jsons.flatten.map Value.ofJson)

/-- A file has no text: it is not there, or it cannot be read. -/
def NoText (error : RunError) (name : String) : Prop :=
  inputs.file? name = none ∧ error = .refused ("File not found: " ++ name) ∨
    ∃ message, inputs.file? name = some (.error message) ∧ error = .refused message

/-- Why the documents cannot be read: something has no text, or else a text is no JSON. -/
inductive Unreadable : (files : List String) → RunError → Prop where
  | stream {message : String} (h : inputs.incoming = some (.error message)) :
      Unreadable [] (.refused message)
  | incoming {text : String} (h : inputs.incoming = some (.ok text))
      (hread : Json.readAll? text = none) : Unreadable [] .invalidJson
  | missing {files : List String} {error : RunError}
      (h : Leading (fun name => ∃ text, inputs.file? name = some (.ok text)) (NoText inputs error)
        files) :
      Unreadable files error
  | file {files texts : List String}
      (h : List.Forall₂ (fun name text => inputs.file? name = some (.ok text)) files texts)
      (hread : ∃ text ∈ texts, Json.readAll? text = none) : Unreadable files .invalidJson

/-- The contexts that the expression is evaluated in: one for each document, or one for all of them
together. -/
def contexts (e : Expression) (documents : List Value) : List Context :=
  let collation := arguments.collation.getD Collation.standard
  if arguments.aggregate then [Context.ofDocuments documents e.parameters collation ambient]
  else documents.map fun document => Context.ofDocument document e.parameters collation ambient

/-- A run has these results, one sequence of values for each evaluation. -/
def Yields (results : List (List Value)) : Prop :=
  ∃ e documents, Compiles arguments e ∧ Holds inputs arguments.files documents ∧
    List.Forall₂ (fun ctx values => e.execute ctx = Results.ofValues values)
      (contexts arguments ambient e documents) results

/-- A run fails with this error: the first one of the first phase that has one. -/
inductive Fails (error : RunError) : Prop where
  | param (h : Leading (fun text => '=' ∈ text.toList)
      (fun text => '=' ∉ text.toList ∧
        error = .refused ("Invalid parameter `" ++ text ++ "`, expected NAME=JSON"))
      arguments.params)
  | expression {entries : List (String × Value)} {cause : Error}
      (hparams : List.Forall₂ IsParam arguments.params entries)
      (h : build arguments entries = .error cause) (herror : error = .library cause)
  | reading {e : Expression} (hcompiles : Compiles arguments e)
      (h : Unreadable inputs arguments.files error)
  | evaluation {e : Expression} {documents : List Value} {cause : EvalError}
      (hcompiles : Compiles arguments e) (hholds : Holds inputs arguments.files documents)
      (h : Leading (fun ctx => ∃ values, e.execute ctx = Results.ofValues values)
        (fun ctx => Leading (fun result => ∃ value, result = .ok value) (· = .error cause)
          (e.execute ctx)) (contexts arguments ambient e documents))
      (herror : error = .library (e.error cause))

/-! ### What each phase comes to

Two facts for each phase: what it comes to if it succeeds, and which error it has if it fails. They
are equivalences, so the outcome of a run is found by rewriting with them. -/

section

variable {arguments inputs ambient} {e : Expression} {error : RunError}

/-- Parameters are taken in their order; of two with one name the last one counts. -/
theorem params_eq_ok {texts : List String} {parameters : Document} :
    params texts = .ok parameters ↔
      ∃ entries, List.Forall₂ IsParam texts entries ∧ parameters = Entries.ofList entries := by
  simp only [params, map_eq_ok, mapM_eq_ok, param_eq_ok]

/-- The first parameter that is refused is the error. -/
theorem params_eq_error {texts : List String} :
    params texts = .error error ↔ Leading (fun text => '=' ∈ text.toList)
      (fun text => '=' ∉ text.toList ∧
        error = .refused ("Invalid parameter `" ++ text ++ "`, expected NAME=JSON")) texts := by
  simp only [params, map_eq_error, mapM_eq_error, param_eq_ok, exists_isParam, param_eq_error]

/-- The expression is built with the parameters. -/
theorem compile_eq_ok : compile arguments = .ok e ↔ Compiles arguments e := by
  simp only [compile, bind_eq_ok, params_eq_ok, mapError_eq_ok, Compiles, build]
  constructor
  · rintro ⟨_, ⟨entries, hentries, rfl⟩, hbuild⟩
    exact ⟨entries, hentries, hbuild⟩
  · rintro ⟨entries, hentries, hbuild⟩
    exact ⟨_, ⟨entries, hentries, rfl⟩, hbuild⟩

/-- Parameters are looked at before the expression. -/
theorem compile_eq_error :
    compile arguments = .error error ↔
      params arguments.params = .error error ∨ ∃ entries,
        List.Forall₂ IsParam arguments.params entries ∧
          ∃ cause, build arguments entries = .error cause ∧ error = .library cause := by
  simp only [compile, bind_eq_error, params_eq_ok, mapError_eq_error, build]
  refine or_congr_right ⟨?_, ?_⟩
  · rintro ⟨_, ⟨entries, hentries, rfl⟩, hbuild⟩
    exact ⟨entries, hentries, hbuild⟩
  · rintro ⟨entries, hentries, hbuild⟩
    exact ⟨_, ⟨entries, hentries, rfl⟩, hbuild⟩

theorem documentsOf_eq_ok {text : String} {documents : List Value} :
    documentsOf text = .ok documents ↔
      ∃ jsons, Json.readAll? text = some jsons ∧ documents = jsons.map Value.ofJson := by
  unfold documentsOf
  cases Json.readAll? text <;> simp [eq_comm]

theorem documentsOf_eq_error {text : String} :
    documentsOf text = .error error ↔ Json.readAll? text = none ∧ error = .invalidJson := by
  unfold documentsOf
  cases Json.readAll? text <;> simp [eq_comm]

theorem mapM_documentsOf_eq_ok {texts : List String} {groups : List (List Value)} :
    texts.mapM documentsOf = .ok groups ↔ ∃ jsons,
      List.Forall₂ (fun text found => Json.readAll? text = some found) texts jsons ∧
        groups = jsons.map (List.map Value.ofJson) := by
  simp only [mapM_eq_ok, documentsOf_eq_ok]
  constructor
  · intro h
    induction h with
    | nil => exact ⟨[], .nil, rfl⟩
    | cons hfirst _ ih =>
        obtain ⟨found, hread, rfl⟩ := hfirst
        obtain ⟨jsons, hrest, rfl⟩ := ih
        exact ⟨found :: jsons, .cons hread hrest, rfl⟩
  · rintro ⟨jsons, hread, rfl⟩
    exact List.forall₂_map_right_iff.mpr (hread.imp fun text found h => ⟨found, h, rfl⟩)

theorem mapM_documentsOf_eq_error {texts : List String} :
    texts.mapM documentsOf = .error error ↔
      (∃ text ∈ texts, Json.readAll? text = none) ∧ error = .invalidJson := by
  constructor
  · intro h
    obtain ⟨before, text, after, rfl, -, htext⟩ := mapM_eq_error.mp h
    obtain ⟨hread, rfl⟩ := documentsOf_eq_error.mp htext
    exact ⟨⟨text, by simp, hread⟩, rfl⟩
  · rintro ⟨⟨text, hmem, hread⟩, rfl⟩
    -- One text is no JSON, so not all of them are read; and whichever is the first of these, the
    -- error is the same.
    cases h : texts.mapM documentsOf with
    | ok groups =>
        obtain ⟨jsons, hjsons, -⟩ := mapM_documentsOf_eq_ok.mp h
        have hall : List.Forall₂ (fun text found => Json.readAll? text ≠ none ∧
            Json.readAll? text = some found) texts jsons :=
          hjsons.imp fun other found hfound => ⟨by simp [hfound], hfound⟩
        exact absurd hread (((List.forall₂_and_left _ _).mp hall).1 text hmem)
    | error error =>
        obtain ⟨before, other, after, -, -, hother⟩ := mapM_eq_error.mp h
        rw [(documentsOf_eq_error.mp hother).2]

/-- Files are read just if each of them is there and can be read. -/
theorem contents_eq_ok {files texts : List String} (hne : files ≠ []) :
    contents inputs files = .ok texts ↔
      List.Forall₂ (fun name text => inputs.file? name = some (.ok text)) files texts := by
  rw [contents, if_neg (by simpa using hne), mapM_eq_ok]
  refine iff_of_eq (congrArg (List.Forall₂ · files texts) (funext₂ fun name text => ?_))
  rcases inputs.file? name with _ | message | found <;> simp [Except.mapError]

/-- The first file that has no text is the error. -/
theorem contents_eq_error {files : List String} (hne : files ≠ []) :
    contents inputs files = .error error ↔
      Leading (fun name => ∃ text, inputs.file? name = some (.ok text)) (NoText inputs error)
        files := by
  rw [contents, if_neg (by simpa using hne), mapM_eq_error]
  refine iff_of_eq (congrArg₂ (Leading · · files) (funext fun name => ?_) (funext fun name => ?_))
  · rcases inputs.file? name with _ | message | found <;> simp [Except.mapError]
  · rw [NoText]
    rcases inputs.file? name with _ | message | found <;> simp [Except.mapError, eq_comm]

/-- Files come before what comes in. All of them are read before any of them is taken apart. -/
theorem documents_of_files {files : List String} (hne : files ≠ []) :
    documents inputs files = do
      let texts ← contents inputs files
      return (← texts.mapM documentsOf).flatten := by
  rw [documents, if_neg (by simp [hne])]

theorem documents_of_incoming {text : String} (h : inputs.incoming = some (.ok text)) :
    documents inputs [] = documentsOf text := by
  rw [documents, h]
  cases hdocs : documentsOf text <;>
    simp [contents, h, hdocs, Except.mapError, bind, Except.bind, pure, Except.pure]

theorem documents_of_stream {message : String} (h : inputs.incoming = some (.error message)) :
    documents inputs [] = .error (.refused message) := by
  rw [documents, h]
  simp [contents, h, Except.mapError, bind, Except.bind]

theorem documents_of_nothing (h : inputs.incoming = none) : documents inputs [] = .ok [.null] := by
  rw [documents, h]
  rfl

/-- The documents of a run are those it holds. -/
theorem documents_eq_ok {files : List String} {found : List Value} :
    documents inputs files = .ok found ↔ Holds inputs files found := by
  constructor
  · intro hdocs
    -- Without files it is what comes in that counts, if anything does.
    by_cases hne : files = []
    · subst hne
      rcases hincoming : inputs.incoming with _ | message | text
      · rw [documents_of_nothing hincoming] at hdocs
        cases hdocs
        exact .nothing hincoming
      · rw [documents_of_stream hincoming] at hdocs
        cases hdocs
      · rw [documents_of_incoming hincoming] at hdocs
        obtain ⟨jsons, hread, rfl⟩ := documentsOf_eq_ok.mp hdocs
        exact .incoming hincoming hread
    · rw [documents_of_files hne] at hdocs
      obtain ⟨texts, htexts, hdocs⟩ := bind_eq_ok.mp hdocs
      obtain ⟨groups, hgroups, hdocs⟩ := bind_eq_ok.mp hdocs
      obtain ⟨jsons, hread, rfl⟩ := mapM_documentsOf_eq_ok.mp hgroups
      cases hdocs
      rw [← List.map_flatten]
      exact .files hne ((contents_eq_ok hne).mp htexts) hread
  · rintro (hnothing | ⟨hincoming, hread⟩ | ⟨hne, hfiles, hread⟩)
    · exact documents_of_nothing hnothing
    · rw [documents_of_incoming hincoming]
      exact documentsOf_eq_ok.mpr ⟨_, hread, rfl⟩
    · rw [documents_of_files hne, List.map_flatten]
      exact bind_eq_ok.mpr ⟨_, (contents_eq_ok hne).mpr hfiles,
        bind_eq_ok.mpr ⟨_, mapM_documentsOf_eq_ok.mpr ⟨_, hread, rfl⟩, rfl⟩⟩

/-- Documents cannot be read just for one of the reasons given. -/
theorem documents_eq_error {files : List String} :
    documents inputs files = .error error ↔ Unreadable inputs files error := by
  constructor
  · intro hdocs
    by_cases hne : files = []
    · subst hne
      rcases hincoming : inputs.incoming with _ | message | text
      · rw [documents_of_nothing hincoming] at hdocs
        cases hdocs
      · rw [documents_of_stream hincoming] at hdocs
        cases hdocs
        exact .stream hincoming
      · rw [documents_of_incoming hincoming] at hdocs
        obtain ⟨hread, rfl⟩ := documentsOf_eq_error.mp hdocs
        exact .incoming hincoming hread
    · rw [documents_of_files hne] at hdocs
      obtain hmissing | ⟨texts, htexts, hdocs⟩ := bind_eq_error.mp hdocs
      · exact .missing ((contents_eq_error hne).mp hmissing)
      · obtain herror | ⟨groups, -, hdocs⟩ := bind_eq_error.mp hdocs
        · obtain ⟨hread, rfl⟩ := mapM_documentsOf_eq_error.mp herror
          exact .file ((contents_eq_ok hne).mp htexts) hread
        · cases hdocs
  · rintro (hincoming | ⟨hincoming, hread⟩ | hmissing | ⟨hfiles, hread⟩)
    · exact documents_of_stream hincoming
    · rw [documents_of_incoming hincoming]
      exact documentsOf_eq_error.mpr ⟨hread, rfl⟩
    · -- A file is named, so it is files that are read.
      have hne : files ≠ [] := by
        rintro rfl
        exact not_leading_nil hmissing
      rw [documents_of_files hne]
      exact bind_eq_error.mpr (.inl ((contents_eq_error hne).mpr hmissing))
    · have hne : files ≠ [] := by
        rintro rfl
        cases hfiles
        obtain ⟨text, hmem, -⟩ := hread
        cases hmem
      rw [documents_of_files hne]
      exact bind_eq_error.mpr (.inr ⟨_, (contents_eq_ok hne).mpr hfiles,
        bind_eq_error.mpr (.inl (mapM_documentsOf_eq_error.mpr ⟨hread, rfl⟩))⟩)

theorem collect_eq_ok {ctx : Context} {values : List Value} :
    e.collect ctx = .ok values ↔ e.execute ctx = Results.ofValues values := by
  rw [← Results.collect_eq_ok, Expression.collect, mapError_eq_ok]

/-- The first error of an evaluation is its error, with the source of the expression. -/
theorem collect_eq_error {ctx : Context} {error : Error} :
    e.collect ctx = .error error ↔ ∃ cause,
      Leading (fun result => ∃ value, result = .ok value) (· = .error cause) (e.execute ctx) ∧
        error = e.error cause := by
  simp only [← Results.collect_eq_error, Expression.collect, mapError_eq_error]

/-- With one context for each document or with one for all, an evaluation collects the values in
every context and puts them together. -/
theorem evaluate_eq (documents : List Value) :
    evaluate e arguments ambient documents =
      ((contexts arguments ambient e documents).mapM e.collect).map List.flatten := by
  unfold evaluate contexts
  cases arguments.aggregate with
  | true =>
      simp only [if_true, List.mapM_cons, List.mapM_nil]
      cases h : e.collect (Context.ofDocuments documents e.parameters
        (arguments.collation.getD Collation.standard) ambient) <;>
        simp [Expression.executeDocuments, h, Except.map, bind, Except.bind, pure, Except.pure]
  | false =>
      simp only [Bool.false_eq_true, if_false, evaluateEach, List.mapM_map]
      rfl

theorem evaluate_eq_ok {documents values : List Value} :
    evaluate e arguments ambient documents = .ok values ↔ ∃ results,
      List.Forall₂ (fun ctx values => e.execute ctx = Results.ofValues values)
        (contexts arguments ambient e documents) results ∧ values = results.flatten := by
  simp only [evaluate_eq, map_eq_ok, mapM_eq_ok, collect_eq_ok]

theorem evaluate_eq_error {documents : List Value} {error : Error} :
    evaluate e arguments ambient documents = .error error ↔
      Leading (fun ctx => ∃ values, e.execute ctx = Results.ofValues values)
        (fun ctx => ∃ cause, Leading (fun result => ∃ value, result = .ok value) (· = .error cause)
          (e.execute ctx) ∧ error = e.error cause) (contexts arguments ambient e documents) := by
  simp only [evaluate_eq, map_eq_error, mapM_eq_error, collect_eq_ok, collect_eq_error]

end

/-- A run either yields all values of all evaluations, in the order of the documents, and writes one
text for each of them, or it fails and writes nothing; then its error is the first in the order of
the phases and of what each of them goes through. -/
theorem run_outcome (h : arguments.explain = false) :
    (∀ output, run arguments inputs ambient = .ok output ↔ ∃ results,
      Yields arguments inputs ambient results ∧
        output = String.join (results.flatten.map (writeValue arguments.compact))) ∧
    ∀ error, run arguments inputs ambient = .error error ↔
      Fails arguments inputs ambient error := by
  -- Without a request to explain, a run is its four phases.
  have hrun : run arguments inputs ambient = do
      let expression ← compile arguments
      let documents ← documents inputs arguments.files
      let values ← (evaluate expression arguments ambient documents).mapError .library
      return writeValues arguments.compact values := by
    simp only [run, h, Bool.false_eq_true, if_false]
  refine ⟨fun output => ?_, fun error => ?_⟩
  · rw [hrun]
    simp only [bind_eq_ok, compile_eq_ok, documents_eq_ok, mapError_eq_ok, evaluate_eq_ok]
    constructor
    · rintro ⟨e, hcompiles, documents, hholds, _, ⟨results, hresults, rfl⟩, ⟨⟩⟩
      exact ⟨results, ⟨e, documents, hcompiles, hholds, hresults⟩, rfl⟩
    · rintro ⟨results, ⟨e, documents, hcompiles, hholds, hresults⟩, rfl⟩
      exact ⟨e, hcompiles, documents, hholds, _, ⟨results, hresults, rfl⟩, rfl⟩
  · rw [hrun]
    simp only [bind_eq_error, compile_eq_ok, compile_eq_error, params_eq_error, documents_eq_ok,
      documents_eq_error, mapError_eq_error, evaluate_eq_error]
    constructor
    · -- In the order of the phases: each case has what the phases before it came to.
      rintro ((hparam | ⟨entries, hentries, cause, hbuild, rfl⟩) | ⟨e, hcompiles, hrest⟩)
      · exact .param hparam
      · exact .expression hentries hbuild rfl
      · obtain hreading | ⟨documents, hholds, hrest⟩ := hrest
        · exact .reading hcompiles hreading
        · obtain ⟨_, hevaluation, rfl⟩ | ⟨values, -, hpure⟩ := hrest
          · obtain ⟨before, ctx, after, hsplit, hbefore, cause, hcause, rfl⟩ := hevaluation
            exact .evaluation hcompiles hholds ⟨before, ctx, after, hsplit, hbefore, hcause⟩ rfl
          · cases hpure
    · rintro (hparam | ⟨hentries, hbuild, rfl⟩ | ⟨hcompiles, hreading⟩ |
        ⟨hcompiles, hholds, hevaluation, rfl⟩)
      · exact .inl (.inl hparam)
      · exact .inl (.inr ⟨_, hentries, _, hbuild, rfl⟩)
      · exact .inr ⟨_, hcompiles, .inl hreading⟩
      · obtain ⟨before, ctx, after, hsplit, hbefore, hcause⟩ := hevaluation
        exact .inr ⟨_, hcompiles, .inr ⟨_, hholds, .inl ⟨_,
          ⟨before, ctx, after, hsplit, hbefore, _, hcause, rfl⟩, rfl⟩⟩⟩

/-- Two documents of one file and one of another, and the same with a last document on which the
expression fails. -/
theorem run_outcome_files :
    let inputs : Inputs :=
      { incoming := some (.ok "")
        file? := fun name => List.lookup name
          [("a", .ok "\x7b\"n\":3\x7d \x7b\"n\":4\x7d"), ("b", .ok "\x7b\"n\":6\x7d"),
            ("c", .ok "\x7b\"n\":0\x7d")] }
    let ambient : Ambient := ⟨.ofDate .epoch, fun _ _ => 0⟩
    let arguments : Arguments := { expression := some "12/$.n", files := ["a", "b"] }
    arguments.explain = false ∧
    (∃ results, Yields arguments inputs ambient results ∧
      "4\n3\n2\n" = String.join (results.flatten.map (writeValue arguments.compact))) ∧
    Fails { arguments with files := ["a", "b", "c"] } inputs ambient
      (.library ⟨.eval .zeroDivision, "12/$.n"⟩) := by
  intro inputs ambient arguments
  let failing : Arguments := { arguments with files := ["a", "b", "c"] }
  have hruns : run arguments inputs ambient = .ok "4\n3\n2\n" ∧
      run failing inputs ambient = .error (.library ⟨.eval .zeroDivision, "12/$.n"⟩) := by
    decide +kernel
  obtain ⟨hok, -⟩ := run_outcome arguments inputs ambient rfl
  obtain ⟨-, herror⟩ := run_outcome failing inputs ambient rfl
  exact ⟨rfl, (hok _).mp hruns.1, (herror _).mp hruns.2⟩

end CommandLine

end DocQuery
