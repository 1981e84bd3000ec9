import PathQuery.Proofs.Constraint.Clauses
import PathQuery.Proofs.Facet.Failures
import PathQuery.Proofs.Path.LeftJoins

namespace PathQuery

/-! # What the search box asks

The search box writes its last clause in one of three ways: on the whole row, on a column of the
root table, or on columns that are joined before.  In each way the clause says the same of what is
searched: there is a search term each token of which is found somewhere in it.
-/

namespace Facet

open Reading Source Constraint

variable {aliases next : Aliases} {subjects : List Subject} {terms : List Json} {term : Json}
  {clause : String}

theorem anyTargetClause_eq (targets : List String) (term : String) :
    anyTargetClause targets term =
      if Search.tokens term = [] then none
      else some ("&".intercalate ((Search.tokens term).map fun token =>
        "(" ++ ";".intercalate (targets.map fun target =>
          target ++ "::ciregexp::" ++ Text.percentEncode (Search.pattern token)) ++ ")")) := by
  unfold anyTargetClause Search.encodedPatterns
  cases Search.tokens term with
  | nil => rfl
  | cons token tokens => simp [Function.comp_def]

theorem anyTargetClause_eq_none {targets : List String} {term : String} :
    anyTargetClause targets term = none ↔ Search.tokens term = [] := by
  rw [anyTargetClause_eq]
  split <;> simp_all

theorem anyTargetClause_means (given : subjects ≠ [])
    (addressable : ∀ subject ∈ subjects, subject.Addressable)
    (written : anyTargetClause (subjects.map Subject.text) term.plainText = some clause) :
    Means 1 clause fun truth => termFound truth subjects term := by
  rw [anyTargetClause_eq, Option.ite_none_left_eq_some] at written
  obtain ⟨tokens, written⟩ := written
  cases written
  refine (Means.all tokens fun token _ => ?_).congr fun truth => (termFound_eq tokens truth _).symm
  rw [List.map_map]
  refine isCondition_grouped (.any given fun subject member => .single ?_)
  exact isCondition_value (addressable subject member) (Search.pattern token) mem_spellings_regexp
    rfl

theorem length_le_intercalate (separator first : String) (later : List String) :
    first.length ≤ (separator.intercalate (first :: later)).length := by
  cases later with
  | nil => rw [String.intercalate_singleton]
  | cons second later =>
      rw [String.intercalate_cons_cons, String.length_append, String.length_append, Nat.add_assoc]
      exact Nat.le_add_right ..

/-- Whether there is one clause or several, they say that one of the terms is found. -/
theorem joinTermClauses_means (given : subjects ≠ [])
    (addressable : ∀ subject ∈ subjects, subject.Addressable)
    (written : joinTermClauses (terms.filterMap fun term =>
      anyTargetClause (subjects.map Subject.text) term.plainText) = some clause) :
    ∃ formula, read clause = some formula ∧
      ∀ truth, formula.holds truth = terms.any (termFound truth subjects) := by
  let write (term : Json) := anyTargetClause (subjects.map Subject.text) term.plainText
  have means : ∀ term ∈ terms, ∀ text, write term = some text →
      Means 1 text fun truth => termFound truth subjects term :=
    fun _ _ _ => anyTargetClause_means given addressable
  have absent : ∀ term ∈ terms, write term = none → ∀ truth, termFound truth subjects term = false :=
    fun _ _ written truth => termFound_of_no_tokens (anyTargetClause_eq_none.mp written) truth _
  unfold joinTermClauses at written
  split at written
  · contradiction
  · rename_i single
    cases written
    have one := Means.anyWritten (by rw [single]; exact List.cons_ne_nil _ _) means absent
    rw [single, String.intercalate_singleton] at one
    exact one.read_eq
  · rename_i some _
    cases written
    have several : Means 2 (";".intercalate (terms.filterMap fun term =>
        (write term).map fun clause => "(" ++ clause ++ ")")) fun truth =>
          terms.any (termFound truth subjects) := by
      refine .anyWritten ?_ ?_ ?_
      · rw [← List.map_filterMap]
        exact fun none => some (List.map_eq_nil_iff.mp none)
      · intro term member text written
        obtain ⟨inner, innerWritten, rfl⟩ := Option.map_eq_some_iff.mp written
        exact .single (isCondition_grouped (means term member inner innerWritten))
      · intro term member written
        exact absent term member (Option.map_eq_none_iff.mp written)
    rw [← List.map_filterMap] at several
    refine several.read_within ?_
    obtain ⟨first, later, same⟩ := List.exists_cons_of_ne_nil some
    rw [same, List.map_cons]
    refine le_trans ?_ (length_le_intercalate ";" _ _)
    simp only [String.length_append]
    exact Nat.add_le_add (Nat.le_add_right 1 _) (Nat.le_refl 1)

/-- How a search column stands in the clause: by its name or, if it is at the end of a path, with
    the alias that the end of this path has among the joins. -/
inductive Addressed (joins : Path) : Resolved → Subject → Prop
  | onRoot {column : Resolved} (pathless : column.hasPath = false) :
      Addressed joins column (.column none column.column.name)
  | joined {column : Resolved} {wanted name : String} {aliases next : Aliases}
      {rendered : RenderedPath} (path : column.hasPath = true)
      (renders : column.render .left none (some wanted) aliases = (rendered, next))
      (isEnd : rendered.aliasName = some name) (within : rendered.path <:+: joins) :
      Addressed joins column (.column (some name) column.column.name)

theorem Addressed.mono {joins wider : Path} {column : Resolved} {subject : Subject}
    (within : joins <:+: wider) (addressed : Addressed joins column subject) :
    Addressed wider column subject := by
  cases addressed with
  | onRoot pathless => exact .onRoot pathless
  | joined path renders isEnd inside => exact .joined path renders isEnd (inside.trans within)

/-- What a search looks in: the whole row if there are no columns, else the columns. -/
inductive Searches : List Resolved → Path → List Subject → Prop
  | wholeRow : Searches [] [] [.wholeRow]
  | columns {columns : List Resolved} {joins : Path} {subjects : List Subject}
      (given : columns ≠ []) (each : List.Forall₂ (Addressed joins) columns subjects) :
      Searches columns joins subjects

/-- The names that the joined columns have in the clause can be read. -/
theorem joinTargets_addressed {columns : List Resolved} {joins : Path} {targets : List String}
    {admits : Context → Prop}
    (grounded : ∀ column ∈ columns, Grounded admits column) (words : aliases.AllNames IsWord)
    (joined : joinTargets columns aliases = .ok (joins, targets, next)) :
    ∃ subjects, targets = subjects.map Subject.text ∧
      List.Forall₂ (Addressed joins) columns subjects ∧
      ∀ subject ∈ subjects, subject.Addressable := by
  induction columns generalizing aliases joins targets with
  | nil =>
      cases joined
      exact ⟨[], rfl, .nil, nofun⟩
  | cons column columns ih =>
      obtain ⟨columnGrounded, othersGrounded⟩ := List.forall_mem_cons.mp grounded
      obtain ⟨pathless, names, joinedOthers, rfl⟩ |
        ⟨hasPath, rendered, reached, others, names, rendersTo, joinedOthers, rfl, rfl⟩ :=
        joinTargets_cons joined
      · obtain ⟨subjects, rfl, each, addressable⟩ := ih othersGrounded words joinedOthers
        refine ⟨.column none column.column.name :: subjects, rfl, .cons (.onRoot pathless) each, ?_⟩
        exact List.forall_mem_cons.mpr ⟨trivial, addressable⟩
      · obtain ⟨mintedWords, hintWord⟩ := words.mint
        obtain ⟨reachedWords, endWord⟩ := column.render_allNames .left none mintedWords
          (fun name isHint => Option.some.inj isHint ▸ hintWord)
        obtain ⟨name, isName, -⟩ :=
          columnGrounded.render_ends hasPath .left none aliases.mint.1 aliases.mint.2
        rw [rendersTo] at reachedWords endWord isName
        obtain ⟨subjects, rfl, each, addressable⟩ := ih othersGrounded reachedWords joinedOthers
        refine ⟨.column (some name) column.column.name :: subjects, ?_, ?_, ?_⟩
        · rw [isName]
          rfl
        · have first : rendered.path <:+: rendered.path ++ [.goTo next.root] ++ others := by
            rw [List.append_assoc]
            exact (List.prefix_append _ _).isInfix
          have later : others <:+: rendered.path ++ [.goTo next.root] ++ others :=
            (List.suffix_append _ _).isInfix
          refine .cons (.joined hasPath rendersTo isName first) ?_
          exact each.imp fun _ _ addressed => addressed.mono later
        · exact List.forall_mem_cons.mpr ⟨endWord name isName, addressable⟩

/-- The search box asks whether each token of some term is found in what is searched. -/
theorem searchPath_means {columns : List Resolved} {admits : Context → Prop}
    (grounded : ∀ column ∈ columns, Grounded admits column) (words : aliases.AllNames IsWord)
    {capabilities : Capabilities} {path : Path}
    (searched : searchPath columns capabilities terms aliases = .ok (path, next)) :
    ∃ joins clause subjects formula, path = joins ++ [.filter clause, .goTo aliases.root] ∧
      Searches columns joins subjects ∧ read clause = some formula ∧
      ∀ truth, formula.holds truth = terms.any (termFound truth subjects) := by
  obtain ⟨rfl, rfl, rfl, given⟩ | ⟨column, clause, rfl, pathless, rfl, written, rfl⟩ |
    ⟨joins, targets, clause, given, joined, written, rfl⟩ := searchPath_cases searched
  · have everything : Subject.wholeRow.Addressable := trivial
    obtain ⟨formula, isRead, same⟩ := (termClauses_means everything given).read_eq
    exact ⟨[], _, [.wholeRow], formula, rfl, .wholeRow, isRead, same⟩
  · obtain ⟨formula, isRead, same⟩ := (searchClause_means column.column written).read_eq
    refine ⟨[], clause, [.column none column.column.name], formula, rfl,
      .columns (List.cons_ne_nil _ _) (.cons (.onRoot pathless) .nil), isRead, fun truth => ?_⟩
    rw [same, Constraint.holds, funext (termFound_column truth column.column)]
  · obtain ⟨subjects, rfl, each, addressable⟩ := joinTargets_addressed grounded words joined
    have some : subjects ≠ [] := by
      rintro rfl
      exact given (List.forall₂_nil_right_iff.mp each)
    obtain ⟨formula, isRead, same⟩ := joinTermClauses_means some addressable written
    exact ⟨joins, clause, subjects, formula, rfl, .columns given each, isRead, same⟩

/-- No term has a token. -/
def Tokenless (terms : List Json) : Prop := ∀ term ∈ terms, Search.tokens term.plainText = []

theorem termClauses_eq_nil (text : String) (quantified : Bool) :
    (terms.filterMap fun term => Search.termClause term.plainText text quantified) = [] ↔
      Tokenless terms := by
  rw [List.filterMap_eq_nil_iff]
  exact forall₂_congr fun _ _ => termClause_eq_none

theorem joinTermClauses_eq_none (terms : List Json) (targets : List String) :
    joinTermClauses (terms.filterMap fun term => anyTargetClause targets term.plainText) = none ↔
      Tokenless terms := by
  rw [← Option.not_isSome_iff_eq_none, joinTermClauses_isSome, Bool.not_eq_true',
    Bool.not_eq_false, List.isEmpty_iff, List.filterMap_eq_nil_iff]
  exact forall₂_congr fun _ _ => anyTargetClause_eq_none

theorem searchClause_outcome (terms : List Json) (column : String) (quantified : Bool) :
    (Tokenless terms ∧ searchClause column terms quantified = .error (.invalidSearch .noTokens)) ∨
    (¬ Tokenless terms ∧ ∃ text, searchClause column terms quantified = .ok text) := by
  by_cases none : Tokenless terms
  · refine .inl ⟨none, if_pos ?_⟩
    rw [(termClauses_eq_nil column quantified).mpr none]
    rfl
  · refine .inr ⟨none, _, if_neg ?_⟩
    rwa [List.isEmpty_iff, termClauses_eq_nil]

/-- On one column of the root table the short clause says the same as the one for several. -/
theorem searchClause_alike (column : Column) {quantified : Bool}
    (written : searchClause (Text.percentEncode column.name) terms quantified = .ok clause) :
    ∃ general formula other,
      joinTermClauses (terms.filterMap fun term =>
        anyTargetClause [Text.percentEncode column.name] term.plainText) = some general ∧
      read clause = some formula ∧ read general = some other ∧
      ∀ truth, formula.holds truth = other.holds truth := by
  obtain ⟨-, failed⟩ | ⟨given, -⟩ :=
    searchClause_outcome terms (Text.percentEncode column.name) quantified
  · rw [written] at failed
    contradiction
  · obtain ⟨formula, isRead, same⟩ := (searchClause_means column written).read_eq
    obtain ⟨general, generalWritten⟩ := Option.ne_none_iff_exists'.mp
      ((joinTermClauses_eq_none terms [Text.percentEncode column.name]).not.mpr given)
    have addressable : ∀ subject ∈ [Subject.column none column.name], subject.Addressable :=
      List.forall_mem_singleton.mpr (addressable_column column)
    obtain ⟨other, otherRead, otherSame⟩ :=
      joinTermClauses_means (List.cons_ne_nil _ _) addressable generalWritten
    refine ⟨general, formula, other, generalWritten, isRead, otherRead, fun truth => ?_⟩
    rw [same, otherSame, Constraint.holds, funext (termFound_column truth column)]

theorem joinTargets_isOk {columns : List Resolved}
    (outbound : ∀ column ∈ columns, column.hasPath = true → column.isAllOutbound = true)
    (aliases : Aliases) : ∃ made, joinTargets columns aliases = .ok made := by
  have joinable : columns.find? (fun column => column.hasPath && !column.isAllOutbound) = none := by
    simpa using outbound
  have ends := joinTargets_ends columns aliases
  rw [joinable] at ends
  cases made : joinTargets columns aliases with
  | ok joined => exact ⟨joined, rfl⟩
  | error error =>
      rw [made] at ends
      contradiction

/-- Where the columns can be searched, a search fails just for the lack of tokens. -/
theorem searchPath_outcome {columns : List Resolved}
    (unfiltered : ∀ column ∈ columns, column.hasPath = false → column.isFiltered = false)
    (outbound : ∀ column ∈ columns, column.hasPath = true → column.isAllOutbound = true)
    (capabilities : Capabilities) (terms : List Json) (aliases : Aliases) :
    (Tokenless terms ∧ ∃ error, searchPath columns capabilities terms aliases = .error error ∧
      error.kind = .invalidSearch) ∨
    (¬ Tokenless terms ∧ ∃ made, searchPath columns capabilities terms aliases = .ok made) := by
  have accepted : (columns.any fun column => !column.hasPath && column.isFiltered) = false := by
    simpa using unfiltered
  unfold searchPath
  simp only [accepted, Bool.false_eq_true, if_false]
  cases columns with
  | nil =>
      by_cases none : Tokenless terms
      · refine .inl ⟨none, .ofKind .invalidSearch, ?_, rfl⟩
        simp only [(termClauses_eq_nil wholeRow (capabilities wholeRowColumn)).mpr none]
        rfl
      · refine .inr ⟨none, ?_⟩
        have given := (termClauses_eq_nil wholeRow (capabilities wholeRowColumn)).not.mpr none
        simp only [List.isEmpty_iff, given, if_false]
        exact ⟨_, rfl⟩
  | cons first others =>
      dsimp only
      split
      · rename_i alone
        obtain ⟨none, failed⟩ | ⟨some, text, written⟩ := searchClause_outcome terms
          (Text.percentEncode first.column.name) (capabilities first.column)
        · refine .inl ⟨none, .ofConstraint (.invalidSearch .noTokens), ?_, rfl⟩
          simp only [Constraint.clause, failed]
          rfl
        · refine .inr ⟨some, ?_⟩
          simp only [Constraint.clause, written]
          exact ⟨_, rfl⟩
      · obtain ⟨⟨joins, targets, next⟩, joined⟩ := joinTargets_isOk outbound aliases
        have written := joinTermClauses_eq_none terms targets
        rw [joined, ok_bind]
        dsimp only
        cases clause : joinTermClauses (terms.filterMap fun term =>
            anyTargetClause targets term.plainText) with
        | none => exact .inl ⟨written.mp clause, _, rfl, rfl⟩
        | some text =>
            refine .inr ⟨fun none => ?_, _, rfl⟩
            rw [written.mpr none] at clause
            contradiction

/-- All forms of the search box ask the same: whether each token of some search term is found in
    what is searched.  On one column of the root table the short form and the general one agree,
    and where the columns can be searched each form fails just if no term has a token.  The
    aliases that the caller chose or has in use must be plain words. -/
theorem search_forms_ask_alike {directory : Directory} {table : Table} {engine : Template.Engine}
    {row : Row} {columns : List Resolved}
    (declared : columns = (Definitions.build directory table engine row).searchColumns)
    (words : ∀ name ∈ aliases.root :: aliases.forced.map Prod.snd, IsWord name)
    (bound : ∀ key name, aliases.get? key = some name → IsWord name)
    (terms : List Json) (capabilities : Capabilities) :
    (∀ path next, searchPath columns capabilities terms aliases = .ok (path, next) →
      ∃ joins clause subjects formula, path = joins ++ [.filter clause, .goTo aliases.root] ∧
        Searches columns joins subjects ∧ read clause = some formula ∧
        ∀ truth, formula.holds truth = terms.any (termFound truth subjects)) ∧
    (∀ (column : Column) clause,
      (Constraint.search terms).clause column capabilities = .ok clause →
      ∃ general formula other,
        joinTermClauses (terms.filterMap fun term =>
          anyTargetClause [Text.percentEncode column.name] term.plainText) = some general ∧
        read clause = some formula ∧ read general = some other ∧
        ∀ truth, formula.holds truth = other.holds truth) ∧
    ((∀ column ∈ columns, column.hasPath = false → column.isFiltered = false) →
      (∀ column ∈ columns, column.hasPath = true → column.isAllOutbound = true) →
      ((∃ error, searchPath columns capabilities terms aliases = .error error) ↔
        Tokenless terms) ∧
      ∀ error, searchPath columns capabilities terms aliases = .error error →
        error.kind = .invalidSearch) := by
  have grounded : ∀ column ∈ columns, Grounded (fun _ => True) column := by
    subst declared
    exact fun _ => Definitions.searchColumns_grounded
  have names : aliases.AllNames IsWord := by
    refine ⟨fun name chosen => ?_, bound⟩
    obtain taken | ⟨n, -, rfl⟩ := chosen
    · exact words name (List.mem_cons_of_mem _ (Aliases.isTaken_iff.mp taken))
    · exact Aliases.isWord_numbered (words _ List.mem_cons_self) n
  refine ⟨?_, ?_, fun unfiltered outbound => ?_⟩
  · exact fun path next searched => searchPath_means grounded names searched
  · intro column clause written
    rw [Constraint.clause] at written
    exact searchClause_alike column written
  · obtain ⟨none, error, failed, isSearch⟩ | ⟨given, made, worked⟩ :=
      searchPath_outcome unfiltered outbound capabilities terms aliases
    · refine ⟨iff_of_true ⟨error, failed⟩ none, fun other fails => ?_⟩
      obtain rfl : error = other := Except.error.inj (failed.symm.trans fails)
      exact isSearch
    · have noError (error) : searchPath columns capabilities terms aliases ≠ .error error := by
        simp only [worked, ne_eq, reduceCtorEq, not_false_eq_true]
      exact ⟨iff_of_false (not_exists.mpr noError) given,
        fun error failed => absurd failed (noError error)⟩

end Facet

namespace Sample

open Source

/-- The table of items, which is searched in some columns. -/
def searchable (columns : List Json) : Table := { item with searchColumns := columns }

def searchableCatalog (columns : List Json) : Catalog :=
  ⟨⟨false, false⟩, [⟨"s", [searchable columns, person]⟩]⟩

def searchColumns (columns : List Json) : List Resolved :=
  (Definitions.build (searchableCatalog columns).directory (searchable columns) engine []).searchColumns

def ownerName : Json :=
  .array [.object [("outbound", .array [.string "s", .string "owner"])], .string "name"]

end Sample

namespace Facet

open Reading Source Constraint

theorem search_forms_ask_alike_joined :
    let columns := Sample.searchColumns [.string "id", Sample.ownerName]
    let terms : List Json := [.string "a b", .string "c"]
    let aliases := Aliases.new "M" [] []
    (∃ path next, searchPath columns (fun _ => false) terms aliases = .ok (path, next) ∧
      path.text = "M_P1:=left(owner_id)=(s:person:id)/$M/" ++
        "((id::ciregexp::a;M_P1:name::ciregexp::a)&(id::ciregexp::b;M_P1:name::ciregexp::b));" ++
        "((id::ciregexp::c;M_P1:name::ciregexp::c))/$M") ∧
    (∀ path next, searchPath columns (fun _ => false) terms aliases = .ok (path, next) →
      ∃ joins clause subjects formula, path = joins ++ [.filter clause, .goTo aliases.root] ∧
        Searches columns joins subjects ∧ read clause = some formula ∧
        ∀ truth, formula.holds truth = terms.any (termFound truth subjects)) ∧
    (∀ (column : Column) clause,
      (Constraint.search terms).clause column (fun _ => false) = .ok clause →
      ∃ general formula other,
        joinTermClauses (terms.filterMap fun term =>
          anyTargetClause [Text.percentEncode column.name] term.plainText) = some general ∧
        read clause = some formula ∧ read general = some other ∧
        ∀ truth, formula.holds truth = other.holds truth) ∧
    ((∀ column ∈ columns, column.hasPath = false → column.isFiltered = false) →
      (∀ column ∈ columns, column.hasPath = true → column.isAllOutbound = true) →
      ((∃ error, searchPath columns (fun _ => false) terms aliases = .error error) ↔
        Tokenless terms) ∧
      ∀ error, searchPath columns (fun _ => false) terms aliases = .error error →
        error.kind = .invalidSearch) := by
  intro columns terms aliases
  have evaluated : (searchPath columns (fun _ => false) terms aliases).toOption.map
      (fun made => made.1.text) = some ("M_P1:=left(owner_id)=(s:person:id)/$M/" ++
        "((id::ciregexp::a;M_P1:name::ciregexp::a)&(id::ciregexp::b;M_P1:name::ciregexp::b));" ++
        "((id::ciregexp::c;M_P1:name::ciregexp::c))/$M") := by
    decide +kernel
  obtain ⟨⟨path, next⟩, found, text⟩ := Option.map_eq_some_iff.mp evaluated
  have word : IsWord "M" := ⟨by decide, by simp [isWordChar]⟩
  have bound (key name) (isBound : aliases.get? key = some name) : IsWord name := by
    contradiction
  exact ⟨⟨path, next, toOption_eq_some.mp found, text⟩,
    search_forms_ask_alike rfl (List.forall_mem_singleton.mpr word) bound terms fun _ => false⟩

end Facet

end PathQuery
