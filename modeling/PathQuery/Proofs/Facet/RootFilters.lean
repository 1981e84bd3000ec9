import PathQuery.Proofs.Facet.SearchMeaning

namespace PathQuery

/-! # Filters on the root table

The search box refuses columns that are filtered on the root table and lead nowhere, since such a
filter would hold for the other columns too.  It does not refuse columns that are filtered there
and lead to another table.  Their first filters stand on the root table, before their joins, unless
the join is shared and they start from its alias.
-/

open Source

namespace Segment

def clause? : Segment → Option String
  | filter clause => some clause
  | _ => none

/-- Whether the rows at hand after the segment are those of the root table. -/
def isOnRoot (root : String) (onRoot : Bool) : Segment → Bool
  | filter _ => onRoot
  | goTo name => name == root
  | _ => false

end Segment

namespace Path

variable {root : String} {onRoot : Bool} {first later : Path}

def endsOnRoot (root : String) (onRoot : Bool) (path : Path) : Bool :=
  path.foldl (Segment.isOnRoot root) onRoot

/-- The filters that hold of rows of the root table. -/
def filtersFrom (root : String) : Bool → Path → List String
  | _, [] => []
  | onRoot, segment :: later =>
    (if onRoot then segment.clause?.toList else []) ++
      filtersFrom root (segment.isOnRoot root onRoot) later

/-- The filters on the root table in a path that starts there. -/
def rootFilters (root : String) (path : Path) : List String := path.filtersFrom root true

/-- The path does not start at the root table but at a table with an alias. -/
def goesBack : Path → Bool
  | .goTo _ :: _ => true
  | _ => false

theorem endsOnRoot_append : (first ++ later).endsOnRoot root onRoot =
    later.endsOnRoot root (first.endsOnRoot root onRoot) :=
  List.foldl_append

theorem filtersFrom_append (first later : Path) : (first ++ later).filtersFrom root onRoot =
    first.filtersFrom root onRoot ++ later.filtersFrom root (first.endsOnRoot root onRoot) := by
  induction first generalizing onRoot with
  | nil => rfl
  | cons segment first ih =>
      rw [List.cons_append, filtersFrom, filtersFrom, ih, List.append_assoc]
      rfl

theorem goesBack_append (given : first ≠ []) : (first ++ later).goesBack = first.goesBack := by
  obtain ⟨segment, rest, rfl⟩ := List.exists_cons_of_ne_nil given
  cases segment <;> rfl

/-- The path and back to the root table. -/
def andBack (root : String) (path : Path) : Path := path ++ [.goTo root]

theorem endsOnRoot_andBack (path : Path) : (path.andBack root).endsOnRoot root onRoot = true := by
  rw [andBack, endsOnRoot_append]
  exact beq_self_eq_true root

theorem rootFilters_andBack (path : Path) :
    (path.andBack root).rootFilters root = path.rootFilters root := by
  have none : ∀ onRoot, filtersFrom root onRoot [.goTo root] = [] := by
    intro onRoot
    cases onRoot <;> rfl
  rw [rootFilters, andBack, filtersFrom_append, none, List.append_nil, rootFilters]

/-- Parts that all go back to the root table have the filters that each has there. -/
theorem rootFilters_flatMap (parts : List Path) (later : Path) :
    rootFilters root (parts.flatMap (andBack root) ++ later) =
      parts.flatMap (rootFilters root) ++ later.rootFilters root := by
  induction parts with
  | nil => rfl
  | cons part parts ih =>
      rw [List.flatMap_cons, List.append_assoc, rootFilters, filtersFrom_append,
        endsOnRoot_andBack, List.flatMap_cons, List.append_assoc, ← ih, ← rootFilters_andBack part]
      rfl

end Path

namespace Source

variable {root : String} {onRoot : Bool} {kind : JoinKind} {binding : Option String}

/-- The filters before the first hop. -/
def leadingClauses (legs : List Leg) : List String :=
  (legs.takeWhile Leg.isFilter).filterMap Leg.clause?

theorem leadingClauses_append {first : List Leg} (later : List Leg)
    (hops : first.any Leg.isHop = true) :
    leadingClauses (first ++ later) = leadingClauses first := by
  induction first with
  | nil => contradiction
  | cons leg first ih =>
      cases isHop : leg.isHop with
      | true => simp [leadingClauses, Leg.isFilter, isHop]
      | false =>
          have rest := ih (by simpa [isHop] using hops)
          simp only [leadingClauses, List.cons_append] at rest ⊢
          rw [List.takeWhile_cons_of_pos (by simp [Leg.isFilter, isHop]),
            List.takeWhile_cons_of_pos (by simp [Leg.isFilter, isHop]), List.filterMap_cons,
            List.filterMap_cons, rest]

theorem leadingClauses_eq_nil (legs : List Leg) :
    leadingClauses legs = [] ↔ legs.head?.any Leg.isFilter = false := by
  cases legs with
  | nil => exact iff_of_true rfl rfl
  | cons leg later =>
      obtain ⟨move, table, hopCount, notNull⟩ := leg
      cases move with
      | filter tree clause => simp [leadingClauses, Leg.isFilter, Leg.isHop, Leg.clause?]
      | hop hop => simp [leadingClauses, Leg.isFilter, Leg.isHop]

theorem filtersFrom_legSegments (legs : List Leg) :
    Path.filtersFrom root onRoot (legSegments kind binding legs) =
      if onRoot then leadingClauses legs else [] := by
  induction legs generalizing onRoot with
  | nil => cases onRoot <;> rfl
  | cons leg later ih =>
      obtain ⟨move, table, hopCount, notNull⟩ := leg
      cases move with
      | filter tree clause =>
          rw [legSegments, Path.filtersFrom, Segment.isOnRoot, ih]
          cases onRoot <;> rfl
      | hop hop =>
          have rest : (legSegments kind binding later).filtersFrom root false = [] := ih
          cases onRoot <;> exact rest

theorem endsOnRoot_legSegments (legs : List Leg) :
    Path.endsOnRoot root onRoot (legSegments kind binding legs) =
      (onRoot && !legs.any Leg.isHop) := by
  induction legs generalizing onRoot with
  | nil => exact (Bool.and_true onRoot).symm
  | cons leg later ih =>
      obtain ⟨move, table, hopCount, notNull⟩ := leg
      cases move with
      | filter tree clause => exact ih
      | hop hop =>
          refine ih.trans ?_
          simp [Segment.isOnRoot, Leg.isHop]

namespace Resolved

/-- The path leaves the root table, and on it stand the first filters of the source, unless the
    path starts from an alias. -/
structure LeavesRoot (root : String) (source : Resolved) (path : Path) : Prop where
  leaves : path.endsOnRoot root true = false
  filters : path.rootFilters root =
    if path.goesBack then [] else leadingClauses source.fullLegs

theorem leavesRoot_goTo {name : String} (apart : name ≠ root) (source : Resolved) :
    source.LeavesRoot root [.goTo name] where
  leaves := beq_false_of_ne apart
  filters := rfl

theorem LeavesRoot.nonempty {source : Resolved} {path : Path}
    (leaves : source.LeavesRoot root path) : path ≠ [] := by
  rintro rfl
  have onRoot : true = false := leaves.leaves
  contradiction

theorem goesBack_legSegments (legs : List Leg) :
    Path.goesBack (legSegments kind binding legs) = false := by
  cases legs with
  | nil => rfl
  | cons leg later =>
      obtain ⟨move, table, hopCount, notNull⟩ := leg
      cases move <;> rfl

theorem leavesRoot_fromRoot {route : Route} (hops : route.legs.any Leg.isHop = true) :
    (fromRoot route).LeavesRoot root (legSegments kind binding route.legs) where
  leaves := by rw [endsOnRoot_legSegments, hops, Bool.not_true, Bool.and_false]
  filters := by
    rw [goesBack_legSegments, Path.rootFilters, filtersFrom_legSegments]
    rfl

/-- What comes after the source that is continued does not stand on the root table. -/
theorem LeavesRoot.continued {first : String} {start : Resolved} {route : Route} {path : Path}
    (leaves : start.LeavesRoot root path) (hops : start.fullLegs.any Leg.isHop = true) :
    (continuing first start route).LeavesRoot root
      (path ++ legSegments kind binding route.legs) where
  leaves := by rw [Path.endsOnRoot_append, leaves.leaves, endsOnRoot_legSegments, Bool.false_and]
  filters := by
    rw [Path.goesBack_append leaves.nonempty, Path.rootFilters, Path.filtersFrom_append,
      leaves.leaves, filtersFrom_legSegments, if_neg Bool.false_ne_true, List.append_nil, fullLegs,
      leadingClauses_append _ hops]
    exact leaves.filters

end Resolved

open Resolved

variable {admits : Context → Prop} {aliases : Aliases} {source : Resolved} {hint : Option String}

theorem Grounded.render_leavesRoot (grounded : Grounded admits source)
    (path : source.hasPath = true) (kind : JoinKind) (key : Option String)
    (apart : aliases.AllNames (· ≠ root)) (hinted : ∀ name, hint = some name → name ≠ root) :
    source.LeavesRoot root (source.render kind key hint aliases).1.path := by
  induction grounded generalizing key hint aliases with
  | @fromRoot context spec walk route admitted plain walked ended =>
      have hops := (Grounded.fromRoot admitted plain walked ended).hasPath_eq.symm.trans path
      obtain ⟨link, name, -, -, isBound, same⟩ | ⟨shared, binding, middle, lead, last, joins⟩ :=
        (Resolved.fromRoot route).render_cases kind key hint aliases
      · rw [same]
        exact leavesRoot_goTo (apart.bound link name isBound) _
      · obtain ⟨rfl, rfl⟩ := Prod.mk.inj joins.leads
        rw [joins.joined, bindEnd_fst]
        exact leavesRoot_fromRoot hops
  | @continuing context first column start later walk route admitted named startPath grounded walked
      ended ih =>
      obtain ⟨link, name, -, -, isBound, same⟩ | ⟨shared, binding, middle, lead, last, joins⟩ :=
        (Resolved.continuing first start route).render_cases kind key hint aliases
      · rw [same]
        exact leavesRoot_goTo (apart.bound link name isBound) _
      · obtain ⟨middleApart, bindingApart⟩ := joins.chosen_allNames apart hinted
        have passes : ∀ name, (if (Resolved.continuing first start route).endsAtStart then binding
            else none) = some name → name ≠ root :=
          fun name passed => bindingApart name (Option.ite_none_right_eq_some.mp passed).2
        have leaves := ih startPath (some first) middleApart passes
        have leads := joins.leads
        change start.render kind (some first) _ middle = (lead, last) at leads
        rw [leads] at leaves
        rw [joins.joined, bindEnd_fst]
        exact leaves.continued (grounded.hasPath_eq.symm.trans startPath)

end Source

namespace Facet

variable {aliases next : Aliases} {columns : List Resolved} {root : String}

/-- The part of a search that joins a column. -/
def JoinsColumn (column : Resolved) (part : Path) : Prop :=
  ∃ wanted before, (column.render .left none (some wanted) before).1.path = part

theorem joinTargets_parts {admits : Context → Prop} {joins : Path} {targets : List String}
    (grounded : ∀ column ∈ columns, Grounded admits column) (isRoot : aliases.root = root)
    (apart : aliases.AllNames (· ≠ root))
    (joined : joinTargets columns aliases = .ok (joins, targets, next)) :
    next.root = root ∧ ∃ parts, joins = parts.flatMap (Path.andBack root) ∧
      List.Forall₂ (fun column part => JoinsColumn column part ∧ column.LeavesRoot root part)
        (columns.filter Resolved.hasPath) parts := by
  induction columns generalizing aliases joins targets with
  | nil =>
      cases joined
      exact ⟨isRoot, [], rfl, .nil⟩
  | cons column columns ih =>
      obtain ⟨columnGrounded, othersGrounded⟩ := List.forall_mem_cons.mp grounded
      obtain ⟨pathless, names, joinedOthers, rfl⟩ |
        ⟨hasPath, rendered, reached, others, names, rendersTo, joinedOthers, rfl, rfl⟩ :=
        joinTargets_cons joined
      · rw [List.filter_cons_of_neg (by simp [pathless])]
        exact ih othersGrounded isRoot apart joinedOthers
      · obtain ⟨mintedApart, hintApart⟩ := apart.mint
        have hinted : ∀ name, some aliases.mint.1 = some name → name ≠ root :=
          fun name isHint => Option.some.inj isHint ▸ hintApart
        obtain ⟨reachedApart, -⟩ := column.render_allNames .left none mintedApart hinted
        have leaves := columnGrounded.render_leavesRoot hasPath .left none mintedApart hinted
        have grows := column.render_grows .left none (some aliases.mint.1) aliases.mint.2
        rw [rendersTo] at reachedApart leaves grows
        obtain ⟨isRoot', parts, rfl, each⟩ :=
          ih othersGrounded (grows.root.trans isRoot) reachedApart joinedOthers
        refine ⟨isRoot', rendered.path :: parts, ?_, ?_⟩
        · rw [isRoot', List.flatMap_cons]
          rfl
        · rw [List.filter_cons_of_pos hasPath]
          exact .cons ⟨⟨_, _, by rw [rendersTo]⟩, leaves⟩ each

theorem forall₂_iff {related stronger : α → β → Prop} {holds : β → Prop} {left : List α}
    {right : List β} (each : List.Forall₂ related left right)
    (same : ∀ a ∈ left, ∀ b, related a b → (holds b ↔ stronger a b)) :
    (∀ b ∈ right, holds b) ↔ List.Forall₂ stronger left right := by
  induction each with
  | nil => exact iff_of_true nofun .nil
  | @cons a b left right first _ ih =>
      obtain ⟨sameFirst, sameRest⟩ := List.forall_mem_cons.mp same
      rw [List.forall_mem_cons, List.forall₂_cons, sameFirst b first, ih sameRest]

theorem searchPath_unfiltered {capabilities : Capabilities} {terms : List Json} {path : Path}
    (searched : searchPath columns capabilities terms aliases = .ok (path, next)) :
    ∀ column ∈ columns, column.hasPath = false → column.isFiltered = false := by
  have accepted : (columns.any fun column => !column.hasPath && column.isFiltered) = false := by
    cases filtered : columns.any fun column => !column.hasPath && column.isFiltered with
    | false => rfl
    | true =>
        simp only [searchPath, filtered] at searched
        contradiction
  simpa using accepted

/-- The part of a column has no filters on the root table, unless the column begins with some. -/
theorem rootFilters_eq_nil {admits : Context → Prop} {column : Resolved} {part : Path}
    (grounded : Grounded admits column) (leaves : column.LeavesRoot root part) :
    part.rootFilters root = [] ↔
      (column.facts.hasRootFilter = true → part.goesBack = true) := by
  rw [leaves.filters, grounded.tells.facts.hasRootFilter, ite_eq_left_iff, leadingClauses_eq_nil]
  cases part.goesBack <;> simp

/-- A search joins its columns one after the other, and then has its last clause. -/
theorem searchPath_parts {admits : Context → Prop} {capabilities : Capabilities}
    {terms : List Json} {path : Path} (grounded : ∀ column ∈ columns, Grounded admits column)
    (apart : aliases.AllNames (· ≠ aliases.root))
    (searched : searchPath columns capabilities terms aliases = .ok (path, next)) :
    ∃ parts clause,
      path = parts.flatMap (Path.andBack aliases.root) ++
        [.filter clause, .goTo aliases.root] ∧
      List.Forall₂
        (fun column part => JoinsColumn column part ∧ column.LeavesRoot aliases.root part)
        (columns.filter Resolved.hasPath) parts := by
  obtain ⟨rfl, -, rfl, -⟩ | ⟨column, clause, rfl, pathless, -, -, rfl⟩ |
    ⟨joins, targets, clause, -, joined, -, rfl⟩ := searchPath_cases searched
  · exact ⟨[], _, rfl, .nil⟩
  · refine ⟨[], clause, rfl, ?_⟩
    rw [List.filter_cons_of_neg (by simp [pathless])]
    exact .nil
  · obtain ⟨-, parts, rfl, each⟩ := joinTargets_parts grounded rfl apart joined
    exact ⟨parts, clause, rfl, each⟩

/-- Besides its last clause a search has the first filters of some columns on the root table:
    those of the columns that lead to another table and are joined from the root table.  So it
    restricts the rows of the root table only by its last clause just if each column that begins
    with a filter there goes back to a join that is shared. -/
theorem search_filters_root {directory : Directory} {table : Table} {engine : Template.Engine}
    {row : Row} (declared : columns = (Definitions.build directory table engine row).searchColumns)
    (unforced : aliases.isTaken aliases.root = false)
    (unbound : ∀ key, aliases.get? key ≠ some aliases.root) {capabilities : Capabilities}
    {terms : List Json} {path : Path}
    (searched : searchPath columns capabilities terms aliases = .ok (path, next)) :
    (∀ column ∈ columns, column.hasPath = false → column.isFiltered = false) ∧
    ∃ parts clause,
      path = parts.flatMap (Path.andBack aliases.root) ++
        [.filter clause, .goTo aliases.root] ∧
      List.Forall₂ (fun column part => JoinsColumn column part ∧
        part.rootFilters aliases.root =
          if part.goesBack then [] else leadingClauses column.fullLegs)
        (columns.filter Resolved.hasPath) parts ∧
      path.rootFilters aliases.root = parts.flatMap (Path.rootFilters aliases.root) ++ [clause] ∧
      (path.rootFilters aliases.root = [clause] ↔
        List.Forall₂ (fun column part => column.facts.hasRootFilter = true → part.goesBack = true)
          (columns.filter Resolved.hasPath) parts) := by
  have grounded : ∀ column ∈ columns, Grounded (fun _ => True) column := by
    subst declared
    exact fun _ => Definitions.searchColumns_grounded
  have apart : aliases.AllNames (· ≠ aliases.root) := by
    refine ⟨fun name chosen isRoot => ?_, fun key name bound isRoot => unbound key (isRoot ▸ bound)⟩
    subst isRoot
    obtain taken | ⟨n, -, same⟩ := chosen
    · rw [unforced] at taken
      contradiction
    · exact Aliases.numbered_ne_root n same.symm
  obtain ⟨parts, clause, rfl, each⟩ := searchPath_parts grounded apart searched
  have filters : Path.rootFilters aliases.root
      (parts.flatMap (Path.andBack aliases.root) ++ [.filter clause, .goTo aliases.root]) =
        parts.flatMap (Path.rootFilters aliases.root) ++ [clause] :=
    Path.rootFilters_flatMap parts _
  refine ⟨searchPath_unfiltered searched, parts, clause, rfl, ?_, filters, ?_⟩
  · exact each.imp fun _ _ part => ⟨part.1, part.2.filters⟩
  · rw [filters, List.append_left_eq_self, List.flatMap_eq_nil_iff]
    exact forall₂_iff each fun column member part joins =>
      rootFilters_eq_nil (grounded column (List.mem_of_mem_filter member)) joins.2

end Facet

namespace Sample

/-- The names of the owners of one item. -/
def filteredOwnerName : Json :=
  .array [.object [("filter", .string "id"), ("operand_pattern", .string "1")],
    .object [("outbound", .array [.string "s", .string "owner"])], .string "name"]

end Sample

namespace Facet

theorem search_filters_root_filteredOwner :
    let columns := Sample.searchColumns [.string "id", Sample.filteredOwnerName]
    let aliases := Aliases.new "M" [] []
    ∃ path next, searchPath columns (fun _ => false) [.string "a"] aliases = .ok (path, next) ∧
    (∀ column ∈ columns, column.hasPath = false → column.isFiltered = false) ∧
    ∃ parts clause,
      path = parts.flatMap (Path.andBack "M") ++ [.filter clause, .goTo "M"] ∧
      List.Forall₂ (fun column part => JoinsColumn column part ∧
        part.rootFilters "M" = if part.goesBack then [] else leadingClauses column.fullLegs)
        (columns.filter Resolved.hasPath) parts ∧
      path.rootFilters "M" = parts.flatMap (Path.rootFilters "M") ++ [clause] ∧
      (path.rootFilters "M" = [clause] ↔
        List.Forall₂ (fun column part => column.facts.hasRootFilter = true → part.goesBack = true)
          (columns.filter Resolved.hasPath) parts) := by
  intro columns aliases
  have works : (searchPath columns (fun _ => false) [.string "a"] aliases).toOption.isSome = true := by
    decide +kernel
  obtain ⟨⟨path, next⟩, found⟩ := Option.isSome_iff_exists.mp works
  have searched := toOption_eq_some.mp found
  have unbound : ∀ key, aliases.get? key ≠ some aliases.root := by
    rintro _ ⟨⟩
  exact ⟨path, next, searched, search_filters_root rfl (by decide) unbound searched⟩

/-- Items that match by their own column are lost if they are not the one that the other column
    is filtered to. -/
theorem searched_column_filters_root : ∃ path next,
    searchPath (Sample.searchColumns [.string "id", Sample.filteredOwnerName]) (fun _ => false)
      [.string "a"] (Aliases.new "M" [] []) = .ok (path, next) ∧
    path.text = "id=1/M_P1:=left(owner_id)=(s:person:id)/$M/" ++
      "(id::ciregexp::a;M_P1:name::ciregexp::a)/$M" ∧
    path.rootFilters "M" = ["id=1", "(id::ciregexp::a;M_P1:name::ciregexp::a)"] := by
  have evaluated : (searchPath (Sample.searchColumns [.string "id", Sample.filteredOwnerName])
      (fun _ => false) [.string "a"] (Aliases.new "M" [] [])).toOption.map
        (fun made => (made.1.text, made.1.rootFilters "M")) =
      some ("id=1/M_P1:=left(owner_id)=(s:person:id)/$M/" ++
        "(id::ciregexp::a;M_P1:name::ciregexp::a)/$M",
        ["id=1", "(id::ciregexp::a;M_P1:name::ciregexp::a)"]) := by
    decide +kernel
  obtain ⟨⟨path, next⟩, found, same⟩ := Option.map_eq_some_iff.mp evaluated
  obtain ⟨text, filters⟩ := Prod.mk.inj same
  exact ⟨path, next, toOption_eq_some.mp found, text, filters⟩

end Facet

end PathQuery
