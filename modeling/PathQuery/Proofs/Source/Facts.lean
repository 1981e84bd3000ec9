import PathQuery.Proofs.Path.Flattening

namespace PathQuery.Source

/-! # What is known of a source

A walk carries what is known of its path along, step by step, and a source that continues
another one goes on from what is known of that.  In the end each fact is what the legs of
the full path tell, those of all the sources that it continues among them.
-/

variable {directory : Directory} {legs before : List Leg} {leg : Leg} {facts : Facts}

def hops (legs : List Leg) : List Hop := legs.filterMap Leg.hop?

theorem hops_append (first later : List Leg) : hops (first ++ later) = hops first ++ hops later :=
  List.filterMap_append

theorem hops_concat (legs : List Leg) (leg : Leg) :
    hops (legs ++ [leg]) = hops legs ++ leg.hop?.toList := by
  rw [hops_append]
  cases found : leg.hop? <;> simp [hops, found]

theorem Leg.isHop_eq (leg : Leg) : leg.isHop = leg.hop?.isSome := by
  obtain ⟨move, table, hopCount, notNull⟩ := leg
  cases move <;> rfl

theorem length_hops (legs : List Leg) : (hops legs).length = legs.countP Leg.isHop := by
  have same : Leg.isHop = fun leg => leg.hop?.isSome := funext Leg.isHop_eq
  rw [hops, List.length_filterMap_eq_countP, same]

/-- Some filter comes after a hop. -/
def FilterAfterHop (legs : List Leg) : Prop :=
  ∃ hop filter, [hop, filter].Sublist legs ∧ hop.isHop = true ∧ filter.isFilter = true

theorem filterAfterHop_concat :
    FilterAfterHop (legs ++ [leg]) ↔
      FilterAfterHop legs ∨ (leg.isFilter = true ∧ ∃ hop ∈ legs, hop.isHop = true) := by
  constructor
  · rintro ⟨hop, filter, within, isHop, isFilter⟩
    obtain ⟨first, last, split, inLegs, inLast⟩ := List.sublist_append_iff.mp within
    rcases List.sublist_singleton.mp inLast with rfl | rfl
    · rw [List.append_nil] at split
      exact .inl ⟨hop, filter, split ▸ inLegs, isHop, isFilter⟩
    · obtain ⟨rfl, rfl⟩ : first = [hop] ∧ filter = leg := by
        have same : [hop] ++ [filter] = first ++ [leg] := split
        obtain ⟨left, right⟩ := List.append_inj' same rfl
        exact ⟨left.symm, List.singleton_inj.mp right⟩
      exact .inr ⟨isFilter, hop, List.singleton_sublist.mp inLegs, isHop⟩
  · rintro (⟨hop, filter, within, isHop, isFilter⟩ | ⟨isFilter, hop, member, isHop⟩)
    · exact ⟨hop, filter, within.trans (List.sublist_append_left legs [leg]), isHop, isFilter⟩
    · exact ⟨hop, leg, (List.singleton_sublist.mpr member).append (List.Sublist.refl [leg]), isHop,
        isFilter⟩

/-- The facts are told by the legs of the path so far.  Whether a row can get lost is left out. -/
structure Facts.Tell (facts : Facts) (legs : List Leg) : Prop where
  hopCount : facts.hopCount = (hops legs).length
  firstHop : facts.firstHop = (hops legs).head?
  lastHop : facts.lastHop = (hops legs).getLast?
  hasInbound : facts.hasInbound = (hops legs).any Hop.isInbound
  hasRootFilter : facts.hasRootFilter = legs.head?.any Leg.isFilter
  hasFilterInBetween : facts.hasFilterInBetween = true ↔ FilterAfterHop legs

/-- A leg at which no row gets lost. -/
def Leg.keepsRows (leg : Leg) : Bool :=
  leg.hop?.any fun hop => !hop.isInbound && hop.leavesNotNull leg.table

theorem Facts.start_tell : Facts.start.Tell [] where
  hopCount := rfl
  firstHop := rfl
  lastHop := rfl
  hasInbound := rfl
  hasRootFilter := rfl
  hasFilterInBetween := by simp [Facts.start, FilterAfterHop]

theorem Facts.Tell.afterFilter (tell : facts.Tell legs) (isFilter : leg.isFilter = true) :
    (facts.afterFilter legs.isEmpty).Tell (legs ++ [leg]) := by
  have noHop : leg.hop? = none := by
    rw [Leg.isFilter, Leg.isHop_eq] at isFilter
    simpa using isFilter
  have same : hops (legs ++ [leg]) = hops legs := by
    rw [hops_concat, noHop, Option.toList_none, List.append_nil]
  constructor
  · rw [same]
    exact tell.hopCount
  · rw [same]
    exact tell.firstHop
  · rw [same]
    exact tell.lastHop
  · rw [same]
    exact tell.hasInbound
  · cases legs with
    | nil => simp [Facts.afterFilter, isFilter]
    | cons first later => simp [Facts.afterFilter, tell.hasRootFilter]
  · -- The walk only counts hops: a count above zero stands for some hop before the filter.
    have reached : facts.hopCount > 0 ↔ ∃ hop ∈ legs, hop.isHop = true := by
      rw [tell.hopCount, length_hops, gt_iff_lt, List.countP_pos_iff]
    simp only [Facts.afterFilter, Bool.or_eq_true, decide_eq_true_eq, tell.hasFilterInBetween,
      reached, filterAfterHop_concat, isFilter, true_and]

theorem Facts.Tell.afterHop {hop : Hop} (tell : facts.Tell legs) (isHop : leg.hop? = some hop)
    (table : Table) : (facts.afterHop hop table).Tell (legs ++ [leg]) := by
  have noFilter : leg.isFilter = false := by
    rw [Leg.isFilter, Leg.isHop_eq, isHop]
    rfl
  have added : hops (legs ++ [leg]) = hops legs ++ [hop] := by
    rw [hops_concat, isHop, Option.toList_some]
  constructor
  · simp [added, Facts.afterHop, tell.hopCount]
  · simp [added, Facts.afterHop, tell.firstHop, List.head?_append]
  · rw [added, List.getLast?_concat]
    rfl
  · simp [added, Facts.afterHop, tell.hasInbound]
  · cases legs with
    | nil => simp [Facts.afterHop, tell.hasRootFilter, noFilter]
    | cons first later => simp [Facts.afterHop, tell.hasRootFilter]
  · rw [filterAfterHop_concat, noFilter]
    simpa [Facts.afterHop] using tell.hasFilterInBetween

/-- Each leg counts the hops up to its end, those before the legs included. -/
def Counted (before legs : List Leg) : Prop :=
  ∀ index leg, legs[index]? = some leg →
    leg.hopCount = (hops (before ++ legs.take (index + 1))).length

theorem counted_nil : Counted before [] := by
  intro index leg found
  contradiction

theorem Counted.concat (counted : Counted before legs)
    (next : leg.hopCount = (hops (before ++ legs ++ [leg])).length) :
    Counted before (legs ++ [leg]) := by
  intro index other found
  rcases Nat.lt_or_ge index legs.length with inside | outside
  · rw [List.getElem?_append_left inside] at found
    rw [List.take_append_of_le_length inside]
    exact counted index other found
  · rw [List.getElem?_append_right outside, List.getElem?_singleton] at found
    split at found
    · cases found
      rw [List.take_of_length_le (by simp; omega), ← List.append_assoc]
      exact next
    · contradiction

/-- What is known on the way is told by the legs of the walk after some others. -/
structure Walk.Tells (before : List Leg) (walk : Walk) : Prop where
  facts : walk.facts.Tell (before ++ walk.legs.reverse)
  keepsRows : walk.facts.allOutboundNotNull = (before ++ walk.legs.reverse).all Leg.keepsRows
  atStart : walk.atStart = (before ++ walk.legs.reverse).isEmpty
  counted : Counted before walk.legs.reverse

theorem Walk.Tells.extend {walk : Walk} {move : Move} {next : Facts} {table : Table}
    (tells : walk.Tells before)
    (isLeg : ⟨move, walk.table, next.hopCount, next.allOutboundNotNull⟩ = leg)
    (told : next.Tell (before ++ walk.legs.reverse ++ [leg]))
    (keeps : next.allOutboundNotNull = (walk.facts.allOutboundNotNull && leg.keepsRows)) :
    (walk.extend move next table).Tells before := by
  have legs : (walk.extend move next table).legs.reverse = walk.legs.reverse ++ [leg] :=
    isLeg ▸ List.reverse_cons
  constructor
  · rw [legs, ← List.append_assoc]
    exact told
  · rw [legs, ← List.append_assoc, List.all_append, ← tells.keepsRows, List.all_cons, List.all_nil,
      Bool.and_true]
    exact keeps
  · rw [legs]
    simp [Walk.extend]
  · rw [legs]
    refine tells.counted.concat ?_
    rw [← told.hopCount, ← isLeg]

theorem Walk.Tells.step {context : Context} {walk next : Walk} {step : Step}
    (tells : walk.Tells before) (stepped : walk.step context step = .ok next) :
    next.Tells before := by
  rcases Walk.step_cases stepped with ⟨tree, expanded, clause, -, -, -, rfl⟩ |
    ⟨hopStep, hop, table, -, -, -, -, -, rfl⟩
  · refine tells.extend rfl ?_ ?_
    · rw [tells.atStart]
      exact tells.facts.afterFilter rfl
    · simp [Facts.afterFilter, Leg.keepsRows, Leg.hop?]
  · refine tells.extend rfl (tells.facts.afterHop rfl walk.table) ?_
    simp [Facts.afterHop, Leg.keepsRows, Leg.hop?, Bool.and_assoc]

/-- A route is told by the walk that it was made of. -/
theorem Walk.Tells.route {context : Context} {spec : Spec} {walk : Walk} {route : Route}
    (tells : walk.Tells before) (ended : walk.route context spec = .ok route) :
    route.facts.Tell (before ++ route.legs) ∧
      route.facts.allOutboundNotNull =
        ((before ++ route.legs).all Leg.keepsRows && decide (route.facts.hopCount > 0)) ∧
      Counted before route.legs := by
  obtain ⟨column, -, rfl⟩ := Walk.route_eq_ok ended
  obtain ⟨hopCount, firstHop, lastHop, hasInbound, hasRootFilter, between⟩ := tells.facts
  exact ⟨⟨hopCount, firstHop, lastHop, hasInbound, hasRootFilter, between⟩,
    congrArg (· && decide (walk.facts.hopCount > 0)) tells.keepsRows, tells.counted⟩

theorem Walk.tells_of_start {context : Context} {walk : Walk} {root : Table} {later : List Step}
    (walked : (Walk.start root).steps context later = .ok walk) : walk.Tells [] :=
  Walk.steps_preserve (fun _ _ _ tells stepped => tells.step stepped)
    ⟨Facts.start_tell, rfl, rfl, counted_nil⟩ walked

/-- A step of a source as it was resolved: a leg or, first of all, the named source that the path
    continues, from the table that it starts at. -/
inductive Node where
  | leg (leg : Leg)
  | start (key : String) (source : Resolved) (root : Table)

namespace Node

def hopCount : Node → Nat
  | .leg leg => leg.hopCount
  | .start _ source _ => source.facts.hopCount

/-- The node moves on to another table. -/
def isJoin : Node → Bool
  | .leg leg => leg.isHop
  | .start .. => true

/-- The legs that the node stands for. -/
def expanded : Node → List Leg
  | .leg leg => [leg]
  | .start _ source _ => source.fullLegs

end Node

def Resolved.nodes : Resolved → List Node
  | fromRoot route => route.legs.map .leg
  | continuing key start route => .start key start route.root :: route.legs.map .leg

theorem flatMap_expanded (legs : List Leg) : (legs.map Node.leg).flatMap Node.expanded = legs := by
  induction legs with
  | nil => rfl
  | cons leg legs ih =>
      rw [List.map_cons, List.flatMap_cons, ih, Node.expanded, List.singleton_append]

theorem Resolved.fullLegs_eq (source : Resolved) :
    source.fullLegs = source.nodes.flatMap Node.expanded := by
  cases source with
  | fromRoot route => exact (flatMap_expanded route.legs).symm
  | continuing key start route =>
      rw [nodes, List.flatMap_cons, flatMap_expanded, Node.expanded, fullLegs]

theorem any_isJoin (legs : List Leg) :
    (legs.map Node.leg).any Node.isJoin = legs.any Leg.isHop := List.any_map

/-- The positions of what moves to another table are those among the nodes. -/
theorem Resolved.joinIndices_eq (source : Resolved) :
    source.joinIndices = source.nodes.zipIdx.filterMap fun (node, index) =>
      if node.isJoin then some index else none := by
  cases source with
  | fromRoot route =>
      simp only [joinIndices, nodes, isContinuing, start?, legs, Resolved.route, Option.isSome_none,
        Bool.false_eq_true, if_false, Nat.add_zero, List.zipIdx_map, List.filterMap_map]
      rfl
  | continuing key start route =>
      simp only [joinIndices, nodes, isContinuing, start?, legs, Resolved.route, Option.isSome_some,
        if_true, List.zipIdx_cons, List.filterMap_cons, Node.isJoin, Nat.zero_add, List.zipIdx_succ,
        List.filterMap_map, List.zipIdx_map]
      rfl

/-- Nodes from one table to another: a filter stays where it is, a hop goes to the table at the
    other end of its foreign key, and a named source to its end. -/
inductive Chains (directory : Directory) : Table → List Node → Table → Prop
  | nil {table : Table} : Chains directory table [] table
  | filter {leg : Leg} {table last : Table} {later : List Node} (isFilter : leg.isFilter = true)
      (stands : leg.table = table) (rest : Chains directory table later last) :
      Chains directory table (.leg leg :: later) last
  | hop {leg : Leg} {hop : Hop} {table next last : Table} {later : List Node}
      (isHop : leg.hop? = some hop) (starts : leg.table = table)
      (reaches : directory.table? hop.toTable = some next)
      (rest : Chains directory next later last) :
      Chains directory table (.leg leg :: later) last
  | start {key : String} {source : Resolved} {table last : Table} {later : List Node}
      (rest : Chains directory source.table later last) :
      Chains directory table (.start key source table :: later) last

theorem Chains.append {first middle last : Table} {left right : List Node}
    (leading : Chains directory first left middle)
    (following : Chains directory middle right last) :
    Chains directory first (left ++ right) last := by
  induction leading with
  | nil => exact following
  | filter isFilter stands _ ih => exact .filter isFilter stands (ih following)
  | hop isHop starts reaches _ ih => exact .hop isHop starts reaches (ih following)
  | start _ ih => exact .start (ih following)

theorem Walk.steps_chains {context : Context} {walk last : Walk} {later : List Step}
    (fresh : walk.legs = []) (walked : walk.steps context later = .ok last) :
    Chains context.directory walk.table (last.legs.reverse.map .leg) last.table := by
  refine Walk.steps_preserve (motive := fun reached => Chains context.directory walk.table
    (reached.legs.reverse.map .leg) reached.table) ?_ (by rw [fresh]; exact .nil) walked
  intro reached step next chains stepped
  rcases Walk.step_cases stepped with ⟨tree, expanded, clause, -, -, -, rfl⟩ |
    ⟨hopStep, hop, table, -, -, -, -, reaches, rfl⟩
  · simp only [Walk.extend, List.reverse_cons, List.map_append]
    exact chains.append (.filter rfl rfl .nil)
  · simp only [Walk.extend, List.reverse_cons, List.map_append]
    exact chains.append (.hop rfl rfl reaches .nil)

/-- The nodes of a source lead from its root to its end. -/
theorem Spec.resolve_chains {context : Context} {spec : Spec} {source : Resolved}
    (resolved : spec.resolve context = .ok source) :
    Chains context.directory context.root source.nodes source.table := by
  obtain ⟨walk, route, -, walked, ended, rfl⟩ |
    ⟨key, later, start, walk, route, -, -, -, walked, ended, rfl⟩ := Spec.resolve_cases resolved
  · obtain ⟨column, -, rfl⟩ := Walk.route_eq_ok ended
    exact Walk.steps_chains rfl walked
  · obtain ⟨column, -, rfl⟩ := Walk.route_eq_ok ended
    exact .start (Walk.steps_chains rfl walked)

/-- What is known of a source in the end is told by its full path. -/
structure Resolved.Tells (source : Resolved) : Prop where
  facts : source.facts.Tell source.fullLegs
  keepsRows : source.facts.allOutboundNotNull =
    (source.fullLegs.all Leg.keepsRows && source.hasPath)
  counted : ∀ index node, source.nodes[index]? = some node →
    node.hopCount = (hops ((source.nodes.take (index + 1)).flatMap Node.expanded)).length
  moves : source.hasPath = source.nodes.any Node.isJoin

theorem Counted.nodes (counted : Counted before legs) {index : Nat} {node : Node}
    (found : (legs.map Node.leg)[index]? = some node) :
    node.hopCount =
      (hops (before ++ ((legs.map Node.leg).take (index + 1)).flatMap Node.expanded)).length := by
  rw [List.getElem?_map, Option.map_eq_some_iff] at found
  obtain ⟨leg, found, rfl⟩ := found
  rw [← List.map_take, flatMap_expanded]
  exact counted index leg found

theorem Resolved.Tells.after {start : Resolved} (tells : start.Tells)
    (path : start.hasPath = true) :
    (Walk.after start).Tells start.fullLegs where
  facts := by
    rw [Walk.after, List.reverse_nil, List.append_nil]
    exact tells.facts
  keepsRows := by
    have keeps := tells.keepsRows
    rw [path, Bool.and_true] at keeps
    rwa [Walk.after, List.reverse_nil, List.append_nil]
  atStart := by
    have counted : 0 < start.fullLegs.countP Leg.isHop := by
      rw [← length_hops, ← tells.facts.hopCount]
      simpa [hasPath] using path
    cases legs : start.fullLegs with
    | nil => simp [legs] at counted
    | cons leg later => rfl
  counted := counted_nil

theorem Grounded.tells {admits : Context → Prop} {source : Resolved}
    (grounded : Grounded admits source) : source.Tells := by
  induction grounded with
  | fromRoot admitted plain walked ended =>
      have whole := (Grounded.fromRoot admitted plain walked ended).hasPath_eq
      obtain ⟨told, keeps, counted⟩ := (Walk.tells_of_start walked).route ended
      refine ⟨told, keeps, fun index node found => counted.nodes found, ?_⟩
      rw [whole, Resolved.nodes, any_isJoin, Resolved.fullLegs]
  | @continuing context key column start later walk route admitted named path grounded walked ended
      ih =>
      -- The walk starts with what is known of `start`, so its legs come after those of `start`.
      have whole := (Grounded.continuing admitted named path grounded walked ended).hasPath_eq
      have tells := Walk.steps_preserve (fun _ _ _ tells stepped => tells.step stepped)
        (ih.after path) walked
      obtain ⟨told, keeps, counted⟩ := tells.route ended
      refine ⟨told, keeps, fun index node found => ?_, ?_⟩
      · cases index with
        | zero =>
            obtain rfl := Option.some.inj found
            simpa [Resolved.nodes, Node.hopCount, Node.expanded] using ih.facts.hopCount
        | succ index => exact counted.nodes found
      · rw [whole, Resolved.fullLegs, List.any_append, ← grounded.hasPath_eq, path]
        rfl

/-- A leg at which every row has a partner: an outbound hop whose foreign key has its columns in
    the table that it starts at, none of which can lack a value. -/
def Leg.NotNull (leg : Leg) : Prop :=
  ∃ hop, leg.hop? = some hop ∧ hop.direction = .outbound ∧
    ∀ name ∈ hop.key.columns, ∃ column, leg.table.column? name = some column ∧
      column.nullable = false

theorem Leg.keepsRows_iff : leg.keepsRows = true ↔ leg.NotNull := by
  have outbound : ∀ hop : Hop, hop.isInbound = false ↔ hop.direction = .outbound := by
    rintro ⟨key, direction, aliasName, byColumns⟩
    cases direction <;> simp [Hop.isInbound]
  simp [keepsRows, NotNull, Option.any_eq_true, Hop.leavesNotNull, outbound]

theorem Resolved.joinIndices_eq_nil (source : Resolved) :
    source.joinIndices = [] ↔ source.nodes.any Node.isJoin = false := by
  rw [source.joinIndices_eq, List.filterMap_eq_nil_iff, List.any_eq_false]
  constructor
  · intro none node member isJoin
    obtain ⟨index, found⟩ := List.mem_iff_getElem?.mp member
    have counted := none (node, index) (List.mem_zipIdx_iff_getElem?.mpr found)
    simp [isJoin] at counted
  · rintro none ⟨node, index⟩ member
    have stays := none node (List.mem_of_getElem? (List.mem_zipIdx_iff_getElem?.mp member))
    simp [stays]

/-- The full path of a source, by what is known of it. -/
structure Resolved.Described (source : Resolved) : Prop where
  fullLegs : source.fullLegs = source.nodes.flatMap Node.expanded
  hopCount : source.facts.hopCount = (hops source.fullLegs).length
  firstHop : source.facts.firstHop = (hops source.fullLegs).head?
  lastHop : source.facts.lastHop = (hops source.fullLegs).getLast?
  hasPath : source.hasPath = true ↔ hops source.fullLegs ≠ []
  firstJoin : source.firstJoinIndex?.isSome = true ↔ source.hasPath = true
  lastJoin : source.lastJoinIndex?.isSome = true ↔ source.hasPath = true
  hasFirstHop : source.facts.firstHop.isSome = true ↔ source.hasPath = true
  hasLastHop : source.facts.lastHop.isSome = true ↔ source.hasPath = true
  hasInbound : source.facts.hasInbound = true ↔
    ∃ hop ∈ hops source.fullLegs, hop.direction = .inbound
  hasRootFilter : source.facts.hasRootFilter = true ↔
    ∃ leg, source.fullLegs.head? = some leg ∧ leg.isFilter = true
  hasFilterInBetween : source.facts.hasFilterInBetween = true ↔ FilterAfterHop source.fullLegs
  isFiltered : source.isFiltered = true ↔ ∃ leg ∈ source.fullLegs, leg.isFilter = true
  allOutboundNotNull : source.facts.allOutboundNotNull = true ↔
    hops source.fullLegs ≠ [] ∧ ∀ leg ∈ source.fullLegs, leg.NotNull
  counted : ∀ index node, source.nodes[index]? = some node →
    node.hopCount = (hops ((source.nodes.take (index + 1)).flatMap Node.expanded)).length
  ascending : (source.nodes.map Node.hopCount).Pairwise (· ≤ ·)

theorem Resolved.Tells.ascending {source : Resolved} (tells : source.Tells) :
    (source.nodes.map Node.hopCount).Pairwise (· ≤ ·) := by
  rw [List.pairwise_iff_getElem]
  intro first later firstInside laterInside before
  have counts : ∀ index (inside : index < (source.nodes.map Node.hopCount).length),
      (source.nodes.map Node.hopCount)[index] =
        (hops ((source.nodes.take (index + 1)).flatMap Node.expanded)).length := by
    intro index inside
    rw [List.getElem_map]
    exact tells.counted index _ (List.getElem?_eq_getElem _)
  obtain ⟨rest, split⟩ : source.nodes.take (first + 1) <+: source.nodes.take (later + 1) :=
    List.take_prefix_take_left (by omega)
  rw [counts, counts, ← split, List.flatMap_append, hops_append, List.length_append]
  exact Nat.le_add_right ..

theorem Resolved.Tells.described {source : Resolved} (tells : source.Tells) : source.Described := by
  have path : source.hasPath = true ↔ hops source.fullLegs ≠ [] := by
    simp [hasPath, tells.facts.hopCount, List.length_pos_iff]
  have joins : source.joinIndices ≠ [] ↔ source.hasPath = true := by
    rw [tells.moves, ne_eq, source.joinIndices_eq_nil, Bool.not_eq_false]
  constructor
  case fullLegs => exact source.fullLegs_eq
  case hopCount => exact tells.facts.hopCount
  case firstHop => exact tells.facts.firstHop
  case lastHop => exact tells.facts.lastHop
  case hasPath => exact path
  case firstJoin => simpa [firstJoinIndex?] using joins
  case lastJoin => simpa [lastJoinIndex?] using joins
  case hasFirstHop => simp [tells.facts.firstHop, path]
  case hasLastHop => simp [tells.facts.lastHop, path]
  case hasInbound => simp [tells.facts.hasInbound, Hop.isInbound]
  case hasRootFilter => simp [tells.facts.hasRootFilter, Option.any_eq_true]
  case hasFilterInBetween => exact tells.facts.hasFilterInBetween
  case isFiltered => simp [source.isFiltered_eq]
  case allOutboundNotNull =>
    simp [tells.keepsRows, path, Leg.keepsRows_iff, and_comm]
  case counted => exact tells.counted
  case ascending => exact tells.ascending

/-- What is known of a resolved source is what its full path tells, however many named sources it
    continues, and its nodes lead from the root table to its end. -/
theorem facts_describe_path {context : Context} {spec : Spec} {source : Resolved}
    (named : ∀ key start, context.named key = some start → Grounded (fun _ => True) start)
    (resolved : spec.resolve context = .ok source) :
    source.Described ∧ Chains context.directory context.root source.nodes source.table :=
  ⟨(Grounded.of_resolve trivial named resolved).tells.described, Spec.resolve_chains resolved⟩

theorem facts_describe_path_named : ∃ source,
    (Spec.mk [.sourcekey "named"] "name").resolve
      (Sample.definitions.context Sample.catalog.directory Sample.engine []) = .ok source ∧
    (∀ key start, Sample.definitions.get? key = some start → Grounded (fun _ => True) start) ∧
    source.Described ∧
    Chains Sample.catalog.directory Sample.item source.nodes source.table := by
  have reaches : ((Spec.mk [.sourcekey "named"] "name").resolve
      (Sample.definitions.context Sample.catalog.directory Sample.engine [])).toOption.isSome =
        true := by
    decide +kernel
  obtain ⟨source, found⟩ := Option.isSome_iff_exists.mp reaches
  have resolved := toOption_eq_some.mp found
  have named : ∀ key start, Sample.definitions.get? key = some start →
      Grounded (fun _ => True) start :=
    fun _ _ found => (Definitions.build_grounded found).anywhere
  exact ⟨source, resolved, named, facts_describe_path named resolved⟩

end PathQuery.Source
