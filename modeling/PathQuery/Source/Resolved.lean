import PathQuery.Source.Identity
import PathQuery.Path.Segment

namespace PathQuery.Source

/-! # Resolved sources

A resolved source is a path through the tables of a catalog.  It starts at its root
table, or it continues a named source with the same root, and goes on with legs, each
of which follows a foreign key or filters the rows reached so far.  A named source can
only be continued from its end, so it comes before all legs.
-/

structure Hop where
  key : ForeignKey
  direction : Direction
  aliasName : Option String
  /-- The foreign key was found by its columns and not by its name. -/
  byColumns : Bool

namespace Hop

def isInbound (hop : Hop) : Bool := hop.direction = .inbound

def toTable (hop : Hop) : TableName := hop.key.toTable hop.direction

end Hop

inductive Move where
  /-- Filter by an expanded tree, with its text in a path. -/
  | filter (tree : Filter.Tree) (clause : String)
  | hop (hop : Hop)

/-- What is known of a path so far. -/
structure Facts where
  hopCount : Nat
  hasRootFilter : Bool
  hasFilterInBetween : Bool
  hasInbound : Bool
  /-- Every row has a partner at the end: all hops are outbound from columns that
      cannot lack a value, and no filter drops a row. -/
  allOutboundNotNull : Bool
  firstHop : Option Hop
  lastHop : Option Hop

def Facts.start : Facts where
  hopCount := 0
  hasRootFilter := false
  hasFilterInBetween := false
  hasInbound := false
  allOutboundNotNull := true
  firstHop := none
  lastHop := none

/-- A step of a resolved path: the table it starts from, and what is known of the path
    up to its end. -/
structure Leg where
  move : Move
  table : Table
  hopCount : Nat
  allOutboundNotNull : Bool

namespace Leg

def isHop (leg : Leg) : Bool :=
  match leg.move with
  | .hop _ => true
  | .filter .. => false

def isFilter (leg : Leg) : Bool := !leg.isHop

def clause? (leg : Leg) : Option String :=
  match leg.move with
  | .filter _ clause => some clause
  | .hop _ => none

end Leg

/-- The part of a resolved source that is its own. -/
structure Route where
  spec : Spec
  root : Table
  legs : List Leg
  table : Table
  column : Column
  /-- What is known of the whole path, a named source at its start included. -/
  facts : Facts

/-- A source resolved against a catalog. -/
inductive Resolved where
  | fromRoot (route : Route)
  /-- The path continues a named source. -/
  | continuing (sourcekey : String) (start : Resolved) (route : Route)

namespace Resolved

def route : Resolved → Route
  | fromRoot route => route
  | continuing _ _ route => route

def spec (source : Resolved) : Spec := source.route.spec

def root (source : Resolved) : Table := source.route.root

def table (source : Resolved) : Table := source.route.table

def column (source : Resolved) : Column := source.route.column

def legs (source : Resolved) : List Leg := source.route.legs

def facts (source : Resolved) : Facts := source.route.facts

def hasPath (source : Resolved) : Bool := source.facts.hopCount > 0

/-- The named source that the path continues, with its sourcekey. -/
def start? : Resolved → Option (String × Resolved)
  | fromRoot _ => none
  | continuing sourcekey start _ => some (sourcekey, start)

def isContinuing (source : Resolved) : Bool := source.start?.isSome

/-- The path filters rows, be it in a named source it continues. -/
def isFiltered : Resolved → Bool
  | fromRoot route => route.legs.any Leg.isFilter
  | continuing _ start route => route.legs.any Leg.isFilter || start.isFiltered

def isAllOutbound (source : Resolved) : Bool := source.hasPath && !source.facts.hasInbound

/-- A short name that does not change: the column's for a plain column, else the
    token of the source. -/
def name (source : Resolved) : String :=
  if source.spec.hasSteps then source.spec.token else source.column.name

/-- The filters after the last hop or, without hops of its own, after the named source
    that the path continues. -/
def trailingClauses (source : Resolved) : List String :=
  (source.legs.reverse.takeWhile Leg.isFilter).reverse.filterMap Leg.clause?

/-- The positions, named source and legs counted, of what moves to another table. -/
def joinIndices (source : Resolved) : List Nat :=
  let lead := if source.isContinuing then 1 else 0
  let hops := source.legs.zipIdx.filterMap fun (leg, index) =>
    if leg.isHop then some (index + lead) else none
  if source.isContinuing then 0 :: hops else hops

def firstJoinIndex? (source : Resolved) : Option Nat := source.joinIndices.head?

def lastJoinIndex? (source : Resolved) : Option Nat := source.joinIndices.getLast?

end Resolved

end PathQuery.Source
