import PathQuery.Constraint.Basic
import PathQuery.Source.Resolution
import PathQuery.Path.OfSource

namespace PathQuery.Facet

/-! # Facet errors

To the user a facet fails in one of a few ways.  The error says in which, at which
term, and what it was raised from.
-/

inductive ErrorKind where
  | invalidFacet
  | invalidBooleanOperator
  | invalidSource
  | invalidSourcekey
  | invalidChoice
  | invalidRange
  | invalidSearch
  | missingConstraints
  | invalidColumnInPath
  | duplicateRightJoin
  deriving DecidableEq

def ErrorKind.message : ErrorKind → String
  | invalidFacet => "Facet description is invalid."
  | invalidBooleanOperator => "Only conjunction of facets is supported currently."
  | invalidSource => "Missing or invalid `source` attribute."
  | invalidSourcekey => "Given sourcekey string is not valid"
  | invalidChoice => "invalid choices value."
  | invalidRange => "invalid ranges value."
  | invalidSearch => "invalid search value."
  | missingConstraints => "No constraints are defined for the facet."
  | invalidColumnInPath =>
    "end column in the path is not valid (not available in the end table)"
  | duplicateRightJoin => "Only one null filter is allowed in the facets"

inductive Cause where
  | spec (error : Source.SpecError)
  | source (error : Source.ResolveError)
  | constraint (error : Constraint.Error)
  | path (error : Source.Resolved.NotAllOutbound)

def Cause.message : Cause → String
  | spec error => error.message
  | source error => error.message
  | constraint error => error.message
  | path error => error.message

structure Error where
  kind : ErrorKind
  index : Option Nat
  cause : Option Cause

namespace Error

def ofKind (kind : ErrorKind) : Error := ⟨kind, none, none⟩

def atTerm (index : Nat) (error : Error) : Error := { error with index := some index }

def message (error : Error) : String :=
  match error.index with
  | some index => error.kind.message ++ "(index=" ++ toString index ++ ")"
  | none => error.kind.message

def ofSpec (error : Source.SpecError) : Error := ⟨.invalidSource, none, some (.spec error)⟩

def kindOfSource : Source.ResolveError → ErrorKind
  | .invalidColumn _ _ => .invalidColumnInPath
  | .undefinedSourcekey _ => .invalidSourcekey
  | .notAPath _ => .invalidSourcekey
  | .misplacedSourcekey _ => .invalidSourcekey
  | _ => .invalidSource

def ofSource (error : Source.ResolveError) : Error :=
  ⟨kindOfSource error, none, some (.source error)⟩

def kindOfConstraint : Constraint.Error → ErrorKind
  | .invalidChoices _ => .invalidChoice
  | .invalidRanges _ => .invalidRange
  | .invalidSearch _ => .invalidSearch

def ofConstraint (error : Constraint.Error) : Error :=
  ⟨kindOfConstraint error, none, some (.constraint error)⟩

def ofPath (error : Source.Resolved.NotAllOutbound) : Error :=
  ⟨.invalidSearch, none, some (.path error)⟩

end Error

/-- Carry an error over into one of a facet. -/
def raise (convert : ε → Error) : Except ε α → Except Error α
  | .ok value => .ok value
  | .error error => .error (convert error)

end PathQuery.Facet
