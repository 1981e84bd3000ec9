import PathQuery.Source.Resolved
import PathQuery.Path.Aliases

namespace PathQuery.Source

/-! # The path of a source

Forwards, a source is joined from its root to its end.  A named source that has an
alias already is not joined again: `$` and the alias go back to its end, where its
filters hold too.  Backwards, a source is joined from its end to its root, and the
last join keeps the rows of the root that have no partner.
-/

/-- A rendered path and the alias of the table at its end, if it has one. -/
structure RenderedPath where
  path : Path
  aliasName : Option String

/-- The legs of a source, the last hop of which binds `binding`. -/
def legSegments (kind : JoinKind) (binding : Option String) : List Leg → Path
  | [] => []
  | leg :: later =>
    match leg.move with
    | .filter _ clause => .filter clause :: legSegments kind binding later
    | .hop hop =>
      let name := if later.any Leg.isHop then none else binding
      .join name kind hop.key hop.direction :: legSegments kind binding later

namespace Resolved

/-- The end of the source is that of the named source it continues. -/
def endsAtStart (source : Resolved) : Bool :=
  source.isContinuing && !source.legs.any Leg.isHop

/-- The alias to bind at the end of a source that is rendered under a sourcekey.  A
    source that ends where the one it continues does shares that one's alias, so none
    is minted for it. -/
def chooseAlias (source : Resolved) (key hint : Option String) (aliases : Aliases) :
    Option String × Aliases :=
  match key with
  | some key =>
    if source.endsAtStart then (aliases.forced? key <|> hint, aliases)
    else if aliases.needsAlias key && (aliases.isForced key || hint.isNone) then
      let (name, aliases) := aliases.allocate key
      (some name, aliases)
    else (hint, aliases)
  | none => (hint, aliases)

/-- Bind the alias at the end of a rendered path to the sourcekey it was rendered
    under. -/
def bindEnd (key : Option String) (rendered : RenderedPath) (aliases : Aliases) :
    RenderedPath × Aliases :=
  match key, rendered.aliasName with
  | some key, some name => (rendered, (aliases.bind key name).2)
  | _, _ => (rendered, aliases)

/-- Render a source that is not joined yet, binding `binding` at its end if it is given
    one.  `lead` renders the named source that the path continues. -/
def renderLegs (kind : JoinKind) (binding : Option String) (source : Resolved)
    (lead : RenderedPath) : RenderedPath where
  path := lead.path ++ legSegments kind binding source.legs
  aliasName := if source.legs.any Leg.isHop then binding else lead.aliasName

/-- Render a source with joins of one kind.  `key` is the sourcekey it is shared under,
    and `hint` the alias that its end is to have unless it is shared under another. -/
def render (kind : JoinKind) :
    Resolved → (key hint : Option String) → Aliases → RenderedPath × Aliases
  | source, key, hint, aliases =>
    let key := key.filter fun _ => source.hasPath
    match key.bind aliases.get? with
    | some name => (⟨[.goTo name], some name⟩, aliases)
    | none =>
      let (binding, aliases) := source.chooseAlias key hint aliases
      match source with
      | fromRoot route =>
        bindEnd key (renderLegs kind binding (fromRoot route) ⟨[], none⟩) aliases
      | continuing sourcekey start route =>
        let source := continuing sourcekey start route
        let startHint := if source.endsAtStart then binding else none
        let (lead, aliases) := start.render kind (some sourcekey) startHint aliases
        bindEnd key (renderLegs kind binding source lead) aliases

/-- The path of a source, with joins that drop rows without a partner. -/
def path (source : Resolved) (key : Option String) (aliases : Aliases) :
    RenderedPath × Aliases :=
  source.render .inner key none aliases

/-- A source that has inbound hops, or no hop at all, has no path of left joins. -/
structure NotAllOutbound where
  column : String
  deriving DecidableEq

def NotAllOutbound.message (error : NotAllOutbound) : String :=
  "Path to '" ++ error.column ++ "' is not all-outbound"

/-- The path of a source with outbound hops only, with joins that keep rows without a
    partner.  Its end is bound to `outAlias` unless it is shared under another alias. -/
def leftPath (source : Resolved) (key : Option String) (outAlias : String)
    (aliases : Aliases) : Except NotAllOutbound (RenderedPath × Aliases) :=
  if source.isAllOutbound then .ok (source.render .left key (some outAlias) aliases)
  else .error ⟨source.column.name⟩

/-- The legs of a source from the last to the first.  The first hop, which now comes
    last, binds `binding` if it is given one, and then keeps the rows it reaches. -/
def reversedLegSegments (binding : Option String) : List Leg → Path
  | [] => []
  | leg :: later =>
    match leg.move with
    | .filter _ clause => reversedLegSegments binding later ++ [.filter clause]
    | .hop hop =>
      let join := match binding with
        | some name => .join (some name) .right hop.key hop.direction.flip
        | none => .join none .inner hop.key hop.direction.flip
      reversedLegSegments none later ++ [join]

/-- The path of a source from its end to its root, which gets the alias `outAlias`. -/
def reversedPath (outAlias : String) : Resolved → Path
  | fromRoot route => reversedLegSegments (some outAlias) route.legs
  | continuing _ start route =>
    reversedLegSegments none route.legs ++ start.reversedPath outAlias

end Resolved

end PathQuery.Source
