import PathQuery.Proofs.Path.Rendering
import PathQuery.Proofs.Source.Equivalence

namespace PathQuery

/-! # Paths that differ in the order within filters

Sources that differ in the order of what their filters combine are joined in the same way
and bind the same aliases, forwards and backwards.  What is bound depends on which
sourcekeys are reused, but not on how these are listed.
-/

/-- The clauses of one filter, up to the order of the children of its nodes. -/
inductive Filter.SameClause : String → String → Prop
  | refl (clause : String) : SameClause clause clause
  | reordered {table : Table} {tree tree' : Tree} {clause clause' : String}
      (trees : tree.Reordered true tree') (written : tree.clause table = .ok clause)
      (written' : tree'.clause table = .ok clause') : SameClause clause clause'

inductive Segment.Alike : Segment → Segment → Prop
  | refl (segment : Segment) : Alike segment segment
  | filter {clause clause' : String} (clauses : Filter.SameClause clause clause') :
      Alike (.filter clause) (.filter clause')

/-- The same path up to the order within its filters. -/
def Path.Alike (left right : Path) : Prop := List.Forall₂ Segment.Alike left right

theorem Path.Alike.refl (path : Path) : path.Alike path :=
  List.forall₂_same.mpr fun segment _ => .refl segment

theorem Path.Alike.append {first first' later later' : Path} (firsts : first.Alike first')
    (laters : later.Alike later') : Path.Alike (first ++ later) (first' ++ later') :=
  List.rel_append firsts laters

namespace Aliases

/-- The same aliases, with the same sourcekeys reused. -/
structure Alike (left right : Aliases) : Prop where
  root : left.root = right.root
  bound : left.bound = right.bound
  forced : left.forced = right.forced
  lastIndex : left.lastIndex = right.lastIndex
  reused : ∀ key, key ∈ left.reused ↔ key ∈ right.reused

namespace Alike

variable {left right : Aliases}

theorem refl (aliases : Aliases) : aliases.Alike aliases := ⟨rfl, rfl, rfl, rfl, fun _ => Iff.rfl⟩

theorem get?_eq (alike : left.Alike right) : left.get? = right.get? := by
  funext key
  rw [get?, get?, alike.bound]

theorem forced?_eq (alike : left.Alike right) : left.forced? = right.forced? := by
  funext key
  rw [forced?, forced?, alike.forced]

theorem isForced_eq (alike : left.Alike right) (key : String) :
    left.isForced key = right.isForced key := by
  rw [isForced, isForced, alike.forced?_eq]

theorem needsAlias_eq (alike : left.Alike right) (key : String) :
    left.needsAlias key = right.needsAlias key := by
  have reused : left.isReused key = right.isReused key := by
    rw [Bool.eq_iff_iff, isReused, isReused, List.contains_iff_mem, List.contains_iff_mem]
    exact alike.reused key
  rw [needsAlias, needsAlias, alike.isForced_eq, reused]

theorem freeFrom_eq (alike : left.Alike right) (count n : Nat) :
    left.freeFrom count n = right.freeFrom count n := by
  induction count generalizing n with
  | zero => rfl
  | succ count ih =>
      have taken : left.isTaken (left.numbered n) = right.isTaken (right.numbered n) := by
        rw [isTaken, isTaken, numbered, numbered, alike.root, alike.forced]
      rw [freeFrom, freeFrom, taken, ih]

theorem mint (alike : left.Alike right) :
    left.mint.1 = right.mint.1 ∧ left.mint.2.Alike right.mint.2 := by
  have next : left.freeFrom left.forced.length (left.lastIndex + 1) =
      right.freeFrom right.forced.length (right.lastIndex + 1) := by
    rw [alike.freeFrom_eq, alike.forced, alike.lastIndex]
  exact ⟨by simp only [Aliases.mint, numbered, alike.root, next],
    alike.root, alike.bound, alike.forced, next, alike.reused⟩

theorem bind (alike : left.Alike right) (key name : String) :
    (left.bind key name).1 = (right.bind key name).1 ∧
      (left.bind key name).2.Alike (right.bind key name).2 := by
  rw [Aliases.bind, Aliases.bind, alike.get?_eq]
  cases right.get? key with
  | some bound => exact ⟨rfl, alike⟩
  | none =>
      exact ⟨rfl, alike.root, by simp [alike.bound], alike.forced, alike.lastIndex, alike.reused⟩

theorem allocate (alike : left.Alike right) (key : String) :
    (left.allocate key).1 = (right.allocate key).1 ∧
      (left.allocate key).2.Alike (right.allocate key).2 := by
  rw [Aliases.allocate, Aliases.allocate, alike.get?_eq, alike.forced?_eq]
  cases right.get? key with
  | some bound => exact ⟨rfl, alike⟩
  | none =>
      cases right.forced? key with
      | some name => exact alike.bind key name
      | none =>
          obtain ⟨names, minted⟩ := alike.mint
          dsimp only
          rw [names]
          exact minted.bind key _

end Alike

end Aliases

namespace Source

inductive Move.Similar : Move → Move → Prop
  | refl (move : Move) : Similar move move
  | filter {tree tree' : Filter.Tree} {clause clause' : String}
      (clauses : Filter.SameClause clause clause') :
      Similar (.filter tree clause) (.filter tree' clause')

structure Route.Similar (left right : Route) : Prop where
  legs : List.Forall₂ (fun leg leg' => leg.move.Similar leg'.move) left.legs right.legs
  table : left.table = right.table
  column : left.column = right.column
  facts : left.facts = right.facts

/-- The same way through the same named sources, up to the order within filters. -/
inductive Resolved.Similar : Resolved → Resolved → Prop
  | fromRoot {route route' : Route} (routes : route.Similar route') :
      Similar (.fromRoot route) (.fromRoot route')
  | continuing (key : String) {start start' : Resolved} {route route' : Route}
      (starts : Similar start start') (routes : route.Similar route') :
      Similar (.continuing key start route) (.continuing key start' route')

theorem Route.Similar.refl (route : Route) : route.Similar route :=
  ⟨List.forall₂_same.mpr fun leg _ => .refl leg.move, rfl, rfl, rfl⟩

theorem Resolved.Similar.refl : ∀ source : Resolved, source.Similar source
  | .fromRoot route => .fromRoot (.refl route)
  | .continuing key start route => .continuing key (refl start) (.refl route)

theorem Route.Alike.similar {left right : Route} (alike : left.Alike right) :
    left.Similar right where
  legs := by
    refine alike.legs.imp fun leg leg' pair => ?_
    cases pair with
    | hop hop => exact .refl _
    | filter _ _ _ trees written written' => exact .filter (.reordered trees written written')
  table := alike.table
  column := alike.column
  facts := alike.facts

theorem Resolved.Alike.similar {left right : Resolved} (alike : left.Alike right) :
    left.Similar right := by
  cases alike with
  | fromRoot routes => exact .fromRoot routes.similar
  | continuing key start routes => exact .continuing key (.refl start) routes.similar

theorem Move.Similar.isHop {leg leg' : Leg} (similar : leg.move.Similar leg'.move) :
    leg.isHop = leg'.isHop := by
  obtain ⟨move, _, _, _⟩ := leg
  obtain ⟨move', _, _, _⟩ := leg'
  cases similar with
  | refl => rfl
  | filter => rfl

theorem anyHop_eq {legs legs' : List Leg}
    (similar : List.Forall₂ (fun leg leg' => leg.move.Similar leg'.move) legs legs') :
    legs.any Leg.isHop = legs'.any Leg.isHop := by
  induction similar with
  | nil => rfl
  | cons first _ ih => rw [List.any_cons, List.any_cons, first.isHop, ih]

theorem legSegments_alike {legs legs' : List Leg}
    (similar : List.Forall₂ (fun leg leg' => leg.move.Similar leg'.move) legs legs')
    (kind : JoinKind) (binding : Option String) :
    Path.Alike (legSegments kind binding legs) (legSegments kind binding legs') := by
  induction similar with
  | nil => exact .nil
  | @cons leg leg' later later' first others ih =>
      have hops := anyHop_eq others
      obtain ⟨move, _, _, _⟩ := leg
      obtain ⟨move', _, _, _⟩ := leg'
      cases first with
      | filter clauses => exact .cons (.filter clauses) ih
      | refl =>
          cases move with
          | filter tree clause => exact .cons (.refl _) ih
          | hop hop =>
              simp only [legSegments, hops]
              exact .cons (.refl _) ih

theorem Resolved.reversedLegSegments_alike {legs legs' : List Leg}
    (similar : List.Forall₂ (fun leg leg' => leg.move.Similar leg'.move) legs legs')
    (binding : Option String) :
    Path.Alike (reversedLegSegments binding legs) (reversedLegSegments binding legs') := by
  induction similar generalizing binding with
  | nil => exact .nil
  | @cons leg leg' later later' first others ih =>
      obtain ⟨move, _, _, _⟩ := leg
      obtain ⟨move', _, _, _⟩ := leg'
      cases first with
      | filter clauses => exact (ih binding).append (.cons (.filter clauses) .nil)
      | refl =>
          cases move with
          | filter tree clause => exact (ih binding).append (.refl _)
          | hop hop => exact (ih none).append (.refl _)

namespace Resolved.Similar

variable {source source' : Resolved} {aliases aliases' : Aliases}

theorem routes (similar : source.Similar source') : source.route.Similar source'.route := by
  cases similar with
  | fromRoot routes => exact routes
  | continuing _ _ routes => exact routes

theorem hasPath_eq (similar : source.Similar source') : source.hasPath = source'.hasPath := by
  rw [hasPath, hasPath, facts, facts, similar.routes.facts]

theorem endsAtStart_eq (similar : source.Similar source') :
    source.endsAtStart = source'.endsAtStart := by
  have hops : source.legs.any Leg.isHop = source'.legs.any Leg.isHop :=
    anyHop_eq similar.routes.legs
  have continues : source.isContinuing = source'.isContinuing := by
    cases similar <;> rfl
  rw [endsAtStart, endsAtStart, continues, hops]

theorem reversedPath (similar : source.Similar source') (outAlias : String) :
    Path.Alike (source.reversedPath outAlias) (source'.reversedPath outAlias) := by
  induction similar with
  | fromRoot routes => exact reversedLegSegments_alike routes.legs _
  | continuing key starts routes ih => exact (reversedLegSegments_alike routes.legs none).append ih

theorem chooseAlias (similar : source.Similar source') (alike : aliases.Alike aliases')
    (key hint : Option String) :
    (source.chooseAlias key hint aliases).1 = (source'.chooseAlias key hint aliases').1 ∧
      (source.chooseAlias key hint aliases).2.Alike (source'.chooseAlias key hint aliases').2 := by
  cases key with
  | none => exact ⟨rfl, alike⟩
  | some key =>
      simp only [Resolved.chooseAlias, similar.endsAtStart_eq, alike.forced?_eq,
        alike.needsAlias_eq, alike.isForced_eq]
      split
      · exact ⟨rfl, alike⟩
      split
      · obtain ⟨names, allocated⟩ := alike.allocate key
        exact ⟨congrArg some names, allocated⟩
      · exact ⟨rfl, alike⟩

end Resolved.Similar

/-- The same path up to the order within filters, with the same aliases. -/
structure SameRendering (left right : RenderedPath × Aliases) : Prop where
  path : left.1.path.Alike right.1.path
  aliasName : left.1.aliasName = right.1.aliasName
  aliases : left.2.Alike right.2

theorem SameRendering.bindEnd {left right : RenderedPath × Aliases}
    (same : SameRendering left right) (key : Option String) :
    SameRendering (Resolved.bindEnd key left.1 left.2) (Resolved.bindEnd key right.1 right.2) := by
  obtain ⟨path, aliasName, aliases⟩ := same
  unfold Resolved.bindEnd
  rw [aliasName]
  split
  · exact ⟨path, aliasName, (aliases.bind _ _).2⟩
  · exact ⟨path, aliasName, aliases⟩

theorem SameRendering.renderLegs {left right : RenderedPath × Aliases}
    (leads : SameRendering left right) {source source' : Resolved}
    (similar : source.Similar source') (kind : JoinKind) (binding : Option String) :
    SameRendering (Resolved.renderLegs kind binding source left.1, left.2)
      (Resolved.renderLegs kind binding source' right.1, right.2) where
  path := leads.path.append (legSegments_alike similar.routes.legs kind binding)
  aliasName := by
    have hops : source.legs.any Leg.isHop = source'.legs.any Leg.isHop :=
      anyHop_eq similar.routes.legs
    simp only [Resolved.renderLegs, hops, leads.aliasName]
  aliases := leads.aliases

namespace Resolved.Similar

variable {source source' : Resolved} {aliases aliases' : Aliases}

/-- Sources are rendered alike if the sources that they continue are. -/
theorem render_of_lead (similar : source.Similar source') (kind : JoinKind)
    (leads : ∀ (hint : Option String) {aliases aliases' : Aliases}, aliases.Alike aliases' →
      SameRendering (source.renderLead kind hint aliases) (source'.renderLead kind hint aliases'))
    (alike : aliases.Alike aliases') (key hint : Option String) :
    SameRendering (source.render kind key hint aliases)
      (source'.render kind key hint aliases') := by
  have hasPath := similar.hasPath_eq
  cases bound : (key.filter fun _ => source.hasPath).bind aliases.get? with
  | some name =>
      have bound' : (key.filter fun _ => source'.hasPath).bind aliases'.get? = some name := by
        rw [← hasPath, ← alike.get?_eq, bound]
      rw [render_bound bound, render_bound bound']
      exact ⟨.refl _, rfl, alike⟩
  | none =>
      have bound' : (key.filter fun _ => source'.hasPath).bind aliases'.get? = none := by
        rw [← hasPath, ← alike.get?_eq, bound]
      rw [render_joined bound, render_joined bound', ← hasPath, ← similar.endsAtStart_eq]
      obtain ⟨names, chosen⟩ :=
        similar.chooseAlias alike (key.filter fun _ => source.hasPath) hint
      dsimp only
      rw [names]
      have lead := leads (if source.endsAtStart then
        (source'.chooseAlias (key.filter fun _ => source.hasPath) hint aliases').1 else none) chosen
      have joined := lead.renderLegs similar kind
        (source'.chooseAlias (key.filter fun _ => source.hasPath) hint aliases').1
      exact joined.bindEnd _

/-- Alike sources are rendered alike. -/
theorem render (similar : source.Similar source') (kind : JoinKind)
    (alike : aliases.Alike aliases') (key hint : Option String) :
    SameRendering (source.render kind key hint aliases)
      (source'.render kind key hint aliases') := by
  induction similar generalizing aliases aliases' key hint with
  | fromRoot routes =>
      exact render_of_lead (.fromRoot routes) kind (fun _ _ _ alike => ⟨.nil, rfl, alike⟩) alike
        key hint
  | continuing sourcekey starts routes ih =>
      exact render_of_lead (.continuing sourcekey starts routes) kind
        (fun hint _ _ alike => ih alike (some sourcekey) hint) alike key hint

end Resolved.Similar

end Source

end PathQuery
