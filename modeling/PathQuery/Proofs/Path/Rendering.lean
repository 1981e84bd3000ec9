import PathQuery.Path.OfSource
import PathQuery.Proofs.Source.Inlining

namespace PathQuery

/-! # Rendering step by step

A source that is rendered under a sourcekey with an alias is not joined again.  Any other
one chooses the alias of its end, renders the source that it continues and goes on with
its own legs.
-/

namespace Aliases

theorem allocate_cases {aliases : Aliases} {key : String} (unbound : aliases.get? key = none) :
    (∃ name, aliases.forced? key = some name ∧ aliases.allocate key = aliases.bind key name) ∨
    (aliases.forced? key = none ∧
      aliases.allocate key = aliases.mint.2.bind key aliases.mint.1) := by
  unfold allocate
  rw [unbound]
  cases aliases.forced? key with
  | some name => exact .inl ⟨name, rfl, rfl⟩
  | none => exact .inr ⟨rfl, rfl⟩

theorem bind_fst {aliases : Aliases} {key : String} (unbound : aliases.get? key = none)
    (name : String) : (aliases.bind key name).1 = name := by
  simp [bind, unbound]

end Aliases

namespace Source.Resolved

/-- What comes before the legs of a source: the path of the one it continues. -/
def renderLead (kind : JoinKind) (hint : Option String) (aliases : Aliases) :
    Resolved → RenderedPath × Aliases
  | fromRoot _ => (⟨[], none⟩, aliases)
  | continuing sourcekey start _ => start.render kind (some sourcekey) hint aliases

theorem render_bound {kind : JoinKind} {source : Resolved} {key hint : Option String}
    {aliases : Aliases} {name : String}
    (bound : (key.filter fun _ => source.hasPath).bind aliases.get? = some name) :
    source.render kind key hint aliases = (⟨[.goTo name], some name⟩, aliases) := by
  cases source with
  | fromRoot route => simp only [render, bound]
  | continuing sourcekey start route => simp only [render, bound]

theorem render_joined {kind : JoinKind} {source : Resolved} {key hint : Option String}
    {aliases : Aliases}
    (unbound : (key.filter fun _ => source.hasPath).bind aliases.get? = none) :
    source.render kind key hint aliases =
      let shared := key.filter fun _ => source.hasPath
      let chosen := source.chooseAlias shared hint aliases
      let lead := source.renderLead kind (if source.endsAtStart then chosen.1 else none) chosen.2
      bindEnd shared (renderLegs kind chosen.1 source lead.1) lead.2 := by
  cases source with
  | fromRoot route =>
      rw [render]
      simp only [unbound]
      rfl
  | continuing sourcekey start route =>
      rw [render]
      simp only [unbound]
      rfl

/-- The alias that the end of a source is to have: none but what is hinted at, that of the
    source it ends where it starts at, or an alias of its own. -/
theorem chooseAlias_cases (source : Resolved) (key hint : Option String) (aliases : Aliases) :
    (key = none ∧ source.chooseAlias key hint aliases = (hint, aliases)) ∨
    ∃ shared, key = some shared ∧
      ((source.endsAtStart = true ∧ source.chooseAlias key hint aliases =
          (aliases.forced? shared <|> hint, aliases)) ∨
       (source.endsAtStart = false ∧ aliases.needsAlias shared = true ∧
          (aliases.isForced shared = true ∨ hint = none) ∧
          source.chooseAlias key hint aliases =
            (some (aliases.allocate shared).1, (aliases.allocate shared).2)) ∨
       (source.endsAtStart = false ∧ aliases.forced? shared = none ∧
          (aliases.isReused shared = true → hint.isSome = true) ∧
          source.chooseAlias key hint aliases = (hint, aliases))) := by
  cases key with
  | none => exact .inl ⟨rfl, rfl⟩
  | some shared =>
      refine .inr ⟨shared, rfl, ?_⟩
      cases ends : source.endsAtStart with
      | true => exact .inl ⟨rfl, by simp [chooseAlias, ends]⟩
      | false =>
          refine .inr ?_
          by_cases needs : aliases.needsAlias shared = true ∧
              (aliases.isForced shared = true ∨ hint = none)
          · obtain ⟨needed, own⟩ := needs
            refine .inl ⟨rfl, needed, own, ?_⟩
            have chooses : (aliases.needsAlias shared &&
                (aliases.isForced shared || hint.isNone)) = true := by
              simpa [needed] using own
            simp only [chooseAlias, ends, chooses]
            rfl
          · refine .inr ⟨rfl, ?_, ?_, ?_⟩
            · cases forced : aliases.forced? shared with
              | none => rfl
              | some name =>
                  refine absurd ⟨?_, .inl ?_⟩ needs
                  · simp [Aliases.needsAlias, Aliases.isForced, forced]
                  · simp [Aliases.isForced, forced]
            · intro reused
              cases hint with
              | some name => rfl
              | none => exact absurd ⟨by simp [Aliases.needsAlias, reused], .inr rfl⟩ needs
            · have refuses : (aliases.needsAlias shared &&
                  (aliases.isForced shared || hint.isNone)) = false := by
                rw [Bool.eq_false_iff]
                intro chooses
                apply needs
                simpa using chooses
              simp only [chooseAlias, ends, refuses]
              rfl

end Source.Resolved

end PathQuery
