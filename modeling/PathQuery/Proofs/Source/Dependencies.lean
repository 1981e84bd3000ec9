import Mathlib.Data.List.Nodup
import PathQuery.Proofs.Source.CanonicalIdentity
import PathQuery.Proofs.Source.Declarations

namespace PathQuery.Source

/-! # What sources depend on

A source goes through the sourcekeys on its chain.  They are what its spec depends on
through the sourcekey that it starts with, so they can be told before any source is
rendered.  Wherever a sourcekey is counted, so is the one that its source continues, and
none is on a chain twice.
-/

variable {named : String → Option Resolved} {definitions : Definitions} {source : Resolved}
  {key : String}

/-- The chain of a source is what its spec depends on. -/
theorem Grounded.inherited_eq (grounded : Grounded (Naming definitions.get?) source)
    (chained : definitions.Chained) : definitions.inherited source.spec = source.chain := by
  cases grounded with
  | @fromRoot context spec walk route admitted plain walked ended =>
      obtain ⟨column, -, rfl⟩ := Walk.route_eq_ok ended
      change definitions.inherited spec = []
      rw [Definitions.inherited, plain]
      rfl
  | @continuing context key column start later walk route admitted found path grounded walked
      ended =>
      obtain ⟨isColumn, -, rfl⟩ := Walk.route_eq_ok ended
      rw [admitted] at found
      obtain ⟨definition, isDefined, rfl⟩ := Definitions.get?_eq_some.mp found
      have depends := Definitions.dependencies_of_definition? isDefined
      rw [(chained key definition isDefined).2.1] at depends
      exact depends

theorem Definitions.Chained.dependencies_eq (chained : definitions.Chained)
    (found : definitions.get? key = some source) :
    definitions.dependencies key = key :: source.chain := by
  obtain ⟨definition, isDefined, rfl⟩ := get?_eq_some.mp found
  rw [dependencies_of_definition? isDefined]
  exact (chained key definition isDefined).2.1

theorem Definitions.dependencies_eq_nil (undefined : definitions.get? key = none) :
    definitions.dependencies key = [] := by
  have none := Option.map_eq_none_iff.mp undefined
  simp [dependencies, none]

/-- A chain goes on, after each sourcekey, with the chain of that one's source. -/
def Unbroken (named : String → Option Resolved) (keys : List String) : Prop :=
  ∀ before key after, keys = before ++ key :: after →
    ∃ source, named key = some source ∧ source.chain = after

theorem unbroken_nil : Unbroken named [] := by
  intro before key after split
  simp at split

theorem Unbroken.cons (unbroken : Unbroken named source.chain)
    (found : named key = some source) : Unbroken named (key :: source.chain) := by
  intro before other after split
  cases before with
  | nil =>
      cases split
      exact ⟨source, found, rfl⟩
  | cons first before => exact unbroken before other after (List.cons.inj split).2

theorem Grounded.unbroken (grounded : Grounded (Naming named) source) :
    Unbroken named source.chain := by
  induction grounded with
  | fromRoot => exact unbroken_nil
  | continuing admitted found path grounded walked ended ih => exact ih.cons (admitted ▸ found)

theorem Grounded.chain_nodup (grounded : Grounded (Naming named) source)
    (acyclic : Acyclic named) : source.chain.Nodup := by
  induction grounded with
  | fromRoot => exact List.nodup_nil
  | continuing admitted found path grounded walked ended ih =>
      exact List.nodup_cons.mpr ⟨acyclic _ _ (admitted ▸ found), ih⟩

/-- Each sourcekey is counted at most as often as the one that its source continues. -/
def CountsStarts (named : String → Option Resolved) (used : List String) : Prop :=
  ∀ key sourcekey start route, named key = some (.continuing sourcekey start route) →
    used.count key ≤ used.count sourcekey

theorem countsStarts_nil : CountsStarts named [] := fun _ _ _ _ _ => Nat.le_refl 0

theorem CountsStarts.append {left right : List String} (first : CountsStarts named left)
    (second : CountsStarts named right) : CountsStarts named (left ++ right) := by
  intro key sourcekey start route found
  rw [List.count_append, List.count_append]
  exact Nat.add_le_add (first key sourcekey start route found)
    (second key sourcekey start route found)

theorem countsStarts_flatMap {items : List α} {uses : α → List String}
    (each : ∀ item ∈ items, CountsStarts named (uses item)) :
    CountsStarts named (items.flatMap uses) := by
  induction items with
  | nil => exact countsStarts_nil
  | cons item items ih =>
      have first := each item List.mem_cons_self
      have others := ih fun other member => each other (List.mem_cons_of_mem item member)
      exact first.append others

theorem CountsStarts.cons (counts : CountsStarts named source.chain) (acyclic : Acyclic named)
    (found : named key = some source) : CountsStarts named (key :: source.chain) := by
  intro other sourcekey start route isNamed
  by_cases same : other = key
  · subst same
    obtain rfl : source = .continuing sourcekey start route :=
      Option.some.inj (found.symm.trans isNamed)
    have absent : (Resolved.continuing sourcekey start route).chain.count other = 0 :=
      List.count_eq_zero.mpr (acyclic other _ found)
    have present : 0 < (other :: sourcekey :: start.chain).count sourcekey :=
      List.count_pos_iff.mpr (by simp)
    rw [List.count_cons_self, absent]
    exact present
  · rw [List.count_cons_of_ne (Ne.symm same)]
    exact (counts other sourcekey start route isNamed).trans List.count_le_count_cons

theorem Grounded.countsStarts (grounded : Grounded (Naming named) source)
    (acyclic : Acyclic named) : CountsStarts named source.chain := by
  induction grounded with
  | fromRoot => exact countsStarts_nil
  | continuing admitted found path grounded walked ended ih => exact ih.cons acyclic (admitted ▸ found)

namespace Definitions

theorem foldl_declare_sourcekeys (directory : Directory) (engine : Template.Engine) (row : Row)
    (fields : Json.Fields) (definitions : Definitions) :
    ∃ added, (fields.foldl (declare directory engine row) definitions).sourcekeys =
      definitions.sourcekeys ++ added ∧ added.Sublist (fields.map Prod.fst) := by
  induction fields generalizing definitions with
  | nil => exact ⟨[], (List.append_nil _).symm, List.Sublist.slnil⟩
  | cons field fields ih =>
      obtain ⟨added, sourcekeys, within⟩ := ih (declare directory engine row definitions field)
      rw [List.foldl_cons, sourcekeys]
      cases defined : definitions.define? directory engine row field.1 field.2 with
      | none => exact ⟨added, by simp [declare, defined], within.cons _⟩
      | some definition =>
          obtain ⟨_, _, -, -, -, -, same, -⟩ := define?_eq_some defined
          refine ⟨field.1 :: added, ?_, within.cons_cons _⟩
          simp [declare, defined, Definitions.sourcekeys, same]

/-- In a table that declares no sourcekey twice each definition is found. -/
theorem build_definition? {directory : Directory} {table : Table} {engine : Template.Engine}
    {row : Row} (distinct : (table.sourceDefinitions.map Prod.fst).Nodup) {definition : Definition}
    (member : definition ∈ (build directory table engine row).entries) :
    (build directory table engine row).definition? definition.sourcekey = some definition := by
  obtain ⟨added, sourcekeys, within⟩ := foldl_declare_sourcekeys directory engine row
    table.sourceDefinitions { table, entries := [], searchColumns := [] }
  have same : (build directory table engine row).sourcekeys = added := sourcekeys
  have nodup : (build directory table engine row).sourcekeys.Nodup :=
    same ▸ distinct.sublist within
  cases found : (build directory table engine row).definition? definition.sourcekey with
  | none =>
      have absent := List.find?_eq_none.mp found definition member
      simp at absent
  | some other =>
      obtain ⟨otherMember, same⟩ := definition?_sourcekey found
      rw [List.inj_on_of_nodup_map nodup otherMember member same]

theorem build_token {directory : Directory} {table : Table} {engine : Template.Engine}
    {row : Row} {definition : Definition}
    (member : definition ∈ (build directory table engine row).entries) :
    definition.token = definition.source.spec.token := by
  have all := @build_induction directory table engine row
    (fun definitions => ∀ entry ∈ definitions.entries, entry.token = entry.source.spec.token)
    nofun ?_
  · exact all definition member
  · intro definitions key value added _ tokens _ defined entry member
    obtain ⟨_, _, -, -, -, -, -, -, token, -⟩ := define?_eq_some defined
    rcases List.mem_append.mp member with old | new
    · exact tokens entry old
    · rw [List.mem_singleton.mp new, token]

theorem build_read {directory : Directory} {table : Table} {engine : Template.Engine}
    {row : Row} {definition : Definition}
    (member : definition ∈ (build directory table engine row).entries) :
    ∃ item, Spec.ofJson item = .ok definition.source.spec := by
  have all := @build_induction directory table engine row
    (fun definitions => ∀ entry ∈ definitions.entries,
      ∃ item, Spec.ofJson item = .ok entry.source.spec) nofun ?_
  · exact all definition member
  · intro definitions key value added _ reads _ defined entry member
    obtain ⟨_, item, -, -, read, -⟩ := define?_eq_some defined
    rcases List.mem_append.mp member with old | new
    · exact reads entry old
    · rw [List.mem_singleton.mp new]
      exact ⟨item, read⟩

/-- A source that is found by a token is that of a definition with the token. -/
theorem build_sourcekeysFor {directory : Directory} {table : Table} {engine : Template.Engine}
    {row : Row} (distinct : (table.sourceDefinitions.map Prod.fst).Nodup) {token : String}
    {source : Resolved}
    (found : ((build directory table engine row).sourcekeysFor token).head?.bind
      (build directory table engine row).get? = some source) :
    ∃ definition ∈ (build directory table engine row).entries,
      definition.source = source ∧ definition.source.spec.token = token := by
  obtain ⟨key, isFirst, isNamed⟩ := Option.bind_eq_some_iff.mp found
  obtain ⟨definition, listed, rfl⟩ := List.mem_map.mp (List.mem_of_head? isFirst)
  obtain ⟨member, token⟩ := List.mem_filter.mp listed
  obtain ⟨other, isDefined, rfl⟩ := get?_eq_some.mp isNamed
  obtain rfl := Option.some.inj ((build_definition? distinct member).symm.trans isDefined)
  exact ⟨definition, member, rfl, (build_token member).symm.trans (beq_iff_eq.mp token)⟩

end Definitions

end PathQuery.Source
