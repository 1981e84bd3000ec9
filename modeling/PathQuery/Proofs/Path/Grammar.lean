import PathQuery.Proofs.Filter.Meaning

namespace PathQuery.Grammar

/-! # The grammar of clauses

An expression is a list of conjunctions with `;` between them, a conjunction a list of
factors with `&` between them, and a factor is an expression in parentheses, which may be
negated, or a run of other characters.  What an expression is written as leaves no choice
how to read it.
-/

/-- A character that separates, negates or groups. -/
def isMark (c : Char) : Bool := c == ';' || c == '&' || c == '!' || c == '(' || c == ')'

/-- The characters of a comparison. -/
@[ext] structure Run where
  chars : List Char
  nonempty : chars ≠ []
  plain : ∀ c ∈ chars, isMark c = false

mutual

inductive Expr where
  | last (conj : Conj)
  | more (conj : Conj) (later : Expr)

inductive Conj where
  | last (factor : Factor)
  | more (factor : Factor) (later : Conj)

inductive Factor where
  | leaf (run : Run)
  | group (inside : Expr)
  | negated (inside : Expr)

end

mutual

def Expr.text : Expr → List Char
  | .last conj => conj.text
  | .more conj later => conj.text ++ ';' :: later.text

def Conj.text : Conj → List Char
  | .last factor => factor.text
  | .more factor later => factor.text ++ '&' :: later.text

def Factor.text : Factor → List Char
  | .leaf run => run.chars
  | .group inside => '(' :: (inside.text ++ [')'])
  | .negated inside => '!' :: '(' :: (inside.text ++ [')'])

end

mutual

/-- The runs of an expression from left to right. -/
def Expr.leaves : Expr → List (List Char)
  | .last conj => conj.leaves
  | .more conj later => conj.leaves ++ later.leaves

def Conj.leaves : Conj → List (List Char)
  | .last factor => factor.leaves
  | .more factor later => factor.leaves ++ later.leaves

def Factor.leaves : Factor → List (List Char)
  | .leaf run => [run.chars]
  | .group inside => inside.leaves
  | .negated inside => inside.leaves

end

mutual

/-- Whether an expression holds if `truth` says which leaves do.  The leaves are numbered
    from left to right, here from `first` on. -/
def Expr.holds (truth : Nat → Bool) : Expr → (first : Nat) → Bool
  | .last conj, first => conj.holds truth first
  | .more conj later, first =>
    conj.holds truth first || later.holds truth (first + conj.leaves.length)

def Conj.holds (truth : Nat → Bool) : Conj → (first : Nat) → Bool
  | .last factor, first => factor.holds truth first
  | .more factor later, first =>
    factor.holds truth first && later.holds truth (first + factor.leaves.length)

def Factor.holds (truth : Nat → Bool) : Factor → (first : Nat) → Bool
  | .leaf _, first => truth first
  | .group inside, first => inside.holds truth first
  | .negated inside, first => !inside.holds truth first

end

/-- The longest runs of a text without marks. -/
def runs (text : List Char) : List (List Char) :=
  (text.splitOnP isMark).filter fun run => !run.isEmpty

@[simp] theorem runs_nil : runs [] = [] := rfl

theorem runs_append_mark (left right : List Char) {mark : Char} (isMark : isMark mark = true) :
    runs (left ++ mark :: right) = runs left ++ runs right := by
  rw [runs, List.splitOnP_append_cons left right isMark, List.filter_append]
  rfl

theorem Run.runs_chars (run : Run) : runs run.chars = [run.chars] := by
  rw [runs, List.splitOnP_eq_singleton run.plain]
  simp [run.nonempty]

theorem runs_grouped (inside : List Char) : runs ('(' :: (inside ++ [')'])) = runs inside := by
  have opened := runs_append_mark [] (inside ++ [')']) (rfl : isMark '(' = true)
  have closed := runs_append_mark inside [] (rfl : isMark ')' = true)
  rw [List.nil_append] at opened
  rw [opened, closed, runs_nil, List.nil_append, List.append_nil]

theorem runs_negated (inside : List Char) :
    runs ('!' :: '(' :: (inside ++ [')'])) = runs inside := by
  have marked := runs_append_mark [] ('(' :: (inside ++ [')'])) (rfl : isMark '!' = true)
  rw [List.nil_append] at marked
  rw [marked, runs_grouped, runs_nil, List.nil_append]

mutual

theorem Expr.leaves_eq : ∀ expr : Expr, expr.leaves = runs expr.text
  | .last conj => conj.leaves_eq
  | .more conj later => by
      rw [Expr.leaves, Expr.text, runs_append_mark _ _ rfl, conj.leaves_eq, later.leaves_eq]

theorem Conj.leaves_eq : ∀ conj : Conj, conj.leaves = runs conj.text
  | .last factor => factor.leaves_eq
  | .more factor later => by
      rw [Conj.leaves, Conj.text, runs_append_mark _ _ rfl, factor.leaves_eq, later.leaves_eq]

theorem Factor.leaves_eq : ∀ factor : Factor, factor.leaves = runs factor.text
  | .leaf run => run.runs_chars.symm
  | .group inside => by
      rw [Factor.leaves, Factor.text, runs_grouped, inside.leaves_eq]
  | .negated inside => by
      rw [Factor.leaves, Factor.text, runs_negated, inside.leaves_eq]

end

/-- What follows starts with one of some marks, or nothing follows. -/
def Follows (marks : List Char) (rest : List Char) : Prop := ∀ c ∈ rest.head?, c ∈ marks

theorem Follows.cons {marks : List Char} {mark : Char} (listed : mark ∈ marks)
    (rest : List Char) : Follows marks (mark :: rest) := by
  intro c member
  rwa [← Option.some.inj member]

theorem Follows.mono {marks wider rest : List Char} (follows : Follows marks rest)
    (within : marks ⊆ wider) : Follows wider rest :=
  fun c member => within (follows c member)

theorem Follows.not_mark {marks rest : List Char} {mark : Char}
    (follows : Follows marks (mark :: rest)) (other : mark ∉ marks) : False :=
  other (follows mark rfl)

theorem Run.unambiguous {left right : Run} {rest rest' : List Char}
    (ends : Follows [';', '&', ')'] rest) (ends' : Follows [';', '&', ')'] rest')
    (same : left.chars ++ rest = right.chars ++ rest') : left = right ∧ rest = rest' := by
  have taken : ∀ (run : Run) (rest : List Char), Follows [';', '&', ')'] rest →
      (run.chars ++ rest).takeWhile (fun c => !isMark c) = run.chars := by
    intro run rest ends
    rw [List.takeWhile_append_of_pos fun c member => by simp [run.plain c member]]
    cases rest with
    | nil => simp
    | cons c rest =>
        have marked : [';', '&', ')'].all isMark = true := rfl
        simp [List.all_eq_true.mp marked c (ends c rfl)]
  have chars : left.chars = right.chars := by
    rw [← taken left rest ends, same, taken right rest' ends']
  rw [chars] at same
  exact ⟨Run.ext chars, List.append_cancel_left same⟩

theorem Run.head_plain (run : Run) (rest : List Char) :
    ∃ c tail, run.chars ++ rest = c :: tail ∧ isMark c = false := by
  obtain ⟨c, tail, written⟩ := List.exists_cons_of_ne_nil run.nonempty
  exact ⟨c, tail ++ rest, by rw [written]; rfl, run.plain c (written ▸ List.mem_cons_self)⟩

theorem Run.not_mark {run : Run} {rest tail : List Char} {mark : Char}
    (same : run.chars ++ rest = mark :: tail) (marked : isMark mark = true) : False := by
  obtain ⟨c, tail', opened, plain⟩ := run.head_plain rest
  rw [opened] at same
  rw [(List.cons.inj same).1, marked] at plain
  contradiction

mutual

/-- An expression ends where a parenthesis that it did not open is closed. -/
theorem Expr.unambiguous : ∀ (left right : Expr) (rest rest' : List Char),
    Follows [')'] rest → Follows [')'] rest' → left.text ++ rest = right.text ++ rest' →
      left = right ∧ rest = rest'
  | .last conj, .last conj', rest, rest', ends, ends', same => by
      obtain ⟨rfl, rfl⟩ := conj.unambiguous conj' rest rest' (ends.mono (by decide))
        (ends'.mono (by decide)) same
      exact ⟨rfl, rfl⟩
  | .last conj, .more conj' later', rest, rest', ends, ends', same => by
      rw [Expr.text, Expr.text, List.append_assoc] at same
      obtain ⟨-, rfl⟩ := conj.unambiguous conj' _ _ (ends.mono (by decide))
        (.cons (by decide) _) same
      exact (ends.not_mark (by decide)).elim
  | .more conj later, .last conj', rest, rest', ends, ends', same => by
      rw [Expr.text, Expr.text, List.append_assoc] at same
      obtain ⟨-, rfl⟩ := conj.unambiguous conj' _ _ (.cons (by decide) _)
        (ends'.mono (by decide)) same
      exact (ends'.not_mark (by decide)).elim
  | .more conj later, .more conj' later', rest, rest', ends, ends', same => by
      rw [Expr.text, Expr.text, List.append_assoc, List.append_assoc] at same
      obtain ⟨rfl, rests⟩ := conj.unambiguous conj' _ _ (.cons (by decide) _)
        (.cons (by decide) _) same
      obtain ⟨rfl, rfl⟩ := later.unambiguous later' rest rest' ends ends' (List.cons.inj rests).2
      exact ⟨rfl, rfl⟩

theorem Conj.unambiguous : ∀ (left right : Conj) (rest rest' : List Char),
    Follows [';', ')'] rest → Follows [';', ')'] rest' →
      left.text ++ rest = right.text ++ rest' → left = right ∧ rest = rest'
  | .last factor, .last factor', rest, rest', ends, ends', same => by
      obtain ⟨rfl, rfl⟩ := factor.unambiguous factor' rest rest' (ends.mono (by decide))
        (ends'.mono (by decide)) same
      exact ⟨rfl, rfl⟩
  | .last factor, .more factor' later', rest, rest', ends, ends', same => by
      rw [Conj.text, Conj.text, List.append_assoc] at same
      obtain ⟨-, rfl⟩ := factor.unambiguous factor' _ _ (ends.mono (by decide))
        (.cons (by decide) _) same
      exact (ends.not_mark (by decide)).elim
  | .more factor later, .last factor', rest, rest', ends, ends', same => by
      rw [Conj.text, Conj.text, List.append_assoc] at same
      obtain ⟨-, rfl⟩ := factor.unambiguous factor' _ _ (.cons (by decide) _)
        (ends'.mono (by decide)) same
      exact (ends'.not_mark (by decide)).elim
  | .more factor later, .more factor' later', rest, rest', ends, ends', same => by
      rw [Conj.text, Conj.text, List.append_assoc, List.append_assoc] at same
      obtain ⟨rfl, rests⟩ := factor.unambiguous factor' _ _ (.cons (by decide) _)
        (.cons (by decide) _) same
      obtain ⟨rfl, rfl⟩ := later.unambiguous later' rest rest' ends ends' (List.cons.inj rests).2
      exact ⟨rfl, rfl⟩

theorem Factor.unambiguous : ∀ (left right : Factor) (rest rest' : List Char),
    Follows [';', '&', ')'] rest → Follows [';', '&', ')'] rest' →
      left.text ++ rest = right.text ++ rest' → left = right ∧ rest = rest'
  | .leaf run, .leaf run', rest, rest', ends, ends', same => by
      obtain ⟨rfl, rfl⟩ := Run.unambiguous ends ends' same
      exact ⟨rfl, rfl⟩
  | .leaf run, .group inside, rest, rest', _, _, same => (Run.not_mark same rfl).elim
  | .leaf run, .negated inside, rest, rest', _, _, same => (Run.not_mark same rfl).elim
  | .group inside, .leaf run, rest, rest', _, _, same => (Run.not_mark same.symm rfl).elim
  | .negated inside, .leaf run, rest, rest', _, _, same => (Run.not_mark same.symm rfl).elim
  | .group inside, .negated inside', rest, rest', _, _, same => by
      exact absurd (List.cons.inj same).1 (by decide)
  | .negated inside, .group inside', rest, rest', _, _, same => by
      exact absurd (List.cons.inj same).1 (by decide)
  | .group inside, .group inside', rest, rest', _, _, same => by
      simp only [Factor.text, List.cons_append, List.append_assoc, List.cons.injEq,
        true_and] at same
      obtain ⟨rfl, rests⟩ := inside.unambiguous inside' _ _ (.cons (by decide) _)
        (.cons (by decide) _) same
      exact ⟨rfl, (List.cons.inj rests).2⟩
  | .negated inside, .negated inside', rest, rest', _, _, same => by
      simp only [Factor.text, List.cons_append, List.append_assoc, List.cons.injEq,
        true_and] at same
      obtain ⟨rfl, rests⟩ := inside.unambiguous inside' _ _ (.cons (by decide) _)
        (.cons (by decide) _) same
      exact ⟨rfl, (List.cons.inj rests).2⟩

end

/-- No text is read as two expressions. -/
theorem Expr.text_injective {left right : Expr} (same : left.text = right.text) :
    left = right :=
  (left.unambiguous right [] [] nofun nofun (by rw [same])).1

end PathQuery.Grammar
