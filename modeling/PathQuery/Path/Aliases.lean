namespace PathQuery

/-! # Aliases

The named sources that several parts of a path share are joined once and referred
to by an alias afterwards.  The aliases of one path are kept by sourcekey.  A caller
may force the alias of a sourcekey; all others are minted, as the alias of the root
table with a number that counts up and passes over the forced ones.
-/

structure Aliases where
  root : String
  /-- The aliases in use, by sourcekey. -/
  bound : List (String × String)
  /-- The aliases that the caller wants, by sourcekey. -/
  forced : List (String × String)
  /-- The sourcekeys that more than one part of the path uses. -/
  reused : List String
  /-- The number of the alias that was minted last. -/
  lastIndex : Nat

namespace Aliases

def new (root : String) (forced : List (String × String)) (reused : List String) : Aliases where
  root := root
  bound := []
  forced := forced
  reused := reused
  lastIndex := 0

def get? (aliases : Aliases) (key : String) : Option String := aliases.bound.lookup key

def isReused (aliases : Aliases) (key : String) : Bool := aliases.reused.contains key

def forced? (aliases : Aliases) (key : String) : Option String := aliases.forced.lookup key

def isForced (aliases : Aliases) (key : String) : Bool := (aliases.forced? key).isSome

def needsAlias (aliases : Aliases) (key : String) : Bool :=
  aliases.isForced key || aliases.isReused key

def numbered (aliases : Aliases) (n : Nat) : String :=
  aliases.root ++ "_P" ++ toString n

/-- Some sourcekey is to have this alias. -/
def isTaken (aliases : Aliases) (name : String) : Bool :=
  aliases.forced.any fun entry => entry.2 == name

/-- The first number from `n` on whose alias is not forced, among `count` and one. -/
def freeFrom (aliases : Aliases) : Nat → Nat → Nat
  | 0, n => n
  | count + 1, n =>
    if aliases.isTaken (aliases.numbered n) then aliases.freeFrom count (n + 1) else n

/-- Mint an alias.  As many numbers are tried as there are forced aliases; if they
    are all taken then no other one is. -/
def mint (aliases : Aliases) : String × Aliases :=
  let n := aliases.freeFrom aliases.forced.length (aliases.lastIndex + 1)
  (aliases.numbered n, { aliases with lastIndex := n })

/-- Give a sourcekey an alias unless it has one; the alias that it has then. -/
def bind (aliases : Aliases) (key name : String) : String × Aliases :=
  match aliases.get? key with
  | some bound => (bound, aliases)
  | none => (name, { aliases with bound := aliases.bound ++ [(key, name)] })

/-- The alias of a sourcekey, on first use the one it is to have or a minted one. -/
def allocate (aliases : Aliases) (key : String) : String × Aliases :=
  match aliases.get? key with
  | some bound => (bound, aliases)
  | none =>
    match aliases.forced? key with
    | some name => aliases.bind key name
    | none =>
      let (name, aliases) := aliases.mint
      aliases.bind key name

end Aliases

end PathQuery
