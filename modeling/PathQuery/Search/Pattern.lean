import PathQuery.Text.Basic

namespace PathQuery.Search

/-! # Search terms

A search term is a list of words and of phrases in double quotes.  The phrases
come first, then the words outside them; a quote without a partner opens a phrase
that goes on to the end of the term.

Each of these tokens is searched for by a regular expression.  Every special character
of the token but the bar is escaped, so the token is found as it is written.  A number is
found as a number: no digit or point may come before it, zeros may, and an integer
may not go on with a digit.
-/

/-- The phrases of a text, and the text with a blank in place of each.  The first
    argument holds the phrase that is open, last character first. -/
def cutPhrases : Option (List Char) → List Char → List (List Char) × List Char
  | none, [] => ([], [])
  | some phrase, [] => ([phrase.reverse], [' '])
  | none, c :: rest =>
    if c = '"' then cutPhrases (some []) rest
    else
      let (phrases, outside) := cutPhrases none rest
      (phrases, c :: outside)
  | some phrase, c :: rest =>
    if c = '"' then
      let (phrases, outside) := cutPhrases none rest
      (phrase.reverse :: phrases, ' ' :: outside)
    else cutPhrases (some (c :: phrase)) rest

/-- The tokens of a term: the phrases that are not empty, then the words. -/
def tokens (term : String) : List String :=
  let (phrases, outside) := cutPhrases none term.toList
  (phrases.filter (fun phrase => !phrase.isEmpty) ++ Text.words outside).map String.ofList

/-- The characters that a backslash turns into literal ones. -/
def isSpecial (c : Char) : Bool := "-[]/\x7b\x7d()*+?.\\^$".toList.contains c

def escape (token : List Char) : List Char :=
  token.flatMap fun c => if isSpecial c then ['\\', c] else [c]

def isInteger (token : List Char) : Bool := !token.isEmpty && token.all Char.isDigit

/-- Digits around one point, on at least one side of it. -/
def isDecimal (token : List Char) : Bool :=
  match token.dropWhile Char.isDigit with
  | '.' :: fraction =>
    fraction.all Char.isDigit && !((token.takeWhile Char.isDigit).isEmpty && fraction.isEmpty)
  | _ => false

/-- What may stand before a number: nothing, or anything that ends in neither a
    digit nor a point, and then zeros. -/
def numberStart : String := "^(.*[^0-9.])?0*"

/-- What may stand after an integer: nothing, or anything but a digit. -/
def integerEnd : String := "([^0-9].*|$)"

def pattern (token : String) : String :=
  let escaped := String.ofList (escape token.toList)
  if isInteger token.toList then numberStart ++ escaped ++ integerEnd
  else if isDecimal token.toList then numberStart ++ escaped
  else escaped

def encodedPatterns (term : String) : List String :=
  (tokens term).map fun token => Text.percentEncode (pattern token)

/-- The clause that every token of a term matches a column, which is given as it
    stands in a path; none if the term has no tokens. -/
def termClause (term column : String) (quantified : Bool) : Option String :=
  match encodedPatterns term with
  | [] => none
  | patterns =>
    if quantified && patterns.length > 1 then
      some (column ++ "::ciregexp::all(" ++ ",".intercalate patterns ++ ")")
    else
      some ("&".intercalate (patterns.map fun pattern => column ++ "::ciregexp::" ++ pattern))

end PathQuery.Search
