import Portico.Lib.Bytes

/-!
# Statements: boundaries

A statement's text is scanned for where it begins and ends, and for the word that says what it is. Quotes
and comments may hold terminators, one terminator after it is not a script, and what is left of the text
without comments around it is prepared. Texts are bytes.

## Main definitions

* `describeStatement`: what the scan makes of a text
* `Shape.retain`, `Shape.invalidates`: a statement is kept, or makes those that are kept stale
-/

namespace Portico.DbWork

open Bytes

def statementCacheBudget : ℤ := 512 * 1024
def statementCacheMaxBudget : ℤ := 4 * 1024 * 1024
def statementCacheOverhead : ℤ := 8 * 1024

/-- What is known of a statement's text. The command is empty before a word is met. -/
structure Shape where
  sql : List UInt8
  command : List UInt8
  single : Bool
  temporary : Bool
  textBytes : ℕ
deriving DecidableEq, Repr

/-! ## The scan -/

def isBlank (b : UInt8) : Bool := b = 32 || b = 9 || b = 13 || b = 10 || b = 12

def startsWord (b : UInt8) : Bool := 97 ≤ b && b ≤ 122 || 65 ≤ b && b ≤ 90 || b = 95

def inWord (b : UInt8) : Bool := startsWord b || 48 ≤ b && b ≤ 57

/-- What follows the end of a block comment. -/
def afterComment : List UInt8 → List UInt8
  | [] => []
  | [_] => []
  | b :: c :: rest => if b = 42 ∧ c = 47 then rest else afterComment (c :: rest)

/-- A bracket is closed by another, and a quote by itself. -/
def closingOf (b : UInt8) : UInt8 := if b = 91 then 93 else b

/-- What is inside a quote and what follows it, if it is closed. A doubled quote is inside, but a
bracket isn't doubled. -/
def quoted (closing : UInt8) : List UInt8 → List UInt8 → Option (List UInt8 × List UInt8)
  | _, [] => none
  | content, [b] => if b = closing then some (content, []) else none
  | content, b :: c :: rest =>
    if b = closing then
      if closing ≠ 93 ∧ c = closing then quoted closing (content ++ [b, c]) rest
      else some (content, c :: rest)
    else quoted closing (content ++ [b]) (c :: rest)

def isTemp (word : List UInt8) : Bool := word.map lower = ascii "temp"

def upper (b : UInt8) : UInt8 := if 97 ≤ b && b ≤ 122 then b - 32 else b

/-- A scan on its way: the text from the first token on and up to the end of the last one. -/
structure Scan where
  before : List UInt8
  token : List UInt8
  gap : List UInt8
  rest : List UInt8
  terminated : Bool
  command : List UInt8
  temporary : Bool
deriving DecidableEq, Repr

namespace Scan

variable (s : Scan)

/-- What lies between tokens is passed over. -/
def skip (rest : List UInt8) : Scan :=
  { s with gap := s.gap ++ s.rest.take (s.rest.length - rest.length), rest }

/-- A token is taken with what lies before it. -/
def take (rest : List UInt8) : Scan :=
  let taken := s.rest.take (s.rest.length - rest.length)
  if s.token = [] then { s with before := s.before ++ s.gap, token := taken, gap := [], rest }
  else { s with token := s.token ++ s.gap ++ taken, gap := [], rest }

/-- The first word is the command, if it is short. -/
def word (w : List UInt8) (rest : List UInt8) : Scan :=
  let s := s.take rest
  { s with
    command := if s.command = [] then if w.length ≤ 7 then w.map upper else ascii "?" else s.command
    temporary := s.temporary || isTemp w }

/-- One turn of the scan: what lies between tokens, or a token. There is no next turn where the text is
more than one statement. -/
def turn (ch : UInt8) (rest : List UInt8) : Option Scan :=
  if isBlank ch then some (s.skip rest)
  else if ch = 45 ∧ rest.head? = some 45 then
    some (s.skip (rest.tail.dropWhile fun b => b ≠ 10 && b ≠ 13))
  else if ch = 47 ∧ rest.head? = some 42 then some (s.skip (afterComment rest.tail))
  else if ch = 59 then some { s.skip rest with terminated := true }
  else if s.terminated then none
  else if ch = 39 ∨ ch = 34 ∨ ch = 96 ∨ ch = 91 then
    (quoted (closingOf ch) [] rest).map fun (content, rest) =>
      { s.take rest with temporary := s.temporary || (ch ≠ 39 && isTemp content) }
  else if startsWord ch then
    some (s.word (ch :: rest.takeWhile inWord) (rest.dropWhile inWord))
  else some (s.take rest)

/-- The scan, for at most so many turns, and whether the text is one statement. -/
def run : ℕ → Scan → Scan × Bool
  | 0, s => (s, true)
  | n + 1, s =>
    match s.rest with
    | [] => (s, true)
    | ch :: rest =>
      match s.turn ch rest with
      | none => (s, false)
      | some s' => run n s'

/-- The scan before its first turn. -/
def start (query : List UInt8) : Scan where
  before := []
  token := []
  gap := []
  rest := query
  terminated := false
  command := []
  temporary := false

end Scan

/-- **The shape of a statement.** -/
def describeStatement (query : List UInt8) : Shape :=
  let (s, single) := Scan.run query.length (Scan.start query)
  { sql := if single then s.token else []
    command := s.command
    single
    temporary := s.temporary
    textBytes := query.length }

namespace Shape

variable (s : Shape)

def ordinary : Bool :=
  s.command ∈ ["SELECT", "WITH", "INSERT", "UPDATE", "DELETE", "REPLACE"].map ascii

/-- A statement is kept for reuse. -/
def retain : Bool :=
  s.single && s.ordinary && !s.temporary &&
    s.textBytes ≤ (statementCacheBudget - statementCacheOverhead) / 8

/-- A statement makes those that are kept stale. -/
def invalidates : Bool :=
  if !s.single || s.temporary then true
  else if s.ordinary || s.command = ascii "EXPLAIN" then false
  else true

end Shape

/-! ## What is prepared -/

variable {l rest content : List UInt8} {b : UInt8} {s s' : Scan}

namespace Scan

end Scan

end Portico.DbWork
