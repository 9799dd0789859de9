import Ed2kServer.Filter.Check
import Ed2kServer.Text.ByteSlices

namespace Ed2kServer.Filter.Jargon

open Ed2kServer.Text.Chars Ed2kServer.Text.ByteSlices
open Ed2kServer.Filter.Check (isCombiningMark)

def SUBSTRING_MIN_CHARS : Nat := 6

def RIGHT_ANCHOR : Char := '$'

def SEPARATORS : List Char := [' ', '-', '_', '.']

def isWordChar (b : UInt8) : Bool :=
  48 ≤ b && b ≤ 57 || 65 ≤ b && b ≤ 90 || 97 ≤ b && b ≤ 122 || b == 95

/-- A letter of the Latin script, accents included. -/
def isLetterChar (U : Unicode) (c : Char) : Bool :=
  if c.toNat < 128 then c.isAlpha
  else (0xC0 ≤ c.toNat && c.toNat ≤ 0x24F || 0x1E00 ≤ c.toNat && c.toNat ≤ 0x1EFF) &&
    U.isAlphabetic c

def isWordCharAt (U : Unicode) (c : Char) : Bool := isLetterChar U c || c.isDigit || c == '_'

/-- The character before an offset, marks looked through; `none` outside is a panic. -/
def charBefore (s : Str) (pos : Nat) : Option (Option Char) :=
  (sliceTo pos s).map fun before => before.reverse.find? (!isCombiningMark ·)

def charAt (s : Str) (pos : Nat) : Option (Option Char) := (sliceFrom pos s).map List.head?

/-- What the character after a match must not be. -/
inductive RightRule
  | free
  | notLetter
  | notWordChar
  deriving DecidableEq

def edgeIsAsciiWord (b : Option UInt8) : Bool := b.any isWordChar

/-- The text of a term, and whether it asks for a boundary on its right. -/
def splitAnchor (term : Str) : Str × Bool :=
  match term.getLast? with
  | some c => if c = RIGHT_ANCHOR ∧ term.dropLast ≠ [] then (term.dropLast, true) else (term, false)
  | none => (term, false)

def boundaryFrom (s : Str) : Nat → Nat → Nat
  | 0, n => n
  | fuel + 1, n =>
    if n < (utf8 s).length ∧ sliceFrom n s = none then boundaryFrom s fuel (n + 1) else n

/-- The offset of the character after the one at an offset. -/
def nextCharBoundary (s : Str) (pos : Nat) : Nat := boundaryFrom s (utf8 s).length (pos + 1)

/-- `str::find`: the offset of the first occurrence. -/
def findStr (needle : Str) : Str → Option Nat
  | [] => if needle = [] then some 0 else none
  | c :: hay =>
    if needle.isPrefixOf (c :: hay) then some 0 else (findStr needle hay).map (c.utf8Size + ·)

def isSeparator (b : UInt8) : Bool := b == 32 || b == 45 || b == 95 || b == 46

/-- The walk of the two byte strings from one start: what is left of the first one. -/
def walk : List UInt8 → List UInt8 → Option (List UInt8)
  | hb, [] => some hb
  | hb, t :: tb =>
    if t = 32 then
      if (hb.takeWhile isSeparator).length = 0 then none else walk (hb.dropWhile isSeparator) tb
    else
      match hb with
      | b :: hb => if b = t then walk hb tb else none
      | [] => none

/-- The starts at which the first character stands, one after the other. -/
def flexibleFrom (hay term : Str) (first : Char) : Nat → Nat → Option (Option (Nat × Nat))
  | 0, _ => none
  | fuel + 1, start =>
    if start < (utf8 hay).length then do
      let rest ← sliceFrom start hay
      match findStr [first] rest with
      | none => return none
      | some p =>
        match walk ((utf8 hay).drop (start + p)) (utf8 term) with
        | some left => return some (start + p, (utf8 hay).length - left.length)
        | none => flexibleFrom hay term first fuel (nextCharBoundary hay (start + p))
    else return none

/-- Where the term begins and ends at or after an offset. -/
def findFlexible (hay term : Str) (start : Nat) : Option (Option (Nat × Nat)) :=
  if !term.contains ' ' || !isAscii term then do
    let rest ← sliceFrom start hay
    return (findStr term rest).map fun p => (start + p, start + p + (utf8 term).length)
  else flexibleFrom hay term (term.headD ' ') ((utf8 hay).length + 1) start

variable (U : Unicode)

def beforeOk (lowered : Str) (checkLeft : Bool) (pos : Nat) : Option Bool :=
  if checkLeft then (charBefore lowered pos).map fun c => !c.any (isLetterChar U) else some true

/-- May this character stand right after a match? -/
def mayFollow (right : RightRule) (next : Option Char) : Bool :=
  match right, next with
  | _, none => true
  | .free, some _ => true
  | .notLetter, some c => !isLetterChar U c && !isCombiningMark c
  | .notWordChar, some c => !isWordCharAt U c && !isCombiningMark c

def afterOk (lowered : Str) (right : RightRule) (checkRight : Bool) (stop : Nat) : Option Bool :=
  if checkRight then (charAt lowered stop).map (mayFollow U right) else some true

def containsFrom (lowered term : Str) (right : RightRule) : Nat → Nat → Option Bool
  | 0, _ => none
  | fuel + 1, start => do
    match ← findFlexible lowered term start with
    | none => return false
    | some (pos, stop) =>
      let before ← beforeOk U lowered (edgeIsAsciiWord (utf8 term).head?) pos
      let after ← afterOk U lowered right
        (right != .free && edgeIsAsciiWord (utf8 term).getLast?) stop
      if before && after then return true
      else containsFrom lowered term right fuel (nextCharBoundary lowered pos)

/-- Does the term occur with its boundaries? `none` is a panic or a search that does not end. -/
def containsBounded (lowered term : Str) (right : RightRule) : Option Bool :=
  containsFrom U lowered term right ((utf8 lowered).length + 2) 0

end Ed2kServer.Filter.Jargon
