import Ed2kServer.Filter.Check
import Ed2kServer.Text.Lines

namespace Ed2kServer.Filter.Layer2File

open Ed2kServer.Filter.Check Ed2kServer.Text.Chars
open Ed2kServer.Text.Lines (lines parseUnsigned splitFirst trim)

inductive Section
  | sexSubstring
  | sexPrefix
  | sexBounded
  | exceptions
  | termExceptions
  | minorCjk
  | minorLatin
  | minorRu
  | sexRu
  | ageGuard
  | zooAnimals
  | zooActs
  | zooGuard
  | limits
  deriving DecidableEq

def sectionNames : List (Str × Section) :=
  [("sex.substring".toList, .sexSubstring), ("sex.prefix".toList, .sexPrefix),
   ("sex.bounded".toList, .sexBounded), ("exceptions".toList, .exceptions),
   ("term.exceptions".toList, .termExceptions), ("minor.cjk".toList, .minorCjk),
   ("minor.latin".toList, .minorLatin), ("minor.ru".toList, .minorRu), ("sex.ru".toList, .sexRu),
   ("age.guard".toList, .ageGuard), ("zoo.animals".toList, .zooAnimals),
   ("zoo.acts".toList, .zooActs), ("zoo.guard".toList, .zooGuard), ("limits".toList, .limits)]

def sectionOf (name : Str) : Option Section :=
  (sectionNames.find? fun row => row.1 == name).map Prod.snd

inductive ParseError
  | unknownSection (line : Nat) (name : Str)
  | beforeSection (line : Nat)
  | noValue (line : Nat)
  | unpairedAgeMax (line : Nat)
  | unpairedAgeMaxAbove (line : Nat)
  | ageGuardWindow (line : Nat)
  | unknownLimit (line : Nat) (key : Str)
  | noSections
  deriving DecidableEq

def list (t : Layer2Terms) : Section → List Str
  | .sexSubstring => t.sexSubstring
  | .sexPrefix => t.sexPrefix
  | .sexBounded => t.sexBounded
  | .exceptions => t.exceptions
  | .termExceptions => t.termExceptions
  | .minorCjk => t.minorCjk
  | .minorLatin => t.minorLatin
  | .minorRu => t.minorRu
  | .sexRu => t.sexRu
  | .ageGuard => t.ageGuard
  | .zooAnimals => t.zooAnimals
  | .zooActs => t.zooActs
  | .zooGuard => t.zooGuard
  | .limits => []

def setList (t : Layer2Terms) (l : List Str) : Section → Layer2Terms
  | .sexSubstring => { t with sexSubstring := l }
  | .sexPrefix => { t with sexPrefix := l }
  | .sexBounded => { t with sexBounded := l }
  | .exceptions => { t with exceptions := l }
  | .termExceptions => { t with termExceptions := l }
  | .minorCjk => { t with minorCjk := l }
  | .minorLatin => { t with minorLatin := l }
  | .minorRu => { t with minorRu := l }
  | .sexRu => { t with sexRu := l }
  | .ageGuard => { t with ageGuard := l }
  | .zooAnimals => { t with zooAnimals := l }
  | .zooActs => { t with zooActs := l }
  | .zooGuard => { t with zooGuard := l }
  | .limits => t

/-- What is read so far: the terms, the section of the next line and the sections named. -/
structure Reading where
  terms : Layer2Terms
  current : Option Section
  seen : List Section

def isSkipped (line : Str) : Bool :=
  line.isEmpty || line.head? == some '#' || line.head? == some ';'

/-- The name in a line of the form `[name]`. -/
def headerOf (line : Str) : Option Str :=
  match line with
  | '[' :: rest => if rest.getLast? = some ']' then some (trim rest.dropLast) else none
  | _ => none

/-- The entry of a line, without its comment. -/
def entryOf (line : Str) : Option Str :=
  let entry :=
    match splitFirst [' ', ';'] line with
    | some (e, _) => trim e
    | none => line
  if entry.isEmpty then none else some entry

def parseLimit (t : Layer2Terms) (lineno : Nat) (line : Str) : Except ParseError Layer2Terms :=
  match splitFirst ['='] line with
  | none => .error (.noValue lineno)
  | some (k, v) =>
    if trim k = "unpaired_age_max".toList then
      match parseUnsigned (2 ^ 32 - 1) (trim v) with
      | none => .error (.unpairedAgeMax lineno)
      | some n =>
        if 17 < n then .error (.unpairedAgeMaxAbove lineno)
        else .ok { t with unpairedAgeMax := UInt32.ofNat n }
    else if trim k = "age_guard_window".toList then
      match parseUnsigned (2 ^ 64 - 1) (trim v) with
      | none => .error (.ageGuardWindow lineno)
      | some n => .ok { t with ageGuardWindow := n }
    else .error (.unknownLimit lineno (trim k))

section Parser

variable (U : Unicode)

/-- One line that is neither empty nor a comment. -/
def parseLine (r : Reading) (lineno : Nat) (line : Str) : Except ParseError Reading :=
  match headerOf line with
  | some name =>
    match sectionOf (toAsciiLowercase name) with
    | some sec => .ok { r with current := some sec, seen := sec :: r.seen }
    | none => .error (.unknownSection lineno (toAsciiLowercase name))
  | none =>
    match r.current with
    | none => .error (.beforeSection lineno)
    | some .limits => (parseLimit r.terms lineno line).map fun t => { r with terms := t }
    | some sec =>
      match entryOf line with
      | none => .ok r
      | some entry =>
        .ok { r with terms := setList r.terms (list r.terms sec ++ [U.lowercase entry]) sec }

def parseLines (r : Reading) (lineno : Nat) : List Str → Except ParseError Reading
  | [] => .ok r
  | raw :: rest =>
    if isSkipped (trim raw) then parseLines r (lineno + 1) rest
    else (parseLine U r lineno (trim raw)).bind fun r => parseLines r (lineno + 1) rest

/-- The lists of the sections that the file does not name. -/
def fallBack (d : Layer2Terms) (seen : List Section) (t : Layer2Terms) : List Section → Layer2Terms
  | [] => t
  | sec :: rest =>
    fallBack d seen (if sec ∈ seen then t else setList t (list d sec) sec) rest

/-- Before the first line: empty lists, and the limits of the default. -/
def start (d : Layer2Terms) : Reading where
  terms :=
    { sexSubstring := [], sexPrefix := [], sexBounded := [], exceptions := [], termExceptions := []
      minorCjk := [], minorLatin := [], minorRu := [], sexRu := [], ageGuard := []
      zooAnimals := [], zooActs := [], zooGuard := []
      unpairedAgeMax := d.unpairedAgeMax, ageGuardWindow := d.ageGuardWindow }
  current := none
  seen := []

def parse (d : Layer2Terms) (text : Str) : Except ParseError Layer2Terms :=
  (parseLines U (start d) 1 (lines text)).bind fun r =>
    if r.seen = [] then .error .noSections
    else .ok (fallBack d r.seen r.terms (sectionNames.map Prod.snd))

end Parser

/-- The entries of a section in the file, as they are written, from a line of a section on. -/
def entriesFrom (sec : Section) (current : Option Section) : List Str → List Str
  | [] => []
  | raw :: rest =>
    if isSkipped (trim raw) then entriesFrom sec current rest
    else
      match headerOf (trim raw) with
      | some name => entriesFrom sec (sectionOf (toAsciiLowercase name)) rest
      | none =>
        if current = some sec then
          (entryOf (trim raw)).toList ++ entriesFrom sec current rest
        else entriesFrom sec current rest

def entries (sec : Section) (text : Str) : List Str := entriesFrom sec none (lines text)

section Lists

variable {U : Unicode} {sec : Section}

end Lists

end Ed2kServer.Filter.Layer2File
