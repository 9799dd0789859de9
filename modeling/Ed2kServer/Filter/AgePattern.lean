import Ed2kServer.Filter.Check
import Ed2kServer.Text.Cut

namespace Ed2kServer.Filter.AgePattern

open Ed2kServer.Text.Chars Ed2kServer.Text.ByteSlices Ed2kServer.Text.Cut Ed2kServer.Filter.Check

def MIN_AGE : Nat := 1

/-- The year units, in the order in which they are tried. -/
def SUFFIXES : List String :=
  ["yo", "y.o", "y.o.", "yr", "yrs", "year", "years", "años", "ano", "anos", "an\u0303os",
    "an\u0303o", "aã±os", "aã±o", "aãâ±os", "aã£â±os", "aã\u0083â±os", "aninhos", "añitos",
    "letnia", "letni", "letech", "letý", "leta", "jahr", "jährig", "ans", "anni", "jaar", "år",
    "yop", "jahrige", "лет", "года", "год", "歳", "才", "세", "歲", "岁"]

/-- The units that a span of time or a count may have too. -/
def SPELLED : List String :=
  ["year", "years", "año", "años", "ano", "anos", "jahr", "лет", "года", "год", "an\u0303os",
    "an\u0303o", "aã±os", "aã±o", "aãâ±os", "aã£â±os", "aã\u0083â±os", "aninhos", "añitos", "ans",
    "anni", "jaar", "år"]

def AFTER : List String :=
  ["ago", "назад", "temu", "前", "dry spell", "later", "apart", "anniversary", "reunion", "reunión",
    "après", "apres", "plus tard", "dopo", "geleden", "después", "despues", "senare", "sedan"]

def BEFORE : List String := ["after", "spanning"]

def ANNIVERSARY : List String :=
  ["annivers", "anivers", "jubil", "jahrestag", "годовщин", "юбиле"]

def ANNIVERSARY_LOOKBACK : Nat := 32

def ELAPSED_BEFORE : List String := ["hace", "faz", "há"]

def ELAPSED_LOOKBACK : Nat := 20

def SPANISH_YO_FOLLOWERS : List String :=
  ["soy", "no", "me", "te", "quiero", "quería", "queria", "qriero", "prefiero", "tengo", "voy",
    "vivo", "sali", "salí", "canto", "estoy", "puedo", "pienso", "creo", "nací", "naci", "amo",
    "sigo", "vengo", "bajo", "pierdo", "enamoré", "enamore", "pido", "también", "tambien",
    "quisiera", "diré", "dire", "seré", "sere", "quise", "se", "que", "ya", "sé", "sin", "llevo",
    "llevaba", "canté", "cante", "hice", "fui"]

def UNPAIRED_EXEMPT_EXT : List String :=
  ["mp3", "wma", "wav", "flac", "m4a", "ogg", "opus", "ape", "wv", "aac", "ac3", "mka", "mid",
    "midi", "aiff", "aif", "epub", "pdf", "mobi", "azw", "azw3", "djvu", "doc", "docx", "rtf",
    "odt", "xml", "mtf", "bin", "nfo", "m3u", "m3u8", "sfv", "cue"]

def isAsciiAlphanumeric (b : UInt8) : Bool := (Char.ofNat b.toNat).isAlphanum

section Scanner

variable (U : Unicode)

def trimStart (s : Str) : Str := s.dropWhile U.isWhitespace

def trimEnd (s : Str) : Str := (s.reverse.dropWhile U.isWhitespace).reverse

/-- The last `n` characters. -/
def lastChars (n : Nat) (s : Str) : Str := (s.reverse.take n).reverse

/-- Is a spelled unit that of a span of time or of a count? `after` is what follows it, in lower
case. -/
def isSpan (before after : Str) : Bool :=
  let tail := trimStart U after
  let pre := trimEnd U before
  let prevWord := toAsciiLowercase
    ((pre.reverse.dropWhile fun c => !c.isAlpha).takeWhile Char.isAlpha).reverse
  let lookback := U.lowercase (lastChars ANNIVERSARY_LOOKBACK pre)
  let elapsedWindow := U.lowercase (lastChars ELAPSED_LOOKBACK pre)
  AFTER.any (fun w => w.toList.isPrefixOf tail) || BEFORE.any (fun w => w.toList == prevWord) ||
    ANNIVERSARY.any (fun w => decide (w.toList <:+: lookback)) ||
    (elapsedWindow.splitOnP fun c => !U.isAlphabetic c).any
      (fun word => ELAPSED_BEFORE.any fun w => w.toList == word) ||
    tail.head?.any Char.isDigit

/-- Is there no ASCII letter or digit `n` bytes into `rest`? Nothing, a panic, past the end. -/
def endsUnit (rest : Str) (n : Nat) : Option Bool :=
  if n = (utf8 rest).length then some true
  else ((utf8 rest)[n]?).map fun b => !isAsciiAlphanumeric b

/-- The first of the units that `rest` begins with. -/
def matchSuffix (before rest : Str) : List String → Option (Option String)
  | [] => some none
  | suffix :: suffixes =>
    if suffix.toList.isPrefixOf (U.lowercase rest) then
      (endsUnit rest (utf8 suffix.toList).length).bind fun ends =>
        if ends && !(SPELLED.contains suffix &&
          isSpan U before ((U.lowercase rest).drop suffix.toList.length)) then some (some suffix)
        else matchSuffix before rest suffixes
    else matchSuffix before rest suffixes

/-- Is the "yo" before `after` the Spanish pronoun? -/
def spanishPronounYo (before after : Str) : Bool :=
  let t := before.reverse.dropWhile fun c => c == ' ' || c == '\t'
  let afterArtistDash := t.head?.any (fun c => c == '-' || c == '\u2013' || c == '\u2014') &&
    t.tail.head?.any fun c => c == ' ' || c == '\t'
  let onlyNumbering := before.all fun c => c.isDigit || !U.isAlphanumeric c
  let next := (after.dropWhile fun c => c == ' ' || c == '.' || c == '-' || c == '_').takeWhile
    U.isAlphabetic
  (onlyNumbering || afterArtistDash) &&
    SPANISH_YO_FOLLOWERS.any fun w => w.toList == U.lowercase next

def isBareY (after : Str) : Bool :=
  after.head?.any (fun c => c == 'y' || c == 'Y') && !after.tail.head?.any Char.isAlphanum

def reason (age : Nat) (suffix : String) : String :=
  "age " ++ toString age ++ " (" ++ suffix ++ ")"

/-- The unit that `rest` begins with, if `accept` allows it. -/
def trySuffix (accept : Nat → String → Nat → Option Bool) (before : Str) (age : Nat) (rest : Str) :
    Option (Option String) :=
  (matchSuffix U before rest SUFFIXES).bind fun matched =>
    matched.elim (some none) fun suffix =>
      (if suffix == "yo" then (sliceFrom 2 rest).map (spanishPronounYo U before)
        else some false).bind fun pronoun =>
        if pronoun then some none
        else (accept age suffix (utf8 before).length).map fun found =>
          if found then some (reason age suffix) else none

/-- The unit behind a number, if `accept` allows it. -/
def tryToken (accept : Nat → String → Nat → Option Bool) (before : Str) (age : Nat) (after : Str) :
    Option (Option String) :=
  (if isBareY after then accept age "bare y" (utf8 before).length else some false).bind fun found =>
    if found then some (some (reason age "bare y"))
    else trySuffix U accept before age (after.dropWhile (· == ' '))

/-- The digits of a number that begins with `c`, two at most. -/
def numberOf (c : Char) (rest : Str) : Str := c :: (rest.take 1).takeWhile Char.isDigit

def ageOf (digits : Str) : Nat := digits.foldl (fun age d => age * 10 + (d.toNat - 48)) 0

/-- The scan after `before`; the digits of a number that was read are skipped. -/
def scanFrom (accept : Nat → String → Nat → Option Bool) :
    Str → Nat → Str → Option (Option String)
  | _, _, [] => some none
  | before, skip + 1, c :: rest => scanFrom accept (before ++ [c]) skip rest
  | before, 0, c :: rest =>
    if !c.isDigit || before.getLast?.any Char.isAlphanum then scanFrom accept (before ++ [c]) 0 rest
    else
      let digits := numberOf c rest
      let age := ageOf digits
      let next := scanFrom accept (before ++ [c]) (digits.length - 1) rest
      if MIN_AGE ≤ age ∧ age ≤ 17 then
        (tryToken U accept before age ((c :: rest).drop digits.length)).bind fun found =>
          found.elim next fun r => some (some r)
      else next

/-- The first age that `accept` allows; nothing is a panic. -/
def scanMinorAgeToken (s : Str) (accept : Nat → String → Nat → Option Bool) :
    Option (Option String) := scanFrom U accept [] 0 s

end Scanner

/-- Is there a guard word around a byte offset of the lower case? Nothing is a panic: of a slice
past the end or inside a character. -/
def ageIsGuarded (lowered : Str) (pos : Nat) (t : Layer2Terms) : Option Bool :=
  let lo := pos - t.ageGuardWindow
  let hi := min ((pos + t.ageGuardWindow) % 2 ^ 64) (utf8 lowered).length
  let lo := ((List.range' lo (pos + 1 - lo)).find? (isCharBoundary lowered)).getD pos
  let hi := ((List.range' pos (hi + 1 - pos)).reverse.find? (isCharBoundary lowered)).getD pos
  ((sliceTo hi lowered).bind (sliceFrom lo)).map fun window =>
    t.ageGuard.any fun w => decide (w <:+: window)

def UNPAIRED_UNITS : List String := ["yo", "y.o", "yr", "yrs", "bare y"]

/-- What the unpaired rule takes. -/
def unpaired (lowered : Str) (t : Layer2Terms) (age : Nat) (suffix : String) (pos : Nat) :
    Option Bool :=
  if age ≤ t.unpairedAgeMax.toNat ∧ suffix ∈ UNPAIRED_UNITS then
    (ageIsGuarded lowered pos t).map fun guarded => !guarded
  else some false

def extension (U : Unicode) (name : Str) : Option Str :=
  let name := trimEnd U name
  if '.' ∈ name then
    let ext := (name.reverse.takeWhile (· ≠ '.')).reverse
    if ext ≠ [] ∧ (utf8 ext).length ≤ 5 ∧ ext.all Char.isAlphanum then
      some (toAsciiLowercase ext)
    else none
  else none

def isExempt (U : Unicode) (name : Str) : Bool :=
  (extension U name).any fun ext => UNPAIRED_EXEMPT_EXT.any fun e => e.toList == ext

def containsUnpairedMinorAge (U : Unicode) (original lowered : Str) (t : Layer2Terms) :
    Option (Option String) :=
  if isExempt U original then some none
  else (scanMinorAgeToken U original (unpaired lowered t)).map fun found =>
    found.map (· ++ " unpaired")

end Ed2kServer.Filter.AgePattern
