import Ed2kServer.Text.Chars

namespace Ed2kServer.Keyword.Tokenizer

open Ed2kServer.Text.Chars

/-- FNV-1a in 32 bits, over the bytes of the token. -/
def tokenHash (token : Str) : TokenHash :=
  (utf8 token).foldl (fun h b => (h ^^^ b.toUInt32) * 0x01000193) 0x811c9dc5

def MIN_KEYWORD_LEN : Nat := 2

def COMMON_WORDS_SKIP : List Str :=
  ["the", "and", "for", "with", "from", "this", "that", "web", "www", "com", "net", "org"].map
    String.toList

def SEPARATORS : Str := "_-.,;()[]\x7b\x7d!?@#$%^&*+=/\\|<>\"'`~".toList

def isSeparator (U : Unicode) (c : Char) : Bool := U.isWhitespace c || SEPARATORS.contains c

/-- The letters from U+00C0 to U+024F without their accents; NUL leaves a letter alone. -/
def FOLD_LATIN : Str :=
  ("aaaaaaaceeeeiiiidnooooo\x00ouuuuytsaaaaaaaceeeeiiiidnooooo\x00ouuuuytyaaaaaaccccccccdddd" ++
    "eeeeeeeeeegggggggghhhhiiiiiiiiii\x00\x00jjkkkllllll\x00\x00llnnnnnn\x00\x00\x00oooooooor" ++
    "rrrrrssssssssttttttuuuuuuuuuuuuwwyyyzzzzzz\x00\x00\x00\x00\x00\x00\x00\x00\x00\x00\x00" ++
    "\x00\x00\x00\x00\x00e\x00\x00f\x00\x00\x00\x00\x00\x00\x00\x00\x00\x00\x00\x00\x00oo\x00" ++
    "\x00\x00\x00\x00\x00\x00\x00\x00\x00\x00\x00\x00uu\x00\x00\x00\x00\x00\x00\x00\x00\x00" ++
    "\x00\x00\x00\x00\x00\x00\x00\x00\x00\x00\x00\x00\x00\x00\x00\x00\x00\x00\x00aaiioouuuuuu" ++
    "uuuu\x00aaaa\x00\x00\x00\x00ggkkoooo\x00\x00j\x00\x00\x00gg\x00\x00nnaa\x00\x00\x00\x00a" ++
    "aaaeeeeiiiioooorrrruuuusstt\x00\x00hh\x00\x00\x00\x00\x00\x00aaeeooooooooyy\x00\x00\x00" ++
    "\x00\x00\x00\x00\x00\x00\x00\x00\x00\x00\x00\x00\x00\x00\x00\x00\x00\x00\x00\x00\x00\x00" ++
    "\x00\x00\x00").toList

/-- Combining marks are dropped, precomposed Latin letters lose their accent. -/
def foldChar (c : Char) : Option Char :=
  if 0x0300 ≤ c.toNat ∧ c.toNat ≤ 0x036F then none
  else if 0x00C0 ≤ c.toNat ∧ c.toNat < 0x0250 then
    match FOLD_LATIN[c.toNat - 0x00C0]? with
    | some b => if b ≠ '\x00' then some b else some c
    | none => some c
  else some c

def foldToken (U : Unicode) (raw : Str) : Str :=
  raw.flatMap (fun c => (foldChar c).elim [] U.toLowercase)

/-- The whole string on the footing of the index, separators kept. -/
def foldForMatch (U : Unicode) (s : Str) : Str :=
  if isAscii s then toAsciiLowercase s else foldToken U s

inductive RunClass
  | letter
  | digit
  | other
  deriving DecidableEq

def runClass (U : Unicode) (c : Char) : RunClass :=
  if U.isNumeric c then .digit else if U.isAlphabetic c then .letter else .other

def SUBTOKEN_MIN_LEN : Nat := 3

def SUBTOKEN_MAX_RUNS : Nat := 6

def isAsciiHexdigit (b : UInt8) : Bool :=
  (0x30 ≤ b && b ≤ 0x39) || (0x41 ≤ b && b ≤ 0x46) || (0x61 ≤ b && b ≤ 0x66)

/-- The runs of one class in a word and the pairs of neighbouring runs, where they are long
enough, shorter than the word and not common; a word that looks like an identifier has none. -/
def visitSubtokens (U : Unicode) (word : Str) : List Str :=
  let runs := word.splitBy (fun a b => runClass U a == runClass U b)
  let emit := fun (s : Str) => SUBTOKEN_MIN_LEN ≤ s.length ∧
    (utf8 s).length < (utf8 word).length ∧ s ∉ COMMON_WORDS_SKIP
  if 8 ≤ (utf8 word).length ∧ (utf8 word).all isAsciiHexdigit then []
  else if word.any (fun c => runClass U c == .other) then []
  else if SUBTOKEN_MAX_RUNS < runs.length ∨ runs.length < 2 then []
  else (runs ++ List.zipWith (· ++ ·) runs runs.tail).filter emit

def tokenizeInto (U : Unicode) (filename : Str) : List Str :=
  if isAscii filename then
    ((toAsciiLowercase filename).splitOnP (isSeparator U)).filter
      (fun tok => MIN_KEYWORD_LEN ≤ (utf8 tok).length ∧ tok ∉ COMMON_WORDS_SKIP)
  else
    ((filename.splitOnP (isSeparator U)).filter
      (fun raw => MIN_KEYWORD_LEN ≤ (utf8 raw).length)).map (foldToken U) |>.filter
      (fun lc => lc ≠ [] ∧ lc ∉ COMMON_WORDS_SKIP)

def tokenize (U : Unicode) (filename : Str) : List Str := tokenizeInto U filename

/-- What the index stores for a name: its whole tokens, and with `subtokens` their parts. -/
def indexTokensInto (U : Unicode) (filename : Str) (subtokens : Bool) : List Str :=
  (tokenizeInto U filename).flatMap
    (fun tok => if subtokens then tok :: visitSubtokens U tok else [tok])

/-- One search term as index keys; a lone wildcard and a term too short to be a token stay whole. -/
def tokenizeSearchTerm (U : Unicode) (term : Str) : List Str :=
  let trimmed := U.trim term
  if trimmed = ['*'] ∨ trimmed = ['*', '*'] then [trimmed]
  else if tokenize U trimmed = [] then
    if U.lowercase trimmed = [] then [] else [U.lowercase trimmed]
  else tokenize U trimmed

end Ed2kServer.Keyword.Tokenizer
