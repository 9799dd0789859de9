import Ed2kServer.Basic

namespace Ed2kServer.Text.Chars

/-- The character tables of the standard library, as far as the server asks them. -/
structure Unicode where
  isWhitespace : Char → Bool
  isAlphabetic : Char → Bool
  isNumeric : Char → Bool
  /-- `char::to_lowercase`, of one to three characters. -/
  toLowercase : Char → Str
  cased : Char → Bool
  caseIgnorable : Char → Bool
  isWhitespace_space : isWhitespace ' ' = true
  toLowercase_ne_nil : ∀ c, toLowercase c ≠ []
  star_of_mem_toLowercase : ∀ c, '*' ∈ toLowercase c → c = '*'

/-- `char::is_alphanumeric`. -/
def Unicode.isAlphanumeric (U : Unicode) (c : Char) : Bool := U.isAlphabetic c || U.isNumeric c

def Unicode.caseIgnorableThenCased (U : Unicode) (s : Str) : Bool :=
  match s.dropWhile U.caseIgnorable with
  | c :: _ => U.cased c
  | [] => false

/-- The lower case of what follows `before`, which is reversed: a capital sigma that ends a word
has a form of its own. -/
def Unicode.lowercaseFrom (U : Unicode) (before : Str) : Str → Str
  | [] => []
  | c :: rest =>
    (if c = 'Σ' then
      if U.caseIgnorableThenCased before && !U.caseIgnorableThenCased rest then ['ς'] else ['σ']
    else U.toLowercase c) ++ U.lowercaseFrom (c :: before) rest

/-- `str::to_lowercase`. -/
def Unicode.lowercase (U : Unicode) (s : Str) : Str := U.lowercaseFrom [] s

/-- `str::trim`. -/
def Unicode.trim (U : Unicode) (s : Str) : Str :=
  ((s.dropWhile U.isWhitespace).reverse.dropWhile U.isWhitespace).reverse

/-- `str::split_whitespace`: the maximal runs of other characters. -/
def Unicode.splitWhitespace (U : Unicode) (s : Str) : List Str :=
  (s.splitOnP U.isWhitespace).filter (· ≠ [])

def isAscii (s : Str) : Bool := s.all (fun c => c.toNat < 128)

/-- `str::to_ascii_lowercase`. -/
def toAsciiLowercase (s : Str) : Str := s.map Char.toLower

theorem eq_star_of_toLower {c : Char} (h : '*' = c.toLower) : c = '*' := by
  rw [Char.toLower] at h
  split at h
  · rename_i hup
    have hval := congrArg (fun d : Char => d.val.toNat) h
    have hlo := UInt32.le_iff_toNat_le.mp hup.1
    have hhi := UInt32.le_iff_toNat_le.mp hup.2
    simp only [UInt32.toNat_add] at hval
    simp at hval hlo hhi
    omega
  · exact h.symm

/-- The tables on ASCII and the Kelvin sign, whose lower case is a shorter letter. -/
def basicLatin : Unicode where
  isWhitespace c := c ∈ [' ', '\t', '\n', '\x0b', '\x0c', '\r']
  isAlphabetic c := c.isAlpha || c == '\u212a'
  isNumeric := Char.isDigit
  toLowercase c := if c = '\u212a' then ['k'] else [c.toLower]
  cased c := c.isAlpha || c == '\u212a'
  caseIgnorable c := c ∈ ['\'', '.', ':', '^', '`']
  isWhitespace_space := by decide
  toLowercase_ne_nil c := by split <;> simp
  star_of_mem_toLowercase c := by
    split
    · simp
    · exact fun h => eq_star_of_toLower (List.mem_singleton.mp h)

end Ed2kServer.Text.Chars
