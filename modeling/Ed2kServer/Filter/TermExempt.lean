import Ed2kServer.Filter.Layer2File
import Ed2kServer.Filter.Nfc

namespace Ed2kServer.Filter.TermExempt

open Ed2kServer.Lib.SlotReads Ed2kServer.Text.Chars Ed2kServer.Filter.Check
open Ed2kServer.Slab.Record

/-- The matchers with the server's own table of composed letters. -/
def matchers (matchesTerms : Str → List Str → Option Str)
    (matchesLayer2 : Str → Str → Layer2Terms → Option Str) : Matchers :=
  ⟨Nfc.compose, matchesTerms, matchesLayer2⟩

def composed (s : Str) : Str := composeLatin (matchers (fun _ _ => none) fun _ _ _ => none) s

/-- The final sigma is a sigma. -/
def sigma (c : Char) : Char := if c = 'ς' then 'σ' else c

/-- The runs of letters and digits in a text whose marks are left out. -/
def runs (U : Unicode) (s : Str) : List Str :=
  ((s.filter fun c => !isCombiningMark c).splitOnP fun c => !U.isAlphanumeric c).filter (· ≠ [])

/-- The words of a text, in any letter case, with composed or combining accents, and whatever stands
between them. -/
def words (U : Unicode) (s : Str) : List Str :=
  (runs U (composed s)).map fun run => (run.flatMap U.toLowercase).map sigma

section Separators

variable {U : Unicode}

end Separators

section Containing

variable {U : Unicode}

end Containing

/-- What the character tables say of the letters here: a lower case has at most two characters, the
sigmas are letters and no other letter's lower case holds one, and a dash is no letter. -/
structure Letters (U : Unicode) : Prop where
  length_toLowercase : ∀ c, (U.toLowercase c).length ≤ 2
  capital_sigma : U.toLowercase 'Σ' = ['σ']
  small_sigma : U.toLowercase 'σ' = ['σ']
  final_sigma : U.toLowercase 'ς' = ['ς']
  sigma_of_mem : ∀ c, 'σ' ∈ U.toLowercase c ∨ 'ς' ∈ U.toLowercase c → c = 'Σ' ∨ c = 'σ' ∨ c = 'ς'
  isAlphanumeric_sigma : ∀ c, c = 'Σ' ∨ c = 'σ' ∨ c = 'ς' → U.isAlphanumeric c = true
  isAlphanumeric_dash : U.isAlphanumeric '—' = false

section Lengths

variable {U : Unicode}

/-- The length of a text whose characters are put in lower case one by one. -/
def weight (U : Unicode) (s : Str) : Nat := (s.map fun c => (U.toLowercase c).length).sum

theorem weight_cons (c : Char) (s : Str) :
    weight U (c :: s) = (U.toLowercase c).length + weight U s := by
  rw [weight, List.map_cons, List.sum_cons]
  rfl

theorem length_lowercaseFrom (hU : Letters U) (before s : Str) :
    (U.lowercaseFrom before s).length = weight U s := by
  induction s generalizing before with
  | nil => rfl
  | cons c s ih =>
    rw [Unicode.lowercaseFrom, List.length_append, ih, weight_cons]
    by_cases hc : c = 'Σ'
    · rw [if_pos hc, hc, hU.capital_sigma]
      split
      · rfl
      · rfl
    · rw [if_neg hc]

end Lengths

section Sigmas

variable {U : Unicode}

def swap (c : Char) : Char := if c = 'ς' then 'σ' else if c = 'σ' then 'ς' else c

end Sigmas

section Dash

variable {U : Unicode}

end Dash

section Exempt

variable {U : Unicode}

/-- Is a name exempt from the term layers? -/
def termExempt (l2 : Layer2Terms) (normalized : Str) : Bool :=
  l2.termExceptions != [] && l2.termExceptions.any (· <:+: normalized)

end Exempt

def noTerms : Layer2Terms := ⟨[], [], [], [], [], [], [], [], [], [], [], [], [], 12, 24⟩

end Ed2kServer.Filter.TermExempt
