import Ed2kServer.Lib.SlotReads
import Ed2kServer.Publish.OfferFiles
import Ed2kServer.Text.Utf8

namespace Ed2kServer.Filter.Check

open Ed2kServer.Lib.SlotReads Ed2kServer.Text.Chars Ed2kServer.Text.Utf8
open Ed2kServer.Slab.Record Ed2kServer.Publish.OfferFiles

/-- Layer 2's vocabulary. -/
structure Layer2Terms where
  sexSubstring : List Str
  sexPrefix : List Str
  sexBounded : List Str
  exceptions : List Str
  termExceptions : List Str
  minorCjk : List Str
  minorLatin : List Str
  minorRu : List Str
  sexRu : List Str
  ageGuard : List Str
  zooAnimals : List Str
  zooActs : List Str
  zooGuard : List Str
  unpairedAgeMax : UInt32
  ageGuardWindow : Nat
  deriving DecidableEq

/-- The lists that are replaced at runtime, each in a slot of its own. -/
inductive Slot
  | hashBlocklist
  | extraTerms
  | jargonTerms
  | layer2Terms
  | hashFilterSet
  | hashWhitelist
  deriving DecidableEq

abbrev Slot.Value : Slot → Type
  | .hashBlocklist | .hashFilterSet | .hashWhitelist => Finset FileHash
  | .extraTerms | .jargonTerms => List Str
  | .layer2Terms => Layer2Terms

abbrev Lists := (slot : Slot) → slot.Value

inductive FilterResult
  | allow
  | block (layer : Layer) (reason : Str)
  deriving DecidableEq

/-- The term layers' matchers and the table of composed letters. -/
structure Matchers where
  compose : Char → Nat → Option Char
  matchesTerms : Str → List Str → Option Str
  matchesLayer2 : Str → Str → Layer2Terms → Option Str

def isCombiningMark (c : Char) : Bool :=
  0x0300 ≤ c.toNat && c.toNat ≤ 0x036F || 0x1AB0 ≤ c.toNat && c.toNat ≤ 0x1AFF ||
  0x1DC0 ≤ c.toNat && c.toNat ≤ 0x1DFF || 0x20D0 ≤ c.toNat && c.toNat ≤ 0x20FF ||
  0xFE20 ≤ c.toNat && c.toNat ≤ 0xFE2F

/-- One character after `out`, which is reversed. -/
def composeStep (M : Matchers) (out : Str) (c : Char) : Str :=
  match out with
  | prev :: before =>
    match if isCombiningMark c then M.compose prev c.toNat else none with
    | some composed => composed :: before
    | none => c :: out
  | [] => [c]

def composeLatin (M : Matchers) (s : Str) : Str :=
  if s.any isCombiningMark then (s.foldl (composeStep M) []).reverse else s

/-- Words in lower case, one space between them. -/
def normalizeFrom (U : Unicode) (out : Str) (pendingSpace : Bool) : Str → Str
  | [] => out
  | c :: rest =>
    if isCombiningMark c then normalizeFrom U out pendingSpace rest
    else if !U.isAlphanumeric c then normalizeFrom U out (out != []) rest
    else normalizeFrom U (out ++ (if pendingSpace then [' '] else []) ++ U.toLowercase c) false rest

def normalizeSeparators (U : Unicode) (name : Str) : Str := normalizeFrom U [] false name

/-- `String::from_utf8`. -/
def fromUtf8 (bytes : List UInt8) : Option Str :=
  if utf8 (fromUtf8Lossy bytes) = bytes then some (fromUtf8Lossy bytes) else none

def oneRound (s : Str) : Option Str :=
  if isAscii s then none
  else if s.any (fun c => 0x100 ≤ c.toNat) then none
  else (fromUtf8 (s.map (fun c => UInt8.ofNat c.toNat))).filter (· ≠ s)

/-- UTF-8 that was read as Latin-1 once or twice. -/
def undoMojibake (name : Str) : Option Str :=
  (oneRound name).map (fun first => (oneRound first).getD first)

def withoutExtension (lowered : Str) : Str :=
  let ext := (lowered.reverse.takeWhile (· ≠ '.')).reverse
  let stem := lowered.take (lowered.length - ext.length - 1)
  if '.' ∈ lowered ∧ stem ≠ [] ∧ ext ≠ [] ∧ ext.length ≤ 8 ∧
    ext.all (fun c => c.isAlphanum) then stem else lowered

def mojibake (reason : Str) : Str := reason ++ " (mojibake)".toList

variable (M : Matchers) (U : Unicode)

/-- The layers on the recovered name, then `next`. -/
def checkRecovered (l2 : Layer2Terms) (termExempt : Bool) (recovered : Str)
    (next : Reading Slot.Value FilterResult) : Reading Slot.Value FilterResult :=
  let recLower := U.lowercase recovered
  let layer2 := match M.matchesLayer2 recovered recLower l2 with
    | some reason => .done (.block .l2AgePattern (mojibake reason))
    | none => next
  if termExempt then layer2
  else
    .load .jargonTerms fun jt =>
      match M.matchesTerms (withoutExtension recLower) jt with
      | some term => .done (.block .l1Jargon (mojibake term))
      | none =>
        .load .extraTerms fun ex =>
          match M.matchesTerms (withoutExtension recLower) ex with
          | some term => .done (.block .l4Extra (mojibake term))
          | none => layer2

/-- The layers on the name itself; `scan` tells whether the term layers read it. -/
def checkName (l2 : Layer2Terms) (scan : Bool) (filename : Str) :
    Reading Slot.Value FilterResult :=
  let lowered := U.lowercase filename
  .load .jargonTerms fun jt =>
    match if scan then M.matchesTerms (withoutExtension lowered) jt else none with
    | some term => .done (.block .l1Jargon term)
    | none =>
      match M.matchesLayer2 filename lowered l2 with
      | some reason => .done (.block .l2AgePattern reason)
      | none =>
        .load .extraTerms fun ex =>
          match if scan then M.matchesTerms (withoutExtension lowered) ex else none with
          | some term => .done (.block .l4Extra term)
          | none => .done .allow

def checkTerms (filename : Str) : Reading Slot.Value FilterResult :=
  let composed := composeLatin M filename
  .load .layer2Terms fun l2 =>
    let normalized := normalizeSeparators U composed
    let termExempt := l2.termExceptions != [] && l2.termExceptions.any (· <:+: normalized)
    match undoMojibake composed with
    | some recovered =>
      checkRecovered M U l2 termExempt recovered (checkName M U l2 false composed)
    | none => checkName M U l2 (!termExempt) composed

def checkLists (hash : FileHash) (filename : Str) : Reading Slot.Value FilterResult :=
  .load .hashBlocklist fun blocked =>
    if hash ∈ blocked then .done (.block .l3HashBlock "hash".toList)
    else
      .load .hashFilterSet fun poison =>
        if hash ∈ poison then .done (.block .l5Poison "poison".toList)
        else checkTerms M U filename

/-- The layers in their order, each list looked at when its layer is reached. -/
def checkInner (hash : FileHash) (filename : Str) (whitelist : Bool) :
    Reading Slot.Value FilterResult :=
  if whitelist then
    .load .hashWhitelist fun allowed =>
      if hash ∈ allowed then .done .allow else checkLists M U hash filename
  else checkLists M U hash filename

/-- `check` under lists that do not change meanwhile. -/
def check (lists : Lists) (hash : FileHash) (filename : Str) : FilterResult :=
  (checkInner M U hash filename true).runAt lists

variable {M U} {Seen : (slot : Slot) → slot.Value → Prop} {hash : FileHash} {filename : Str}
  {r : FilterResult}

/-- Values seen one by one, put together. -/
def together (allowed blocked poison : Finset FileHash) (l2 : Layer2Terms) (jt ex : List Str) :
    Lists
  | .hashWhitelist => allowed
  | .hashBlocklist => blocked
  | .hashFilterSet => poison
  | .layer2Terms => l2
  | .jargonTerms => jt
  | .extraTerms => ex

theorem checkName_loaded (hseen : ∀ slot, ∃ v, Seen slot v) {l2 : Layer2Terms} {scan : Bool}
    (h : Loaded Seen (checkName M U l2 scan filename) (.done r)) :
    ∃ jt ex, Seen .jargonTerms jt ∧ Seen .extraTerms ex ∧ ∀ allowed blocked poison l2',
      (checkName M U l2 scan filename).runAt (together allowed blocked poison l2' jt ex) = r := by
  obtain ⟨ex₀, hex₀⟩ := hseen .extraTerms
  rw [checkName, loaded_load_done_iff] at h
  obtain ⟨jt, hjt, h⟩ := h
  split at h
  · rename_i term hterm
    refine ⟨jt, ex₀, hjt, hex₀, fun _ _ _ _ => ?_⟩
    have := loaded_done_iff.mp h
    simp [checkName, together, hterm, Reading.done.inj this]
  · rename_i hterm
    split at h
    · rename_i reason hreason
      refine ⟨jt, ex₀, hjt, hex₀, fun _ _ _ _ => ?_⟩
      have := loaded_done_iff.mp h
      simp [checkName, together, hterm, hreason, Reading.done.inj this]
    · rename_i hreason
      obtain ⟨ex, hex, h⟩ := loaded_load_done_iff.mp h
      refine ⟨jt, ex, hjt, hex, fun _ _ _ _ => ?_⟩
      split at h <;> rename_i hextra <;> have := loaded_done_iff.mp h <;>
        simp [checkName, together, hterm, hreason, hextra, Reading.done.inj this]

/-- Where the term layers do not read the name, no list decides. -/
theorem checkName_unscanned (l2 : Layer2Terms) (lists lists' : Lists) :
    (checkName M U l2 false filename).runAt lists =
      (checkName M U l2 false filename).runAt lists' := by
  rw [checkName]
  cases hreason : M.matchesLayer2 filename (U.lowercase filename) l2 <;> simp

theorem checkRecovered_loaded (hseen : ∀ slot, ∃ v, Seen slot v) {l2 : Layer2Terms}
    {termExempt : Bool} {recovered : Str}
    (h : Loaded Seen (checkRecovered M U l2 termExempt recovered
      (checkName M U l2 false filename)) (.done r)) :
    ∃ jt ex, Seen .jargonTerms jt ∧ Seen .extraTerms ex ∧ ∀ allowed blocked poison l2',
      (checkRecovered M U l2 termExempt recovered (checkName M U l2 false filename)).runAt
        (together allowed blocked poison l2' jt ex) = r := by
  obtain ⟨jt₀, hjt₀⟩ := hseen .jargonTerms
  obtain ⟨ex₀, hex₀⟩ := hseen .extraTerms
  have hlayer : Loaded Seen (match M.matchesLayer2 recovered (U.lowercase recovered) l2 with
      | some reason => .done (.block .l2AgePattern (mojibake reason))
      | none => checkName M U l2 false filename) (.done r) → ∀ lists,
      (match M.matchesLayer2 recovered (U.lowercase recovered) l2 with
      | some reason => .done (.block .l2AgePattern (mojibake reason))
      | none => checkName M U l2 false filename : Reading Slot.Value FilterResult).runAt lists =
        r := by
    intro h lists
    split at h
    · exact (Reading.done.inj (loaded_done_iff.mp h)).symm
    · obtain ⟨jt, ex, -, -, hrun⟩ := checkName_loaded hseen h
      rw [← hrun ∅ ∅ ∅ l2]
      exact checkName_unscanned l2 _ _
  cases termExempt with
  | true => exact ⟨jt₀, ex₀, hjt₀, hex₀, fun _ _ _ _ => hlayer h _⟩
  | false =>
    obtain ⟨jt, hjt, h⟩ := loaded_load_done_iff.mp h
    split at h
    · rename_i term hterm
      refine ⟨jt, ex₀, hjt, hex₀, fun _ _ _ _ => ?_⟩
      have := loaded_done_iff.mp h
      simp [checkRecovered, together, hterm, Reading.done.inj this]
    · rename_i hterm
      obtain ⟨ex, hex, h⟩ := loaded_load_done_iff.mp h
      refine ⟨jt, ex, hjt, hex, fun _ _ _ _ => ?_⟩
      split at h
      · rename_i term hextra
        have := loaded_done_iff.mp h
        simp [checkRecovered, together, hterm, hextra, Reading.done.inj this]
      · rename_i hextra
        simp only [checkRecovered, together, Bool.false_eq_true, if_false, Reading.runAt_load,
          hterm, hextra]
        exact hlayer h _

theorem checkTerms_loaded (hseen : ∀ slot, ∃ v, Seen slot v)
    (h : Loaded Seen (checkTerms M U filename) (.done r)) :
    ∃ l2 jt ex, Seen .layer2Terms l2 ∧ Seen .jargonTerms jt ∧ Seen .extraTerms ex ∧
      ∀ allowed blocked poison,
        (checkTerms M U filename).runAt (together allowed blocked poison l2 jt ex) = r := by
  obtain ⟨l2, hl2, h⟩ := loaded_load_done_iff.mp h
  split at h
  · rename_i recovered hrecovered
    obtain ⟨jt, ex, hjt, hex, hrun⟩ := checkRecovered_loaded hseen h
    refine ⟨l2, jt, ex, hl2, hjt, hex, fun allowed blocked poison => ?_⟩
    rw [checkTerms, Reading.runAt_load]
    simp only [hrecovered]
    exact hrun allowed blocked poison l2
  · rename_i hrecovered
    obtain ⟨jt, ex, hjt, hex, hrun⟩ := checkName_loaded hseen h
    refine ⟨l2, jt, ex, hl2, hjt, hex, fun allowed blocked poison => ?_⟩
    rw [checkTerms, Reading.runAt_load]
    simp only [hrecovered]
    exact hrun allowed blocked poison l2

theorem checkLists_loaded (hseen : ∀ slot, ∃ v, Seen slot v)
    (h : Loaded Seen (checkLists M U hash filename) (.done r)) :
    ∃ blocked poison l2 jt ex, Seen .hashBlocklist blocked ∧ Seen .hashFilterSet poison ∧
      Seen .layer2Terms l2 ∧ Seen .jargonTerms jt ∧ Seen .extraTerms ex ∧ ∀ allowed,
        (checkLists M U hash filename).runAt (together allowed blocked poison l2 jt ex) = r := by
  obtain ⟨poison₀, hpoison₀⟩ := hseen .hashFilterSet
  obtain ⟨l2₀, hl2₀⟩ := hseen .layer2Terms
  obtain ⟨jt₀, hjt₀⟩ := hseen .jargonTerms
  obtain ⟨ex₀, hex₀⟩ := hseen .extraTerms
  obtain ⟨blocked, hblocked, h⟩ := loaded_load_done_iff.mp h
  split at h
  · rename_i hmem
    refine ⟨blocked, poison₀, l2₀, jt₀, ex₀, hblocked, hpoison₀, hl2₀, hjt₀, hex₀, fun _ => ?_⟩
    have := loaded_done_iff.mp h
    simp [checkLists, together, hmem, Reading.done.inj this]
  · rename_i hnot
    obtain ⟨poison, hpoison, h⟩ := loaded_load_done_iff.mp h
    split at h
    · rename_i hmem
      refine ⟨blocked, poison, l2₀, jt₀, ex₀, hblocked, hpoison, hl2₀, hjt₀, hex₀, fun _ => ?_⟩
      have := loaded_done_iff.mp h
      simp [checkLists, together, hnot, hmem, Reading.done.inj this]
    · rename_i hclean
      obtain ⟨l2, jt, ex, hl2, hjt, hex, hrun⟩ := checkTerms_loaded hseen h
      refine ⟨blocked, poison, l2, jt, ex, hblocked, hpoison, hl2, hjt, hex, fun allowed => ?_⟩
      have hsame : (together allowed blocked poison l2 jt ex) .hashBlocklist = blocked := rfl
      have hsame' : (together allowed blocked poison l2 jt ex) .hashFilterSet = poison := rfl
      rw [checkLists, Reading.runAt_load, hsame, if_neg hnot, Reading.runAt_load, hsame',
        if_neg hclean]
      exact hrun allowed blocked poison

/-- An answer got from lists that were looked at one by one is that of one set of lists, each of
them seen. -/
theorem checkInner_loaded (hseen : ∀ slot, ∃ v, Seen slot v) {whitelist : Bool}
    (h : Loaded Seen (checkInner M U hash filename whitelist) (.done r)) :
    ∃ lists : Lists, (∀ slot, Seen slot (lists slot)) ∧
      (checkInner M U hash filename whitelist).runAt lists = r := by
  obtain ⟨allowed₀, hallowed₀⟩ := hseen .hashWhitelist
  have hrest : ∀ allowed, Seen .hashWhitelist allowed →
      Loaded Seen (checkLists M U hash filename) (.done r) →
      ∃ lists : Lists, lists .hashWhitelist = allowed ∧ (∀ slot, Seen slot (lists slot)) ∧
        (checkLists M U hash filename).runAt lists = r := by
    intro allowed hallowed h
    obtain ⟨blocked, poison, l2, jt, ex, hblocked, hpoison, hl2, hjt, hex, hrun⟩ :=
      checkLists_loaded hseen h
    refine ⟨together allowed blocked poison l2 jt ex, rfl, fun slot => ?_, hrun allowed⟩
    cases slot <;> assumption
  cases whitelist with
  | false =>
    obtain ⟨lists, -, hlists, hrun⟩ := hrest allowed₀ hallowed₀ h
    exact ⟨lists, hlists, hrun⟩
  | true =>
    obtain ⟨allowed, hallowed, h⟩ := loaded_load_done_iff.mp h
    split at h
    · rename_i hmem
      choose v hv using hseen
      refine ⟨Function.update v .hashWhitelist allowed, fun slot => ?_, ?_⟩
      · by_cases hslot : slot = .hashWhitelist
        · subst hslot
          rwa [Function.update_self]
        · rw [Function.update_of_ne hslot]
          exact hv slot
      · have := loaded_done_iff.mp h
        simp [checkInner, hmem, Reading.done.inj this]
    · rename_i hnot
      obtain ⟨lists, hsame, hlists, hrun⟩ := hrest allowed hallowed h
      refine ⟨lists, hlists, ?_⟩
      rw [checkInner, if_pos rfl, Reading.runAt_load, hsame, if_neg hnot, hrun]

end Ed2kServer.Filter.Check
