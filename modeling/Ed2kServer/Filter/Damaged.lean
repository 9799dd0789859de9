import Ed2kServer.Filter.Nfc
import Ed2kServer.Filter.PrefilterExact
import Mathlib.Logic.Function.Iterate

namespace Ed2kServer.Filter.Damaged

open Ed2kServer.Text.Chars Ed2kServer.Text.Utf8 Ed2kServer.Text.ByteSlices
open Ed2kServer.Lib.SlotReads Ed2kServer.Slab.Record
open Ed2kServer.Publish.OfferFiles (Layer)
open Ed2kServer.Filter.Check

/-- UTF-8 read as Latin-1. -/
def damage (s : Str) : Str := (utf8 s).map fun b => Char.ofNat b.toNat

variable (M : Matchers) (U : Unicode) (lists : Lists)

/-- The text that the term layers judge a name by. -/
def judged (name : Str) : Str :=
  (undoMojibake (composeLatin M name)).getD (composeLatin M name)

/-- Does an exempt phrase stand in the text? -/
def spared (text : Str) : Bool :=
  (lists .layer2Terms).termExceptions != [] &&
    (lists .layer2Terms).termExceptions.any (· <:+: normalizeSeparators U text)

/-- The first term found in a text, and its layer. -/
def firstTerm (text : Str) : Option (Layer × Str) :=
  let stem := withoutExtension (U.lowercase text)
  match M.matchesTerms stem (lists .jargonTerms) with
  | some term => some (.l1Jargon, term)
  | none => (M.matchesTerms stem (lists .extraTerms)).map (.l4Extra, ·)

/-- Layer 2 fires on neither of the texts that it reads for a name. -/
def Layer2Silent (name : Str) : Prop :=
  ∀ text, text = composeLatin M name ∨ undoMojibake (composeLatin M name) = some text →
    M.matchesLayer2 text (U.lowercase text) (lists .layer2Terms) = none

/-- The block of a term layer. -/
def termBlock : FilterResult → Option (Layer × Str)
  | .block .l1Jargon reason => some (.l1Jargon, reason)
  | .block .l4Extra reason => some (.l4Extra, reason)
  | _ => none

/-- The same text but for the marks at the end. -/
def UpToMark (s t : Str) : Prop := ∃ u i j, s = mojibake^[i] u ∧ t = mojibake^[j] u

/-- The same layer and the same term, or nothing in both. -/
def SameTerm : Option (Layer × Str) → Option (Layer × Str) → Prop
  | none, none => True
  | some (layer, s), some (layer', t) => layer = layer' ∧ UpToMark s t
  | _, _ => False

/-- Does the hash decide? -/
def Listed (hash : FileHash) : Prop :=
  hash ∈ lists .hashWhitelist ∨ hash ∈ lists .hashBlocklist ∨ hash ∈ lists .hashFilterSet

/-- The names that are judged like the damaged ones: the hash decides, or both texts are exempt, or
only one is and the other has no term, or the name as it is written and the name as it is judged
have the same first term. -/
def JudgedAlike (hash : FileHash) (n d : Str) : Prop :=
  Listed lists hash ∨
  if spared U lists d then
    spared U lists (composeLatin M n) = true ∨ firstTerm M U lists (judged M n) = none
  else if spared U lists (composeLatin M n) then firstTerm M U lists n = none
  else SameTerm (firstTerm M U lists n) (firstTerm M U lists (judged M n))

variable {M U lists} {hash : FileHash} {n d s : Str}

theorem toNat_ofByte (b : UInt8) : (Char.ofNat b.toNat).toNat = b.toNat := by
  have hb := b.toNat_lt
  rw [Char.toNat_ofNat, if_pos (.inl (by omega))]

theorem lt_of_mem_damage {c : Char} (h : c ∈ damage s) : c.toNat < 256 := by
  obtain ⟨b, -, rfl⟩ := List.mem_map.mp h
  rw [toNat_ofByte]
  exact b.toNat_lt

theorem bytes_damage (s : Str) : (damage s).map (fun c => UInt8.ofNat c.toNat) = utf8 s := by
  rw [damage, List.map_map]
  refine (List.map_congr_left fun b _ => ?_).trans (List.map_id _)
  rw [Function.comp_apply, toNat_ofByte, UInt8.ofNat_toNat]
  rfl

theorem length_lt_utf8 (h : isAscii s = false) : s.length < (utf8 s).length := by
  induction s with
  | nil => cases h
  | cons c s ih =>
    rw [isAscii, List.all_cons, Bool.and_eq_false_iff] at h
    have hle := length_le_utf8 s
    have hpos := c.utf8Size_pos
    rw [length_utf8_cons, List.length_cons]
    rcases h with h | h
    · have hsize : c.utf8Size ≠ 1 := by
        rw [Ne, Char.utf8Size_eq_one_iff]
        intro hle
        exact absurd (Nat.lt_succ_of_le (UInt32.le_iff_toNat_le.mp hle)) (of_decide_eq_false h)
      omega
    · have := ih h
      omega

theorem isAscii_damage (h : isAscii s = false) : isAscii (damage s) = false := by
  obtain ⟨c, hc, hlt⟩ := List.all_eq_false.mp h
  obtain ⟨b, rest, hb, hwide⟩ :=
    utf8EncodeChar_wide (Nat.le_of_not_lt (of_decide_eq_false (Bool.not_eq_true _ ▸ hlt)))
  have hmem : b ∈ utf8 s := List.mem_flatMap.mpr ⟨c, hc, by rw [hb]; exact List.mem_cons_self⟩
  refine List.all_eq_false.mpr ⟨_, List.mem_map_of_mem hmem, ?_⟩
  rw [toNat_ofByte, decide_eq_true_iff]
  omega

/-- One round is undone. -/
theorem oneRound_damage (h : isAscii s = false) : oneRound (damage s) = some s := by
  have hwide : (damage s).any (fun c => 0x100 ≤ c.toNat) = false := by
    rw [← Bool.not_eq_true, List.any_eq_true]
    rintro ⟨c, hc, hle⟩
    exact absurd (lt_of_mem_damage hc) (Nat.not_lt.mpr (of_decide_eq_true hle))
  have hne : s ≠ damage s := by
    intro heq
    have hlen := congrArg List.length heq
    rw [damage, List.length_map] at hlen
    exact absurd (length_lt_utf8 h) (by omega)
  rw [oneRound, isAscii_damage h, if_neg Bool.false_ne_true, hwide, if_neg Bool.false_ne_true,
    bytes_damage, fromUtf8, fromUtf8Lossy_utf8, if_pos rfl]
  exact Option.filter_some_pos (decide_eq_true hne)

theorem oneRound_of_undo (h : undoMojibake s = none) : oneRound s = none :=
  Option.map_eq_none_iff.mp h

/-- One round and two are undone, and no more. -/
theorem undo_damage (hn : undoMojibake n = none) (hwide : isAscii n = false)
    (hd : d = damage n ∨ d = damage (damage n)) : undoMojibake d = some n := by
  rcases hd with rfl | rfl
  · rw [undoMojibake, oneRound_damage hwide, Option.map_some, oneRound_of_undo hn]
    rfl
  · rw [undoMojibake, oneRound_damage (isAscii_damage hwide), Option.map_some,
      oneRound_damage hwide]
    rfl

theorem composeLatin_of_no_mark (h : s.any isCombiningMark = false) : composeLatin M s = s := by
  rw [composeLatin, h]
  rfl

theorem composeLatin_damage (s : Str) : composeLatin M (damage s) = damage s := by
  refine composeLatin_of_no_mark ?_
  rw [← Bool.not_eq_true, List.any_eq_true]
  rintro ⟨c, hc, hmark⟩
  have hlt := lt_of_mem_damage hc
  simp only [isCombiningMark, Bool.or_eq_true, Bool.and_eq_true, decide_eq_true_iff] at hmark
  omega

theorem mojibake_injective : Function.Injective mojibake := fun _ _ h => List.append_cancel_right h

theorem upToMark_mojibake {s t : Str} : UpToMark (mojibake s) t ↔ UpToMark s t := by
  constructor
  · rintro ⟨u, i, j, hs, rfl⟩
    cases i with
    | zero => exact ⟨s, 0, j + 1, rfl, by rw [Function.iterate_succ_apply, hs]; rfl⟩
    | succ i =>
      rw [Function.iterate_succ_apply'] at hs
      exact ⟨u, i, j, mojibake_injective hs, rfl⟩
  · rintro ⟨u, i, j, rfl, rfl⟩
    exact ⟨u, i + 1, j, (Function.iterate_succ_apply' _ _ _).symm, rfl⟩

theorem UpToMark.symm {s t : Str} (h : UpToMark s t) : UpToMark t s := by
  obtain ⟨u, i, j, hs, ht⟩ := h
  exact ⟨u, j, i, ht, hs⟩

theorem upToMark_comm {s t : Str} : UpToMark s t ↔ UpToMark t s := ⟨.symm, .symm⟩

/-- The block that a term found is reported by. -/
def report (marked : Bool) : Option (Layer × Str) → FilterResult
  | some (layer, term) => .block layer (if marked then mojibake term else term)
  | none => .allow

theorem layer_of_firstTerm {text : Str} {found : Layer × Str}
    (h : firstTerm M U lists text = some found) :
    found.1 = .l1Jargon ∨ found.1 = .l4Extra := by
  rw [firstTerm] at h
  split at h
  · rw [← Option.some.inj h]
    exact .inl rfl
  · obtain ⟨term, -, rfl⟩ := Option.map_eq_some_iff.mp h
    exact .inr rfl

theorem termBlock_report (marked : Bool) (text : Str) :
    termBlock (report marked (firstTerm M U lists text)) =
      (firstTerm M U lists text).map fun found =>
        (found.1, if marked then mojibake found.2 else found.2) := by
  cases hfound : firstTerm M U lists text with
  | none => rfl
  | some found =>
    obtain ⟨layer, term⟩ := found
    rcases layer_of_firstTerm hfound with h | h <;> obtain rfl := h <;> rfl

theorem checkName_silent (h : M.matchesLayer2 n (U.lowercase n) (lists .layer2Terms) = none)
    (scan : Bool) :
    (checkName M U (lists .layer2Terms) scan n).runAt lists =
      if scan then report false (firstTerm M U lists n) else .allow := by
  rw [checkName, Reading.runAt_load, h]
  cases scan with
  | false => rfl
  | true =>
    rw [if_pos rfl, if_pos rfl, firstTerm]
    cases M.matchesTerms (withoutExtension (U.lowercase n)) (lists .jargonTerms) with
    | some term => rfl
    | none =>
      dsimp only
      rw [Reading.runAt_load, if_pos rfl]
      cases M.matchesTerms (withoutExtension (U.lowercase n)) (lists .extraTerms) <;> rfl

theorem checkRecovered_silent {recovered : Str} {next : Reading Slot.Value FilterResult}
    (h : M.matchesLayer2 recovered (U.lowercase recovered) (lists .layer2Terms) = none)
    (hnext : next.runAt lists = .allow) (exempt : Bool) :
    (checkRecovered M U (lists .layer2Terms) exempt recovered next).runAt lists =
      if exempt then .allow else report true (firstTerm M U lists recovered) := by
  rw [checkRecovered, h]
  cases exempt with
  | true => exact hnext
  | false =>
    rw [if_neg Bool.false_ne_true, if_neg Bool.false_ne_true, Reading.runAt_load, firstTerm]
    cases M.matchesTerms (withoutExtension (U.lowercase recovered)) (lists .jargonTerms) with
    | some term => rfl
    | none =>
      dsimp only
      rw [Reading.runAt_load]
      cases M.matchesTerms (withoutExtension (U.lowercase recovered)) (lists .extraTerms) with
      | some term => rfl
      | none => exact hnext

/-- The term layers alone, where Layer 2 is silent. -/
theorem checkTerms_silent (h : Layer2Silent M U lists n) :
    (checkTerms M U n).runAt lists =
      if spared U lists (composeLatin M n) then .allow
      else report (undoMojibake (composeLatin M n)).isSome
        (firstTerm M U lists (judged M n)) := by
  have hname := h _ (.inl rfl)
  rw [checkTerms, Reading.runAt_load, judged]
  dsimp only
  cases hundo : undoMojibake (composeLatin M n) with
  | some recovered =>
    have hnext := checkName_silent hname false
    exact checkRecovered_silent (h _ (.inr hundo)) hnext (spared U lists (composeLatin M n))
  | none =>
    refine (checkName_silent hname (!spared U lists (composeLatin M n))).trans ?_
    cases spared U lists (composeLatin M n) <;> rfl

theorem check_listed (h : Listed lists hash) (name : Str) :
    termBlock (check M U lists hash name) = none := by
  rw [check, checkInner, if_pos rfl, Reading.runAt_load]
  by_cases hallowed : hash ∈ lists .hashWhitelist
  · rw [if_pos hallowed]
    rfl
  · rw [if_neg hallowed, checkLists, Reading.runAt_load]
    by_cases hblocked : hash ∈ lists .hashBlocklist
    · rw [if_pos hblocked]
      rfl
    · have hpoison := (h.resolve_left hallowed).resolve_left hblocked
      rw [if_neg hblocked, Reading.runAt_load, if_pos hpoison]
      rfl

theorem check_unlisted (h : ¬Listed lists hash) (name : Str) :
    check M U lists hash name = (checkTerms M U name).runAt lists := by
  rw [Listed, not_or, not_or] at h
  rw [check, checkInner, if_pos rfl, Reading.runAt_load, if_neg h.1, checkLists,
    Reading.runAt_load, if_neg h.2.1, Reading.runAt_load, if_neg h.2.2]

theorem sameTerm_none_left {x : Option (Layer × Str)} : SameTerm none x ↔ x = none := by
  cases x with
  | none => exact iff_of_true trivial rfl
  | some => exact iff_of_false id nofun

theorem sameTerm_none_right {x : Option (Layer × Str)} : SameTerm x none ↔ x = none := by
  cases x with
  | none => exact iff_of_true trivial rfl
  | some => exact iff_of_false id nofun

/-- The marks do not matter. -/
theorem sameTerm_marked {x y : Option (Layer × Str)} (marked marked' : Bool) :
    SameTerm (x.map fun found => (found.1, if marked then mojibake found.2 else found.2))
        (y.map fun found => (found.1, if marked' then mojibake found.2 else found.2)) ↔
      SameTerm x y := by
  have hmark : ∀ (marked : Bool) (s t : Str),
      UpToMark (if marked then mojibake s else s) t ↔ UpToMark s t := by
    intro marked s t
    cases marked with
    | true => exact upToMark_mojibake
    | false => exact Iff.rfl
  cases x with
  | none => cases y <;> exact Iff.rfl
  | some x =>
    cases y with
    | none => exact Iff.rfl
    | some y =>
      refine and_congr_right fun _ => ?_
      rw [hmark, upToMark_comm, hmark, upToMark_comm]

theorem judged_damaged (hn : undoMojibake n = none) (hwide : isAscii n = false)
    (hd : d = damage n ∨ d = damage (damage n)) :
    composeLatin M d = d ∧ undoMojibake d = some n := by
  refine ⟨?_, undo_damage hn hwide hd⟩
  rcases hd with rfl | rfl <;> exact composeLatin_damage _

/-- A damaged name is judged as it was written, by the exemptions of the damaged text; the name
itself is composed first. -/
theorem damaged_judged_alike_iff (M : Matchers) (U : Unicode) (lists : Lists) (hash : FileHash)
    (hn : undoMojibake n = none) (hwide : isAscii n = false)
    (hd : d = damage n ∨ d = damage (damage n)) (hsilent : Layer2Silent M U lists n)
    (hsilent' : Layer2Silent M U lists d) :
    (SameTerm (termBlock (check M U lists hash d)) (termBlock (check M U lists hash n)) ↔
      JudgedAlike M U lists hash n d) ∧
    (n.any isCombiningMark = false → composeLatin M n = n ∧ judged M n = n) := by
  obtain ⟨hcompose, hundo⟩ := judged_damaged (M := M) hn hwide hd
  refine ⟨?_, fun hmark => ?_⟩
  · by_cases hlisted : Listed lists hash
    · rw [check_listed hlisted, check_listed hlisted]
      exact iff_of_true trivial (.inl hlisted)
    · have hdamaged : judged M d = n := by
        rw [judged, hcompose, hundo]
        rfl
      rw [check_unlisted hlisted, check_unlisted hlisted, checkTerms_silent hsilent,
        checkTerms_silent hsilent', hdamaged, hcompose, JudgedAlike, or_iff_right hlisted]
      cases spared U lists d <;> cases spared U lists (composeLatin M n) <;>
        simp only [Bool.false_eq_true, if_true, if_false, true_or, false_or, iff_true]
      · rw [termBlock_report, termBlock_report, sameTerm_marked]
      · rw [termBlock_report]
        exact sameTerm_none_right.trans Option.map_eq_none_iff
      · rw [termBlock_report]
        exact sameTerm_none_left.trans Option.map_eq_none_iff
      · trivial
  · have hsame := composeLatin_of_no_mark (M := M) hmark
    rw [judged, hsame, hn]
    exact ⟨rfl, rfl⟩

/-- Latin-1, and the marks behind its letters. -/
def latinOne : Unicode where
  isWhitespace c := basicLatin.isWhitespace c || c == '\u0085' || c == '\u00a0'
  isAlphabetic c := c.isAlpha || c ∈ ['ª', 'µ', 'º'] ||
    (0xC0 ≤ c.toNat && c.toNat ≤ 0xFF && c ∉ ['×', '÷'])
  isNumeric c := c.isDigit || c ∈ ['²', '³', '¹', '¼', '½', '¾']
  toLowercase c :=
    if 0xC0 ≤ c.toNat ∧ c.toNat ≤ 0xDE ∧ c ≠ '×' then [Char.ofNat (c.toNat + 32)] else [c.toLower]
  cased c := c.isAlpha || c ∈ ['ª', 'µ', 'º'] ||
    (0xC0 ≤ c.toNat && c.toNat ≤ 0xFF && c ∉ ['×', '÷'])
  caseIgnorable c := basicLatin.caseIgnorable c || c ∈ ['¨', '\u00ad', '¯', '´', '·', '¸'] ||
    (0x300 ≤ c.toNat && c.toNat ≤ 0x36F)
  isWhitespace_space := by decide
  toLowercase_ne_nil c := by split <;> simp
  star_of_mem_toLowercase c := by
    split
    · rename_i hc
      intro hmem
      have hlower : (Char.ofNat (c.toNat + 32)).toNat = c.toNat + 32 := by
        rw [Char.toNat_ofNat, if_pos (.inl (by omega))]
      rw [← List.mem_singleton.mp hmem] at hlower
      have hstar : '*'.toNat = 42 := by decide
      omega
    · exact fun h => eq_star_of_toLower (List.mem_singleton.mp h)

/-- The table and the search of the term layers, and a Layer 2 that is silent. -/
def termLayers : Matchers where
  compose := Nfc.compose
  matchesTerms lowered terms :=
    (Prefilter.matchesTerms (PrefilterExact.oneByOne true) latinOne lowered
      (.new (PrefilterExact.oneByOne true) terms)).join
  matchesLayer2 _ _ _ := none

def noTerms : Layer2Terms where
  sexSubstring := []
  sexPrefix := []
  sexBounded := []
  exceptions := []
  termExceptions := []
  minorCjk := []
  minorLatin := []
  minorRu := []
  sexRu := []
  ageGuard := []
  zooAnimals := []
  zooActs := []
  zooGuard := []
  unpairedAgeMax := 17
  ageGuardWindow := 24

theorem layer2Silent_termLayers (lists : Lists) (name : Str) :
    Layer2Silent termLayers latinOne lists name := fun _ _ => rfl

def elanLists : Lists := together ∅ ∅ ∅ noTerms ["élan".toList] []

def lawLists : Lists :=
  together ∅ ∅ ∅ { noTerms with termExceptions := ["déjà law".toList] } [] ["law".toList]

def elan : Str := "e\u0301lan.avi".toList

def law : Str := "déjà law.avi".toList

/-- A letter in two parts is composed in the name alone, and the phrase that exempts the name is
not one of the damaged text. -/
theorem elan_and_law_judged_apart :
    (undoMojibake elan = none ∧ isAscii elan = false ∧
      Layer2Silent termLayers latinOne elanLists elan ∧
      Layer2Silent termLayers latinOne elanLists (damage elan) ∧
      check termLayers latinOne elanLists (Vector.replicate 16 0) elan =
        .block .l1Jargon "élan".toList ∧
      check termLayers latinOne elanLists (Vector.replicate 16 0) (damage elan) = .allow ∧
      ¬SameTerm (termBlock .allow) (termBlock (.block .l1Jargon "élan".toList))) ∧
    undoMojibake law = none ∧ isAscii law = false ∧
      Layer2Silent termLayers latinOne lawLists law ∧
      Layer2Silent termLayers latinOne lawLists (damage law) ∧
      check termLayers latinOne lawLists (Vector.replicate 16 0) law = .allow ∧
      check termLayers latinOne lawLists (Vector.replicate 16 0) (damage law) =
        .block .l4Extra "law (mojibake)".toList ∧
      ¬SameTerm (termBlock (.block .l4Extra "law (mojibake)".toList)) (termBlock .allow) :=
  ⟨⟨by decide, by decide, layer2Silent_termLayers _ _, layer2Silent_termLayers _ _, by decide,
    by decide, id⟩, by decide, by decide, layer2Silent_termLayers _ _, layer2Silent_termLayers _ _,
    by decide, by decide, id⟩

theorem law_judged_alike :
    (SameTerm
        (termBlock (check termLayers latinOne elanLists (Vector.replicate 16 0)
          (damage (damage law))))
        (termBlock (check termLayers latinOne elanLists (Vector.replicate 16 0) law)) ↔
      JudgedAlike termLayers latinOne elanLists (Vector.replicate 16 0) law
        (damage (damage law))) ∧
    (law.any isCombiningMark = false →
      composeLatin termLayers law = law ∧ judged termLayers law = law) :=
  damaged_judged_alike_iff _ _ _ _ (by decide) (by decide) (.inr rfl)
    (layer2Silent_termLayers _ _) (layer2Silent_termLayers _ _)

end Ed2kServer.Filter.Damaged
