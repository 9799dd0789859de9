import Ed2kServer.Filter.Loaders

namespace Ed2kServer.Updates.Validate

open Ed2kServer.Slab.Record Ed2kServer.Text.Lines Ed2kServer.Text.Utf8
open Ed2kServer.Filter.Loaders

inductive Target
  | csamJargon
  | csamTermsExtra
  | layer2Terms
  | guardingP2p
  | ipToCountry
  | hashBanlist
  | hashFilter
  | whitelistHashes
  | geoipMmdb
  deriving DecidableEq

def Target.supportsMerge : Target → Bool
  | .hashBanlist | .hashFilter | .whitelistHashes => true
  | _ => false

/-- Why a file is refused. -/
inductive UpdateError
  | notUsable (reason : Str)
  | resolvesNoCountry
  | nulBytes
  | vocabularyRejected (reason : Str)
  | noTerms
  | unparseable (bad n : Nat) (first : Str)
  | emptyHashList
  | noRanges
  | noCountryRanges
  | binaryOnly
  deriving DecidableEq

inductive LineKind
  | hash (h : FileHash)
  | comment
  | junk
  deriving DecidableEq

/-- The update client's own reading of a line of a hash list. -/
def hashOfLine (line : Str) : LineKind :=
  let line := trim line
  if line = [] then .comment
  else if ['#'] <+: line ∨ [';'] <+: line ∨ ['/', '/'] <+: line then .comment
  else
    let token := line.takeWhile isHexDigit
    if token.length ≠ 32 then .junk
    else if (line.drop 32).head?.any isHexDigit then .junk
    else match (hexDecode token).bind toHash with
      | some h => .hash h
      | none => .junk

def takes (h : FileHash) (line : Str) : Bool := hashOfLine line = .hash h

def LineKind.isHash : LineKind → Bool
  | .hash _ => true
  | _ => false

/-- The update client's own reading of a row of the country table. -/
def csvRowTaken (line : Str) : Bool :=
  match splitn 4 ',' line with
  | a :: b :: _ =>
    (parseU32 (trimMatches '"' (trim a))).isSome && (parseU32 (trimMatches '"' (trim b))).isSome
  | _ => false

/-- The readers of the two formats that are not lists of lines: the vocabulary and its number of
entries, and the database with its number of nodes and whether it resolves a known address. -/
structure Readers where
  layer2 : Str → Except Str Nat
  mmdb : List UInt8 → Except Str (Nat × Bool)

def entryLines (text : Str) : List Str := ((lines text).map trim).filter (! isSkipped ·)

def validateHashes (target : Target) (text : Str) : Except UpdateError Nat :=
  let n := (lines text).countP (fun line => (hashOfLine line).isHash)
  let bad := (lines text).filter (fun line => hashOfLine line = .junk)
  if bad ≠ [] ∧ n < bad.length * 4 then
    .error (.unparseable bad.length n (bad.headD [] |>.take 60))
  else if n = 0 ∧ target ≠ .whitelistHashes then .error .emptyHashList
  else .ok n

def validate (R : Readers) (target : Target) (bytes : List UInt8) : Except UpdateError Nat :=
  if target = .geoipMmdb then
    match R.mmdb bytes with
    | .error e => .error (.notUsable e)
    | .ok (nodes, resolves) => if resolves then .ok nodes else .error .resolvesNoCountry
  else if 0 ∈ bytes then .error .nulBytes
  else
    let text := fromUtf8Lossy bytes
    match target with
    | .layer2Terms => (R.layer2 text).mapError .vocabularyRejected
    | .csamJargon | .csamTermsExtra =>
      let n := (entryLines text).length
      if n = 0 then .error .noTerms else .ok n
    | .hashBanlist | .hashFilter | .whitelistHashes => validateHashes target text
    | .guardingP2p =>
      let ranges := (entryLines text).countP (fun line => (parseLine line).isSome)
      if ranges = 0 then .error .noRanges else .ok ranges
    | .ipToCountry =>
      let n := (entryLines text).countP csvRowTaken
      if n = 0 then .error .noCountryRanges else .ok n
    | .geoipMmdb => .error .binaryOnly

/-- The entries the server takes from the file when it loads it. -/
def loaded (R : Readers) (upper : Char → Str) (target : Target) (bytes : List UInt8) : Nat :=
  match target with
  | .csamJargon | .csamTermsExtra => (loadTermsFile bytes).length
  | .layer2Terms => (R.layer2 (fromUtf8Lossy bytes)).toOption.getD 0
  | .guardingP2p => (loadIpFilter bytes).length
  | .ipToCountry => (loadCsv upper bytes).length
  | .hashBanlist | .hashFilter | .whitelistHashes => (loadHashFile bytes).length
  | .geoipMmdb => ((R.mmdb bytes).toOption.map Prod.fst).getD 0

/-- A line whose first visible text after the hash does not start a comment of the list files. -/
def strayHash (line : Str) : Bool :=
  (hashOfLine line).isHash &&
    (((trim line).drop 32).dropWhile isWhitespace).head?.any (· ≠ ';')

variable {line token rest s : Str} {h : FileHash}

theorem hexDecode_length {bytes : List UInt8} (hd : hexDecode s = some bytes) :
    s.length = 2 * bytes.length := by
  induction s using hexDecode.induct generalizing bytes with
  | case1 =>
    obtain rfl := Option.some.inj hd
    rfl
  | case2 c => cases hd
  | case3 a b rest hhex ih =>
    rw [hexDecode, if_pos hhex, Option.map_eq_some_iff] at hd
    obtain ⟨tail, htail, rfl⟩ := hd
    simp only [List.length_cons, ih htail]
    omega
  | case4 a b rest hhex =>
    rw [hexDecode, if_neg hhex] at hd
    cases hd

theorem hexDecode_digits {bytes : List UInt8} (hd : hexDecode s = some bytes) :
    ∀ c ∈ s, isHexDigit c := by
  induction s using hexDecode.induct generalizing bytes with
  | case1 => simp
  | case2 c => cases hd
  | case3 a b rest hhex ih =>
    rw [hexDecode, if_pos hhex, Option.map_eq_some_iff] at hd
    obtain ⟨tail, htail, rfl⟩ := hd
    rw [Bool.and_eq_true] at hhex
    simp only [List.mem_cons, forall_eq_or_imp]
    exact ⟨hhex.1, hhex.2, ih htail⟩
  | case4 a b rest hhex =>
    rw [hexDecode, if_neg hhex] at hd
    cases hd

theorem toHash_length {bytes : List UInt8} (hb : toHash bytes = some h) : bytes.length = 16 := by
  rw [toHash] at hb
  split at hb
  · assumption
  · cases hb

/-- Thirty-two hex digits that are a hash. -/
theorem token_of_decode (hd : (hexDecode s).bind toHash = some h) :
    s.length = 32 ∧ ∀ c ∈ s, isHexDigit c := by
  obtain ⟨bytes, hbytes, hh⟩ := Option.bind_eq_some_iff.mp hd
  have hlen := hexDecode_length hbytes
  rw [toHash_length hh] at hlen
  exact ⟨hlen, hexDecode_digits hbytes⟩

theorem hexDigit_bounds {c : Char} (hc : isHexDigit c) :
    48 ≤ c.toNat ∧ c.toNat ≤ 57 ∨ 97 ≤ c.toNat ∧ c.toNat ≤ 102 ∨ 65 ≤ c.toNat ∧ c.toNat ≤ 70 := by
  simp only [isHexDigit, Char.isDigit, Bool.or_eq_true, Bool.and_eq_true, decide_eq_true_eq,
    Char.le_def, ge_iff_le, UInt32.le_iff_toNat_le] at hc
  simp at hc
  have hval : c.val.toNat = c.toNat := rfl
  omega

theorem hexDigit_visible {c : Char} (hc : isHexDigit c) : isWhitespace c = false := by
  have hb := hexDigit_bounds hc
  simp only [isWhitespace, List.mem_cons, List.not_mem_nil, or_false, Bool.or_eq_false_iff,
    Bool.and_eq_false_iff, decide_eq_false_iff_not]
  omega

theorem hexDigit_ne {c d : Char} (hc : isHexDigit c) (hd : isHexDigit d = false) : c ≠ d := by
  rintro rfl
  rw [hc] at hd
  cases hd

/-- The line holds this hash: thirty-two hex digits, then text that begins with no further one. -/
structure HashLine (h : FileHash) (line token rest : Str) : Prop where
  split : trim line = token ++ rest
  length : token.length = 32
  digits : ∀ c ∈ token, isHexDigit c
  ends : rest.head?.any isHexDigit = false
  decodes : (hexDecode token).bind toHash = some h

theorem HashLine.takeWhile (hl : HashLine h line token rest) :
    (trim line).takeWhile isHexDigit = token := by
  rw [hl.split, List.takeWhile_append_of_pos hl.digits]
  have hends := hl.ends
  cases rest with
  | nil => simp
  | cons c rest =>
    rw [List.takeWhile_cons_of_neg (by simpa using hends), List.append_nil]

theorem HashLine.head (hl : HashLine h line token rest) :
    ∃ c tail, trim line = c :: tail ∧ isHexDigit c := by
  have hlen := hl.length
  have hdigits := hl.digits
  have hsplit := hl.split
  cases token with
  | nil => cases hlen
  | cons c token => exact ⟨c, token ++ rest, hsplit, hdigits c List.mem_cons_self⟩

theorem HashLine.not_skipped (hl : HashLine h line token rest) : isSkipped (trim line) = false := by
  obtain ⟨c, tail, hline, hc⟩ := hl.head
  have hne : c ≠ '#' := hexDigit_ne hc (by decide)
  simp [isSkipped, hline, hne]

theorem HashLine.hashOfLine (hl : HashLine h line token rest) : hashOfLine line = .hash h := by
  obtain ⟨c, tail, hline, hc⟩ := hl.head
  have h₁ : c ≠ '#' := hexDigit_ne hc (by decide)
  have h₂ : c ≠ ';' := hexDigit_ne hc (by decide)
  have h₃ : c ≠ '/' := hexDigit_ne hc (by decide)
  have hdrop : (trim line).drop 32 = rest := by rw [hl.split, ← hl.length, List.drop_left]
  rw [Validate.hashOfLine]
  dsimp only
  rw [if_neg (by rw [hline]; simp), if_neg (by rw [hline]; simp [h₁.symm, h₂.symm, h₃.symm]),
    hl.takeWhile, if_neg (by simpa using hl.length), hdrop, if_neg (by simpa using hl.ends),
    hl.decodes]

theorem hashLine_of_hashOfLine (hk : hashOfLine line = .hash h) :
    HashLine h line ((trim line).takeWhile isHexDigit) ((trim line).drop 32) := by
  rw [hashOfLine] at hk
  dsimp only at hk
  split at hk
  · cases hk
  · split at hk
    · cases hk
    · split at hk
      · cases hk
      · rename_i hlen
        split at hk
        · cases hk
        · rename_i hends
          split at hk
          · rename_i h' hdec
            obtain rfl := LineKind.hash.inj hk
            rw [ne_eq, not_not] at hlen
            refine ⟨?_, hlen, fun c hc => List.mem_takeWhile_imp hc, by simpa using hends, hdec⟩
            nth_rewrite 1 [← List.takeWhile_append_dropWhile (p := isHexDigit) (l := trim line)]
            congr 1
            nth_rewrite 2 [← List.takeWhile_append_dropWhile (p := isHexDigit) (l := trim line)]
            rw [List.drop_append_of_le_length hlen.ge, ← hlen, List.drop_length, List.nil_append]
          · cases hk

theorem trimEnd_token (hd : ∀ c ∈ token, isHexDigit c) : trimEnd token = token := by
  refine List.rdropWhile_eq_self_iff.mpr (fun hne => ?_)
  rw [hexDigit_visible (hd _ (List.getLast_mem hne))]
  exact Bool.false_ne_true

/-- Only white space stands before the first semicolon. -/
theorem blank_before_semicolon_iff (rest : Str) : trimEnd (rest.takeWhile (· ≠ ';')) = [] ↔
    (rest.dropWhile isWhitespace).head?.any (· ≠ ';') = false := by
  have hspaces : ∀ c ∈ rest.takeWhile isWhitespace, (decide (c ≠ ';')) = true := by
    intro c hc
    have hw := List.mem_takeWhile_imp hc
    rw [decide_eq_true_eq]
    rintro rfl
    exact absurd hw (by decide)
  rw [trimEnd_eq_nil_iff]
  nth_rewrite 1 [← List.takeWhile_append_dropWhile (p := isWhitespace) (l := rest)]
  rw [List.takeWhile_append_of_pos hspaces]
  cases hrest : rest.dropWhile isWhitespace with
  | nil =>
    simp only [List.takeWhile_nil, List.append_nil, List.head?_nil, Option.any_none, iff_true]
    exact fun c hc => List.mem_takeWhile_imp hc
  | cons d tail =>
    have hd : isWhitespace d = false := head?_dropWhile (s := rest) (by rw [hrest]; rfl)
    by_cases hsemi : d = ';'
    · simp only [hsemi, ne_eq, not_true_eq_false, decide_false, Bool.false_eq_true,
        not_false_eq_true, List.takeWhile_cons_of_neg, List.append_nil, List.head?_cons,
        Option.any_some, iff_true]
      exact fun c hc => List.mem_takeWhile_imp hc
    · simp only [ne_eq, hsemi, not_false_eq_true, decide_true, List.takeWhile_cons_of_pos,
        List.head?_cons, Option.any_some, Bool.true_eq_false, iff_false]
      intro hall
      have := hall d (by simp)
      rw [hd] at this
      cases this

/-- The loader reads the hash of such a line unless stray text follows it. -/
theorem HashLine.entry (hl : HashLine h line token rest) : hashOfEntry line =
    if (rest.dropWhile isWhitespace).head?.any (· ≠ ';') then none else some h := by
  have htoken : ∀ c ∈ token, (decide (c ≠ ';')) = true := by
    intro c hc
    simpa using hexDigit_ne (hl.digits c hc) (by decide : isHexDigit ';' = false)
  have hbody : trim ((trim line).takeWhile (· ≠ ';')) =
      trimEnd (token ++ rest.takeWhile (· ≠ ';')) := by
    rw [hl.split, List.takeWhile_append_of_pos htoken]
    refine trim_eq_trimEnd (fun c hc => ?_)
    have hlen := hl.length
    have hdigits := hl.digits
    cases token with
    | nil => cases hlen
    | cons d token =>
      obtain rfl := Option.some.inj hc
      exact hexDigit_visible (hdigits _ List.mem_cons_self)
  rw [hashOfEntry]
  rw [hl.not_skipped, if_neg Bool.false_ne_true, hbody, trimEnd_append]
  by_cases hblank : trimEnd (rest.takeWhile (· ≠ ';')) = []
  · rw [if_pos hblank, trimEnd_token hl.digits, hl.decodes,
      (blank_before_semicolon_iff rest).mp hblank, if_neg Bool.false_ne_true]
  · have hstray := mt (blank_before_semicolon_iff rest).mpr hblank
    rw [Bool.not_eq_false] at hstray
    rw [if_neg hblank, if_pos hstray]
    cases hdec : (hexDecode (token ++ trimEnd (rest.takeWhile (· ≠ ';')))).bind toHash with
    | none => rfl
    | some h' =>
      have hlen := (token_of_decode hdec).1
      rw [List.length_append, hl.length] at hlen
      exact absurd (List.length_eq_zero_iff.mp (by omega)) hblank

theorem hashLine_of_hashOfEntry (he : hashOfEntry line = some h) :
    ∃ token rest, HashLine h line token rest := by
  rw [hashOfEntry] at he
  split at he
  · cases he
  · have hvisible : ∀ c, ((trim line).takeWhile (· ≠ ';')).head? = some c →
        isWhitespace c = false := by
      intro c hc
      obtain ⟨more, hmore⟩ := List.takeWhile_prefix (· ≠ ';') (l := trim line)
      refine head?_trim (s := line) ?_
      rw [← hmore, List.head?_append, hc]
      rfl
    rw [trim_eq_trimEnd hvisible] at he
    obtain ⟨hlen, hdigits⟩ := token_of_decode he
    refine ⟨_, ((trim line).takeWhile (· ≠ ';')).rtakeWhile isWhitespace ++
      (trim line).dropWhile (· ≠ ';'), ?_, hlen, hdigits, ?_, he⟩
    · rw [← List.append_assoc, trimEnd_append_rtakeWhile, List.takeWhile_append_dropWhile]
    · cases hspace : ((trim line).takeWhile (· ≠ ';')).rtakeWhile isWhitespace with
      | cons c spaces =>
        have hc : isWhitespace c := List.mem_rtakeWhile_imp (l := (trim line).takeWhile (· ≠ ';'))
          (by rw [hspace]; exact List.mem_cons_self)
        cases hhex : isHexDigit c with
        | false => simp [hhex]
        | true =>
          rw [hexDigit_visible hhex] at hc
          cases hc
      | nil =>
        have hnot := List.head?_dropWhile_not (· ≠ ';') (trim line)
        rw [List.nil_append]
        cases hdrop : (trim line).dropWhile (· ≠ ';') with
        | nil => rfl
        | cons c after =>
          rw [hdrop] at hnot
          obtain rfl : c = ';' := by simpa using hnot
          exact (by decide : isHexDigit ';' = false)

/-- The loader reads exactly the lines the update client takes that are not stray. -/
theorem hashOfEntry_eq_some : hashOfEntry line = some h ↔
    hashOfLine line = .hash h ∧ strayHash line = false := by
  constructor
  · intro he
    obtain ⟨token, rest, hl⟩ := hashLine_of_hashOfEntry he
    have hk := hl.hashOfLine
    have hentry := (hashLine_of_hashOfLine hk).entry
    rw [he] at hentry
    refine ⟨hk, ?_⟩
    rw [strayHash, hk, LineKind.isHash, Bool.true_and]
    split at hentry
    · cases hentry
    · rename_i hstray
      exact Bool.eq_false_of_not_eq_true hstray
  · rintro ⟨hk, hstray⟩
    rw [strayHash, hk, LineKind.isHash, Bool.true_and] at hstray
    rw [(hashLine_of_hashOfLine hk).entry, hstray, if_neg Bool.false_ne_true]

theorem isHash_iff : (hashOfLine line).isHash = true ↔ ∃ h, hashOfLine line = .hash h := by
  cases hashOfLine line <;> simp [LineKind.isHash]

theorem hashOfEntry_isSome (line : Str) :
    (hashOfEntry line).isSome = ((hashOfLine line).isHash && !strayHash line) := by
  rw [Bool.eq_iff_iff, Option.isSome_iff_exists, Bool.and_eq_true, isHash_iff]
  simp only [hashOfEntry_eq_some, Bool.not_eq_true', exists_and_right]

/-- The lines taken are those read and the stray ones. -/
theorem countP_taken {β : Type} {taken stray : Str → Bool} {read : Str → Option β}
    (hread : ∀ line, (read line).isSome = (taken line && !stray line))
    (hstray : ∀ line, stray line = true → taken line = true) (ls : List Str) :
    ls.countP taken = (ls.filterMap read).length + ls.countP stray := by
  induction ls with
  | nil => rfl
  | cons line ls ih =>
    rw [List.countP_cons, List.countP_cons, ih]
    have hr := hread line
    have hs := hstray line
    cases hline : read line with
    | some x =>
      rw [hline] at hr
      obtain ⟨ht, hn⟩ := Bool.and_eq_true_iff.mp hr.symm
      rw [Bool.not_eq_true'] at hn
      rw [List.filterMap_cons_some hline, List.length_cons, ht, hn]
      simp only [if_true, Bool.false_eq_true, if_false]
      omega
    | none =>
      rw [hline] at hr
      rw [List.filterMap_cons_none hline]
      cases hst : stray line with
      | true =>
        rw [hs hst]
        omega
      | false =>
        rw [hst] at hr
        have ht : taken line = false := by simpa using hr.symm
        rw [ht]
        omega

/-- A row with two numbers that the loader leaves out: a quoted number, fewer than four fields, or
a country code of less than two bytes. -/
def strayRow (upper : Char → Str) (line : Str) : Bool :=
  csvRowTaken line && match splitn 4 ',' line with
    | [a, b, code, _] =>
      trimMatches '"' (trim a) != trim a || trimMatches '"' (trim b) != trim b ||
        (utf8 ((trim code).flatMap upper)).length < 2
    | _ => true

variable {upper : Char → Str}

theorem parseUnsigned_unquoted {max n : Nat} (hp : parseUnsigned max s = some n) :
    trimMatches '"' s = s := by
  have hdigit : ∀ d : Char, d.isDigit → decide (d = '"') = false := by
    intro d hd
    rw [decide_eq_false_iff_not]
    rintro rfl
    exact absurd hd (by decide)
  have hdigits : ∀ digits : Str, ¬ (digits = [] ∨ ¬ digits.all Char.isDigit) →
      ∀ c ∈ digits, decide (c = '"') = false := by
    intro digits hall c hc
    rw [not_or, not_not, List.all_eq_true] at hall
    exact hdigit c (hall.2 c hc)
  have hnone : ∀ c ∈ s, decide (c = '"') = false := by
    rw [parseUnsigned.eq_def] at hp
    dsimp only at hp
    split at hp
    · split at hp
      · cases hp
      · rename_i hall
        rw [List.forall_mem_cons]
        exact ⟨by decide, hdigits _ hall⟩
    · split at hp
      · cases hp
      · rename_i hall
        exact hdigits s hall
  have hdrop : s.dropWhile (· = '"') = s := by
    cases s with
    | nil => rfl
    | cons c s =>
      rw [List.dropWhile_cons_of_neg]
      rw [hnone c List.mem_cons_self]
      exact Bool.false_ne_true
  rw [trimMatches, hdrop, List.rdropWhile_eq_self_iff]
  intro hne
  rw [hnone _ (List.getLast_mem hne)]
  exact Bool.false_ne_true

theorem parseU32_unquoted (hp : (parseU32 s).isSome) : trimMatches '"' s = s := by
  rw [parseU32, Option.isSome_map, Option.isSome_iff_exists] at hp
  obtain ⟨n, hn⟩ := hp
  exact parseUnsigned_unquoted hn

/-- A number is read with its quotes trimmed, or as it stands. -/
theorem parseU32_isSome (s : Str) : (parseU32 s).isSome =
    ((parseU32 (trimMatches '"' s)).isSome && trimMatches '"' s == s) := by
  cases hp : (parseU32 s).isSome with
  | true => simp [parseU32_unquoted hp, hp]
  | false =>
    by_cases hs : trimMatches '"' s = s
    · simp [hs, hp]
    · simp [hs]

theorem isSome_of_two {α β γ : Type} (x : Option α) (y : Option β) (f : α → β → Option γ) (p : Bool)
    (hf : ∀ a b, (f a b).isSome = p) :
    (x >>= fun a => y >>= fun b => f a b).isSome = (x.isSome && y.isSome && p) := by
  cases x with
  | none => rfl
  | some a =>
    cases y with
    | none => rfl
    | some b => simpa using hf a b

theorem countryRow_isSome (upper : Char → Str) (line : Str) :
    (countryRow upper line).isSome = (csvRowTaken line && !strayRow upper line) := by
  rw [countryRow, strayRow, csvRowTaken]
  rcases splitn 4 ',' line with _ | ⟨a, _ | ⟨b, _ | ⟨code, _ | ⟨name, _ | ⟨more, rest⟩⟩⟩⟩⟩
  case cons.cons.cons.cons.nil =>
    have ha := parseU32_isSome (trim a)
    have hb := parseU32_isSome (trim b)
    refine (isSome_of_two _ _ _
      (!decide ((utf8 ((trim code).flatMap upper)).length < 2)) ?_).trans ?_
    · intro start stop
      rcases utf8 ((trim code).flatMap upper) with _ | ⟨x, _ | ⟨y, more⟩⟩ <;> simp
    simp only [ha, hb, bne]
    generalize (parseU32 (trimMatches '"' (trim a))).isSome = isA
    generalize (parseU32 (trimMatches '"' (trim b))).isSome = isB
    generalize (trimMatches '"' (trim a) == trim a) = bareA
    generalize (trimMatches '"' (trim b) == trim b) = bareB
    cases isA <;> cases isB <;> cases bareA <;> cases bareB <;> rfl
  all_goals simp

theorem strayRow_taken (upper : Char → Str) (line : Str) (hs : strayRow upper line = true) :
    csvRowTaken line = true := by
  rw [strayRow, Bool.and_eq_true] at hs
  exact hs.1

/-- The lines of a file that the update client counts and the loader does not read. -/
def strays (upper : Char → Str) (target : Target) (bytes : List UInt8) : Nat :=
  match target with
  | .hashBanlist | .hashFilter | .whitelistHashes =>
    (lines (fromUtf8Lossy bytes)).countP strayHash
  | .ipToCountry => (entryLines (fromUtf8Lossy bytes)).countP (strayRow upper)
  | _ => 0

variable {R : Readers} {target : Target} {bytes : List UInt8} {n : Nat}

theorem validateHashes_eq {text : Str} (hv : validateHashes target text = .ok n) :
    n = (hashesOf text).length + (lines text).countP strayHash := by
  rw [validateHashes] at hv
  split at hv
  · cases hv
  · split at hv
    · cases hv
    · rw [← Except.ok.inj hv, hashesOf]
      refine countP_taken hashOfEntry_isSome (fun line hs => ?_) (lines text)
      rw [strayHash, Bool.and_eq_true] at hs
      exact hs.1

/-- The number accepted is the number loaded and the stray lines. -/
theorem validate_eq (hv : validate R target bytes = .ok n) :
    n = loaded R upper target bytes + strays upper target bytes := by
  rw [validate] at hv
  split at hv
  · rename_i hmmdb
    subst hmmdb
    split at hv
    · cases hv
    · rename_i nodes resolves hread
      split at hv
      · obtain rfl := Except.ok.inj hv
        simp [loaded, strays, hread, Except.toOption]
      · cases hv
  · split at hv
    · cases hv
    · dsimp only at hv
      cases target with
      | geoipMmdb => cases hv
      | layer2Terms =>
        cases hread : R.layer2 (fromUtf8Lossy bytes) with
        | error e =>
          rw [hread] at hv
          cases hv
        | ok m =>
          rw [hread] at hv
          obtain rfl := Except.ok.inj hv
          simp [loaded, strays, hread, Except.toOption]
      | csamJargon | csamTermsExtra =>
        dsimp only at hv
        split at hv
        · cases hv
        · exact (Except.ok.inj hv).symm
      | guardingP2p =>
        dsimp only at hv
        split at hv
        · cases hv
        · rw [← Except.ok.inj hv]
          exact (List.length_filterMap_eq_countP (f := parseLine)).symm
      | ipToCountry =>
        dsimp only at hv
        split at hv
        · cases hv
        · rw [← Except.ok.inj hv]
          exact countP_taken (countryRow_isSome upper) (strayRow_taken upper) _
      | hashBanlist | hashFilter | whitelistHashes => exact validateHashes_eq hv

end Ed2kServer.Updates.Validate
