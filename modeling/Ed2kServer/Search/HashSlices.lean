import Ed2kServer.Search.HashRef
import Ed2kServer.Text.ByteSlices

namespace Ed2kServer.Search.HashSlices

open Ed2kServer.Text.Chars Ed2kServer.Text.ByteSlices Ed2kServer.Slab.Record
open Ed2kServer.Search.HashRef

/-- How many bytes at the front are digits. -/
def countDigits (t : Str) : Nat :=
  ((utf8 t).takeWhile fun b => decide (48 ≤ b) && decide (b ≤ 57)).length

/-- The number at the front and how many bytes it takes; nothing where a slice panics. -/
def digitsAt (t : Str) : Option (UInt64 × Nat) := do
  let n := countDigits t
  let ds ← sliceTo n t
  return ((digits ds).1, n)

def linkAt (rest : Str) : Option (Option (Str × UInt64)) :=
  match afterBar rest with
  | none => some none
  | some afterName => do
    let (size, n) ← digitsAt afterName
    let tail ← sliceFrom n afterName
    return (afterBar tail).map (·, size)

/-- The hash part and the size of a search, cut out at byte offsets. -/
def partsAt (s : Str) : Option (Option (Str × UInt64)) :=
  if startsIgnoreCase s "ed2k://|file|" then do
    let rest ← sliceFrom 13 s
    linkAt rest
  else if startsIgnoreCase s "<a href= ed2k://|file|" then do
    let rest ← sliceFrom 22 s
    linkAt rest
  else if startsIgnoreCase s "magnet:?xt=urn:ed2khash:" then do
    let hash ← sliceFrom 24 s
    return some (hash, 0)
  else if startsIgnoreCase s "magnet:?xt=urn:ed2k:" then do
    let hash ← sliceFrom 20 s
    return some (hash, 0)
  else if startsIgnoreCase s "ed2k:" then do
    let rest ← sliceFrom 5 s
    let (size, n) ← digitsAt rest
    let tail ← sliceFrom n rest
    match tail with
    | ':' :: hash => return some (hash, size)
    | _ => return none
  else return none

/-- The number of two hexadecimal digits. -/
def fromStrRadix : Str → Option UInt8
  | [a, b] => hexByte a b
  | _ => none

def bytesAt : Nat → Str → Option (List UInt8)
  | 0, _ => some []
  | n + 1, hex => do
    let pair ← sliceTo 2 hex
    let rest ← sliceFrom 2 hex
    let x ← fromStrRadix pair
    let xs ← bytesAt n rest
    return x :: xs

/-- The first 32 bytes, two at a time; `get` gives nothing inside a character. -/
def hashAt (hash : Str) : Option FileHash := do
  let hex ← sliceTo 32 hash
  let bytes ← bytesAt 16 hex
  if h : bytes.length = 16 then return ⟨bytes.toArray, h⟩ else none

/-- The hash and the size of a search by hash; nothing where a slice panics. -/
def ed2kFileRefAt (U : Unicode) (s : Str) : Option (Option (FileHash × UInt64)) :=
  (partsAt (U.trim s)).map fun x => x.bind fun y => (hashAt y.1).map (·, y.2)

/-- The same parts, cut out between characters. -/
def parts (s : Str) : Option (Str × UInt64) :=
  match stripPrefixIgnoreCase s "ed2k://|file|" with
  | some rest => link rest
  | none =>
  match stripPrefixIgnoreCase s "<a href= ed2k://|file|" with
  | some rest => link rest
  | none =>
  match stripPrefixIgnoreCase s "magnet:?xt=urn:ed2khash:" with
  | some rest => some (rest, 0)
  | none =>
  match stripPrefixIgnoreCase s "magnet:?xt=urn:ed2k:" with
  | some rest => some (rest, 0)
  | none =>
  match stripPrefixIgnoreCase s "ed2k:" with
  | some rest =>
    match digits rest with
    | (size, ':' :: hash) => some (hash, size)
    | _ => none
  | none => none

theorem ed2kFileRef_eq (U : Unicode) (s : Str) :
    ed2kFileRef U s = (parts (U.trim s)).bind fun x => (hexHash x.1).map (·, x.2) := by
  rw [ed2kFileRef, parts]
  cases stripPrefixIgnoreCase (U.trim s) "ed2k://|file|" with
  | some rest => simp [Option.map_eq_bind]
  | none =>
  cases stripPrefixIgnoreCase (U.trim s) "<a href= ed2k://|file|" with
  | some rest => simp [Option.map_eq_bind]
  | none =>
  cases stripPrefixIgnoreCase (U.trim s) "magnet:?xt=urn:ed2khash:" with
  | some rest => simp [Option.map_eq_bind]
  | none =>
  cases stripPrefixIgnoreCase (U.trim s) "magnet:?xt=urn:ed2k:" with
  | some rest => simp [Option.map_eq_bind]
  | none =>
  cases stripPrefixIgnoreCase (U.trim s) "ed2k:" with
  | some rest =>
    dsimp only
    generalize digits rest = x
    obtain ⟨size, hash⟩ := x
    cases hash with
    | nil => rfl
    | cons c hash =>
      by_cases hc : c = ':'
      · rw [hc]
        simp [Option.map_eq_bind]
      · simp [hc]
  | none => rfl

theorem byteIsDigit {c : Char} (h : c.isDigit = true) :
    ∃ b, String.utf8EncodeChar c = [b] ∧ (decide (48 ≤ b) && decide (b ≤ 57)) = true := by
  rw [Char.isDigit, Bool.and_eq_true, decide_eq_true_iff, decide_eq_true_iff] at h
  have hlo := UInt32.le_iff_toNat_le.mp h.1
  have hhi := UInt32.le_iff_toNat_le.mp h.2
  have hc : 48 ≤ c.toNat ∧ c.toNat ≤ 57 := ⟨hlo, hhi⟩
  refine ⟨_, utf8EncodeChar_ascii (by omega), ?_⟩
  rw [Bool.and_eq_true, decide_eq_true_iff, decide_eq_true_iff, UInt8.le_iff_toNat_le,
    UInt8.le_iff_toNat_le, UInt8.toNat_ofNat', Nat.mod_eq_of_lt (by omega)]
  exact hc

theorem byteIsNoDigit {c : Char} (h : c.isDigit = false) :
    ∃ b rest, String.utf8EncodeChar c = b :: rest ∧
      (decide (48 ≤ b) && decide (b ≤ 57)) = false := by
  by_cases hc : c.toNat < 128
  · refine ⟨_, _, utf8EncodeChar_ascii hc, ?_⟩
    rw [← Bool.not_eq_true] at h ⊢
    rw [Char.isDigit, Bool.and_eq_true, decide_eq_true_iff, decide_eq_true_iff] at h
    rw [Bool.and_eq_true, decide_eq_true_iff, decide_eq_true_iff, UInt8.le_iff_toNat_le,
      UInt8.le_iff_toNat_le, UInt8.toNat_ofNat', Nat.mod_eq_of_lt (by omega)]
    exact fun hb => h ⟨UInt32.le_iff_toNat_le.mpr hb.1, UInt32.le_iff_toNat_le.mpr hb.2⟩
  · obtain ⟨b, rest, hb, hwide⟩ := utf8EncodeChar_wide (by omega : 128 ≤ c.toNat)
    refine ⟨b, rest, hb, ?_⟩
    rw [← Bool.not_eq_true, Bool.and_eq_true, decide_eq_true_iff, decide_eq_true_iff,
      UInt8.le_iff_toNat_le, UInt8.le_iff_toNat_le]
    have h57 : (57 : UInt8).toNat = 57 := rfl
    omega

theorem countDigits_eq (t : Str) : countDigits t = (utf8 (t.takeWhile Char.isDigit)).length := by
  induction t with
  | nil => rfl
  | cons c t ih =>
    rw [countDigits] at ih ⊢
    rw [utf8_cons]
    cases hc : c.isDigit with
    | true =>
      obtain ⟨b, hb, hdigit⟩ := byteIsDigit hc
      rw [List.takeWhile_cons, if_pos hc, utf8_cons, hb, List.singleton_append,
        List.takeWhile_cons, if_pos hdigit, List.length_cons, ih]
      rfl
    | false =>
      obtain ⟨b, rest, hb, hdigit⟩ := byteIsNoDigit hc
      rw [List.takeWhile_cons, if_neg (by rw [hc]; exact Bool.false_ne_true), hb,
        List.cons_append, List.takeWhile_cons, if_neg (by rw [hdigit]; exact Bool.false_ne_true)]
      rfl

theorem digits_takeWhile (t : Str) : (digits (t.takeWhile Char.isDigit)).1 = (digits t).1 := by
  have htake : (t.takeWhile Char.isDigit).takeWhile Char.isDigit = t.takeWhile Char.isDigit := by
    rw [List.takeWhile_takeWhile]
    simp
  rw [digits, digits, htake]

/-- The number is cut out, and what follows it, between characters. -/
theorem digitsAt_eq (t : Str) :
    digitsAt t = some ((digits t).1, countDigits t) ∧
      sliceFrom (countDigits t) t = some (digits t).2 := by
  have hto := sliceTo_append (t.takeWhile Char.isDigit) (t.dropWhile Char.isDigit)
  have hfrom := sliceFrom_append (t.takeWhile Char.isDigit) (t.dropWhile Char.isDigit)
  rw [List.takeWhile_append_dropWhile, ← countDigits_eq] at hto hfrom
  refine ⟨?_, hfrom⟩
  simp only [digitsAt, hto, Option.bind_eq_bind, Option.bind_some, digits_takeWhile]
  rfl

theorem linkAt_eq (rest : Str) : linkAt rest = some (link rest) := by
  rw [linkAt, link]
  cases afterBar rest with
  | none => rfl
  | some afterName =>
    obtain ⟨hdigits, htail⟩ := digitsAt_eq afterName
    simp only [hdigits, Option.bind_eq_bind, Option.bind_some, htail]
    cases afterBar (digits afterName).2 <;> rfl

theorem stripPrefixIgnoreCase_eq_some {s rest : Str} {q : String} :
    stripPrefixIgnoreCase s q = some rest ↔
      ∃ p, toAsciiLowercase p = toAsciiLowercase q.toList ∧ s = p ++ rest := by
  rw [stripPrefixIgnoreCase]
  constructor
  · intro h
    split_ifs at h with hp
    obtain rfl := Option.some.inj h
    exact ⟨s.take q.length, hp, (List.take_append_drop _ s).symm⟩
  · rintro ⟨p, hp, rfl⟩
    have hlen : p.length = q.length := by
      have h := congrArg List.length hp
      rwa [toAsciiLowercase, toAsciiLowercase, List.length_map, List.length_map,
        String.length_toList] at h
    rw [List.take_left' hlen, if_pos hp, List.drop_left' hlen]

/-- Where the bytes begin with a prefix, its end is no offset inside a character. -/
theorem startsIgnoreCase_eq {q : String} (hq : isAscii q.toList = true) (s : Str) :
    startsIgnoreCase s q = (stripPrefixIgnoreCase s q).isSome ∧
      ∀ rest, stripPrefixIgnoreCase s q = some rest → sliceFrom q.length s = some rest := by
  have hlen : (utf8 q.toList).length = q.length := by
    rw [length_utf8_ascii hq, String.length_toList]
  have htakes := takes_iff hq s
  rw [String.length_toList] at htakes
  constructor
  · rw [Bool.eq_iff_iff, startsIgnoreCase, Bool.and_eq_true, decide_eq_true_iff, beq_iff_eq, htakes,
      stripPrefixIgnoreCase]
    constructor
    · rintro ⟨-, h⟩
      rw [if_pos h]
      rfl
    · intro h
      split_ifs at h with hp
      · refine ⟨?_, hp⟩
        have hbytes := congrArg List.length (htakes.mpr hp)
        rw [List.length_map, List.length_map, List.length_take] at hbytes
        omega
      · cases h
  · intro rest h
    obtain ⟨p, hp, rfl⟩ := stripPrefixIgnoreCase_eq_some.mp h
    have hascii := isAscii_of_lowercase_eq hq hp
    have hp := congrArg List.length hp
    rw [toAsciiLowercase, toAsciiLowercase, List.length_map, List.length_map,
      String.length_toList] at hp
    have hslice := sliceFrom_append p rest
    rwa [length_utf8_ascii hascii, hp] at hslice

theorem partsAt_eq (s : Str) : partsAt s = some (parts s) := by
  have hcut : ∀ q : String, isAscii q.toList = true →
      startsIgnoreCase s q = (stripPrefixIgnoreCase s q).isSome ∧
        ∀ rest, stripPrefixIgnoreCase s q = some rest → sliceFrom q.length s = some rest :=
    fun q hq => startsIgnoreCase_eq hq s
  obtain ⟨hlink, hlinkAt⟩ := hcut "ed2k://|file|" (by decide)
  obtain ⟨hanchor, hanchorAt⟩ := hcut "<a href= ed2k://|file|" (by decide)
  obtain ⟨hmagnetHash, hmagnetHashAt⟩ := hcut "magnet:?xt=urn:ed2khash:" (by decide)
  obtain ⟨hmagnet, hmagnetAt⟩ := hcut "magnet:?xt=urn:ed2k:" (by decide)
  obtain ⟨hed2k, hed2kAt⟩ := hcut "ed2k:" (by decide)
  rw [partsAt, parts, hlink, hanchor, hmagnetHash, hmagnet, hed2k]
  cases hrest : stripPrefixIgnoreCase s "ed2k://|file|" with
  | some rest => exact (congrArg (Option.bind · linkAt) (hlinkAt rest hrest)).trans (linkAt_eq rest)
  | none =>
  cases hrest : stripPrefixIgnoreCase s "<a href= ed2k://|file|" with
  | some rest =>
    exact (congrArg (Option.bind · linkAt) (hanchorAt rest hrest)).trans (linkAt_eq rest)
  | none =>
  cases hrest : stripPrefixIgnoreCase s "magnet:?xt=urn:ed2khash:" with
  | some rest =>
    exact congrArg (Option.bind · fun hash => some (some (hash, 0))) (hmagnetHashAt rest hrest)
  | none =>
  cases hrest : stripPrefixIgnoreCase s "magnet:?xt=urn:ed2k:" with
  | some rest =>
    exact congrArg (Option.bind · fun hash => some (some (hash, 0))) (hmagnetAt rest hrest)
  | none =>
  cases hrest : stripPrefixIgnoreCase s "ed2k:" with
  | some rest =>
    have hfive : sliceFrom 5 s = some rest := hed2kAt rest hrest
    obtain ⟨hdigits, htail⟩ := digitsAt_eq rest
    simp only [Option.isSome_none, Option.isSome_some, Bool.false_eq_true, if_false, if_true, hfive,
      Option.bind_eq_bind, Option.bind_some, hdigits, htail]
    split <;> rename_i heq
    · rw [← Prod.mk.eta (p := digits rest), heq]
      rfl
    · split
      · rename_i hdigits'
        exact absurd (congrArg Prod.snd hdigits') (heq _)
      · rfl
  | none => rfl

theorem hexValue_ascii {c : Char} {n : Nat} (h : hexValue c = some n) : c.toNat < 128 := by
  rw [hexValue] at h
  split_ifs at h with hd hl
  · rw [Char.isDigit, Bool.and_eq_true, decide_eq_true_iff, decide_eq_true_iff] at hd
    have hhi := UInt32.le_iff_toNat_le.mp hd.2
    have hc : c.toNat ≤ 57 := hhi
    omega
  · have hhi : c.toLower.toNat ≤ 'f'.toNat := UInt32.le_iff_toNat_le.mp hl.2
    have hf : 'f'.toNat = 102 := rfl
    exact (toLower_lt_iff c).mp (by omega)

theorem utf8Size_ascii {c : Char} (h : c.toNat < 128) : c.utf8Size = 1 := by
  rw [← String.length_utf8EncodeChar, utf8EncodeChar_ascii h, List.length_singleton]

theorem hexByte_size {a b : Char} {x : UInt8} (h : hexByte a b = some x) :
    a.utf8Size = 1 ∧ b.utf8Size = 1 := by
  obtain ⟨lo, hlo, h⟩ := Option.bind_eq_some_iff.mp h
  refine ⟨?_, utf8Size_ascii (hexValue_ascii hlo)⟩
  split_ifs at h with ha
  · rw [ha]
    rfl
  · obtain ⟨hi, hhi, -⟩ := Option.bind_eq_some_iff.mp h
    exact utf8Size_ascii (hexValue_ascii hhi)

theorem bytesAt_cons {a b : Char} {x : UInt8} (h : hexByte a b = some x) (n : Nat) (s : Str) :
    (sliceTo (2 * (n + 1)) (a :: b :: s)).bind (bytesAt (n + 1)) =
      ((sliceTo (2 * n) s).bind (bytesAt n)).map (x :: ·) := by
  obtain ⟨ha, hb⟩ := hexByte_size h
  have hcut : sliceTo (2 * (n + 1)) (a :: b :: s) = (sliceTo (2 * n) s).map (a :: b :: ·) := by
    rw [show 2 * (n + 1) = 2 * n + 1 + 1 from rfl, sliceTo, ha, if_pos (by omega),
      Nat.add_sub_cancel, sliceTo, hb, if_pos (by omega), Nat.add_sub_cancel, Option.map_map]
    rfl
  have hto : ∀ t, sliceTo 2 (a :: b :: t) = some [a, b] := by
    intro t
    rw [sliceTo, ha, if_pos (by omega), sliceTo, hb, if_pos (by omega)]
    cases t <;> rfl
  have hfrom : ∀ t, sliceFrom 2 (a :: b :: t) = some t := by
    intro t
    rw [sliceFrom, ha, if_pos (by omega), sliceFrom, hb, if_pos (by omega)]
    cases t <;> rfl
  rw [hcut]
  cases sliceTo (2 * n) s with
  | none => rfl
  | some t =>
    rw [Option.map_some, Option.bind_some, Option.bind_some, bytesAt, hto, hfrom]
    simp only [Option.bind_eq_bind, Option.bind_some, fromStrRadix, h]
    cases bytesAt n t <;> rfl

theorem prefix_of_sliceTo {n : Nat} {s t : Str} (h : sliceTo n s = some t) : t <+: s := by
  induction s generalizing n t with
  | nil =>
    cases n with
    | zero =>
      obtain rfl := Option.some.inj h
      exact List.nil_prefix
    | succ n => cases h
  | cons c s ih =>
    cases n with
    | zero =>
      obtain rfl := Option.some.inj h
      exact List.nil_prefix
    | succ n =>
      rw [sliceTo] at h
      split_ifs at h
      obtain ⟨t', ht', rfl⟩ := Option.map_eq_some_iff.mp h
      exact List.prefix_cons_inj c |>.mpr (ih ht')

theorem two_of_fromStrRadix {pair : Str} {x : UInt8} (h : fromStrRadix pair = some x) :
    ∃ a b, pair = [a, b] :=
  match pair, h with
  | [], h => nomatch h
  | [_], h => nomatch h
  | [a, b], _ => ⟨a, b, rfl⟩
  | _ :: _ :: _ :: _, h => nomatch h

theorem bytesAt_iff (n : Nat) (s : Str) (bytes : List UInt8) :
    (sliceTo (2 * n) s).bind (bytesAt n) = some bytes ↔
      hexBytes (s.take (2 * n)) = some bytes ∧ bytes.length = n := by
  induction n generalizing s bytes with
  | zero =>
    have hcut : sliceTo (2 * 0) s = some [] := by cases s <;> rfl
    rw [hcut]
    constructor
    · intro h
      obtain rfl := Option.some.inj h
      exact ⟨rfl, rfl⟩
    · rintro ⟨h, -⟩
      exact h
  | succ n ih =>
    have hstep : ∀ {a b : Char} {x : UInt8} {s : Str}, hexByte a b = some x →
        ((sliceTo (2 * (n + 1)) (a :: b :: s)).bind (bytesAt (n + 1)) = some bytes ↔
          hexBytes ((a :: b :: s).take (2 * (n + 1))) = some bytes ∧ bytes.length = n + 1) := by
      intro a b x s hx
      have htake : (a :: b :: s).take (2 * (n + 1)) = a :: b :: s.take (2 * n) := rfl
      rw [bytesAt_cons hx, htake, hexBytes, hx]
      constructor
      · intro h
        obtain ⟨xs, hxs, rfl⟩ := Option.map_eq_some_iff.mp h
        obtain ⟨hread, rfl⟩ := (ih s xs).mp hxs
        exact ⟨by rw [hread]; rfl, rfl⟩
      · rintro ⟨h, hlen⟩
        change ((hexBytes (s.take (2 * n))).bind fun xs => some (x :: xs)) = some bytes at h
        obtain ⟨xs, hxs, h⟩ := Option.bind_eq_some_iff.mp h
        obtain rfl := Option.some.inj h
        rw [(ih s xs).mpr ⟨hxs, Nat.succ.inj hlen⟩]
        rfl
    constructor
    · intro h
      obtain ⟨hex, hhex, hbytes⟩ := Option.bind_eq_some_iff.mp h
      obtain ⟨pair, hpair, hbytes⟩ := Option.bind_eq_some_iff.mp hbytes
      obtain ⟨rest, -, hbytes⟩ := Option.bind_eq_some_iff.mp hbytes
      obtain ⟨x, hx, -⟩ := Option.bind_eq_some_iff.mp hbytes
      obtain ⟨a, b, rfl⟩ := two_of_fromStrRadix hx
      obtain ⟨t, rfl⟩ := (prefix_of_sliceTo hpair).trans (prefix_of_sliceTo hhex)
      exact (hstep hx).mp h
    · rintro ⟨h, hlen⟩
      match s, h with
      | [], h =>
        obtain rfl := Option.some.inj h
        cases hlen
      | [c], h => cases h
      | a :: b :: s, h =>
        obtain ⟨x, hx, -⟩ := Option.bind_eq_some_iff.mp h
        exact (hstep hx).mpr ⟨h, hlen⟩

theorem hashAt_eq (hash : Str) : hashAt hash = hexHash hash := by
  have hsame := bytesAt_iff 16 hash
  refine Option.ext fun h => ?_
  constructor
  · intro hh
    obtain ⟨hex, hhex, hh⟩ := Option.bind_eq_some_iff.mp hh
    obtain ⟨bytes, hbytes, hh⟩ := Option.bind_eq_some_iff.mp hh
    have hlen : bytes.length = 16 := by
      split_ifs at hh with hlen
      exact hlen
    have hread := (hsame bytes).mp (Option.bind_eq_some_iff.mpr ⟨hex, hhex, hbytes⟩)
    exact Option.bind_eq_some_iff.mpr ⟨bytes, hread.1, hh⟩
  · intro hh
    obtain ⟨bytes, hbytes, hh⟩ := Option.bind_eq_some_iff.mp hh
    have hlen : bytes.length = 16 := by
      split_ifs at hh with hlen
      exact hlen
    obtain ⟨hex, hhex, hread⟩ := Option.bind_eq_some_iff.mp ((hsame bytes).mpr ⟨hbytes, hlen⟩)
    exact Option.bind_eq_some_iff.mpr ⟨hex, hhex, Option.bind_eq_some_iff.mpr ⟨bytes, hread, hh⟩⟩

/-- No slice of a search by hash panics. -/
theorem ed2kFileRefAt_eq (U : Unicode) (s : Str) :
    ed2kFileRefAt U s = some (ed2kFileRef U s) := by
  rw [ed2kFileRefAt, partsAt_eq, Option.map_some, ed2kFileRef_eq]
  simp only [hashAt_eq]

end Ed2kServer.Search.HashSlices
