import Ed2kServer.Search.HashSlices

namespace Ed2kServer.Search.HashForms

open Ed2kServer.Text.Chars Ed2kServer.Slab.Record
open Ed2kServer.Search.HashRef Ed2kServer.Search.HashSlices

/-- The documented forms of a string that names a file: its size field and its hash part. -/
inductive Names : Str → Str → Str → Prop
  | ed2k {p size hash : Str} (hp : toAsciiLowercase p = "ed2k:".toList)
      (hsize : size.all Char.isDigit = true) : Names (p ++ (size ++ ':' :: hash)) size hash
  | link {p name size hash : Str} (hp : toAsciiLowercase p = "ed2k://|file|".toList)
      (hname : '|' ∉ name) (hsize : '|' ∉ size) :
      Names (p ++ (name ++ '|' :: (size ++ '|' :: hash))) size hash
  | anchor {p name size hash : Str} (hp : toAsciiLowercase p = "<a href= ed2k://|file|".toList)
      (hname : '|' ∉ name) (hsize : '|' ∉ size) :
      Names (p ++ (name ++ '|' :: (size ++ '|' :: hash))) size hash
  | magnetHash {p hash : Str} (hp : toAsciiLowercase p = "magnet:?xt=urn:ed2khash:".toList) :
      Names (p ++ hash) [] hash
  | magnet {p hash : Str} (hp : toAsciiLowercase p = "magnet:?xt=urn:ed2k:".toList) :
      Names (p ++ hash) [] hash

/-- The number a run of digits stands for, 0 when there is none. -/
def decimal (ds : Str) : Nat := ds.foldl (fun n c => n * 10 + (c.toNat - '0'.toNat)) 0

/-- Two hexadecimal digits for each byte. -/
inductive Spells : Str → List UInt8 → Prop
  | nil : Spells [] []
  | cons {a b : Char} {hi lo : Nat} {ds : Str} {bytes : List UInt8} (ha : hexValue a = some hi)
      (hb : hexValue b = some lo) (h : Spells ds bytes) :
      Spells (a :: b :: ds) (UInt8.ofNat (hi * 16 + lo) :: bytes)

/-- The string names the file of this hash and this size, 0 when it gives none. -/
def IsFileRef (U : Unicode) (s : Str) (h : FileHash) (n : UInt64) : Prop :=
  ∃ size hash, Names (U.trim s) size hash ∧ size.all Char.isDigit = true ∧
    n.toNat = decimal size ∧ Spells (hash.take 32) h.toList

/-- Each two characters are hexadecimal digits, or a plus and one such digit. -/
def pairsRead : Str → Bool
  | a :: b :: ds => ((hexValue a).isSome || a == '+') && (hexValue b).isSome && pairsRead ds
  | [] => true
  | [_] => false

/-- Where the hash part can be read, it is without a plus and the size is a number that fits. -/
def Clean (U : Unicode) (s : Str) : Prop :=
  ∀ size hash, Names (U.trim s) size hash → (hash.take 32).length = 32 →
    pairsRead (hash.take 32) = true →
      '+' ∉ hash.take 32 ∧ size.all Char.isDigit = true ∧ decimal size < 2 ^ 64

theorem afterBar_append {name : Str} (h : '|' ∉ name) (rest : Str) :
    afterBar (name ++ '|' :: rest) = some rest := by
  have hdrop : (name ++ '|' :: rest).dropWhile (· ≠ '|') = '|' :: rest := by
    rw [List.dropWhile_append_of_pos]
    · rfl
    · intro c hc
      exact decide_eq_true fun heq => h (heq ▸ hc)
  rw [afterBar, hdrop]

theorem afterBar_eq_some {s rest : Str} (h : afterBar s = some rest) :
    ∃ name, '|' ∉ name ∧ s = name ++ '|' :: rest := by
  have hsplit := List.takeWhile_append_dropWhile (p := (· ≠ '|')) (l := s)
  rw [afterBar] at h
  split at h
  · rename_i c rest' hdrop
    obtain rfl := Option.some.inj h
    have hbar : c = '|' := by
      have hhead := List.head?_dropWhile_not (fun c : Char => decide (c ≠ '|')) s
      rw [hdrop, List.head?_cons] at hhead
      simpa using hhead
    refine ⟨s.takeWhile (· ≠ '|'), ?_, ?_⟩
    · intro hmem
      have := List.mem_takeWhile_imp hmem
      simp at this
    · rw [hbar] at hdrop
      rw [← hdrop, hsplit]
  · cases h

theorem takeWhile_digits {ds : Str} (h : ds.all Char.isDigit = true) (rest : Str) :
    (ds ++ ':' :: rest).takeWhile Char.isDigit = ds := by
  rw [List.takeWhile_append_of_pos (List.all_eq_true.mp h)]
  exact List.append_nil ds

theorem dropWhile_digits {ds : Str} (h : ds.all Char.isDigit = true) (rest : Str) :
    (ds ++ ':' :: rest).dropWhile Char.isDigit = ':' :: rest := by
  rw [List.dropWhile_append_of_pos (List.all_eq_true.mp h)]
  rfl

theorem digits_takeWhile_bar (t : Str) :
    digits (t.takeWhile (· ≠ '|')) = ((digits t).1, (digits (t.takeWhile (· ≠ '|'))).2) := by
  have htake : (t.takeWhile (· ≠ '|')).takeWhile Char.isDigit = t.takeWhile Char.isDigit := by
    rw [List.takeWhile_takeWhile]
    congr 1
    funext c
    by_cases hc : c.isDigit = true
    · have hne : c ≠ '|' := by
        rintro rfl
        exact absurd hc (by decide)
      simp [hc, hne]
    · simp [hc]
  rw [digits, digits, htake]

/-- There is no bar among the digits. -/
theorem afterBar_digits (t : Str) : afterBar (digits t).2 = afterBar t := by
  have hdrop : (t.dropWhile Char.isDigit).dropWhile (· ≠ '|') = t.dropWhile (· ≠ '|') := by
    induction t with
    | nil => rfl
    | cons c t ih =>
      by_cases hc : c.isDigit = true
      · have hne : c ≠ '|' := by
          rintro rfl
          exact absurd hc (by decide)
        rw [List.dropWhile_cons, if_pos hc, ih, List.dropWhile_cons, if_pos (decide_eq_true hne)]
      · rw [List.dropWhile_cons, if_neg hc]
  rw [afterBar, digits, hdrop]
  rfl

/-- The size field of a link, as it stands, and its hash part. -/
def linkFields (rest : Str) : Option (Str × Str) := do
  let afterName ← afterBar rest
  let hash ← afterBar afterName
  return (afterName.takeWhile (· ≠ '|'), hash)

def fields (s : Str) : Option (Str × Str) :=
  match stripPrefixIgnoreCase s "ed2k://|file|" with
  | some rest => linkFields rest
  | none =>
  match stripPrefixIgnoreCase s "<a href= ed2k://|file|" with
  | some rest => linkFields rest
  | none =>
  match stripPrefixIgnoreCase s "magnet:?xt=urn:ed2khash:" with
  | some rest => some ([], rest)
  | none =>
  match stripPrefixIgnoreCase s "magnet:?xt=urn:ed2k:" with
  | some rest => some ([], rest)
  | none =>
  match stripPrefixIgnoreCase s "ed2k:" with
  | some rest =>
    match rest.dropWhile Char.isDigit with
    | ':' :: hash => some (rest.takeWhile Char.isDigit, hash)
    | _ => none
  | none => none

theorem link_eq (rest : Str) :
    link rest = (linkFields rest).map fun x => (x.2, (digits x.1).1) := by
  rw [link, linkFields]
  cases afterBar rest with
  | none => rfl
  | some afterName =>
    have hsize := congrArg Prod.fst (digits_takeWhile_bar afterName)
    simp only [Option.bind_eq_bind, Option.bind_some, afterBar_digits]
    cases afterBar afterName with
    | none => rfl
    | some hash => exact congrArg (fun n => some (hash, n)) hsize.symm

theorem parts_eq (s : Str) :
    parts s = (fields s).map fun x => (x.2, (digits x.1).1) := by
  rw [parts, fields]
  cases stripPrefixIgnoreCase s "ed2k://|file|" with
  | some rest => exact link_eq rest
  | none =>
  cases stripPrefixIgnoreCase s "<a href= ed2k://|file|" with
  | some rest => exact link_eq rest
  | none =>
  cases stripPrefixIgnoreCase s "magnet:?xt=urn:ed2khash:" with
  | some rest => rfl
  | none =>
  cases stripPrefixIgnoreCase s "magnet:?xt=urn:ed2k:" with
  | some rest => rfl
  | none =>
  cases stripPrefixIgnoreCase s "ed2k:" with
  | some rest =>
    have hdigits : digits rest =
        ((digits (rest.takeWhile Char.isDigit)).1, rest.dropWhile Char.isDigit) := by
      rw [digits_takeWhile]
      rfl
    simp only [hdigits]
    split <;> rename_i heq
    · obtain ⟨hsize, htail⟩ := Prod.mk.inj heq
      rw [htail, ← hsize]
      rfl
    · split
      · rename_i hash hdrop
        exact (heq _ hash (Prod.ext rfl hdrop)).elim
      · rfl
  | none => rfl

theorem takeWhile_bar {size : Str} (h : '|' ∉ size) (rest : Str) :
    (size ++ '|' :: rest).takeWhile (· ≠ '|') = size := by
  rw [List.takeWhile_append_of_pos]
  · simp
  · intro c hc
    exact decide_eq_true fun heq => h (heq ▸ hc)

theorem linkFields_eq_some {rest size hash : Str} :
    linkFields rest = some (size, hash) ↔
      ∃ name, '|' ∉ name ∧ '|' ∉ size ∧ rest = name ++ '|' :: (size ++ '|' :: hash) := by
  constructor
  · intro h
    obtain ⟨afterName, hname, h⟩ := Option.bind_eq_some_iff.mp h
    obtain ⟨hash', hhash, h⟩ := Option.bind_eq_some_iff.mp h
    obtain ⟨rfl, rfl⟩ := Prod.mk.inj (Option.some.inj h)
    obtain ⟨name, hbar, rfl⟩ := afterBar_eq_some hname
    obtain ⟨size, hsize, rfl⟩ := afterBar_eq_some hhash
    rw [takeWhile_bar hsize]
    exact ⟨name, hbar, hsize, rfl⟩
  · rintro ⟨name, hname, hsize, rfl⟩
    simp only [linkFields, afterBar_append hname, Option.bind_eq_bind, Option.bind_some,
      afterBar_append hsize, takeWhile_bar hsize]
    rfl

/-- A string that begins with one prefix does not begin with another one that differs from it. -/
theorem strip_eq_none {p rest : Str} {q r : String} (hp : toAsciiLowercase p = q.toList)
    (hqr : ¬q.toList <+: toAsciiLowercase r.toList ∧ ¬toAsciiLowercase r.toList <+: q.toList) :
    stripPrefixIgnoreCase (p ++ rest) r = none := by
  rw [← Option.not_isSome_iff_eq_none, Option.isSome_iff_exists]
  rintro ⟨rest', h⟩
  obtain ⟨p', hp', heq⟩ := stripPrefixIgnoreCase_eq_some.mp h
  have hlower := congrArg toAsciiLowercase heq
  rw [toAsciiLowercase, List.map_append, toAsciiLowercase, List.map_append] at hlower
  change toAsciiLowercase p ++ _ = toAsciiLowercase p' ++ _ at hlower
  rw [hp, hp'] at hlower
  have hboth := List.prefix_or_prefix_of_prefix (List.prefix_append q.toList _)
    (hlower ▸ List.prefix_append (toAsciiLowercase r.toList) _)
  exact hboth.elim hqr.1 hqr.2

theorem toLower_slash {c : Char} (h : c.toLower = '/') : c = '/' := by
  rw [Char.toLower] at h
  split at h
  · rename_i hup
    have hlo := UInt32.le_iff_toNat_le.mp hup.1
    have hhi := UInt32.le_iff_toNat_le.mp hup.2
    have hval := congrArg (fun c : Char => c.val.toNat) h
    simp only [UInt32.toNat_add] at hval
    simp at hlo hhi hval
    omega
  · exact h

/-- What follows the keyword and its digits is a colon, and not a slash. -/
theorem strip_link_eq_none {p size : Str} (hp : toAsciiLowercase p = "ed2k:".toList)
    (hsize : size.all Char.isDigit = true) (hash : Str) :
    stripPrefixIgnoreCase (p ++ (size ++ ':' :: hash)) "ed2k://|file|" = none := by
  rw [← Option.not_isSome_iff_eq_none, Option.isSome_iff_exists]
  rintro ⟨rest, h⟩
  obtain ⟨q, hq, heq⟩ := stripPrefixIgnoreCase_eq_some.mp h
  have hlower := congrArg toAsciiLowercase heq
  rw [toAsciiLowercase, List.map_append, List.map_append, toAsciiLowercase, List.map_append]
    at hlower
  change toAsciiLowercase p ++ _ = toAsciiLowercase q ++ _ at hlower
  rw [hp, hq] at hlower
  have hslash : (toAsciiLowercase (size ++ ':' :: hash)).head? = some '/' := by
    have h := congrArg (·[5]?) hlower
    rw [toAsciiLowercase, List.map_append, List.head?_eq_getElem?]
    exact h
  cases size with
  | nil => exact absurd (toLower_slash (Option.some.inj hslash)) (by decide)
  | cons c size =>
    rw [List.all_cons, Bool.and_eq_true, toLower_slash (Option.some.inj hslash)] at hsize
    exact absurd hsize.1 (by decide)

theorem names_iff {s size hash : Str} : Names s size hash ↔ fields s = some (size, hash) := by
  constructor
  · rintro (⟨hp, hsize⟩ | ⟨hp, hname, hsize⟩ | ⟨hp, hname, hsize⟩ | hp | hp)
    · rw [fields, strip_link_eq_none hp hsize, strip_eq_none hp (by decide),
        strip_eq_none hp (by decide), strip_eq_none hp (by decide),
        stripPrefixIgnoreCase_eq_some.mpr ⟨_, hp, rfl⟩]
      simp only [takeWhile_digits hsize, dropWhile_digits hsize]
    · rw [fields, stripPrefixIgnoreCase_eq_some.mpr ⟨_, hp, rfl⟩]
      exact linkFields_eq_some.mpr ⟨_, hname, hsize, rfl⟩
    · rw [fields, strip_eq_none hp (by decide), stripPrefixIgnoreCase_eq_some.mpr ⟨_, hp, rfl⟩]
      exact linkFields_eq_some.mpr ⟨_, hname, hsize, rfl⟩
    · rw [fields, strip_eq_none hp (by decide), strip_eq_none hp (by decide),
        stripPrefixIgnoreCase_eq_some.mpr ⟨_, hp, rfl⟩]
    · rw [fields, strip_eq_none hp (by decide), strip_eq_none hp (by decide),
        strip_eq_none hp (by decide), stripPrefixIgnoreCase_eq_some.mpr ⟨_, hp, rfl⟩]
  · intro h
    rw [fields] at h
    split at h
    · rename_i rest hrest
      obtain ⟨p, hp, rfl⟩ := stripPrefixIgnoreCase_eq_some.mp hrest
      obtain ⟨name, hname, hsize, rfl⟩ := linkFields_eq_some.mp h
      exact .link hp hname hsize
    split at h
    · rename_i rest hrest
      obtain ⟨p, hp, rfl⟩ := stripPrefixIgnoreCase_eq_some.mp hrest
      obtain ⟨name, hname, hsize, rfl⟩ := linkFields_eq_some.mp h
      exact .anchor hp hname hsize
    split at h
    · rename_i rest hrest
      obtain ⟨p, hp, rfl⟩ := stripPrefixIgnoreCase_eq_some.mp hrest
      obtain ⟨rfl, rfl⟩ := Prod.mk.inj (Option.some.inj h)
      exact .magnetHash hp
    split at h
    · rename_i rest hrest
      obtain ⟨p, hp, rfl⟩ := stripPrefixIgnoreCase_eq_some.mp hrest
      obtain ⟨rfl, rfl⟩ := Prod.mk.inj (Option.some.inj h)
      exact .magnet hp
    split at h
    · rename_i rest hrest
      obtain ⟨p, hp, rfl⟩ := stripPrefixIgnoreCase_eq_some.mp hrest
      split at h
      · rename_i hash' hdrop
        obtain ⟨rfl, rfl⟩ := Prod.mk.inj (Option.some.inj h)
        have hsplit := List.takeWhile_append_dropWhile (p := Char.isDigit) (l := rest)
        rw [hdrop] at hsplit
        have hall : (rest.takeWhile Char.isDigit).all Char.isDigit = true := List.all_takeWhile
        have hnames : Names (p ++ (_ ++ ':' :: hash')) _ hash' := .ed2k hp hall
        rwa [hsplit] at hnames
      · cases h
    · cases h

theorem hexValue_plus : hexValue '+' = none := by decide

theorem hexByte_eq {a : Char} (h : a ≠ '+') (b : Char) :
    hexByte a b =
      (hexValue b).bind fun lo => (hexValue a).map fun hi => UInt8.ofNat (hi * 16 + lo) := by
  simp only [hexByte, if_neg h]
  cases hexValue b with
  | none => rfl
  | some lo => cases hexValue a <;> rfl

theorem hexByte_isSome (a b : Char) :
    (hexByte a b).isSome = (((hexValue a).isSome || a == '+') && (hexValue b).isSome) := by
  by_cases ha : a = '+'
  · subst ha
    simp only [hexByte]
    cases hexValue b <;> rfl
  · rw [hexByte_eq ha, beq_false_of_ne ha, Bool.or_false]
    cases hexValue b with
    | none => simp
    | some lo => cases hexValue a <;> rfl

theorem hexBytes_cons (a b : Char) (ds : Str) :
    hexBytes (a :: b :: ds) = (hexByte a b).bind fun x => (hexBytes ds).map (x :: ·) := by
  rw [hexBytes]
  cases hexByte a b with
  | none => rfl
  | some x => cases hexBytes ds <;> rfl

theorem hexBytes_isSome (ds : Str) : (hexBytes ds).isSome = pairsRead ds := by
  induction ds using pairsRead.induct with
  | case1 a b ds ih =>
    rw [hexBytes_cons, pairsRead, ← hexByte_isSome, ← ih]
    cases hexByte a b with
    | none => rfl
    | some x => cases hexBytes ds <;> rfl
  | case2 => rfl
  | case3 c => rfl

theorem length_of_hexBytes {ds : Str} {bytes : List UInt8} (h : hexBytes ds = some bytes) :
    ds.length = 2 * bytes.length := by
  induction ds using pairsRead.induct generalizing bytes with
  | case1 a b ds ih =>
    rw [hexBytes_cons] at h
    obtain ⟨x, -, h⟩ := Option.bind_eq_some_iff.mp h
    obtain ⟨xs, hxs, rfl⟩ := Option.map_eq_some_iff.mp h
    have := ih hxs
    simp only [List.length_cons]
    omega
  | case2 =>
    obtain rfl := Option.some.inj h
    rfl
  | case3 c => cases h

theorem spells_iff {ds : Str} {bytes : List UInt8} :
    Spells ds bytes ↔ hexBytes ds = some bytes ∧ '+' ∉ ds := by
  constructor
  · intro h
    induction h with
    | nil => exact ⟨rfl, List.not_mem_nil⟩
    | cons ha hb _ ih =>
      have hne : ∀ {c : Char} {n : Nat}, hexValue c = some n → c ≠ '+' := by
        rintro c n h rfl
        cases hexValue_plus.symm.trans h
      rw [hexBytes_cons, hexByte_eq (hne ha), hb, ha, ih.1, List.mem_cons, List.mem_cons]
      exact ⟨rfl, fun h => h.elim (fun h => hne ha h.symm)
        fun h => h.elim (fun h => hne hb h.symm) ih.2⟩
  · rintro ⟨h, hplus⟩
    induction ds using pairsRead.induct generalizing bytes with
    | case1 a b ds ih =>
      rw [List.mem_cons, List.mem_cons, not_or, not_or] at hplus
      rw [hexBytes_cons, hexByte_eq (Ne.symm hplus.1)] at h
      obtain ⟨x, hx, h⟩ := Option.bind_eq_some_iff.mp h
      obtain ⟨xs, hxs, rfl⟩ := Option.map_eq_some_iff.mp h
      obtain ⟨lo, hlo, hx⟩ := Option.bind_eq_some_iff.mp hx
      obtain ⟨hi, hhi, rfl⟩ := Option.map_eq_some_iff.mp hx
      exact .cons hhi hlo (ih hxs hplus.2.2)
    | case2 =>
      obtain rfl := Option.some.inj h
      exact .nil
    | case3 c => cases h

theorem hexHash_eq_some {hash : Str} {h : FileHash} :
    hexHash hash = some h ↔ hexBytes (hash.take 32) = some h.toList := by
  constructor
  · intro hh
    obtain ⟨bytes, hbytes, hh⟩ := Option.bind_eq_some_iff.mp hh
    split_ifs at hh with hlen
    obtain rfl := Option.some.inj hh
    rw [hbytes]
    rfl
  · intro hh
    have hlen : h.toList.length = 16 := h.length_toList
    simp only [hexHash, hh, Option.bind_eq_bind, Option.bind_some, dif_pos hlen]
    exact congrArg some (Vector.toArray_inj.mp h.toArray.toArray_toList)

theorem ed2kFileRef_eq_some {U : Unicode} {s : Str} {h : FileHash} {n : UInt64} :
    ed2kFileRef U s = some (h, n) ↔ ∃ size hash, Names (U.trim s) size hash ∧
      (digits size).1 = n ∧ hexBytes (hash.take 32) = some h.toList := by
  rw [ed2kFileRef_eq, parts_eq]
  constructor
  · intro heq
    obtain ⟨x, hx, heq⟩ := Option.bind_eq_some_iff.mp heq
    obtain ⟨⟨size, hash⟩, hfields, rfl⟩ := Option.map_eq_some_iff.mp hx
    obtain ⟨h', hhash, heq⟩ := Option.map_eq_some_iff.mp heq
    obtain ⟨rfl, rfl⟩ := Prod.mk.inj heq
    exact ⟨size, hash, names_iff.mpr hfields, rfl, hexHash_eq_some.mp hhash⟩
  · rintro ⟨size, hash, hnames, rfl, hhash⟩
    rw [names_iff.mp hnames, Option.map_some, Option.bind_some, hexHash_eq_some.mpr hhash]
    rfl

theorem digits_fst {size : Str} (h : size.all Char.isDigit = true) :
    (digits size).1 = if decimal size < 2 ^ 64 then UInt64.ofNat (decimal size) else 0 := by
  rw [digits, List.takeWhile_eq_self_iff.mpr (List.all_eq_true.mp h)]
  rfl

/-- A hash search is taken for the file it names, and nothing else is taken for one, unless its
hash part is read with a plus or its size is no number of 64 bits. -/
theorem fileRef_iff (U : Unicode) (s : Str) :
    ed2kFileRefAt U s = some (ed2kFileRef U s) ∧
      ((∀ h n, ed2kFileRef U s = some (h, n) ↔ IsFileRef U s h n) ↔ Clean U s) := by
  refine ⟨ed2kFileRefAt_eq U s, ?_, ?_⟩
  · intro hexact size hash hnames hlen hread
    rw [← hexBytes_isSome, Option.isSome_iff_exists] at hread
    obtain ⟨bytes, hbytes⟩ := hread
    have hbytes16 : bytes.length = 16 := by
      have := length_of_hexBytes hbytes
      omega
    have hfound : ed2kFileRef U s =
        some (⟨bytes.toArray, by simpa using hbytes16⟩, (digits size).1) :=
      ed2kFileRef_eq_some.mpr ⟨size, hash, hnames, rfl, hbytes⟩
    obtain ⟨size', hash', hnames', hall, hn, hspells⟩ := (hexact _ _).mp hfound
    have hsame := (names_iff.mp hnames).symm.trans (names_iff.mp hnames')
    obtain ⟨rfl, rfl⟩ := Prod.mk.inj (Option.some.inj hsame)
    refine ⟨(spells_iff.mp hspells).2, hall, ?_⟩
    rw [← hn]
    exact UInt64.toNat_lt _
  · intro hclean h n
    rw [ed2kFileRef_eq_some]
    constructor
    · rintro ⟨size, hash, hnames, rfl, hbytes⟩
      have hlen : (hash.take 32).length = 32 := by
        rw [length_of_hexBytes hbytes, h.length_toList]
      have hread : pairsRead (hash.take 32) = true := by
        rw [← hexBytes_isSome, hbytes]
        rfl
      obtain ⟨hplus, hall, hfits⟩ := hclean size hash hnames hlen hread
      refine ⟨size, hash, hnames, hall, ?_, spells_iff.mpr ⟨hbytes, hplus⟩⟩
      rw [digits_fst hall, if_pos hfits, UInt64.toNat_ofNat', Nat.mod_eq_of_lt hfits]
    · rintro ⟨size, hash, hnames, hall, hn, hspells⟩
      have hfits : decimal size < 2 ^ 64 := hn ▸ n.toNat_lt
      refine ⟨size, hash, hnames, ?_, (spells_iff.mp hspells).1⟩
      rw [digits_fst hall, if_pos hfits, ← hn, UInt64.ofNat_toNat]


/-- A plus before each digit: the search is taken for a file by its hash. -/
theorem plus_taken :
    ¬∀ h n, ed2kFileRef basicLatin "ed2k::+a+a+a+a+a+a+a+a+a+a+a+a+a+a+a+a".toList = some (h, n) ↔
      IsFileRef basicLatin "ed2k::+a+a+a+a+a+a+a+a+a+a+a+a+a+a+a+a".toList h n := by
  intro hexact
  have hfound : ed2kFileRef basicLatin "ed2k::+a+a+a+a+a+a+a+a+a+a+a+a+a+a+a+a".toList =
      some (Vector.replicate 16 10, 0) := by decide
  obtain ⟨size, hash, hnames, -, -, hspells⟩ := (hexact _ _).mp hfound
  have hfields : fields (basicLatin.trim "ed2k::+a+a+a+a+a+a+a+a+a+a+a+a+a+a+a+a".toList) =
      some ([], "+a+a+a+a+a+a+a+a+a+a+a+a+a+a+a+a".toList) := by decide
  have hsame := (names_iff.mp hnames).symm.trans hfields
  obtain ⟨rfl, rfl⟩ := Prod.mk.inj (Option.some.inj hsame)
  exact absurd (spells_iff.mp hspells).2 (by decide)

end Ed2kServer.Search.HashForms
