import Ed2kServer.Filter.Loaders

namespace Ed2kServer.Filter.IpFilter

open Ed2kServer.Filter.Loaders Ed2kServer.Text.Lines Ed2kServer.Text.Utf8

def octets (ip : UInt32) : List Nat :=
  [ip.toNat / 2 ^ 24, ip.toNat / 2 ^ 16 % 256, ip.toNat / 2 ^ 8 % 256, ip.toNat % 256]

/-- Four numbers with dots between. -/
def dotted (write : Nat → Str) (ip : UInt32) : Str := ['.'].intercalate ((octets ip).map write)

def decimal (n : Nat) : Str := Nat.toDigits 10 n

/-- Three digits, with leading zeros. -/
def padded (n : Nat) : Str := List.replicate (3 - (decimal n).length) '0' ++ decimal n

def TAG : Str := ['b', 'o', 't']

def formatLine (ip : UInt32) : Str :=
  let a := dotted padded ip
  a ++ [' ', '-', ' '] ++ a ++ [' ', ',', ' ', '0', '0', '0', ' ', ',', ' '] ++ TAG

/-- `Ipv4Addr::to_string`. -/
def ipString (ip : UInt32) : Str := dotted decimal ip

/-- `str::parse` of an `Ipv4Addr`: no leading zeros. -/
def parseIpv4 (s : Str) : Option UInt32 := do
  let parts := s.splitOn '.'
  if parts.length ≠ 4 then none
  else
    let parsed ← parts.mapM fun part =>
      (parseUnsigned 255 part).filter fun octet => decimal octet = part
    return parsed.foldl (fun n octet => (n <<< 8) ||| UInt32.ofNat octet) 0

def saturatingSucc (n : UInt32) : UInt32 := if n = 0xFFFFFFFF then n else n + 1

def mergeFrom (last : UInt32 × UInt32) : List (UInt32 × UInt32) → List (UInt32 × UInt32)
  | [] => [last]
  | (s, e) :: rest =>
    if s ≤ saturatingSucc last.2 then
      mergeFrom (last.1, if last.2 ≤ e then e else last.2) rest
    else last :: mergeFrom (s, e) rest

/-- Overlapping and adjacent ranges in one. -/
def mergeRanges : List (UInt32 × UInt32) → List (UInt32 × UInt32)
  | [] => []
  | r :: rest => mergeFrom r rest

/-- The order of pairs. -/
def before (a b : UInt32 × UInt32) : Bool := a.1 < b.1 || a.1 = b.1 && a.2 ≤ b.2

def load (bytes : List UInt8) : List (UInt32 × UInt32) :=
  mergeRanges ((loadIpFilter bytes).mergeSort before)

/-- The last range that starts at or before the address decides. -/
def isBlocked (ranges : List (UInt32 × UInt32)) (ip : UInt32) : Bool :=
  ((ranges.takeWhile fun r => r.1 ≤ ip).getLast?).any fun r => ip ≤ r.2

/-- Some range holds the address. -/
def Covers (ranges : List (UInt32 × UInt32)) (ip : UInt32) : Prop :=
  ∃ r ∈ ranges, r.1 ≤ ip ∧ ip ≤ r.2

section Merge

variable {ip : UInt32} {last : UInt32 × UInt32} {rs : List (UInt32 × UInt32)}

theorem covers_cons {r : UInt32 × UInt32} :
    Covers (r :: rs) ip ↔ (r.1 ≤ ip ∧ ip ≤ r.2) ∨ Covers rs ip := by
  simp [Covers]

theorem le_saturatingSucc {s e : UInt32} : s ≤ saturatingSucc e ↔ s.toNat ≤ e.toNat + 1 := by
  have hs := s.toNat_lt
  rw [saturatingSucc, UInt32.le_iff_toNat_le]
  split
  · rename_i he
    rw [he]
    simp
    omega
  · rename_i he
    have hlt : e.toNat + 1 < 2 ^ 32 := by
      have hne : e.toNat ≠ 0xFFFFFFFF := fun h => he (UInt32.toNat_inj.mp h)
      have := e.toNat_lt
      omega
    rw [UInt32.toNat_add, UInt32.toNat_one, Nat.mod_eq_of_lt hlt]

/-- One range in place of two that meet. -/
theorem covers_join {s e : UInt32} (hstart : last.1 ≤ s) (hs : s ≤ saturatingSucc last.2) :
    Covers ((last.1, if last.2 ≤ e then e else last.2) :: rs) ip ↔
      Covers (last :: (s, e) :: rs) ip := by
  rw [le_saturatingSucc] at hs
  simp only [covers_cons, UInt32.le_iff_toNat_le] at hstart ⊢
  rw [← or_assoc]
  refine or_congr ?_ Iff.rfl
  split <;> omega

theorem covers_mergeFrom (hstart : ∀ r ∈ rs, last.1 ≤ r.1)
    (hsorted : rs.Pairwise fun a b => a.1 ≤ b.1) :
    Covers (mergeFrom last rs) ip ↔ Covers (last :: rs) ip := by
  induction rs generalizing last with
  | nil => rfl
  | cons r rs ih =>
    obtain ⟨hr, hrs⟩ := List.pairwise_cons.mp hsorted
    obtain ⟨hlast, hrest⟩ := List.forall_mem_cons.mp hstart
    rw [mergeFrom]
    split
    · rename_i hs
      exact Iff.trans (ih (by exact hrest) hrs) (covers_join hlast hs)
    · rw [covers_cons, ih hr hrs, ← covers_cons]

theorem le_of_mem_mergeFrom (hstart : ∀ r ∈ rs, last.1 ≤ r.1)
    (hsorted : rs.Pairwise fun a b => a.1 ≤ b.1) : ∀ r ∈ mergeFrom last rs, last.1 ≤ r.1 := by
  induction rs generalizing last with
  | nil => simp [mergeFrom]
  | cons r rs ih =>
    obtain ⟨hr, hrs⟩ := List.pairwise_cons.mp hsorted
    obtain ⟨hlast, hrest⟩ := List.forall_mem_cons.mp hstart
    rw [mergeFrom]
    split
    · exact ih hrest hrs
    · rw [List.forall_mem_cons]
      exact ⟨UInt32.le_refl _, fun q hq => UInt32.le_trans hlast (ih hr hrs q hq)⟩

/-- A range ends before the next begins. -/
def Apart (a b : UInt32 × UInt32) : Prop := a.1 ≤ b.1 ∧ a.2 < b.1

/-- An address lies between the end of a range and the start of the next. -/
def Parted (a b : UInt32 × UInt32) : Prop := a.1 ≤ b.1 ∧ a.2.toNat + 1 < b.1.toNat

theorem parted_mergeFrom (hstart : ∀ r ∈ rs, last.1 ≤ r.1)
    (hsorted : rs.Pairwise fun a b => a.1 ≤ b.1) : (mergeFrom last rs).Pairwise Parted := by
  induction rs generalizing last with
  | nil => exact List.pairwise_singleton _ _
  | cons r rs ih =>
    obtain ⟨hr, hrs⟩ := List.pairwise_cons.mp hsorted
    obtain ⟨hlast, hrest⟩ := List.forall_mem_cons.mp hstart
    rw [mergeFrom]
    split
    · exact ih hrest hrs
    · rename_i hs
      refine List.pairwise_cons.mpr ⟨fun q hq => ?_, ih hr hrs⟩
      have hle := le_of_mem_mergeFrom hr hrs q hq
      rw [le_saturatingSucc] at hs
      rw [Parted]
      simp only [UInt32.le_iff_toNat_le] at hlast hle ⊢
      omega

theorem Parted.apart {a b : UInt32 × UInt32} (h : Parted a b) : Apart a b :=
  ⟨h.1, UInt32.lt_iff_toNat_lt.mpr (Nat.lt_of_succ_lt h.2)⟩

theorem isBlocked_iff (h : rs.Pairwise Apart) : isBlocked rs ip = true ↔ Covers rs ip := by
  induction rs with
  | nil => simp [isBlocked, Covers]
  | cons r rs ih =>
    obtain ⟨hr, hrs⟩ := List.pairwise_cons.mp h
    rw [covers_cons, ← ih hrs, isBlocked, isBlocked, List.takeWhile_cons]
    by_cases hstart : r.1 ≤ ip
    · rw [if_pos (by simpa using hstart), List.getLast?_cons]
      cases hl : (rs.takeWhile fun r => r.1 ≤ ip).getLast? with
      | none => simp [hstart]
      | some q =>
        have hq : q ∈ rs.takeWhile fun r => r.1 ≤ ip := List.mem_of_getLast? hl
        have hstartq : q.1 ≤ ip := by simpa using List.mem_takeWhile_imp hq
        have happart := (hr q (List.takeWhile_subset _ hq)).2
        have hno : ¬ ip ≤ r.2 := by
          simp only [UInt32.le_iff_toNat_le, UInt32.lt_iff_toNat_lt] at hstartq happart ⊢
          omega
        simp [hno]
    · have hnil : rs.takeWhile (fun r => r.1 ≤ ip) = [] := by
        rw [List.takeWhile_eq_nil_iff]
        intro hpos hle
        have hle : rs[0].1 ≤ ip := by simpa using hle
        exact hstart (UInt32.le_trans (hr _ (List.getElem_mem hpos)).1 hle)
      rw [if_neg (by simpa using hstart), hnil]
      simp [hstart]

end Merge

theorem sorted_mergeSort (rs : List (UInt32 × UInt32)) :
    (rs.mergeSort before).Pairwise fun a b => a.1 ≤ b.1 := by
  have htrans : ∀ a b c, before a b = true → before b c = true → before a c = true := by
    intro a b c
    simp only [before, Bool.or_eq_true, Bool.and_eq_true, decide_eq_true_eq,
      UInt32.le_iff_toNat_le, UInt32.lt_iff_toNat_lt, ← UInt32.toNat_inj]
    omega
  have htotal : ∀ a b, (before a b || before b a) = true := by
    intro a b
    simp only [before, Bool.or_eq_true, Bool.and_eq_true, decide_eq_true_eq,
      UInt32.le_iff_toNat_le, UInt32.lt_iff_toNat_lt, ← UInt32.toNat_inj]
    omega
  refine (List.pairwise_mergeSort htrans htotal _).imp fun h => ?_
  simp only [before, Bool.or_eq_true, Bool.and_eq_true, decide_eq_true_eq,
    UInt32.le_iff_toNat_le, UInt32.lt_iff_toNat_lt, ← UInt32.toNat_inj] at h ⊢
  omega

theorem parted_load (bytes : List UInt8) : (load bytes).Pairwise Parted := by
  have hsorted := sorted_mergeSort (loadIpFilter bytes)
  rw [load]
  cases hm : (loadIpFilter bytes).mergeSort before with
  | nil => exact List.Pairwise.nil
  | cons r rs =>
    rw [hm] at hsorted
    obtain ⟨hr, hrs⟩ := List.pairwise_cons.mp hsorted
    exact parted_mergeFrom hr hrs

/-- Sorting and merging neither adds an address nor loses one. -/
theorem covers_load (bytes : List UInt8) (ip : UInt32) :
    Covers (load bytes) ip ↔ Covers (loadIpFilter bytes) ip := by
  have hsorted := sorted_mergeSort (loadIpFilter bytes)
  have hperm : Covers ((loadIpFilter bytes).mergeSort before) ip ↔
      Covers (loadIpFilter bytes) ip := by
    simp only [Covers, (List.mergeSort_perm _ before).mem_iff]
  rw [load, ← hperm]
  cases hm : (loadIpFilter bytes).mergeSort before with
  | nil => rfl
  | cons r rs =>
    rw [hm] at hsorted
    obtain ⟨hr, hrs⟩ := List.pairwise_cons.mp hsorted
    rw [mergeRanges, covers_mergeFrom hr hrs]

/-- The loaded filter blocks what a line of the file covers. -/
theorem isBlocked_load (bytes : List UInt8) (ip : UInt32) :
    isBlocked (load bytes) ip = true ↔ Covers (loadIpFilter bytes) ip := by
  rw [isBlocked_iff ((parted_load bytes).imp Parted.apart), covers_load]

section Lines

variable {ip : UInt32}

/-- The range a line holds, if it holds one. -/
def rangeOfEntry (line : Str) : Option (UInt32 × UInt32) :=
  let trimmed := trim line
  if isSkipped trimmed then none else parseLine trimmed

theorem loadIpFilter_eq (bytes : List UInt8) :
    loadIpFilter bytes = (lines (fromUtf8Lossy bytes)).filterMap rangeOfEntry := by
  rw [loadIpFilter, List.filterMap_filter, List.filterMap_map]
  refine congrArg (fun f => List.filterMap f _) (funext fun line => ?_)
  cases h : isSkipped (trim line) <;> simp [rangeOfEntry, h]

theorem rangeOfEntry_stripReturn (line : Str) :
    rangeOfEntry (stripReturn line) = rangeOfEntry line := by
  rw [rangeOfEntry, rangeOfEntry, trim_stripReturn]

theorem octets_lt (ip : UInt32) : ∀ n ∈ octets ip, n < 256 := by
  have hlt := ip.toNat_lt
  simp only [octets, List.forall_mem_cons, List.not_mem_nil, false_imp_iff, implies_true, and_true]
  omega

/-- A way to write an octet that is read back. -/
def Writes (write : Nat → Str) : Prop :=
  ∀ n < 256, parseUnsigned 255 (write n) = some n ∧ (write n).all Char.isDigit = true

theorem forall_octet {p : Nat → Prop} (h : ∀ i < 16, ∀ j < 16, p (16 * i + j)) :
    ∀ n < 256, p n := by
  intro n hn
  rw [← Nat.div_add_mod n 16]
  exact h _ (by omega) _ (by omega)

theorem writes_decimal : Writes decimal := forall_octet (by decide)

theorem writes_padded : Writes padded := forall_octet (by decide)

theorem dotted_eq (write : Nat → Str) (ip : UInt32) : dotted write ip =
    write (ip.toNat / 2 ^ 24) ++ '.' :: (write (ip.toNat / 2 ^ 16 % 256) ++ '.' ::
      (write (ip.toNat / 2 ^ 8 % 256) ++ '.' :: write (ip.toNat % 256))) := by
  simp [dotted, octets, List.intercalate, List.intersperse]

theorem splitOn_dotted {write : Nat → Str} (hw : Writes write) (ip : UInt32) :
    (dotted write ip).splitOn '.' = (octets ip).map write := by
  rw [dotted, List.splitOn_intercalate]
  · intro l hl
    obtain ⟨n, hn, rfl⟩ := List.mem_map.mp hl
    have hall := List.all_eq_true.mp (hw n (octets_lt ip n hn)).2
    exact fun hmem => absurd (hall _ hmem) (by decide)
  · simp [octets]

theorem mapM_octets {write : Nat → Str} {read : Str → Option Nat}
    (h : ∀ n < 256, read (write n) = some n) (ip : UInt32) :
    ((octets ip).map write).mapM read = some (octets ip) := by
  have hall := octets_lt ip
  generalize octets ip = ns at hall ⊢
  induction ns with
  | nil => rfl
  | cons n ns ih =>
    obtain ⟨hn, hns⟩ := List.forall_mem_cons.mp hall
    rw [List.map_cons, List.mapM_cons, h n hn, ih hns]
    rfl

theorem toNat_push {n : UInt32} {octet : Nat} (hn : n.toNat < 2 ^ 24) (ho : octet < 2 ^ 8) :
    ((n <<< 8) ||| UInt32.ofNat octet).toNat = n.toNat * 2 ^ 8 + octet := by
  have hoctet : octet % 2 ^ 32 = octet := Nat.mod_eq_of_lt (by omega)
  have hshift : (n <<< 8).toNat = n.toNat <<< 8 := by
    rw [UInt32.toNat_shiftLeft]
    refine Nat.mod_eq_of_lt ?_
    simp only [Nat.shiftLeft_eq]
    simp
    omega
  rw [UInt32.toNat_or, hshift, UInt32.toNat_ofNat', hoctet, ← Nat.shiftLeft_add_eq_or_of_lt ho,
    Nat.shiftLeft_eq]

/-- The octets put together are the address. -/
theorem foldl_octets (ip : UInt32) :
    (octets ip).foldl (fun (n : UInt32) octet => (n <<< 8) ||| UInt32.ofNat octet) 0 = ip := by
  have hlt := ip.toNat_lt
  have hpush : ∀ (n : UInt32) (m octet : Nat), n.toNat = m → m < 2 ^ 24 → octet < 2 ^ 8 →
      ((n <<< 8) ||| UInt32.ofNat octet).toNat = m * 2 ^ 8 + octet :=
    fun n m octet hm hlt ho => hm ▸ toNat_push (hm ▸ hlt) ho
  have h₁ := hpush 0 0 (ip.toNat / 2 ^ 24) rfl (by decide) (by omega)
  have h₂ := hpush _ _ (ip.toNat / 2 ^ 16 % 256) h₁ (by omega) (by omega)
  have h₃ := hpush _ _ (ip.toNat / 2 ^ 8 % 256) h₂ (by omega) (by omega)
  have h₄ := hpush _ _ (ip.toNat % 256) h₃ (by omega) (by omega)
  rw [← UInt32.toNat_inj]
  simp only [octets, List.foldl_cons, List.foldl_nil]
  rw [h₄]
  omega

theorem ipToU32_dotted {write : Nat → Str} (hw : Writes write) (ip : UInt32) :
    ipToU32 (dotted write ip) = some ip := by
  rw [ipToU32, splitOn_dotted hw]
  simp only [mapM_octets (fun n hn => (hw n hn).1)]
  exact congrArg some (foldl_octets ip)

/-- A recorded address is read back. -/
theorem parseIpv4_ipString (ip : UInt32) : parseIpv4 (ipString ip) = some ip := by
  have hread : ∀ n < 256, ((parseUnsigned 255 (decimal n)).filter
      fun octet => decimal octet = decimal n) = some n := by
    intro n hn
    rw [(writes_decimal n hn).1]
    simp
  have hall := @mapM_octets decimal
    (fun part => (parseUnsigned 255 part).filter fun octet => decimal octet = part) hread ip
  rw [parseIpv4, ipString, splitOn_dotted writes_decimal]
  simp only [hall]
  exact congrArg some (foldl_octets ip)

theorem mem_dotted {write : Nat → Str} (hw : Writes write) {c : Char} (hc : c ∈ dotted write ip) :
    c.isDigit = true ∨ c = '.' := by
  have hdigit : ∀ n ∈ octets ip, ∀ c ∈ write n, c.isDigit = true :=
    fun n hn c hc => List.all_eq_true.mp (hw n (octets_lt ip n hn)).2 c hc
  simp only [octets, List.forall_mem_cons, List.not_mem_nil, false_imp_iff, implies_true,
    and_true] at hdigit
  obtain ⟨h₁, h₂, h₃, h₄⟩ := hdigit
  rw [dotted_eq] at hc
  simp only [List.mem_append, List.mem_cons] at hc
  obtain hc | hc | hc | hc | hc | hc | hc := hc
  · exact Or.inl (h₁ c hc)
  · exact Or.inr hc
  · exact Or.inl (h₂ c hc)
  · exact Or.inr hc
  · exact Or.inl (h₃ c hc)
  · exact Or.inr hc
  · exact Or.inl (h₄ c hc)

/-- Digits and dots are neither blank nor marks of the list files. -/
theorem dotted_visible {write : Nat → Str} (hw : Writes write) {c : Char}
    (hc : c ∈ dotted write ip) : isWhitespace c = false ∧ c ≠ '#' := by
  obtain hd | rfl := mem_dotted hw hc
  · obtain ⟨hlo, hhi⟩ : 48 ≤ c.toNat ∧ c.toNat ≤ 57 := by
      rw [Char.isDigit, Bool.and_eq_true, decide_eq_true_eq, decide_eq_true_eq] at hd
      exact ⟨UInt32.le_iff_toNat_le.mp hd.1, UInt32.le_iff_toNat_le.mp hd.2⟩
    refine ⟨?_, ?_⟩
    · simp [isWhitespace]
      omega
    · rintro rfl
      exact absurd hlo (by decide)
  · exact ⟨by decide, by decide⟩

theorem dotted_ne_nil (write : Nat → Str) (ip : UInt32) : dotted write ip ≠ [] := by
  rw [dotted_eq]
  simp

theorem formatLine_free (ip : UInt32) : '\n' ∉ formatLine ip := by
  have ha : '\n' ∉ dotted padded ip := fun h => by
    have hws := (dotted_visible writes_padded h).1
    exact absurd hws (by decide)
  simp [formatLine, TAG, ha]

theorem parseLine_formatLine (ip : UInt32) : parseLine (formatLine ip) = some (ip, ip) := by
  have hfree : ' ' ∉ dotted padded ip := fun h => by
    have hws := (dotted_visible writes_padded h).1
    exact absurd hws (by decide)
  have htrim : trim (dotted padded ip) = dotted padded ip :=
    trim_of_visible fun c hc => (dotted_visible writes_padded hc).1
  have hline : formatLine ip = dotted padded ip ++ [' ', '-', ' '] ++
      (dotted padded ip ++ [' ', ',', ' '] ++ (['0', '0', '0', ' ', ',', ' '] ++ TAG)) := by
    simp [formatLine]
  rw [parseLine, hline, splitFirst_append hfree]
  simp only [Option.bind_eq_bind, Option.bind_some, splitFirst_append hfree, htrim,
    ipToU32_dotted writes_padded]
  rfl

theorem trim_formatLine (ip : UInt32) : trim (formatLine ip) = formatLine ip := by
  obtain ⟨c, rest, hc⟩ := List.exists_cons_of_ne_nil (dotted_ne_nil padded ip)
  have hhead : (formatLine ip).head? = some c := by simp [formatLine, hc]
  have hlast : formatLine ip = dotted padded ip ++ [' ', '-', ' '] ++ dotted padded ip ++
      [' ', ',', ' ', '0', '0', '0', ' ', ',', ' ', 'b', 'o'] ++ ['t'] := by
    simp [formatLine, TAG]
  rw [trim_eq_trimEnd]
  · rw [trimEnd, hlast, List.rdropWhile_concat_neg _ _ _ (by decide)]
  · intro d hd
    rw [hhead] at hd
    rw [← Option.some.inj hd]
    exact (dotted_visible writes_padded (hc ▸ List.mem_cons_self)).1

/-- The line written for an address covers just this address. -/
theorem rangeOfEntry_formatLine (ip : UInt32) : rangeOfEntry (formatLine ip) = some (ip, ip) := by
  obtain ⟨c, rest, hc⟩ := List.exists_cons_of_ne_nil (dotted_ne_nil padded ip)
  have hmark : c ≠ '#' := (dotted_visible writes_padded (hc ▸ List.mem_cons_self)).2
  have hskip : isSkipped (formatLine ip) = false := by
    simp [isSkipped, formatLine, hc, hmark]
  rw [rangeOfEntry, trim_formatLine, hskip]
  exact parseLine_formatLine ip

/-- A newline adds no range. -/
theorem loadIpFilter_newline (bytes : List UInt8) :
    loadIpFilter (bytes ++ utf8 ['\n']) = loadIpFilter bytes := by
  rw [loadIpFilter_eq, fromUtf8Lossy_append,
    filterMap_lines_newline rangeOfEntry_stripReturn (by decide), loadIpFilter_eq]

/-- A line written where a line can begin adds the address. -/
theorem loadIpFilter_formatLine {bytes : List UInt8} (h : FreshLine (fromUtf8Lossy bytes))
    (ip : UInt32) :
    loadIpFilter (bytes ++ utf8 (formatLine ip)) = loadIpFilter bytes ++ [(ip, ip)] := by
  rw [loadIpFilter_eq, fromUtf8Lossy_append,
    filterMap_lines_fresh rangeOfEntry_stripReturn (by decide) h (formatLine_free ip),
    rangeOfEntry_formatLine, loadIpFilter_eq]
  rfl

end Lines

end Ed2kServer.Filter.IpFilter
