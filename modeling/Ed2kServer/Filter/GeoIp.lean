import Ed2kServer.Filter.Loaders
import Ed2kServer.Server.Login

namespace Ed2kServer.Filter.GeoIp

open Ed2kServer.Filter.Loaders Ed2kServer.Slab.Record Ed2kServer.Sources.Address
open Ed2kServer.Text.Lines Ed2kServer.Text.Utf8
open Ed2kServer.Server.Login (canon toIpv4Mapped)

/-- A row of the table without the name of its country. -/
structure Range where
  start : UInt32
  stop : UInt32
  code : UInt8 × UInt8
  deriving DecidableEq

def rangeOf (row : CountryRange) : Range := ⟨row.start, row.stop, row.code⟩

/-- The ranges in the order of their starts, and one name a code; nothing without ranges. -/
inductive CountryDb
  | none
  | csv (ranges : List Range) (names : List ((UInt8 × UInt8) × Str))

/-- What an order of the ranges by their starts gives; rows with the same start may stand in any
order. -/
def Loads (upper : Char → Str) (bytes : List UInt8) (db : CountryDb) : Prop :=
  ∃ ranges : List Range, ranges.Perm ((loadCsv upper bytes).map rangeOf) ∧
    ranges.Pairwise (fun a b => a.start ≤ b.start) ∧
    db = if ranges.isEmpty then .none
      else .csv ranges ((loadCsv upper bytes).map fun row => (row.code, row.name))

/-- `std::str::from_utf8` of the code's two bytes. -/
def codeText (code : UInt8 × UInt8) : Str :=
  let text := fromUtf8Lossy [code.1, code.2]
  if utf8 text = [code.1, code.2] then text else ['?', '?']

/-- An address as a number, the first octet in front. -/
def toU32 (a : Ipv4) : UInt32 :=
  UInt32.ofNat (octet a 0 * 256 ^ 3 + octet a 1 * 256 ^ 2 + octet a 2 * 256 + octet a 3)

/-- The last range that starts at or before the address. -/
def probe (ranges : List Range) (n : UInt32) : Option Range :=
  (ranges.takeWhile fun r => r.start ≤ n).getLast?

/-- The code and the name of the country. -/
def CountryDb.lookup (db : CountryDb) (ip : IpAddr) : Option (Str × Str) :=
  match db, canon ip with
  | .csv ranges names, .v4 a =>
    (probe ranges (toU32 a)).bind fun r =>
      if r.stop < toU32 a then Option.none
      else some (codeText r.code, (names.lookup r.code).getD [])
  | _, _ => Option.none

/-- `::ffff:a`. -/
def mapped (a : Ipv4) : Ipv6 :=
  #v[0, 0, 0, 0, 0, 0, 0, 0, 0, 0, 0xFF, 0xFF, UInt8.ofNat (octet a 0), UInt8.ofNat (octet a 1),
    UInt8.ofNat (octet a 2), UInt8.ofNat (octet a 3)]

theorem toIpv4Mapped_mapped (a : Ipv4) : toIpv4Mapped (mapped a) = some a := by
  have hlt := a.toNat_lt
  have hbegins : (mapped a).toList.take 12 = List.replicate 10 0 ++ [0xFF, 0xFF] := rfl
  rw [toIpv4Mapped, if_pos hbegins]
  refine congrArg some (UInt32.toNat_inj.mp ?_)
  change ((UInt8.ofNat (octet a 0)).toUInt32 + ((UInt8.ofNat (octet a 1)).toUInt32 <<< 8) +
    ((UInt8.ofNat (octet a 2)).toUInt32 <<< 16) +
    ((UInt8.ofNat (octet a 3)).toUInt32 <<< 24)).toNat = a.toNat
  simp only [UInt32.toNat_add, UInt32.toNat_shiftLeft, UInt8.toNat_toUInt32, UInt8.toNat_ofNat',
    Nat.shiftLeft_eq, octet, UInt32.reduceToNat, Nat.reducePow, Nat.reduceMod]
  omega

section Probe

variable {ranges : List Range} {n : UInt32} {q : Range}

def Range.holds (r : Range) (n : UInt32) : Prop := r.start ≤ n ∧ n ≤ r.stop

theorem mem_takeWhile_iff (h : ranges.Pairwise fun a b => a.start ≤ b.start) {r : Range} :
    r ∈ ranges.takeWhile (fun r => r.start ≤ n) ↔ r ∈ ranges ∧ r.start ≤ n := by
  induction ranges with
  | nil => simp
  | cons p ranges ih =>
    obtain ⟨hp, hrest⟩ := List.pairwise_cons.mp h
    rw [List.takeWhile_cons, List.mem_cons]
    split_ifs with hstart
    · have hstart : p.start ≤ n := of_decide_eq_true hstart
      rw [List.mem_cons, ih hrest]
      constructor
      · rintro (rfl | ⟨hr, hle⟩)
        · exact ⟨Or.inl rfl, hstart⟩
        · exact ⟨Or.inr hr, hle⟩
      · rintro ⟨rfl | hr, hle⟩
        · exact Or.inl rfl
        · exact Or.inr ⟨hr, hle⟩
    · have hstart : ¬p.start ≤ n := fun hle => hstart (decide_eq_true hle)
      refine iff_of_false (List.not_mem_nil) ?_
      rintro ⟨rfl | hr, hle⟩
      · exact hstart hle
      · exact hstart (UInt32.le_trans (hp r hr) hle)

/-- No range before the address starts later than `q`. -/
def Last (ranges : List Range) (n : UInt32) (q : Range) : Prop :=
  q ∈ ranges ∧ q.start ≤ n ∧ ∀ p ∈ ranges, p.start ≤ n → p.start ≤ q.start

theorem last_of_probe (h : ranges.Pairwise fun a b => a.start ≤ b.start)
    (hq : probe ranges n = some q) : Last ranges n q := by
  obtain ⟨init, hinit⟩ := List.getLast?_eq_some_iff.mp hq
  have hmem : q ∈ ranges.takeWhile fun r => r.start ≤ n := by
    rw [hinit]
    exact List.mem_append_right _ (List.mem_singleton_self q)
  obtain ⟨hq, hle⟩ := (mem_takeWhile_iff h).mp hmem
  refine ⟨hq, hle, fun p hp hple => ?_⟩
  have hsorted := h.sublist (List.takeWhile_sublist fun r => r.start ≤ n)
  have hp := (mem_takeWhile_iff h).mpr ⟨hp, hple⟩
  rw [hinit] at hsorted hp
  obtain hp | hp := List.mem_append.mp hp
  · exact (List.pairwise_append.mp hsorted).2.2 p hp q (List.mem_singleton_self q)
  · rw [List.mem_singleton.mp hp]

theorem probe_eq_none (h : ranges.Pairwise fun a b => a.start ≤ b.start)
    (hq : probe ranges n = none) : ∀ p ∈ ranges, ¬p.start ≤ n := by
  intro p hp hle
  have hmem := (mem_takeWhile_iff h).mpr ⟨hp, hle⟩
  exact List.not_mem_nil (List.getLast?_eq_none_iff.mp hq ▸ hmem)

/-- Any last range can be the one that is probed. -/
theorem exists_probe (h : Last ranges n q) :
    ∃ sorted : List Range, sorted.Perm ranges ∧
      sorted.Pairwise (fun a b => a.start ≤ b.start) ∧ probe sorted n = some q := by
  obtain ⟨hq, hle, hlast⟩ := h
  -- among the ranges of one start, `q` stands behind the others
  let le (a b : Range) : Bool := a.start < b.start || a.start = b.start && (a ≠ q || b = q)
  have hle_iff (a b : Range) : le a b = true ↔
      a.start.toNat < b.start.toNat ∨ a.start.toNat = b.start.toNat ∧ (a ≠ q ∨ b = q) := by
    simp only [le, Bool.or_eq_true, Bool.and_eq_true, decide_eq_true_eq, UInt32.lt_iff_toNat_lt,
      UInt32.toNat_inj]
  have htrans : ∀ a b c, le a b = true → le b c = true → le a c = true := by
    intro a b c
    rw [hle_iff, hle_iff, hle_iff]
    rintro (h | ⟨h, h'⟩) (h₂ | ⟨h₂, h₂'⟩)
    · exact Or.inl (by omega)
    · exact Or.inl (by omega)
    · exact Or.inl (by omega)
    · exact Or.inr ⟨by omega, by tauto⟩
  have htotal : ∀ a b, (le a b || le b a) = true := by
    intro a b
    rw [Bool.or_eq_true, hle_iff, hle_iff]
    obtain hlt | heq | hlt := Nat.lt_trichotomy a.start.toNat b.start.toNat
    · exact Or.inl (Or.inl hlt)
    · by_cases ha : a = q
      · exact Or.inr (Or.inr ⟨heq.symm, Or.inr ha⟩)
      · exact Or.inl (Or.inr ⟨heq, Or.inl ha⟩)
    · exact Or.inr (Or.inl hlt)
  have hpair := List.pairwise_mergeSort htrans htotal ranges
  have hsorted : (ranges.mergeSort le).Pairwise fun a b => a.start ≤ b.start := by
    refine hpair.imp fun {a b} hab => ?_
    rw [UInt32.le_iff_toNat_le]
    obtain hlt | ⟨heq, -⟩ := (hle_iff a b).mp hab <;> omega
  refine ⟨ranges.mergeSort le, List.mergeSort_perm _ _, hsorted, ?_⟩
  have hmem : q ∈ (ranges.mergeSort le).takeWhile fun r => r.start ≤ n :=
    (mem_takeWhile_iff hsorted).mpr ⟨List.mem_mergeSort.mpr hq, hle⟩
  cases hp : probe (ranges.mergeSort le) n with
  | none => exact absurd hle (probe_eq_none hsorted hp q (List.mem_mergeSort.mpr hq))
  | some p =>
    obtain ⟨hp', hple, -⟩ := last_of_probe hsorted hp
    have hpq := hlast p (List.mem_mergeSort.mp hp') hple
    obtain ⟨init, hinit⟩ := List.getLast?_eq_some_iff.mp hp
    have hblock := hpair.sublist (List.takeWhile_sublist fun r => r.start ≤ n)
    rw [hinit] at hblock hmem
    refine congrArg some ?_
    obtain hmem | hmem := List.mem_append.mp hmem
    · have hqp := (List.pairwise_append.mp hblock).2.2 q hmem p (List.mem_singleton_self p)
      rw [UInt32.le_iff_toNat_le] at hpq
      obtain hlt | ⟨-, hne | heq⟩ := (hle_iff q p).mp hqp
      · omega
      · exact absurd rfl hne
      · exact heq
    · exact (List.mem_singleton.mp hmem).symm

end Probe

/-- The ranges taken from the text. -/
def table (upper : Char → Str) (bytes : List UInt8) : List Range :=
  (loadCsv upper bytes).map rangeOf

/-- What the lookup of an address and of its mapped form should say: a country if and only if a
range holds the address, and then that of a range that holds it. -/
def AgreesAt (table : List Range) (db : CountryDb) (a : Ipv4) : Prop :=
  ∀ ip ∈ [IpAddr.v4 a, IpAddr.v6 (mapped a)],
    ((db.lookup ip).isSome = true ↔ ∃ r ∈ table, r.holds (toU32 a)) ∧
      ∀ x, db.lookup ip = some x → ∃ r ∈ table, r.holds (toU32 a) ∧ x.1 = codeText r.code

theorem lookup_eq {ranges : List Range} {names : List ((UInt8 × UInt8) × Str)} {a : Ipv4}
    {ip : IpAddr}
    (hip : ip ∈ [IpAddr.v4 a, IpAddr.v6 (mapped a)]) :
    (if ranges.isEmpty then CountryDb.none else .csv ranges names).lookup ip =
      (probe ranges (toU32 a)).bind fun r =>
        if r.stop < toU32 a then none
        else some (codeText r.code, (names.lookup r.code).getD []) := by
  have hcanon : canon ip = .v4 a := by
    rw [List.mem_cons, List.mem_singleton] at hip
    obtain rfl | rfl := hip
    · rfl
    · rw [canon, toIpv4Mapped_mapped]
  cases ranges with
  | nil => simp [CountryDb.lookup, probe]
  | cons r ranges =>
    rw [if_neg (by simp)]
    simp only [CountryDb.lookup, hcanon]

/-- One probe is enough, in whatever order ranges of one start stand, if and only if each range
with the last start up to the address holds it whenever any range does. -/
theorem csv_lookup_iff (upper : Char → Str) (bytes : List UInt8) (a : Ipv4) :
    (∀ db, Loads upper bytes db → AgreesAt (table upper bytes) db a) ↔
      ∀ r ∈ table upper bytes, r.holds (toU32 a) →
        ∀ q, Last (table upper bytes) (toU32 a) q → q.holds (toU32 a) := by
  constructor
  · intro h r hr hholds q hq
    obtain ⟨sorted, hperm, hsorted, hprobe⟩ := exists_probe hq
    obtain ⟨hsome, -⟩ := h _ ⟨sorted, hperm, hsorted, rfl⟩ (.v4 a) List.mem_cons_self
    rw [lookup_eq List.mem_cons_self, hprobe, Option.bind_some] at hsome
    refine ⟨hq.2.1, UInt32.not_lt.mp fun hlt => ?_⟩
    rw [if_pos hlt] at hsome
    exact Bool.false_ne_true (hsome.mpr ⟨r, hr, hholds⟩)
  · rintro h db ⟨ranges, hperm, hsorted, rfl⟩ ip hip
    rw [lookup_eq hip]
    cases hprobe : probe ranges (toU32 a) with
    | none =>
      refine ⟨iff_of_false Bool.false_ne_true ?_,
        fun x hx => absurd hx.symm (Option.some_ne_none x)⟩
      rintro ⟨r, hr, hholds⟩
      exact probe_eq_none hsorted hprobe r (hperm.mem_iff.mpr hr) hholds.1
    | some q =>
      obtain ⟨hq, hle, hlast⟩ := last_of_probe hsorted hprobe
      have hq' : Last (table upper bytes) (toU32 a) q :=
        ⟨hperm.mem_iff.mp hq, hle, fun p hp => hlast p (hperm.mem_iff.mpr hp)⟩
      rw [Option.bind_some]
      split_ifs with hstop
      · refine ⟨iff_of_false Bool.false_ne_true ?_, fun x hx => hx.elim⟩
        rintro ⟨r, hr, hholds⟩
        exact absurd (h r hr hholds q hq').2 (UInt32.not_le.mpr hstop)
      · have hholds : q.holds (toU32 a) := ⟨hle, UInt32.not_lt.mp hstop⟩
        refine ⟨iff_of_true rfl ⟨q, hq'.1, hholds⟩, fun x hx => ⟨q, hq'.1, hholds, ?_⟩⟩
        rw [← Option.some.inj hx]

/-- A large block, and a smaller one inside it. -/
def nested : Str := "0,9,AU,Australia\n2,3,AT,Austria\n".toList

theorem inner_hides_outer : ¬∀ (upper : Char → Str) (bytes : List UInt8) (a : Ipv4)
    (db : CountryDb), Loads upper bytes db → AgreesAt (table upper bytes) db a := by
  intro h
  have htable : table (fun c => [c]) (utf8 nested) =
      [⟨0, 9, (65, 85)⟩, ⟨2, 3, (65, 84)⟩] := by
    rw [table, loadCsv, fromUtf8Lossy_utf8]
    decide
  have hnumber : toU32 0x05000000 = 5 := rfl
  have hagrees := h (fun c => [c]) (utf8 nested) 0x05000000 _
    ⟨table (fun c => [c]) (utf8 nested), List.Perm.refl _, by rw [htable]; decide, rfl⟩
    (.v4 0x05000000) List.mem_cons_self
  rw [lookup_eq List.mem_cons_self, htable, hnumber] at hagrees
  refine absurd (hagrees.1.mpr ⟨⟨0, 9, (65, 85)⟩, List.mem_cons_self, ?_⟩) (by decide)
  exact ⟨by decide, by decide⟩

end Ed2kServer.Filter.GeoIp
