import Ed2kServer.Filter.IpFilter

namespace Ed2kServer.Filter.HitReport

open Ed2kServer.Filter.Loaders Ed2kServer.Filter.IpFilter Ed2kServer.Text.Lines
open Ed2kServer.Text.Utf8

/-- The merged ranges, and how often each has blocked an address. -/
@[ext] structure IpFilter where
  ranges : List (UInt32 × UInt32)
  hits : List UInt32

structure HitRow where
  start : UInt32
  stop : UInt32
  count : UInt32
  desc : Str
  deriving DecidableEq

def holds (r : UInt32 × UInt32) (n : UInt32) : Bool := r.1 ≤ n && n ≤ r.2

def loadFilter (bytes : List UInt8) : IpFilter where
  ranges := load bytes
  hits := (load bytes).map fun _ => 0

/-- How many ranges start at or before the address. -/
def partitionPoint (ranges : List (UInt32 × UInt32)) (n : UInt32) : Nat :=
  (ranges.takeWhile fun r => r.1 ≤ n).length

/-- Whether a range holds the address, and the filter with that hit. -/
def IpFilter.ask (f : IpFilter) (n : UInt32) : Bool × IpFilter :=
  if f.ranges.isEmpty then (false, f)
  else
    let idx := partitionPoint f.ranges n
    if idx = 0 then (false, f)
    else if n ≤ (f.ranges.getD (idx - 1) (0, 0)).2 then
      (true, { f with hits := f.hits.modify (idx - 1) (· + 1) })
    else (false, f)

def IpFilter.totalHits (f : IpFilter) : Nat := (f.hits.map UInt32.toNat).sum

/-- The filter after a sequence of calls. -/
def IpFilter.asked (f : IpFilter) (calls : List UInt32) : IpFilter :=
  calls.foldl (fun f n => (f.ask n).2) f

/-- The ranges that have blocked something. -/
def IpFilter.needed (f : IpFilter) : List ((UInt32 × UInt32) × UInt32) :=
  (f.ranges.zip f.hits).filter fun x => 0 < x.2

/-- What follows the second ` , `. -/
def descOf (line : Str) : Str :=
  match splitFirst [' ', ',', ' '] line with
  | some (_, rest) =>
    match splitFirst [' ', ',', ' '] rest with
    | some (_, desc) => trim desc
    | none => []
  | none => []

/-- A line of the file whose own bounds are those of a range that has blocked something. -/
def rowOf (needed : List ((UInt32 × UInt32) × UInt32)) (line : Str) : Option HitRow :=
  (parseLine line).bind fun r =>
    (needed.lookup r).map fun count => ⟨r.1, r.2, count, descOf line⟩

def IpFilter.hitReport (f : IpFilter) (bytes : List UInt8) : List HitRow :=
  if f.needed.isEmpty then []
  else
    ((((lines (fromUtf8Lossy bytes)).map trim).filter (! isSkipped ·)).filterMap
      (rowOf f.needed)).mergeSort fun a b => b.count ≤ a.count

section Ask

variable {ranges : List (UInt32 × UInt32)} {f : IpFilter} {n : UInt32}

theorem holds_iff {r : UInt32 × UInt32} : holds r n = true ↔ r.1 ≤ n ∧ n ≤ r.2 := by
  rw [holds, Bool.and_eq_true, decide_eq_true_eq, decide_eq_true_eq]

theorem partitionPoint_le : partitionPoint ranges n ≤ ranges.length :=
  (List.takeWhile_sublist _).length_le

theorem lt_partitionPoint_iff (h : ranges.Pairwise Parted) {i : Nat} (hi : i < ranges.length) :
    i < partitionPoint ranges n ↔ (ranges.get ⟨i, hi⟩).1 ≤ n := by
  induction ranges generalizing i with
  | nil => cases hi
  | cons r rs ih =>
    obtain ⟨hr, hrs⟩ := List.pairwise_cons.mp h
    rw [partitionPoint, List.takeWhile_cons]
    by_cases hstart : r.1 ≤ n
    · rw [if_pos (by simpa using hstart), List.length_cons]
      cases i with
      | zero => exact iff_of_true (Nat.succ_pos _) hstart
      | succ i => exact Nat.succ_lt_succ_iff.trans (ih hrs _)
    · rw [if_neg (by simpa using hstart)]
      refine iff_of_false (Nat.not_lt_zero _) fun hle => hstart ?_
      cases i with
      | zero => exact hle
      | succ i => exact UInt32.le_trans (hr _ (List.get_mem rs _)).1 hle

/-- Only the last range that starts at or before the address can hold it. -/
theorem holds_get_iff (h : ranges.Pairwise Parted) {i : Nat} (hi : i < ranges.length) :
    holds (ranges.get ⟨i, hi⟩) n = true ↔
      partitionPoint ranges n = i + 1 ∧ n ≤ (ranges.get ⟨i, hi⟩).2 := by
  rw [holds_iff, ← lt_partitionPoint_iff h hi]
  refine and_congr_left fun hle => ⟨fun hlt => ?_, fun heq => by omega⟩
  refine Nat.le_antisymm (Nat.le_of_not_lt fun hnext => ?_) hlt
  have hj : i + 1 < ranges.length := Nat.lt_of_lt_of_le hnext partitionPoint_le
  have hstart := (lt_partitionPoint_iff h hj).mp hnext
  have happart := (List.pairwise_iff_get.mp h ⟨i, hi⟩ ⟨i + 1, hj⟩ (Nat.lt_succ_self i)).2
  rw [UInt32.le_iff_toNat_le] at hle hstart
  omega

/-- A call hits the one range that holds the address, or none holds it. -/
theorem ask_spec (h : f.ranges.Pairwise Parted) (n : UInt32) :
    (∃ i, ∃ hi : i < f.ranges.length, holds (f.ranges.get ⟨i, hi⟩) n = true ∧
      f.ask n = (true, { f with hits := f.hits.modify i (· + 1) })) ∨
    (∀ r ∈ f.ranges, holds r n = false) ∧ f.ask n = (false, f) := by
  have hnone (hno : ∀ i (hi : i < f.ranges.length), partitionPoint f.ranges n = i + 1 →
      ¬n ≤ (f.ranges.get ⟨i, hi⟩).2) : ∀ r ∈ f.ranges, holds r n = false := by
    intro r hr
    obtain ⟨⟨i, hi⟩, rfl⟩ := List.get_of_mem hr
    rw [Bool.eq_false_iff]
    intro hholds
    obtain ⟨hidx, hle⟩ := (holds_get_iff h hi).mp hholds
    exact hno i hi hidx hle
  by_cases hempty : f.ranges.isEmpty = true
  · refine Or.inr ⟨hnone fun i hi => ?_, by rw [IpFilter.ask, if_pos hempty]⟩
    rw [List.isEmpty_iff.mp hempty] at hi
    cases hi
  rw [IpFilter.ask, if_neg hempty]
  by_cases hzero : partitionPoint f.ranges n = 0
  · exact Or.inr ⟨hnone fun i hi hidx => by omega, if_pos hzero⟩
  obtain ⟨i, hidx⟩ := Nat.exists_eq_succ_of_ne_zero hzero
  have hi : i < f.ranges.length := by
    have hle : partitionPoint f.ranges n ≤ f.ranges.length := partitionPoint_le
    omega
  have hget : f.ranges.getD i (0, 0) = f.ranges.get ⟨i, hi⟩ := List.getD_eq_getElem _ _ hi
  simp only [hidx, Nat.succ_ne_zero, if_false, Nat.succ_sub_one, hget]
  by_cases hle : n ≤ (f.ranges.get ⟨i, hi⟩).2
  · exact Or.inl ⟨i, hi, (holds_get_iff h hi).mpr ⟨hidx, hle⟩, if_pos hle⟩
  · refine Or.inr ⟨hnone fun j hj hidx' => ?_, if_neg hle⟩
    obtain rfl : i = j := by omega
    exact hle

theorem ask_ranges (h : f.ranges.Pairwise Parted) (n : UInt32) :
    (f.ask n).2.ranges = f.ranges := by
  obtain ⟨i, hi, -, hask⟩ | ⟨-, hask⟩ := ask_spec h n <;> rw [hask]

theorem ask_blocked_iff (h : f.ranges.Pairwise Parted) (n : UInt32) :
    (f.ask n).1 = true ↔ Covers f.ranges n := by
  obtain ⟨i, hi, hholds, hask⟩ | ⟨hno, hask⟩ := ask_spec h n <;> rw [hask]
  · exact iff_of_true rfl ⟨_, List.get_mem _ _, holds_iff.mp hholds⟩
  · refine iff_of_false Bool.false_ne_true fun ⟨r, hr, hcover⟩ => ?_
    exact Bool.false_ne_true ((hno r hr).symm.trans (holds_iff.mpr hcover))

/-- A hit counts for the range that holds the address, and for no other. -/
theorem ask_hits (h : f.ranges.Pairwise Parted) (hlen : f.hits.length = f.ranges.length) :
    (f.ask n).2.hits =
      List.zipWith (fun r c => if holds r n then c + 1 else c) f.ranges f.hits := by
  obtain ⟨i, hi, hholds, hask⟩ | ⟨hno, hask⟩ := ask_spec h n <;> rw [hask]
  · have hat (j : Nat) (hj : j < f.ranges.length) : holds f.ranges[j] n = true ↔ i = j := by
      refine ⟨fun hj' => ?_, fun hij => by subst hij; exact hholds⟩
      have h₁ := ((holds_get_iff h hi).mp hholds).1
      have h₂ := ((holds_get_iff h hj).mp hj').1
      omega
    refine List.ext_getElem (by simp [hlen]) fun j hj hj' => ?_
    rw [List.getElem_modify, List.getElem_zipWith]
    exact if_congr (hat j _).symm rfl rfl
  · refine List.ext_getElem (by simp [hlen]) fun j hj hj' => ?_
    rw [List.getElem_zipWith, if_neg]
    rw [hno _ (List.getElem_mem _)]
    exact Bool.false_ne_true

/-- Every counter is the number of calls its range has blocked, modulo `2 ^ 32`. -/
theorem asked_eq (bytes : List UInt8) (calls : List UInt32) :
    (loadFilter bytes).asked calls = ⟨load bytes, (load bytes).map fun r =>
      UInt32.ofNat (calls.countP (holds r))⟩ := by
  have hparted := parted_load bytes
  induction calls using List.reverseRecOn with
  | nil => rfl
  | append_singleton calls n ih =>
    have hstep : (loadFilter bytes).asked (calls ++ [n]) =
        (((loadFilter bytes).asked calls).ask n).2 := by
      rw [IpFilter.asked, List.foldl_append]
      rfl
    rw [hstep, ih]
    generalize hf : IpFilter.mk (load bytes) _ = f
    have hranges : f.ranges = load bytes := by rw [← hf]
    have hhits : f.hits = (load bytes).map fun r => UInt32.ofNat (calls.countP (holds r)) := by
      rw [← hf]
    have hnext := ask_hits (n := n) (hranges ▸ hparted) (by rw [hhits, hranges, List.length_map])
    have hsame := ask_ranges (hranges ▸ hparted) n
    rw [hranges] at hsame
    rw [hranges, hhits, List.zipWith_map_right, List.zipWith_self] at hnext
    refine IpFilter.ext hsame (hnext.trans (List.map_congr_left fun r _ => ?_))
    rw [List.countP_append, List.countP_singleton]
    split_ifs
    · exact (UInt32.ofNat_add _ _).symm
    · rw [Nat.add_zero]

theorem sum_modify {hits : List UInt32} {i : Nat} (hi : i < hits.length) :
    ((hits.modify i (· + 1)).map UInt32.toNat).sum + hits[i].toNat =
      (hits.map UInt32.toNat).sum + (hits[i] + 1).toNat := by
  have hsplit : hits.map UInt32.toNat = ((hits.take i) ++ hits[i] :: hits.drop (i + 1)).map
      UInt32.toNat := by
    rw [List.cons_getElem_drop_succ, List.take_append_drop]
  rw [List.modify_eq_take_cons_drop hi, hsplit]
  simp only [List.map_append, List.map_cons, List.sum_append, List.sum_cons]
  omega

/-- What the loaded filter answers does not depend on the calls before. -/
theorem ask_loaded (bytes : List UInt8) (calls : List UInt32) (n : UInt32) :
    (((loadFilter bytes).asked calls).ask n).1 = true ↔ Covers (loadIpFilter bytes) n := by
  rw [asked_eq, ask_blocked_iff (parted_load bytes), covers_load]

/-- A hit adds one to the total, until the counter of its range starts again. -/
theorem totalHits_ask (bytes : List UInt8) (calls : List UInt32) {n : UInt32}
    {r : UInt32 × UInt32} (hr : r ∈ load bytes) (hholds : holds r n = true) :
    let f := (loadFilter bytes).asked calls
    ((calls.countP (holds r) + 1) % 2 ^ 32 ≠ 0 → (f.ask n).2.totalHits = f.totalHits + 1) ∧
      ((calls.countP (holds r) + 1) % 2 ^ 32 = 0 →
        (f.ask n).2.totalHits + (2 ^ 32 - 1) = f.totalHits) := by
  intro f
  have hf : f = _ := asked_eq bytes calls
  have hparted : f.ranges.Pairwise Parted := hf ▸ parted_load bytes
  have hranges : f.ranges = load bytes := by rw [hf]
  obtain ⟨i, hi, hget, hask⟩ | ⟨hno, -⟩ := ask_spec hparted n
  · obtain ⟨⟨j, hj⟩, rfl⟩ := List.get_of_mem (hranges.symm ▸ hr : r ∈ f.ranges)
    obtain rfl : i = j := by
      have h₁ := ((holds_get_iff hparted hi).mp hget).1
      have h₂ := ((holds_get_iff hparted hj).mp hholds).1
      omega
    have hlen : i < f.hits.length := by rw [hf, List.length_map, ← hranges]; exact hi
    have hcount : f.hits[i] = UInt32.ofNat (calls.countP (holds (f.ranges.get ⟨i, hi⟩))) := by
      simp [hf]
    have hsum := sum_modify hlen
    rw [hcount, UInt32.toNat_add, UInt32.toNat_ofNat', UInt32.toNat_one] at hsum
    rw [hask]
    change (_ → ((f.hits.modify i (· + 1)).map UInt32.toNat).sum =
      (f.hits.map UInt32.toNat).sum + 1) ∧
      (_ → ((f.hits.modify i (· + 1)).map UInt32.toNat).sum + _ =
        (f.hits.map UInt32.toNat).sum)
    constructor <;> intro hwrap <;> omega
  · rw [hno r (hranges ▸ hr)] at hholds
    cases hholds

end Ask

/-- On the loaded filter, after any calls, an address is blocked if and only if a line covers it;
that adds one to the total, but takes a counter at its `u32` end back to nothing. -/
theorem blocked_and_counted (bytes : List UInt8) (calls : List UInt32) (n : UInt32) :
    let f := (loadFilter bytes).asked calls
    ((f.ask n).1 = true ↔ ∃ r ∈ loadIpFilter bytes, r.1 ≤ n ∧ n ≤ r.2) ∧
      ((f.ask n).1 = false → (f.ask n).2.totalHits = f.totalHits) ∧
      ∀ r ∈ load bytes, holds r n = true →
        ((calls.countP (holds r) + 1) % 2 ^ 32 ≠ 0 → (f.ask n).2.totalHits = f.totalHits + 1) ∧
        ((calls.countP (holds r) + 1) % 2 ^ 32 = 0 →
          (f.ask n).2.totalHits + (2 ^ 32 - 1) = f.totalHits) := by
  intro f
  have hparted : f.ranges.Pairwise Parted := by
    rw [show f = _ from asked_eq bytes calls]
    exact parted_load bytes
  refine ⟨ask_loaded bytes calls n, ?_, fun r hr hholds => totalHits_ask bytes calls hr hholds⟩
  obtain ⟨i, hi, -, hask⟩ | ⟨-, hask⟩ := ask_spec hparted n <;> rw [hask]
  · exact fun h => absurd h.symm Bool.false_ne_true
  · exact fun _ => rfl

theorem counter_wraps : ¬∀ (bytes : List UInt8) (calls : List UInt32) (n : UInt32),
    let f := (loadFilter bytes).asked calls
    (f.ask n).1 = true → (f.ask n).2.totalHits = f.totalHits + 1 := by
  intro h
  have hfile : loadIpFilter (utf8 (formatLine 1)) = [(1, 1)] :=
    loadIpFilter_formatLine (show FreshLine (fromUtf8Lossy []) from Or.inl rfl) 1
  have hmem : ((1, 1) : UInt32 × UInt32) ∈ load (utf8 (formatLine 1)) := by
    rw [load, hfile, List.mergeSort_singleton]
    exact List.mem_singleton_self _
  have hcount : (List.replicate (2 ^ 32 - 1) (1 : UInt32)).countP (holds (1, 1)) = 2 ^ 32 - 1 := by
    rw [List.countP_replicate]
    rfl
  have hblocked := (ask_loaded (utf8 (formatLine 1)) (List.replicate (2 ^ 32 - 1) 1) 1).mpr
    (hfile ▸ ⟨_, List.mem_singleton_self _, UInt32.le_refl _, UInt32.le_refl _⟩)
  have hwrap := (totalHits_ask _ (List.replicate (2 ^ 32 - 1) 1) hmem (n := 1) rfl).2
    (by rw [hcount]; norm_num)
  have hone := h _ _ _ hblocked
  omega

section Report

variable {bytes : List UInt8} {calls : List UInt32} {s e : UInt32}

/-- From `s` to `e` every address is covered, and none of the two beside them. -/
def Run (lines : List (UInt32 × UInt32)) (s e : UInt32) : Prop :=
  s ≤ e ∧ (∀ n, s ≤ n → n ≤ e → Covers lines n) ∧
    ∀ n, n.toNat + 1 = s.toNat ∨ n.toNat = e.toNat + 1 → ¬Covers lines n

theorem parted_or {ranges : List (UInt32 × UInt32)} (h : ranges.Pairwise Parted)
    {a b : UInt32 × UInt32} (ha : a ∈ ranges) (hb : b ∈ ranges) :
    a = b ∨ Parted a b ∨ Parted b a := by
  obtain ⟨i, rfl⟩ := List.get_of_mem ha
  obtain ⟨j, rfl⟩ := List.get_of_mem hb
  obtain hlt | rfl | hlt := lt_trichotomy i j
  · exact Or.inr (Or.inl (List.pairwise_iff_get.mp h i j hlt))
  · exact Or.inl rfl
  · exact Or.inr (Or.inr (List.pairwise_iff_get.mp h j i hlt))

/-- The merged ranges that hold anything are the runs of covered addresses. -/
theorem run_iff : Run (loadIpFilter bytes) s e ↔ (s, e) ∈ load bytes ∧ s ≤ e := by
  have hparted := @parted_or _ (parted_load bytes)
  simp only [Run, ← covers_load, UInt32.le_iff_toNat_le]
  constructor
  · rintro ⟨hle, hall, hbeside⟩
    obtain ⟨r, hr, hstart, hstop⟩ := hall s (Nat.le_refl _) hle
    rw [UInt32.le_iff_toNat_le] at hstart hstop
    have hcovers (k : Nat) (hlo : r.1.toNat ≤ k) (hhi : k ≤ r.2.toNat) :
        ∃ n : UInt32, n.toNat = k ∧ Covers (load bytes) n := by
      have hk : (UInt32.ofNat k).toNat = k :=
        UInt32.toNat_ofNat_of_lt' (Nat.lt_of_le_of_lt hhi r.2.toNat_lt)
      refine ⟨UInt32.ofNat k, hk, r, hr, ?_, ?_⟩ <;> rwa [UInt32.le_iff_toNat_le, hk]
    have hs : r.1 = s := by
      refine UInt32.toNat_inj.mp (Nat.le_antisymm hstart (Nat.le_of_not_lt fun hlt => ?_))
      obtain ⟨n, hn, hc⟩ := hcovers (s.toNat - 1) (by omega) (by omega)
      exact hbeside n (Or.inl (by omega)) hc
    have he : r.2 = e := by
      refine UInt32.toNat_inj.mp (Nat.le_antisymm ?_ ?_)
      · refine Nat.le_of_not_lt fun hlt => ?_
        obtain ⟨n, hn, hc⟩ := hcovers (e.toNat + 1) (by omega) hlt
        exact hbeside n (Or.inr hn) hc
      · -- the next address would lie in another merged range, and there is a gap before it
        refine Nat.le_of_not_lt fun hlt => ?_
        have hk : (UInt32.ofNat (r.2.toNat + 1)).toNat = r.2.toNat + 1 :=
          UInt32.toNat_ofNat_of_lt' (Nat.lt_of_le_of_lt hlt e.toNat_lt)
        obtain ⟨q, hq, hq₁, hq₂⟩ := hall (UInt32.ofNat (r.2.toNat + 1)) (by omega) (by omega)
        rw [UInt32.le_iff_toNat_le, hk] at hq₁ hq₂
        obtain rfl | ⟨-, hgap⟩ | ⟨-, hgap⟩ := hparted hr hq <;> omega
    exact ⟨by rw [← hs, ← he]; exact hr, hle⟩
  · rintro ⟨hmem, hle⟩
    refine ⟨hle, fun n hs he => ⟨_, hmem, ?_, ?_⟩, fun n hn hc => ?_⟩
    · exact UInt32.le_iff_toNat_le.mpr hs
    · exact UInt32.le_iff_toNat_le.mpr he
    · obtain ⟨r, hr, hs, he⟩ := hc
      rw [UInt32.le_iff_toNat_le] at hs he
      obtain rfl | ⟨-, hlt⟩ | ⟨-, hlt⟩ := hparted hmem hr
      · simp only at hs he
        omega
      · simp only at hlt
        omega
      · simp only at hlt
        omega

/-- How often a range has blocked an address, in a `u32`. -/
def counter (calls : List UInt32) (r : UInt32 × UInt32) : UInt32 :=
  UInt32.ofNat (calls.countP (holds r))

/-- A merged range whose counter is not 0. -/
def reported (bytes : List UInt8) (calls : List UInt32) (r : UInt32 × UInt32) : Bool :=
  (load bytes).contains r && 0 < counter calls r

theorem lookup_filter_map {ranges : List (UInt32 × UInt32)} {g : UInt32 × UInt32 → UInt32}
    (r : UInt32 × UInt32) :
    ((ranges.map fun q => (q, g q)).filter fun x => 0 < x.2).lookup r =
      if (ranges.contains r && 0 < g r) = true then some (g r) else none := by
  induction ranges with
  | nil => rfl
  | cons q ranges ih =>
    rw [List.map_cons, List.filter_cons]
    by_cases hq : r = q
    · subst hq
      by_cases hpos : 0 < g r
      · simp [hpos]
      · rw [if_neg (by simpa using hpos), ih]
        simp [hpos]
    · have hcontains : (q :: ranges).contains r = ranges.contains r := by
        simp [hq]
      rw [hcontains, ← ih]
      split_ifs
      · rw [List.lookup_cons, beq_eq_false_iff_ne.mpr hq]
      · rfl

theorem zip_counters (bytes : List UInt8) (calls : List UInt32) :
    (load bytes).zip ((load bytes).map (counter calls)) =
      (load bytes).map fun q => (q, counter calls q) := by
  have h := List.zip_map' (f := id) (g := counter calls) (l := load bytes)
  rwa [List.map_id] at h

theorem lookup_needed (r : UInt32 × UInt32) :
    ((loadFilter bytes).asked calls).needed.lookup r =
      if reported bytes calls r = true then some (counter calls r) else none := by
  rw [asked_eq]
  exact (congrArg (fun l => (l.filter fun x => 0 < x.2).lookup r) (zip_counters bytes calls)).trans
    (lookup_filter_map r)

/-- The rows are the lines whose own bounds are those of a counted range. -/
theorem rows_perm (bytes : List UInt8) (calls : List UInt32) :
    ((((loadFilter bytes).asked calls).hitReport bytes).map
      fun row => ((row.start, row.stop), row.count)).Perm
      (((loadIpFilter bytes).filter (reported bytes calls)).map fun r => (r, counter calls r)) := by
  generalize hf : (loadFilter bytes).asked calls = f
  have hlookup (r : UInt32 × UInt32) : f.needed.lookup r =
      if reported bytes calls r = true then some (counter calls r) else none :=
    hf ▸ lookup_needed r
  have hperm : (f.hitReport bytes).Perm
      ((((lines (fromUtf8Lossy bytes)).map trim).filter (! isSkipped ·)).filterMap
        (rowOf f.needed)) := by
    rw [IpFilter.hitReport]
    split_ifs with hempty
    · rw [List.isEmpty_iff.mp hempty, List.filterMap_eq_nil_iff.mpr]
      intro line _
      rw [rowOf]
      cases parseLine line <;> rfl
    · exact List.mergeSort_perm _ _
  refine (hperm.map _).trans (List.Perm.of_eq ?_)
  rw [loadIpFilter]
  generalize ((lines (fromUtf8Lossy bytes)).map trim).filter (! isSkipped ·) = ls
  induction ls with
  | nil => rfl
  | cons line ls ih =>
    rw [List.filterMap_cons, List.filterMap_cons, rowOf]
    cases parseLine line with
    | none => exact ih
    | some r =>
      rw [Option.bind_some, hlookup, List.filter_cons]
      split_ifs
      · exact congrArg _ ih
      · exact ih

theorem holds_of_counter {r : UInt32 × UInt32} (h : counter calls r ≠ 0) : r.1 ≤ r.2 := by
  have hpos : 0 < calls.countP (holds r) := by
    refine Nat.pos_of_ne_zero fun hzero => h ?_
    rw [counter, hzero]
    rfl
  obtain ⟨n, -, hn⟩ := List.countP_pos_iff.mp hpos
  obtain ⟨hstart, hstop⟩ := holds_iff.mp hn
  exact UInt32.le_trans hstart hstop

theorem counter_ne_zero_iff {r : UInt32 × UInt32} :
    counter calls r ≠ 0 ↔ calls.countP (holds r) % 2 ^ 32 ≠ 0 := by
  rw [ne_eq, ← UInt32.toNat_inj, counter, UInt32.toNat_ofNat']
  rfl

theorem reported_iff {r : UInt32 × UInt32} :
    reported bytes calls r = true ↔ r ∈ load bytes ∧ counter calls r ≠ 0 := by
  rw [reported, Bool.and_eq_true, List.contains_iff_mem, decide_eq_true_eq, UInt32.pos_iff_ne_zero]

theorem nodup_reported (bytes : List UInt8) (calls : List UInt32) :
    ((load bytes).filter (reported bytes calls)).Nodup := by
  refine ((parted_load bytes).filter _).imp_of_mem fun {a b} ha _ hgap heq => ?_
  subst heq
  have hle := holds_of_counter (reported_iff.mp (List.mem_filter.mp ha).2).2
  rw [UInt32.le_iff_toNat_le] at hle
  exact absurd hgap.2 (by omega)

/-- Every counted range stands in one row, and the rows add up to the total. -/
def Attributed (f : IpFilter) (bytes : List UInt8) : Prop :=
  ((f.hitReport bytes).map fun row => row.count.toNat).sum = f.totalHits ∧
    ∀ x ∈ f.ranges.zip f.hits, x.2 ≠ 0 →
      ((f.hitReport bytes).filter fun row => (row.start, row.stop) = x.1).map
        (fun row => row.count) = [x.2]

theorem sum_rows (bytes : List UInt8) (calls : List UInt32) :
    (((((loadFilter bytes).asked calls).hitReport bytes).map fun row => row.count.toNat).sum =
      (((loadIpFilter bytes).filter (reported bytes calls)).map fun r =>
        (counter calls r).toNat).sum) := by
  have hsum := ((rows_perm bytes calls).map fun x => x.2.toNat).sum_eq
  rwa [List.map_map, List.map_map] at hsum

theorem sum_map_filter {α : Type} {p : α → Bool} {g : α → Nat} {l : List α}
    (h : ∀ a ∈ l, p a = false → g a = 0) : ((l.filter p).map g).sum = (l.map g).sum := by
  induction l with
  | nil => rfl
  | cons a l ih =>
    obtain ⟨ha, hl⟩ := List.forall_mem_cons.mp h
    rw [List.filter_cons, List.map_cons, List.sum_cons, ← ih hl]
    cases hp : p a with
    | true => rfl
    | false =>
      rw [ha hp, Nat.zero_add]
      rfl

theorem totalHits_asked (bytes : List UInt8) (calls : List UInt32) :
    ((loadFilter bytes).asked calls).totalHits =
      (((load bytes).filter (reported bytes calls)).map fun r => (counter calls r).toNat).sum := by
  rw [asked_eq, IpFilter.totalHits, List.map_map, sum_map_filter]
  · rfl
  · intro r hr hno
    have hzero : counter calls r = 0 := by
      refine of_not_not fun hne => ?_
      rw [reported_iff.mpr ⟨hr, hne⟩] at hno
      cases hno
    rw [hzero]
    rfl

theorem rows_of (bytes : List UInt8) (calls : List UInt32) {r : UInt32 × UInt32}
    (h : reported bytes calls r = true) :
    ((((loadFilter bytes).asked calls).hitReport bytes).filter
      fun row => (row.start, row.stop) = r).map (fun row => row.count) =
      List.replicate ((loadIpFilter bytes).count r) (counter calls r) := by
  have hperm := ((rows_perm bytes calls).filter fun x => x.1 = r).map Prod.snd
  rw [List.filter_map, List.filter_map, List.filter_filter, List.map_map, List.map_map] at hperm
  refine List.perm_replicate.mp (hperm.trans (List.Perm.of_eq ?_))
  have hsame : ((loadIpFilter bytes).filter fun q =>
      decide (q = r) && reported bytes calls q) = (loadIpFilter bytes).filter (· == r) := by
    refine List.filter_congr fun q _ => ?_
    by_cases hq : q = r
    · simp [hq, h]
    · simp [hq]
  have hmap : ((loadIpFilter bytes).filter (· == r)).map (counter calls) =
      ((loadIpFilter bytes).filter (· == r)).map fun _ => counter calls r :=
    List.map_congr_left fun q hq => by rw [beq_iff_eq.mp (List.mem_filter.mp hq).2]
  rw [List.count, List.countP_eq_length_filter, ← List.map_const', ← hmap, ← hsame]
  rfl

/-- The condition: a run of covered addresses that has blocked something is one line of the
file. -/
def OneLineEach (bytes : List UInt8) (calls : List UInt32) : Prop :=
  ∀ s e, Run (loadIpFilter bytes) s e → calls.countP (holds (s, e)) % 2 ^ 32 ≠ 0 →
    (loadIpFilter bytes).count (s, e) = 1

end Report

/-- The report loses and invents no hit if and only if every run of covered addresses that has
blocked something stands on one line of its own. -/
theorem attributed_iff (bytes : List UInt8) (calls : List UInt32) :
    Attributed ((loadFilter bytes).asked calls) bytes ↔ OneLineEach bytes calls := by
  have hzip (x : (UInt32 × UInt32) × UInt32) :
      x ∈ ((loadFilter bytes).asked calls).ranges.zip ((loadFilter bytes).asked calls).hits ↔
        x.1 ∈ load bytes ∧ x.2 = counter calls x.1 := by
    rw [asked_eq]
    refine (Iff.of_eq (congrArg (x ∈ ·) (zip_counters bytes calls))).trans ?_
    rw [List.mem_map]
    constructor
    · rintro ⟨r, hr, rfl⟩
      exact ⟨hr, rfl⟩
    · rintro ⟨hr, hcount⟩
      exact ⟨x.1, hr, Prod.ext rfl hcount.symm⟩
  have hone : OneLineEach bytes calls ↔
      ∀ r, reported bytes calls r = true → (loadIpFilter bytes).count r = 1 := by
    constructor
    · intro h r hr
      obtain ⟨hmem, hne⟩ := reported_iff.mp hr
      exact h r.1 r.2 (run_iff.mpr ⟨hmem, holds_of_counter hne⟩) (counter_ne_zero_iff.mp hne)
    · intro h s e hrun hne
      exact h (s, e) (reported_iff.mpr ⟨(run_iff.mp hrun).1, counter_ne_zero_iff.mpr hne⟩)
  rw [hone, Attributed]
  constructor
  · rintro ⟨-, hrows⟩ r hr
    obtain ⟨hmem, hne⟩ := reported_iff.mp hr
    have hrow := hrows (r, counter calls r) ((hzip _).mpr ⟨hmem, rfl⟩) hne
    rw [rows_of bytes calls hr] at hrow
    exact (List.length_replicate ..).symm.trans (congrArg List.length hrow)
  · intro h
    refine ⟨?_, fun x hx hne => ?_⟩
    · have hperm : ((loadIpFilter bytes).filter (reported bytes calls)).Perm
          ((load bytes).filter (reported bytes calls)) := by
        refine List.perm_iff_count.mpr fun r => ?_
        by_cases hr : reported bytes calls r = true
        · have hmem := List.mem_filter.mpr ⟨(reported_iff.mp hr).1, hr⟩
          rw [List.count_filter hr, h r hr,
            List.count_eq_one_of_mem (nodup_reported bytes calls) hmem]
        · rw [List.count_eq_zero_of_not_mem, List.count_eq_zero_of_not_mem]
          · exact fun hmem => hr (List.mem_filter.mp hmem).2
          · exact fun hmem => hr (List.mem_filter.mp hmem).2
      rw [sum_rows, totalHits_asked, (hperm.map _).sum_eq]
    · obtain ⟨hmem, hcount⟩ := (hzip x).mp hx
      have hr := reported_iff.mpr ⟨hmem, hcount ▸ hne⟩
      rw [rows_of bytes calls hr, h _ hr, hcount]
      rfl

/-- Two lines of one address each, side by side. -/
def adjoining : List UInt8 := utf8 (formatLine 1) ++ utf8 ['\n'] ++ utf8 (formatLine 2)

theorem adjoining_block_lost : ¬∀ (bytes : List UInt8) (calls : List UInt32),
    ((((loadFilter bytes).asked calls).hitReport bytes).map fun row => row.count.toNat).sum =
      ((loadFilter bytes).asked calls).totalHits := by
  intro h
  have hfirst : loadIpFilter (utf8 (formatLine 1)) = [(1, 1)] :=
    loadIpFilter_formatLine (show FreshLine (fromUtf8Lossy []) from Or.inl rfl) 1
  have hfresh : FreshLine (fromUtf8Lossy (utf8 (formatLine 1) ++ utf8 ['\n'])) := by
    rw [fromUtf8Lossy_append]
    exact freshLine_newline _
  have hfile : loadIpFilter adjoining = [(1, 1), (2, 2)] := by
    rw [adjoining, loadIpFilter_formatLine hfresh, loadIpFilter_newline, hfirst]
    rfl
  have hload : load adjoining = [(1, 2)] := by
    rw [load, hfile, List.mergeSort_of_pairwise (by decide)]
    decide
  have hsum := h adjoining [1]
  have hreported : reported adjoining [1] =
      fun r => [(1, 2)].contains r && decide (0 < counter [1] r) :=
    funext fun r => by rw [reported, hload]
  rw [sum_rows, totalHits_asked, hfile, hload, hreported] at hsum
  exact absurd hsum (by decide)

end Ed2kServer.Filter.HitReport
