import Ed2kServer.Lib.Backlog
import Mathlib.Algebra.BigOperators.Ring.Finset

namespace Ed2kServer.Publish.OfferPacing

open Ed2kServer.Lib Ed2kServer.Lib.Backlog

/-- Seconds of 64 bits, in nanoseconds. -/
structure Duration where
  nanos : Nat
  nanos_lt : nanos < 2 ^ 64 * 10 ^ 9

/-- The first and the last time the platform's clock can hold. -/
structure Clock where
  first : Int
  last : Int

namespace Clock

def Holds (K : Clock) (t : Int) : Prop := K.first ≤ t ∧ t ≤ K.last

def checkedAdd (K : Clock) (t : Int) (d : Nat) : Option Int :=
  if t + d ≤ K.last then some (t + d) else none

def checkedSub (K : Clock) (t : Int) (d : Nat) : Option Int :=
  if K.first ≤ t - d then some (t - d) else none

end Clock

/-- `rate` records per `per`, holding at most `rate`. -/
structure Gcra where
  rate : UInt32
  per : Duration
  /-- When the bucket would be full again. -/
  tat : Option Int
  rate_pos : 1 ≤ rate

/-- Ten years. -/
def COST_CAP_NS : Nat := 10 * 365 * 86400 * 1000000000

namespace Gcra

def new (rate : UInt32) (per : Duration) : Gcra where
  rate := if 1 ≤ rate then rate else 1
  per := per
  tat := none
  rate_pos := by
    split_ifs with h
    · exact h
    · exact UInt32.le_refl 1

/-- Multiplied in 128 bits, and kept in 64. -/
def cost (g : Gcra) (n : UInt32) : Nat :=
  min (g.per.nanos * n.toNat % 2 ^ 128 / g.rate.toNat) COST_CAP_NS % 2 ^ 64

/-- How long the records must wait; nothing when the clock overflows, which panics. -/
def reserve (K : Clock) (g : Gcra) (n : UInt32) (now : Int) : Option (Gcra × Nat) := do
  let start :=
    match g.tat with
    | some t => if now < t then t else now
    | none => now
  let tat ← K.checkedAdd start (g.cost n)
  let wait :=
    match K.checkedSub tat g.per.nanos with
    | some earliest => if now < earliest then (earliest - now).toNat else 0
    | none => 0
  return ({ g with tat := some tat }, wait)

/-- The time the bucket would be full again is not in the future. -/
def FullAt (g : Gcra) (now : Int) : Prop := ∀ t, g.tat = some t → t ≤ now

end Gcra

/-- Records that arrive in one message. -/
structure Batch where
  n : UInt32
  now : Int

/-- When each batch may be processed. -/
def releases (K : Clock) : Gcra → List Batch → Option (List Int)
  | _, [] => some []
  | g, b :: batches => do
    let (g, wait) ← g.reserve K b.n b.now
    let times ← releases K g batches
    return (b.now + wait) :: times

def second : Duration := ⟨10 ^ 9, by decide⟩

/-- A change of the ceiling begins with a full bucket. -/
def ceiling (bucket : Option Gcra) (recordsPerSec : UInt32) : Gcra :=
  match bucket with
  | some g =>
    if g.rate = recordsPerSec ∧ g.per.nanos = second.nanos then g else Gcra.new recordsPerSec second
  | none => Gcra.new recordsPerSec second

/-- The ceiling of the whole server, 0 for none. -/
def acquire (K : Clock) (bucket : Option Gcra) (n recordsPerSec : UInt32) (now : Int) :
    Option (Option Gcra × Nat) :=
  if recordsPerSec = 0 ∨ n = 0 then some (bucket, 0)
  else do
    let (g, wait) ← (ceiling bucket recordsPerSec).reserve K n now
    return (some g, wait)

/-- When each batch may be processed under one ceiling. -/
def acquires (K : Clock) (recordsPerSec : UInt32) : Option Gcra → List Batch → Option (List Int)
  | _, [] => some []
  | bucket, b :: batches => do
    let (bucket, wait) ← acquire K bucket b.n recordsPerSec b.now
    let times ← acquires K recordsPerSec bucket batches
    return (b.now + wait) :: times

/-- `n * per / rate`, and ten years at most. -/
def booked (rate : UInt32) (per : Duration) (n : UInt32) : Nat :=
  min (n.toNat * per.nanos / rate.toNat) COST_CAP_NS

def bookedFrom (rate : UInt32) (per : Duration) (batches : List Batch) (i j : Nat) : Nat :=
  (((batches.drop i).take (j + 1 - i)).map fun b => booked rate per b.n).sum

def jobs (rate : UInt32) (per : Duration) (batches : List Batch) : List (Job Int) :=
  batches.map fun b => ⟨b.now, booked rate per b.n⟩

variable {K : Clock} {g : Gcra} {n : UInt32} {now : Int} {batches : List Batch}

/-- Neither width is exceeded. -/
theorem cost_eq (g : Gcra) (n : UInt32) : g.cost n = booked g.rate g.per n := by
  have hn := n.toNat_lt
  have hper := g.per.nanos_lt
  have hmul : g.per.nanos * n.toNat < 2 ^ 128 := by
    calc g.per.nanos * n.toNat ≤ (2 ^ 64 * 10 ^ 9) * 2 ^ 32 :=
          Nat.mul_le_mul hper.le hn.le
      _ < 2 ^ 128 := by decide
  have hcap : COST_CAP_NS < 2 ^ 64 := by decide
  rw [Gcra.cost, Nat.mod_eq_of_lt hmul, Nat.mod_eq_of_lt (lt_of_le_of_lt (min_le_right _ _) hcap),
    booked, Nat.mul_comm]

/-- When there is room for a batch. -/
def release (per : Duration) (b : Batch) (tat : Int) : Int := max b.now (tat - per.nanos)

theorem start_eq (g : Gcra) (now : Int) :
    (match g.tat with
      | some t => if now < t then t else now
      | none => now) = begin g.tat now := by
  cases g.tat with
  | none => rfl
  | some t =>
    rw [begin]
    dsimp only
    split_ifs with h
    · rw [max_eq_left h.le]
    · rw [max_eq_right (not_lt.mp h)]

theorem wait_eq {b : Batch} (hnow : K.first ≤ b.now) (per : Duration) (tat : Int) :
    b.now + ((match K.checkedSub tat per.nanos with
      | some earliest => if b.now < earliest then (earliest - b.now).toNat else 0
      | none => 0 : Nat) : Int) = release per b tat := by
  rw [Clock.checkedSub, release]
  split_ifs with hsub
  · dsimp only
    split_ifs with hlate
    · rw [max_eq_right hlate.le]
      omega
    · rw [max_eq_left (not_lt.mp hlate)]
      exact add_zero b.now
  · rw [max_eq_left (by omega)]
    exact add_zero b.now

/-- The bucket is full again when a single server would be done with the batch. -/
theorem reserve_eq {b : Batch} (hnow : K.first ≤ b.now) {tat : Int}
    (htat : tat = begin g.tat b.now + booked g.rate g.per b.n) :
    ∃ wait : Nat, b.now + wait = release g.per b tat ∧
      g.reserve K b.n b.now =
        if tat ≤ K.last then some ({ g with tat := some tat }, wait) else none := by
  refine ⟨_, wait_eq hnow g.per tat, ?_⟩
  rw [Gcra.reserve, start_eq, cost_eq]
  simp only [Clock.checkedAdd, ← htat]
  split_ifs <;> rfl

theorem releases_cons {b : Batch} (hnow : K.first ≤ b.now) {tat : Int}
    (htat : tat = begin g.tat b.now + booked g.rate g.per b.n) :
    releases K g (b :: batches) =
      if tat ≤ K.last then
        (releases K { g with tat := some tat } batches).map (release g.per b tat :: ·)
      else none := by
  obtain ⟨wait, hwait, hreserve⟩ := reserve_eq hnow htat
  rw [releases, hreserve]
  split_ifs
  · simp only [Option.bind_eq_bind, Option.bind_some, Option.pure_def, hwait]
    cases releases K { g with tat := some tat } batches <;> rfl
  · rfl

theorem releases_eq_some (hnow : ∀ b ∈ batches, K.first ≤ b.now) {times : List Int} :
    releases K g batches = some times ↔
      (∀ tat ∈ done g.tat (jobs g.rate g.per batches), tat ≤ K.last) ∧
        times = List.zipWith (release g.per) batches (done g.tat (jobs g.rate g.per batches)) := by
  induction batches generalizing g times with
  | nil => simp [releases, jobs, done, eq_comm]
  | cons b batches ih =>
    have hrest : ∀ b ∈ batches, K.first ≤ b.now :=
      fun x hx => hnow x (List.mem_cons_of_mem _ hx)
    rw [releases_cons (hnow b List.mem_cons_self) rfl, jobs, List.map_cons, done,
      List.forall_mem_cons, List.zipWith_cons_cons, ← jobs]
    split_ifs with hfits
    · rw [Option.map_eq_some_iff, and_iff_right hfits]
      constructor
      · rintro ⟨rest, hr, rfl⟩
        obtain ⟨hall, rfl⟩ := (ih hrest).mp hr
        exact ⟨hall, rfl⟩
      · rintro ⟨hall, rfl⟩
        exact ⟨_, (ih hrest).mpr ⟨hall, rfl⟩, rfl⟩
    · exact ⟨fun h => h.elim, fun h => absurd h.1.1 hfits⟩

theorem booked_of_le {rate n : UInt32} (hrate : 1 ≤ rate) (hn : n ≤ rate) (per : Duration) :
    n.toNat * per.nanos / rate.toNat ≤ per.nanos := by
  have hpos : 0 < rate.toNat := UInt32.le_iff_toNat_le.mp hrate
  refine Nat.div_le_of_le_mul ?_
  exact Nat.mul_le_mul_right per.nanos (UInt32.le_iff_toNat_le.mp hn)

theorem spent_jobs (rate : UInt32) (per : Duration) (batches : List Batch) (i j : Nat) :
    spent (jobs rate per batches) i j = bookedFrom rate per batches i j := by
  rw [spent, jobs, bookedFrom, Nat.cast_list_sum, ← List.map_drop, ← List.map_take, List.map_map,
    List.map_map]
  rfl

theorem jobs_eq_some {rate : UInt32} {per : Duration} {i : Nat} {x : Job Int} :
    (jobs rate per batches)[i]? = some x ↔
      ∃ b, batches[i]? = some b ∧ x = ⟨b.now, booked rate per b.n⟩ := by
  rw [jobs, List.getElem?_map, Option.map_eq_some_iff]
  exact exists_congr fun b => and_congr_right fun _ => eq_comm

theorem cost_nonneg (rate : UInt32) (per : Duration) (batches : List Batch) :
    ∀ x ∈ jobs rate per batches, 0 ≤ x.cost := by
  intro x hx
  obtain ⟨b, -, rfl⟩ := List.mem_map.mp hx
  exact Int.natCast_nonneg _

/-- The clock overflows when the batches since an arrival take it past its end. -/
theorem fits_iff (rate : UInt32) (per : Duration) :
    (∀ tat ∈ done none (jobs rate per batches), tat ≤ K.last) ↔
      ∀ i j b, i ≤ j → j < batches.length → batches[i]? = some b →
        b.now + bookedFrom rate per batches i j ≤ K.last := by
  constructor
  · intro h i j b hij hj hi
    have hlen : j < (done none (jobs rate per batches)).length := by
      rwa [length_done, jobs, List.length_map]
    have hspent := arrival_add_spent_le_done hij (jobs_eq_some.mpr ⟨b, hi, rfl⟩)
      (List.getElem?_eq_getElem hlen)
    rw [spent_jobs] at hspent
    exact hspent.trans (h _ (List.getElem_mem hlen))
  · intro h tat htat
    obtain ⟨j, hj, rfl⟩ := List.getElem_of_mem htat
    have hlen : j < batches.length := by
      rwa [length_done, jobs, List.length_map] at hj
    rcases exists_done_eq (List.getElem?_eq_getElem hj) with ⟨u, hu, -⟩ | ⟨i, x, hij, hi, heq⟩
    · cases hu
    · obtain ⟨b, hb, rfl⟩ := jobs_eq_some.mp hi
      rw [heq, spent_jobs]
      exact h i j b hij hlen hb

theorem pairwise_zipWith_release {per : Duration} {tats : List Int}
    (hbatches : batches.Pairwise fun a b => a.now ≤ b.now) (htats : tats.Pairwise (· ≤ ·)) :
    (List.zipWith (release per) batches tats).Pairwise (· ≤ ·) := by
  induction batches generalizing tats with
  | nil => exact List.Pairwise.nil
  | cons b batches ih =>
    cases tats with
    | nil => exact List.Pairwise.nil
    | cons tat tats =>
      obtain ⟨hb, hbatches⟩ := List.pairwise_cons.mp hbatches
      obtain ⟨ht, htats⟩ := List.pairwise_cons.mp htats
      refine List.pairwise_cons.mpr ⟨fun p hp => ?_, ih hbatches htats⟩
      rw [← List.map_uncurry_zip_eq_zipWith] at hp
      obtain ⟨⟨b', tat'⟩, hmem, rfl⟩ := List.mem_map.mp hp
      obtain ⟨hb', htat'⟩ := List.of_mem_zip hmem
      exact max_le_max (hb b' hb') (sub_le_sub_right (ht tat' htat') _)

/-- No wait for a batch within the rate that finds the bucket full. -/
theorem wait_eq_zero {g' : Gcra} {wait : Nat} (hnow : K.first ≤ now) (hfull : g.FullAt now)
    (hn : n ≤ g.rate) (h : g.reserve K n now = some (g', wait)) : wait = 0 := by
  obtain ⟨w, hw, hreserve⟩ := reserve_eq (g := g) (b := ⟨n, now⟩) hnow rfl
  rw [hreserve] at h
  split_ifs at h
  obtain ⟨-, rfl⟩ := Prod.mk.inj (Option.some.inj h)
  have hbegin : begin g.tat now = now := by
    cases ht : g.tat with
    | none => rfl
    | some t => exact max_eq_right (hfull t ht)
  have hcost : booked g.rate g.per n ≤ g.per.nanos :=
    (min_le_left _ _).trans (booked_of_le g.rate_pos hn g.per)
  dsimp only [release] at hw
  rw [hbegin, max_eq_left (by omega)] at hw
  omega

/-- The release times of batches of any size at any rate do not decrease, and stay within the
rate and the depth of the bucket, with a batch booked at ten years at most; no batch within the
rate costs that much. -/
theorem offers_paced (K : Clock) (rate : UInt32) (per : Duration) (batches : List Batch)
    (hrate : 1 ≤ rate) (hnow : ∀ b ∈ batches, K.Holds b.now)
    (hsorted : batches.Pairwise fun a b => a.now ≤ b.now) :
    ((releases K (Gcra.new rate per) batches).isSome ↔
      ∀ i j b, i ≤ j → j < batches.length → batches[i]? = some b →
        b.now + bookedFrom rate per batches i j ≤ K.last) ∧
    (∀ times, releases K (Gcra.new rate per) batches = some times →
      times.length = batches.length ∧ times.Pairwise (· ≤ ·) ∧
      ∀ i j (b : Batch) (p : Int), i ≤ j → batches[i]? = some b → times[j]? = some p →
        (bookedFrom rate per batches i j : Int) ≤ per.nanos + (p - b.now)) ∧
    (∀ (g g' : Gcra) (n : UInt32) (now : Int) (wait : Nat), g.rate = rate → K.Holds now →
      g.FullAt now → n ≤ rate → g.reserve K n now = some (g', wait) → wait = 0) ∧
    (per.nanos ≤ (2 ^ 32 - 1) * 10 ^ 6 → ∀ n ≤ rate,
      booked rate per n = n.toNat * per.nanos / rate.toNat) := by
  have hfirst : ∀ b ∈ batches, K.first ≤ b.now := fun b hb => (hnow b hb).1
  have hnew : (Gcra.new rate per).rate = rate := if_pos hrate
  have hreleases : ∀ times, releases K (Gcra.new rate per) batches = some times ↔
      (∀ tat ∈ done none (jobs rate per batches), tat ≤ K.last) ∧
        times = List.zipWith (release per) batches (done none (jobs rate per batches)) := by
    intro times
    rw [releases_eq_some hfirst, hnew]
    rfl
  refine ⟨?_, fun times htimes => ?_, ?_, ?_⟩
  · rw [← fits_iff, Option.isSome_iff_exists]
    constructor
    · rintro ⟨times, htimes⟩
      exact ((hreleases times).mp htimes).1
    · exact fun h => ⟨_, (hreleases _).mpr ⟨h, rfl⟩⟩
  · obtain ⟨-, rfl⟩ := (hreleases times).mp htimes
    refine ⟨?_, ?_, ?_⟩
    · rw [List.length_zipWith, length_done, jobs, List.length_map, Nat.min_self]
    · exact pairwise_zipWith_release hsorted (pairwise_done (cost_nonneg rate per batches))
    · intro i j b p hij hi hj
      obtain ⟨b', tat, -, htat, rfl⟩ := List.getElem?_zipWith_eq_some.mp hj
      have hspent := arrival_add_spent_le_done hij (jobs_eq_some.mpr ⟨b, hi, rfl⟩) htat
      rw [spent_jobs] at hspent
      have hroom : tat - per.nanos ≤ release per b' tat := le_max_right _ _
      dsimp only at hspent
      change _ ≤ _ + (release per b' tat - b.now)
      omega
  · rintro g g' n now wait rfl hholds hfull hn h
    exact wait_eq_zero hholds.1 hfull hn h
  · intro hper n hn
    have hcost := booked_of_le hrate hn per
    exact min_eq_left (by rw [COST_CAP_NS]; omega)

/-- Seconds of 64 bits with a sign. -/
def timespec : Clock := ⟨-2 ^ 63 * 10 ^ 9, 2 ^ 63 * 10 ^ 9 - 1⟩

theorem offers_paced_second :
    timespec.Holds 0 ∧ [Batch.mk 2 0, Batch.mk 1 5].Pairwise (fun a b => a.now ≤ b.now) ∧
      ∀ times, releases timespec (Gcra.new 2 second) [⟨2, 0⟩, ⟨1, 5⟩] = some times →
        times.Pairwise (· ≤ ·) := by
  have hnow : ∀ b ∈ [Batch.mk 2 0, Batch.mk 1 5], timespec.Holds b.now := by
    intro b hb
    rcases List.mem_pair.mp hb with rfl | rfl <;> exact ⟨by decide, by decide⟩
  have hpaced := offers_paced timespec 2 second [⟨2, 0⟩, ⟨1, 5⟩] (by decide) hnow (by simp)
  exact ⟨⟨by decide, by decide⟩, by simp, fun times h => (hpaced.2.1 times h).2.1⟩

theorem bookedFrom_replicate (rate : UInt32) (per : Duration) (b : Batch) (m : Nat) :
    bookedFrom rate per (List.replicate (m + 1) b) 0 m = (m + 1) * booked rate per b.n := by
  rw [bookedFrom, List.drop_zero, Nat.sub_zero, List.take_replicate, Nat.min_self,
    List.map_replicate, List.sum_replicate]
  rfl

/-- Enough batches at one time take the clock past its end. -/
theorem releases_replicate {b : Batch} {k : Nat} (htat : g.tat = none) (hfirst : K.first ≤ b.now)
    (hnow : b.now ≤ K.last) (hlast : K.last < b.now + (k * booked g.rate g.per b.n : Nat)) :
    releases K g (List.replicate k b) = none := by
  obtain ⟨m, rfl⟩ : ∃ m, k = m + 1 := by
    refine Nat.exists_eq_add_one_of_ne_zero ?_
    rintro rfl
    rw [Nat.zero_mul, Int.natCast_zero] at hlast
    omega
  have hreplicate : ∀ x ∈ List.replicate (m + 1) b, K.first ≤ x.now := by
    intro x hx
    rwa [List.eq_of_mem_replicate hx]
  rw [Option.eq_none_iff_forall_ne_some]
  intro times h
  have hdone := ((releases_eq_some hreplicate).mp h).1
  rw [htat, fits_iff] at hdone
  have hwhole := hdone 0 m b (Nat.zero_le m) (by rw [List.length_replicate]; omega)
    (List.getElem?_replicate_of_lt (Nat.succ_pos m))
  rw [bookedFrom_replicate] at hwhole
  omega

/-- A batch of the largest size at one record a second is booked at ten years and not at 136, and
many batches at one time take the clock past its end. -/
theorem large_batches :
    (∃ p, releases timespec (Gcra.new 1 second) [⟨4294967295, 0⟩] = some [p] ∧
      ¬((4294967295 * second.nanos / 1 : Nat) : Int) ≤ second.nanos + (p - 0)) ∧
    releases timespec (Gcra.new 1 second) (List.replicate (2 ^ 64) ⟨1, 0⟩) = none := by
  constructor
  · have hone : releases timespec (Gcra.new 1 second) [⟨4294967295, 0⟩] =
        some [10 * 365 * 86400 * 10 ^ 9 - 10 ^ 9] := by decide
    exact ⟨_, hone, by decide⟩
  · exact releases_replicate rfl (by decide) (by decide) (by decide)

end Ed2kServer.Publish.OfferPacing
