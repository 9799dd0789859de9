import Mathlib.Algebra.Order.Ring.Nat
import Mathlib.Tactic.Linarith

namespace Ed2kServer.Admission.Bucket

/-- Levels are in micro-credits, and the clock counts nanoseconds. -/
structure TokenBucket where
  ratePerS : Nat
  burstMicro : Nat
  levelMicro : Nat
  last : Nat
  deriving DecidableEq

namespace TokenBucket

def new (ratePerS burst now : Nat) : TokenBucket :=
  ⟨ratePerS, burst * 1000000, burst * 1000000, now⟩

/-- The clock reading may be older than the last credit. -/
def refill (b : TokenBucket) (now : Nat) : TokenBucket :=
  let us := (now - b.last) / 1000
  if 0 < us then
    { b with
      levelMicro := min (b.levelMicro + us * b.ratePerS) b.burstMicro
      last := b.last + us * 1000 }
  else b

def take (b : TokenBucket) (cost now : Nat) : Bool × TokenBucket :=
  let b := b.refill now
  if cost * 1000000 ≤ b.levelMicro then
    (true, { b with levelMicro := b.levelMicro - cost * 1000000 })
  else (false, b)

def refund (b : TokenBucket) (cost : Nat) : TokenBucket :=
  { b with levelMicro := min (b.levelMicro + cost * 1000000) b.burstMicro }

def isFullAt (b : TokenBucket) (now : Nat) : Bool :=
  b.burstMicro ≤ (b.refill now).levelMicro

/-- The bucket has this rate and this burst, and holds no more. -/
structure Sized (ratePerS burst : Nat) (b : TokenBucket) : Prop where
  rate_eq : b.ratePerS = ratePerS
  burst_eq : b.burstMicro = burst * 1000000
  level_le : b.levelMicro ≤ burst * 1000000

/-- What can be taken until a time: the level, and the credits until then. -/
def worth (b : TokenBucket) (till : Nat) : Nat :=
  b.levelMicro + b.ratePerS * ((till - b.last) / 1000)

variable {b b' : TokenBucket} {ratePerS burst cost now start till : Nat}

theorem sized_new (ratePerS burst now : Nat) : Sized ratePerS burst (new ratePerS burst now) :=
  ⟨rfl, rfl, le_refl _⟩

theorem Sized.refill (h : Sized ratePerS burst b) (now : Nat) :
    Sized ratePerS burst (b.refill now) := by
  rw [TokenBucket.refill]
  split
  · refine ⟨h.rate_eq, h.burst_eq, ?_⟩
    rw [h.burst_eq]
    exact min_le_right _ _
  · exact h

theorem take_eq_true (ht : b.take cost now = (true, b')) :
    cost * 1000000 ≤ (b.refill now).levelMicro ∧
      b' = { b.refill now with levelMicro := (b.refill now).levelMicro - cost * 1000000 } := by
  rw [take] at ht
  split at ht
  · exact ⟨by assumption, (Prod.mk.inj ht).2.symm⟩
  · cases (Prod.mk.inj ht).1

theorem take_eq_false (ht : b.take cost now = (false, b')) : b' = b.refill now := by
  rw [take] at ht
  split at ht
  · cases (Prod.mk.inj ht).1
  · exact (Prod.mk.inj ht).2.symm

theorem Sized.withLevel (h : Sized ratePerS burst b) {level : Nat}
    (hl : level ≤ burst * 1000000) : Sized ratePerS burst { b with levelMicro := level } :=
  ⟨h.rate_eq, h.burst_eq, hl⟩

theorem Sized.take (h : Sized ratePerS burst b) (cost now : Nat) :
    Sized ratePerS burst (b.take cost now).2 := by
  have hr := h.refill now
  rw [TokenBucket.take]
  split
  · exact hr.withLevel (Nat.le_trans (Nat.sub_le _ _) hr.level_le)
  · exact hr

theorem Sized.refund (h : Sized ratePerS burst b) (cost : Nat) :
    Sized ratePerS burst (b.refund cost) := by
  rw [TokenBucket.refund]
  exact h.withLevel (by rw [h.burst_eq]; exact Nat.min_le_right _ _)

/-- The credited time is used up to less than a microsecond. -/
theorem lt_refill_last (b : TokenBucket) (now : Nat) : now < (b.refill now).last + 1000 := by
  rw [refill]
  split
  · dsimp only
    omega
  · omega

theorem le_refill_last (b : TokenBucket) (now : Nat) : b.last ≤ (b.refill now).last := by
  rw [refill]
  split
  · exact Nat.le_add_right _ _
  · exact le_refl _

theorem refill_last_le (hb : b.last ≤ now) : (b.refill now).last ≤ now := by
  rw [refill]
  split
  · dsimp only
    omega
  · exact hb

theorem last_withLevel (b : TokenBucket) (level : Nat) :
    { b with levelMicro := level }.last = b.last := rfl

theorem take_last (b : TokenBucket) (cost now : Nat) :
    (b.take cost now).2.last = (b.refill now).last := by
  rw [take]
  split
  · exact last_withLevel _ _
  · rfl

/-- A refill mints nothing that the time would not bring. -/
theorem refill_worth (b : TokenBucket) (hnow : now ≤ till) :
    (b.refill now).worth till ≤ b.worth till := by
  rw [refill]
  split
  · rename_i hus
    have htime : (now - b.last) / 1000 + (till - (b.last + (now - b.last) / 1000 * 1000)) / 1000 =
        (till - b.last) / 1000 := by omega
    simp only [worth]
    rw [← htime, Nat.mul_add]
    have hmin := min_le_left (b.levelMicro + (now - b.last) / 1000 * b.ratePerS) b.burstMicro
    have hcomm := Nat.mul_comm ((now - b.last) / 1000) b.ratePerS
    omega
  · exact le_refl _

theorem take_worth (hnow : now ≤ till) (ht : b.take cost now = (true, b')) :
    b'.worth till + cost * 1000000 ≤ b.worth till := by
  obtain ⟨hle, rfl⟩ := take_eq_true ht
  have hr := refill_worth b hnow
  simp only [worth] at hr ⊢
  omega

theorem refund_worth (b : TokenBucket) (cost till : Nat) :
    (b.refund cost).worth till ≤ b.worth till + cost * 1000000 := by
  rw [refund]
  generalize cost * 1000000 = micro
  have := Nat.min_le_left (b.levelMicro + micro) b.burstMicro
  simp only [worth]
  omega

/-- At a take from `start` on, no more than the burst is there, and what time brings. -/
theorem worth_of_refill (h : Sized ratePerS burst b) (hstart : start ≤ now) (hnow : now ≤ till) :
    (b.refill now).worth till ≤
      burst * 1000000 + ratePerS * ((till - start + 999) / 1000) := by
  have hr := h.refill now
  have hlast := lt_refill_last b now
  have htime : (till - (b.refill now).last) / 1000 ≤ (till - start + 999) / 1000 := by omega
  rw [worth, hr.rate_eq]
  exact Nat.add_le_add hr.level_le (Nat.mul_le_mul_left _ htime)

theorem worth_new (ratePerS burst now till : Nat) : (new ratePerS burst now).worth till =
    burst * 1000000 + ratePerS * ((till - now) / 1000) := rfl

/-- A bucket that is full at a time is worth a new one made then. -/
theorem worth_of_isFullAt (h : Sized ratePerS burst b) (hfull : b.isFullAt now = true)
    (hmax : max now b.last ≤ till) :
    burst * 1000000 + ratePerS * ((till - max now b.last) / 1000) ≤ b.worth till := by
  rw [isFullAt, decide_eq_true_iff, refill, h.burst_eq] at hfull
  rw [worth, h.rate_eq]
  split at hfull
  · have hle : burst * 1000000 ≤ b.levelMicro + (now - b.last) / 1000 * b.ratePerS :=
      hfull.trans (min_le_left _ _)
    have htime : (now - b.last) / 1000 + (till - max now b.last) / 1000 ≤
        (till - b.last) / 1000 := by omega
    have hmul := Nat.mul_le_mul_left ratePerS htime
    rw [Nat.mul_add] at hmul
    rw [h.rate_eq, Nat.mul_comm _ ratePerS] at hle
    calc burst * 1000000 + ratePerS * ((till - max now b.last) / 1000)
        ≤ b.levelMicro + ratePerS * ((now - b.last) / 1000) +
            ratePerS * ((till - max now b.last) / 1000) := Nat.add_le_add_right hle _
      _ = b.levelMicro + (ratePerS * ((now - b.last) / 1000) +
            ratePerS * ((till - max now b.last) / 1000)) := Nat.add_assoc _ _ _
      _ ≤ b.levelMicro + ratePerS * ((till - b.last) / 1000) := Nat.add_le_add_left hmul _
  · have htime : (till - max now b.last) / 1000 ≤ (till - b.last) / 1000 := by omega
    exact Nat.add_le_add hfull (Nat.mul_le_mul_left ratePerS htime)

end TokenBucket

end Ed2kServer.Admission.Bucket
