import Mathlib.Logic.Function.Basic
import Mathlib.Data.UInt

namespace Ed2kServer.Lib.GuardCount

variable {K : Type} [DecidableEq K]

/-- A table of counters; a key without one counts as 0. -/
abbrev Table (K : Type) := K → Option UInt32

def Table.count (m : Table K) (k : K) : UInt32 := (m k).getD 0

/-- Get the counter of a key or create it. -/
def touch (m : Table K) (k : K) : Table K := Function.update m k (some (m.count k))

/-- Get the counter of a key or create it, and add one. -/
def claim (m : Table K) (k : K) : Table K := Function.update m k (some (m.count k + 1))

/-- Take one off the counter of a key, if it has one; 0 stays. -/
def decrement (m : Table K) (k : K) : Table K :=
  Function.update m k ((m k).map (fun n => if n = 0 then 0 else n - 1))

def removeIfZero (m : Table K) (k : K) : Table K :=
  if m k = some 0 then Function.update m k none else m

/-- Every counter is the number of holders of its key, and a counter at 0 has somebody about to
remove it. -/
structure Exact (m : Table K) (held leaving : K → Nat) : Prop where
  count : ∀ k, (m.count k).toNat = held k
  zero : ∀ k, m k = some 0 → 0 < leaving k

variable {m : Table K} {held leaving held' leaving' : K → Nat} {k : K}

@[simp] theorem count_touch (j : K) : Table.count (touch m k) j = m.count j := by
  by_cases h : j = k
  · subst h
    simp [touch, Table.count]
  · simp [touch, Table.count, h]

theorem count_claim (j : K) :
    Table.count (claim m k) j = if j = k then m.count k + 1 else m.count j := by
  by_cases h : j = k
  · subst h
    simp [claim, Table.count]
  · simp [claim, Table.count, h]

theorem count_decrement (j : K) :
    Table.count (decrement m k) j =
      if j = k then (if m.count k = 0 then 0 else m.count k - 1) else m.count j := by
  by_cases h : j = k
  · subst h
    cases hm : m j <;> simp [decrement, Table.count, hm]
  · simp [decrement, Table.count, h]

@[simp] theorem count_removeIfZero (j : K) : Table.count (removeIfZero m k) j = m.count j := by
  rw [removeIfZero]
  split
  · rename_i h
    by_cases hj : j = k
    · subst hj
      simp [Table.count, h]
    · simp [Table.count, hj]
  · rfl

namespace Exact

omit [DecidableEq K] in
theorem empty : Exact (fun _ : K => none) (fun _ => 0) (fun _ => 0) :=
  ⟨fun _ => rfl, fun _ h => nomatch h⟩

omit [DecidableEq K] in
theorem congr (h : Exact m held leaving) (hh : ∀ j, held' j = held j)
    (hl : ∀ j, leaving' j = leaving j) : Exact m held' leaving' :=
  ⟨fun j => by rw [hh, h.count], fun j hj => by rw [hl]; exact h.zero j hj⟩

theorem touch (h : Exact m held leaving) (hh : ∀ j, held' j = held j)
    (hl : ∀ j, leaving' j = leaving j + if j = k then 1 else 0) :
    Exact (touch m k) held' leaving' := by
  refine ⟨fun j => by rw [count_touch, hh, h.count], fun j hj => ?_⟩
  rw [hl]
  by_cases hjk : j = k
  · rw [if_pos hjk]
    omega
  · rw [GuardCount.touch, Function.update_of_ne hjk] at hj
    exact Nat.lt_of_lt_of_le (h.zero j hj) (Nat.le_add_right _ _)

theorem claim (h : Exact m held leaving) (hroom : held k + 1 < 2 ^ 32)
    (hh : ∀ j, held' j = held j + if j = k then 1 else 0)
    (hl : ∀ j, leaving' j = leaving j) : Exact (claim m k) held' leaving' := by
  have hadd : (m.count k + 1).toNat = held k + 1 := by
    rw [UInt32.toNat_add, h.count, UInt32.toNat_one]
    exact Nat.mod_eq_of_lt hroom
  refine ⟨fun j => ?_, fun j hj => ?_⟩
  · rw [count_claim, hh]
    split
    · rename_i hjk
      rw [hadd, hjk]
    · rw [h.count, Nat.add_zero]
  · rw [hl]
    by_cases hjk : j = k
    · subst hjk
      rw [GuardCount.claim, Function.update_self, Option.some.injEq] at hj
      rw [hj] at hadd
      cases hadd
    · rw [GuardCount.claim, Function.update_of_ne hjk] at hj
      exact h.zero j hj

omit [DecidableEq K] in
/-- A holder's counter is there and not 0. -/
theorem positive (h : Exact m held leaving) (hk : 0 < held k) : ∃ n, m k = some n ∧ 0 < n := by
  have hc := h.count k
  cases hm : m k with
  | none =>
    rw [Table.count, hm] at hc
    have hz : held k = 0 := hc.symm
    omega
  | some n =>
    refine ⟨n, rfl, UInt32.lt_iff_toNat_lt.mpr ?_⟩
    rw [Table.count, hm] at hc
    have hn : n.toNat = held k := hc
    rw [hn]
    exact hk

theorem decrement (h : Exact m held leaving) (hh : ∀ j, held j = held' j + if j = k then 1 else 0)
    (hl : ∀ j, leaving' j = leaving j + if j = k then 1 else 0) :
    Exact (decrement m k) held' leaving' := by
  have hk := hh k
  rw [if_pos rfl] at hk
  have hc := h.count k
  have hne : m.count k ≠ 0 := by
    intro hz
    rw [hz, UInt32.toNat_zero] at hc
    omega
  refine ⟨fun j => ?_, fun j hj => ?_⟩
  · rw [count_decrement]
    by_cases hjk : j = k
    · rw [if_pos hjk, if_neg hne, hjk, UInt32.toNat_sub_of_le _ _ ?_, hc, UInt32.toNat_one]
      · omega
      · rw [UInt32.le_iff_toNat_le, hc, UInt32.toNat_one]
        omega
    · have hj := hh j
      rw [if_neg hjk] at hj
      rw [if_neg hjk, h.count, hj, Nat.add_zero]
  · rw [hl]
    by_cases hjk : j = k
    · rw [if_pos hjk]
      omega
    · rw [GuardCount.decrement, Function.update_of_ne hjk] at hj
      exact Nat.lt_of_lt_of_le (h.zero j hj) (Nat.le_add_right _ _)

theorem removeIfZero (h : Exact m held leaving) (hh : ∀ j, held' j = held j)
    (hl : ∀ j, leaving j = leaving' j + if j = k then 1 else 0) :
    Exact (removeIfZero m k) held' leaving' := by
  refine ⟨fun j => by rw [count_removeIfZero, hh, h.count], fun j hj => ?_⟩
  have hj' := hl j
  by_cases hjk : j = k
  · rw [GuardCount.removeIfZero] at hj
    split at hj
    · rw [hjk, Function.update_self] at hj
      cases hj
    · rename_i hn
      rw [hjk] at hj
      exact absurd hj hn
  · have hm : m j = some 0 := by
      rw [GuardCount.removeIfZero] at hj
      split at hj
      · rwa [Function.update_of_ne hjk] at hj
      · exact hj
    have hz := h.zero j hm
    rw [if_neg hjk] at hj'
    omega

omit [DecidableEq K] in
/-- Without holders and without anybody leaving, the table is empty. -/
theorem eq_empty (h : Exact m held leaving) (hh : ∀ j, held j = 0) (hl : ∀ j, leaving j = 0) :
    m = fun _ => none := by
  funext j
  cases hm : m j with
  | none => rfl
  | some n =>
    have hc := h.count j
    rw [Table.count, hm, hh] at hc
    have hn : n = 0 := UInt32.toNat_inj.mp hc
    have hz := h.zero j (by rw [hm, hn])
    rw [hl] at hz
    cases hz

end Exact

end Ed2kServer.Lib.GuardCount
