import Ed2kServer.Basic
import Ed2kServer.Lib.Transition

namespace Ed2kServer.Server.LowId

open Ed2kServer.Lib.Transition

structure State where
  nextLowId : UInt32
  /-- How often the counter has gone round. -/
  cycle : Nat
  /-- The ids returned, the latest first, each with the cycle it belongs to. -/
  returned : List (Nat × UInt32)

def State.new : State := ⟨1, 0, []⟩

def SRVCAP_NATTRAVERSAL : UInt32 := 0x1000

/-- A login: the flags of the client, and whether NAT traversal is on in the configuration. -/
structure Login where
  serverFlags : UInt32
  lugdunumNatt : Bool

def Login.wantsOddLowId (l : Login) : Bool :=
  l.lugdunumNatt && l.serverFlags &&& SRVCAP_NATTRAVERSAL != 0

def allocateLowId (s : State) : State × UInt32 :=
  let id := s.nextLowId
  if 0x00FFFFFF ≤ id then ({ s with nextLowId := 1, cycle := s.cycle + 1 }, 1)
  else ({ s with nextLowId := id + 1 }, id)

/-- The loop that draws ids until one has the parity; `none` when `fuel` ends. -/
def allocateParity (odd : Bool) : Nat → State → Option (State × UInt32)
  | 0, _ => none
  | fuel + 1, s =>
    let p := allocateLowId s
    if (p.2 &&& 1 == 1) = odd then some p else allocateParity odd fuel p.1

def allocateLowIdFor (s : State) (l : Login) : Option (State × UInt32) :=
  if l.lugdunumNatt then allocateParity l.wantsOddLowId 3 s else some (allocateLowId s)

def step (s : State) (l : Login) : Option State :=
  (allocateLowIdFor s l).map (fun p => { p.1 with returned := (p.1.cycle, p.2) :: p.1.returned })

/-- No id is out of range or twice in one cycle. -/
def Unique (s : State) : Prop :=
  s.returned.Nodup ∧ ∀ e ∈ s.returned, 1 ≤ e.2.toNat ∧ e.2.toNat ≤ 0x00FFFFFE

def Login.AcceptsOdd (l : Login) : Prop := l.lugdunumNatt = false ∨ l.wantsOddLowId = true

/-- The call does not take an odd id while the counter is back at 1: whoever wrapped it has the
id 1 already. -/
def InTurn (s : State) (l : Login) : Prop :=
  ¬ (s.nextLowId.toNat = 1 ∧ s.returned ≠ [] ∧ l.AcceptsOdd)

def InRange (s : State) : Prop := 1 ≤ s.nextLowId.toNat ∧ s.nextLowId.toNat ≤ 0x00FFFFFF

theorem odd_eq (id : UInt32) : (id &&& 1 == 1) = decide (id.toNat % 2 = 1) := by
  rw [Bool.eq_iff_iff, beq_iff_eq, decide_eq_true_iff, ← UInt32.toNat_inj, UInt32.toNat_and]
  exact iff_of_eq (congrArg (· = 1) (Nat.and_one_is_mod id.toNat))

theorem allocateLowId_wrap {s : State} (h : s.nextLowId.toNat = 0x00FFFFFF) :
    allocateLowId s = ({ s with nextLowId := 1, cycle := s.cycle + 1 }, 1) := by
  have hle : 0x00FFFFFF ≤ s.nextLowId := by
    rw [UInt32.le_iff_toNat_le, h]
    decide
  rw [allocateLowId, if_pos hle]

theorem allocateLowId_next {s : State} (h : s.nextLowId.toNat < 0x00FFFFFF) :
    allocateLowId s = ({ s with nextLowId := s.nextLowId + 1 }, s.nextLowId) := by
  have hlt : ¬ 0x00FFFFFF ≤ s.nextLowId := by
    rw [UInt32.le_iff_toNat_le]
    exact Nat.not_le.mpr h
  rw [allocateLowId, if_neg hlt]

theorem toNat_succ {id : UInt32} (h : id.toNat < 0x00FFFFFF) :
    (id + 1).toNat = id.toNat + 1 := by
  rw [UInt32.toNat_add]
  change (id.toNat + 1) % 2 ^ 32 = _
  omega

theorem allocateParity_succ {odd : Bool} {fuel : Nat} {s s' : State} {id : UInt32}
    (h : allocateLowId s = (s', id)) : allocateParity odd (fuel + 1) s =
      if decide (id.toNat % 2 = 1) = odd then some (s', id) else allocateParity odd fuel s' := by
  rw [allocateParity, h]
  simp only [odd_eq]

/-- The id a login gets: the next of the cycle that will do, or the first of the next cycle. -/
inductive Allocated (s : State) (l : Login) : State × UInt32 → Prop
  | next (id : UInt32) (ge : s.nextLowId.toNat ≤ id.toNat) (lt : id.toNat < 0x00FFFFFF)
    (first : l.AcceptsOdd → s.nextLowId.toNat = 1 → id.toNat = 1)
    (parity : id.toNat % 2 = 1 → l.AcceptsOdd) :
    Allocated s l ({ s with nextLowId := id + 1 }, id)
  | wrapped (odd : l.AcceptsOdd) (ge : 0x00FFFFFE ≤ s.nextLowId.toNat) :
    Allocated s l ({ s with nextLowId := 1, cycle := s.cycle + 1 }, 1)
  | second (even : ¬ l.AcceptsOdd) :
    Allocated s l ({ s with nextLowId := 3, cycle := s.cycle + 1 }, 2)

/-- The loop draws three ids at most. -/
theorem allocateParity_spec {s : State} (h : InRange s) {l : Login} (hn : l.lugdunumNatt = true) :
    ∃ p, allocateParity l.wantsOddLowId 3 s = some p ∧ Allocated s l p := by
  obtain ⟨hlo, hhi⟩ := h
  have haccept : l.AcceptsOdd ↔ l.wantsOddLowId = true := by simp [Login.AcceptsOdd, hn]
  rcases Nat.lt_or_eq_of_le hhi with hlt | heq
  · rw [allocateParity_succ (allocateLowId_next hlt)]
    by_cases hp : decide (s.nextLowId.toNat % 2 = 1) = l.wantsOddLowId
    · refine ⟨_, if_pos hp, .next _ (Nat.le_refl _) hlt (fun _ h => h) (fun hodd => ?_)⟩
      rw [haccept, ← hp]
      exact decide_eq_true hodd
    · rw [if_neg hp]
      have hsucc := toNat_succ hlt
      rcases Nat.lt_or_eq_of_le (Nat.succ_le_of_lt hlt) with hlt' | heq
      · have hnext : (s.nextLowId + 1).toNat < 0x00FFFFFF := by omega
        rw [allocateParity_succ (allocateLowId_next hnext), hsucc]
        cases hw : l.wantsOddLowId with
        | true =>
          have hodd : (s.nextLowId.toNat + 1) % 2 = 1 := by
            rw [hw, decide_eq_true_iff] at hp
            omega
          refine ⟨_, if_pos (decide_eq_true hodd), .next _ (by rw [hsucc]; exact Nat.le_succ _)
            hnext (fun _ h => ?_) (fun _ => haccept.mpr hw)⟩
          omega
        | false =>
          have heven : ¬ (s.nextLowId.toNat + 1) % 2 = 1 := by
            rw [hw, decide_eq_false_iff_not] at hp
            omega
          refine ⟨_, if_pos (decide_eq_false heven), .next _ (by rw [hsucc]; exact Nat.le_succ _)
            hnext (fun ha => ?_) (fun hodd => absurd (hsucc ▸ hodd) heven)⟩
          rw [haccept, hw] at ha
          cases ha
      · have hw : l.wantsOddLowId = true := by
          cases hw : l.wantsOddLowId with
          | true => rfl
          | false =>
            rw [hw, decide_eq_false_iff_not] at hp
            omega
        have hwrap : (s.nextLowId + 1).toNat = 0x00FFFFFF := by omega
        rw [allocateParity_succ (allocateLowId_wrap hwrap), hw]
        exact ⟨_, rfl, .wrapped (haccept.mpr hw) (by omega)⟩
  · rw [allocateParity_succ (allocateLowId_wrap heq)]
    cases hw : l.wantsOddLowId with
    | true => exact ⟨_, rfl, .wrapped (haccept.mpr hw) (by omega)⟩
    | false =>
      have hone : allocateLowId { s with nextLowId := 1, cycle := s.cycle + 1 } =
          ({ s with nextLowId := 2, cycle := s.cycle + 1 }, 1) :=
        allocateLowId_next (show 1 < 0x00FFFFFF by decide)
      have htwo : allocateLowId { s with nextLowId := 2, cycle := s.cycle + 1 } =
          ({ s with nextLowId := 3, cycle := s.cycle + 1 }, 2) :=
        allocateLowId_next (show 2 < 0x00FFFFFF by decide)
      refine ⟨({ s with nextLowId := 3, cycle := s.cycle + 1 }, 2), ?_, .second ?_⟩
      · rw [if_neg (by decide), allocateParity_succ hone, if_neg (by decide),
          allocateParity_succ htwo, if_pos (by decide)]
      · rw [haccept, hw]
        decide

theorem allocateLowIdFor_spec {s : State} (h : InRange s) (l : Login) :
    ∃ p, allocateLowIdFor s l = some p ∧ Allocated s l p := by
  rw [allocateLowIdFor]
  cases hn : l.lugdunumNatt with
  | true => exact allocateParity_spec h hn
  | false =>
    have hodd : l.AcceptsOdd := Or.inl hn
    refine ⟨allocateLowId s, rfl, ?_⟩
    rcases Nat.lt_or_eq_of_le h.2 with hlt | heq
    · rw [allocateLowId_next hlt]
      exact .next _ (Nat.le_refl _) hlt (fun _ h => h) (fun _ => hodd)
    · rw [allocateLowId_wrap heq]
      exact .wrapped hodd (by omega)

/-- The ids of the running cycle are behind the counter, except the 1 that wrapping returned. -/
structure Inv (s : State) : Prop where
  range : InRange s
  unique : Unique s
  behind : ∀ e ∈ s.returned, e.1 ≤ s.cycle ∧
    (e.1 = s.cycle → e.2.toNat < s.nextLowId.toNat ∨ e.2.toNat = 1)
  first : s.nextLowId.toNat = 1 → s.returned ≠ [] → (s.cycle, 1) ∈ s.returned

theorem inv_new : Inv .new where
  range := ⟨Nat.le_refl 1, by decide⟩
  unique := ⟨List.nodup_nil, fun e he => by cases he⟩
  behind e he := by cases he
  first _ h := absurd rfl h

theorem inv_same_cycle {s : State} (h : Inv s) {id : UInt32}
    (hge : s.nextLowId.toNat ≤ id.toNat) (hlt : id.toNat < 0x00FFFFFF)
    (hnew : ¬ (s.nextLowId.toNat = 1 ∧ s.returned ≠ [] ∧ id.toNat = 1)) :
    Inv ⟨id + 1, s.cycle, (s.cycle, id) :: s.returned⟩ := by
  have hlo := h.range.1
  have hsucc := toNat_succ hlt
  obtain ⟨hnd, hbound⟩ := h.unique
  refine ⟨⟨?_, ?_⟩, ⟨List.nodup_cons.mpr ⟨fun hmem => ?_, hnd⟩, ?_⟩, ?_, fun hone => ?_⟩
  · change 1 ≤ (id + 1).toNat
    omega
  · change (id + 1).toNat ≤ 0x00FFFFFF
    omega
  · rcases (h.behind _ hmem).2 rfl with hbehind | hone
    · exact absurd hbehind (Nat.not_lt.mpr hge)
    · change id.toNat = 1 at hone
      exact hnew ⟨by omega, List.ne_nil_of_mem hmem, hone⟩
  · rintro e (_ | ⟨_, he⟩)
    · exact ⟨Nat.le_trans hlo hge, Nat.le_of_lt_succ hlt⟩
    · exact hbound e he
  · rintro e (_ | ⟨_, he⟩)
    · exact ⟨Nat.le_refl _, fun _ => Or.inl (by rw [hsucc]; exact Nat.lt_succ_self _)⟩
    · obtain ⟨hle, hbehind⟩ := h.behind e he
      refine ⟨hle, fun hcycle => (hbehind hcycle).imp_left (fun hb => ?_)⟩
      rw [hsucc]
      omega
  · change (id + 1).toNat = 1 at hone
    omega

theorem inv_next_cycle {s : State} (h : Inv s) (next id : UInt32)
    (hnext : 1 ≤ next.toNat ∧ next.toNat ≤ 0x00FFFFFF)
    (hid : 1 ≤ id.toNat ∧ id.toNat ≤ 0x00FFFFFE) (hb : id.toNat < next.toNat ∨ id.toNat = 1)
    (hfirst : next.toNat = 1 → id = 1) :
    Inv ⟨next, s.cycle + 1, (s.cycle + 1, id) :: s.returned⟩ := by
  obtain ⟨hnd, hbound⟩ := h.unique
  refine ⟨hnext, ⟨List.nodup_cons.mpr ⟨fun hmem => ?_, hnd⟩, ?_⟩, ?_, fun hone _ => ?_⟩
  · exact absurd (h.behind _ hmem).1 (Nat.not_succ_le_self _)
  · rintro e (_ | ⟨_, he⟩)
    · exact hid
    · exact hbound e he
  · rintro e (_ | ⟨_, he⟩)
    · exact ⟨Nat.le_refl _, fun _ => hb⟩
    · have hle := (h.behind e he).1
      refine ⟨Nat.le_succ_of_le hle, fun hcycle => ?_⟩
      change e.1 = s.cycle + 1 at hcycle
      omega
  · rw [hfirst hone]
    exact List.mem_cons_self ..

theorem inv_step {s t : State} {l : Login} (h : Inv s) (hc : InTurn s l)
    (hstep : step s l = some t) : Inv t := by
  obtain ⟨p, hp, ha⟩ := allocateLowIdFor_spec h.range l
  rw [step, hp] at hstep
  cases hstep
  cases ha with
  | next id ge lt first parity =>
    exact inv_same_cycle h ge lt (fun ⟨hone, hne, hid⟩ =>
      hc ⟨hone, hne, parity (by rw [hid])⟩)
  | wrapped odd ge =>
    exact inv_next_cycle h 1 1 ⟨by decide, by decide⟩ ⟨by decide, by decide⟩ (Or.inr rfl)
      (fun _ => rfl)
  | second even =>
    exact inv_next_cycle h 3 2 ⟨by decide, by decide⟩ ⟨by decide, by decide⟩
      (Or.inl (by decide)) (fun hone => absurd hone (by decide))

/-- A call out of turn returns the 1 of this cycle once more. -/
theorem not_unique_step {s t : State} {l : Login} (h : Inv s) (hc : ¬ InTurn s l)
    (hstep : step s l = some t) : ¬ Unique t := by
  obtain ⟨hone, hne, hodd⟩ := not_not.mp hc
  obtain ⟨p, hp, ha⟩ := allocateLowIdFor_spec h.range l
  rw [step, hp] at hstep
  cases hstep
  cases ha with
  | next id ge lt first parity =>
    obtain rfl : id = 1 := UInt32.toNat_inj.mp (first hodd hone)
    exact fun hu => (List.nodup_cons.mp hu.1).1 (h.first hone hne)
  | wrapped odd ge => omega
  | second even => exact absurd hodd even

theorem step_total {s : State} (h : InRange s) (l : Login) :
    ∃ t, step s l = some t ∧ InRange t := by
  obtain ⟨p, hp, ha⟩ := allocateLowIdFor_spec h l
  refine ⟨_, by rw [step, hp]; rfl, ?_⟩
  have hlo := h.1
  cases ha with
  | next id ge lt first parity =>
    have hsucc := toNat_succ lt
    change 1 ≤ (id + 1).toNat ∧ (id + 1).toNat ≤ 0x00FFFFFF
    omega
  | wrapped odd ge => exact ⟨Nat.le_refl 1, show 1 ≤ 0x00FFFFFF by decide⟩
  | second even => exact ⟨show 1 ≤ 3 by decide, show 3 ≤ 0x00FFFFFF by decide⟩

/-- Every run of logins returns, and its ids are in range and without repetition inside a cycle
exactly when no call takes an odd id right after the one that wrapped the counter. -/
theorem unique_iff_inTurn (es : List Login) :
    (∃ u, exec step .new es = some u) ∧
      ((∀ pre, pre <+: es → ∀ t, exec step .new pre = some t → Unique t) ↔
        Along step InTurn .new es) := by
  obtain ⟨u, hu, -⟩ := exec_total_along (fun s l hs _ => step_total hs l) inv_new.range
    (along_of_forall State.new (fun _ _ => trivial))
  exact ⟨⟨u, hu⟩, prefix_iff_along (fun _ h => h.unique) (fun _ _ _ => inv_step)
    (fun _ _ _ => not_unique_step) inv_new hu⟩

def stock : Login := ⟨0, false⟩

theorem step_stock {s : State} (h : s.nextLowId.toNat < 0x00FFFFFF) :
    step s stock =
      some ⟨s.nextLowId + 1, s.cycle, (s.cycle, s.nextLowId) :: s.returned⟩ := by
  rw [step, allocateLowIdFor, if_neg (by decide), allocateLowId_next h]
  rfl

theorem step_stock_wrap {s : State} (h : s.nextLowId.toNat = 0x00FFFFFF) :
    step s stock = some ⟨1, s.cycle + 1, (s.cycle + 1, 1) :: s.returned⟩ := by
  rw [step, allocateLowIdFor, if_neg (by decide), allocateLowId_wrap h]
  rfl

theorem exec_stock {n : Nat} (h : n < 0x00FFFFFF) :
    ∃ s, exec step .new (List.replicate n stock) = some s ∧ s.nextLowId.toNat = n + 1 ∧
      s.cycle = 0 := by
  induction n with
  | zero => exact ⟨.new, rfl, rfl, rfl⟩
  | succ n ih =>
    obtain ⟨s, hrun, hnext, hcycle⟩ := ih (Nat.lt_of_succ_lt h)
    have hlt : s.nextLowId.toNat < 0x00FFFFFF := by omega
    refine ⟨⟨s.nextLowId + 1, s.cycle, (s.cycle, s.nextLowId) :: s.returned⟩, ?_, ?_, hcycle⟩
    · rw [List.replicate_succ']
      exact exec_concat_eq_some.mpr ⟨s, hrun, step_stock hlt⟩
    · rw [toNat_succ hlt, hnext]

/-- After the last id of a cycle two logins in succession get the id 1. -/
theorem wrap_returns_one_twice :
    ∃ s, exec step .new (List.replicate (0x00FFFFFE + 1 + 1) stock) = some s ∧
      (∃ rest, s.returned = (1, 1) :: (1, 1) :: rest) ∧ ¬ Unique s := by
  obtain ⟨n, hn⟩ : ∃ n, n = 0x00FFFFFE := ⟨_, rfl⟩
  obtain ⟨s, hrun, hnext, hcycle⟩ := exec_stock (n := n) (by rw [hn]; decide)
  have hwrap := step_stock_wrap (s := s) (by rw [hnext, hn])
  have hagain := step_stock
    (s := ⟨1, s.cycle + 1, (s.cycle + 1, 1) :: s.returned⟩) (show 1 < 0x00FFFFFF by decide)
  rw [hcycle] at hwrap hagain
  refine ⟨⟨2, 1, (1, 1) :: (1, 1) :: s.returned⟩, ?_, ⟨s.returned, rfl⟩, fun hu => ?_⟩
  · rw [← hn, List.replicate_succ', List.replicate_succ']
    exact exec_concat_eq_some.mpr ⟨_, exec_concat_eq_some.mpr ⟨s, hrun, hwrap⟩, hagain⟩
  · exact (List.nodup_cons.mp hu.1).1 (List.mem_cons_self ..)

end Ed2kServer.Server.LowId
