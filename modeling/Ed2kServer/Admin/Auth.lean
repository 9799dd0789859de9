import Mathlib
import Ed2kServer.Lib.Assoc
import Ed2kServer.Lib.Transition
import Ed2kServer.Server.Login

namespace Ed2kServer.Admin.Auth

open Ed2kServer.Lib.Assoc Ed2kServer.Server.Login Ed2kServer.Sources.Address

def MAX_FAILURES : Nat := 5

/-- Times are in nanoseconds. -/
def FAILURE_WINDOW : Nat := 600 * 1000000000

def MAX_TRACKED_ADDRESSES : Nat := 4096

def MAX_GLOBAL_FAILURES : Nat := 50

def MAX_QUEUED_CHECKS : Nat := 4

/-- What failures are counted by: the address for IPv4, the /64 for IPv6. -/
def failureKey : IpAddr → IpAddr
  | .v6 a =>
    match toIpv4Mapped a with
    | none => .v6 (Vector.ofFn fun i => if i.val < 8 then a.get i else 0)
    | some v4 => .v4 v4
  | .v4 a => .v4 a

def isLoopback : IpAddr → Bool
  | .v4 a => octet a 0 == 127
  | .v6 a => a.toList == List.replicate 15 0 ++ [1]

structure Failures where
  perKey : List (IpAddr × (Nat × Nat))
  /-- Remote failures in the current global window. -/
  global : Nat × Option Nat
  deriving DecidableEq

namespace Failures

/-- How long the address has to wait. -/
def lockedFor (f : Failures) (ip : IpAddr) (now : Nat) : Option Nat :=
  let wait :=
    match f.perKey.lookup (failureKey ip) with
    | some (n, start) =>
      if MAX_FAILURES ≤ n ∧ now < start + FAILURE_WINDOW then some (start + FAILURE_WINDOW - now)
      else none
    | none => none
  if isLoopback ip then wait
  else
    match f.global with
    | (n, some start) =>
      if MAX_GLOBAL_FAILURES ≤ n ∧ now < start + FAILURE_WINDOW then
        some (wait.elim (start + FAILURE_WINDOW - now) (max (start + FAILURE_WINDOW - now)))
      else wait
    | (_, none) => wait

/-- The keys with a window that is not over. -/
def live (perKey : List (IpAddr × (Nat × Nat))) (now : Nat) : List (IpAddr × (Nat × Nat)) :=
  perKey.filter fun e => decide (now < e.2.2 + FAILURE_WINDOW)

def dropOldest (perKey : List (IpAddr × (Nat × Nat))) : List (IpAddr × (Nat × Nat)) :=
  match perKey.argmin fun e => e.2.2 with
  | some oldest => perKey.filter fun e => e.1 != oldest.1
  | none => perKey

/-- One more failure of the key, the first of a window if it has none. -/
def bump (perKey : List (IpAddr × (Nat × Nat))) (key : IpAddr) (now : Nat) :
    List (IpAddr × (Nat × Nat)) :=
  if key ∈ perKey.map Prod.fst then
    perKey.map fun e => if e.1 = key then (e.1, e.2.1 + 1, e.2.2) else e
  else perKey ++ [(key, 1, now)]

def noteGlobal (global : Nat × Option Nat) (now : Nat) : Nat × Option Nat :=
  match global with
  | (n, some start) => if now < start + FAILURE_WINDOW then (n + 1, some start) else (1, some now)
  | (_, none) => (1, some now)

def noteFailure (f : Failures) (ip : IpAddr) (now : Nat) : Failures :=
  let perKey := live f.perKey now
  let key := failureKey ip
  let perKey :=
    if MAX_TRACKED_ADDRESSES ≤ perKey.length ∧ key ∉ perKey.map Prod.fst then dropOldest perKey
    else perKey
  ⟨bump perKey key now, if isLoopback ip then f.global else noteGlobal f.global now⟩

def noteSuccess (f : Failures) (ip : IpAddr) : Failures :=
  { f with perKey := f.perKey.filter fun e => e.1 != failureKey ip }

end Failures

/-- How far a login attempt is. -/
inductive Phase
  | away
  | tested (ip : IpAddr)
  | waiting (ip : IpAddr)
  | holding (ip : IpAddr)
  | checking (ip : IpAddr)
  | releasing
  | leaving
  deriving DecidableEq

/-- What came of the attempts. A wrong password stands with the failures that were counted by
then for its key and, when it is remote, for all remote ones. -/
inductive Happening
  | locked (ip : IpAddr) (time : Nat)
  | busy (ip : IpAddr) (time : Nat)
  | began (ip : IpAddr) (time : Nat)
  | wrong (ip : IpAddr) (time : Nat) (count global : Nat)
  | accepted (ip : IpAddr) (time : Nat)
  deriving DecidableEq

namespace Happening

def time : Happening → Nat
  | .locked _ time | .busy _ time | .began _ time | .wrong _ time _ _ | .accepted _ time => time

def ip : Happening → IpAddr
  | .locked ip _ | .busy ip _ | .began ip _ | .wrong ip _ _ _ | .accepted ip _ => ip

def isWrong : Happening → Bool
  | .wrong .. => true
  | _ => false

def isAccepted : Happening → Bool
  | .accepted .. => true
  | _ => false

/-- A password was checked, or is about to be. -/
def isChecked : Happening → Bool
  | .began .. | .wrong .. | .accepted .. => true
  | _ => false

end Happening

structure State where
  now : Nat
  failures : Failures
  queued : Nat
  /-- Whose the slot for the check is. -/
  slot : Option Nat
  phase : Nat → Phase
  log : List Happening

namespace State

def setPhase (s : State) (i : Nat) (p : Phase) : State :=
  { s with phase := Function.update s.phase i p }

def happened (s : State) (x : Happening) : State := { s with log := s.log ++ [x] }

end State

/-- The steps of the attempts, each with its number. -/
inductive Event
  | tick (d : Nat)
  | arrive (i : Nat) (ip : IpAddr)
  | enqueue (i : Nat)
  | acquire (i : Nat)
  | retest (i : Nat)
  | complete (i : Nat) (isRight : Bool)
  | release (i : Nat)
  | leave (i : Nat)
  | abandon (i : Nat)

def step (s : State) : Event → Option State
  | .tick d => some { s with now := s.now + d }
  | .arrive i ip =>
    match s.phase i with
    | .away =>
      match s.failures.lockedFor ip s.now with
      | some _ => some (s.happened (.locked ip s.now))
      | none => some (s.setPhase i (.tested ip))
    | _ => none
  | .enqueue i =>
    match s.phase i with
    | .tested ip =>
      let t := { s with queued := s.queued + 1 }
      if MAX_QUEUED_CHECKS ≤ s.queued ∧ !isLoopback ip then
        some ((t.happened (.busy ip s.now)).setPhase i .leaving)
      else some (t.setPhase i (.waiting ip))
    | _ => none
  | .acquire i =>
    match s.phase i, s.slot with
    | .waiting ip, none => some ({ s with slot := some i }.setPhase i (.holding ip))
    | _, _ => none
  | .retest i =>
    match s.phase i with
    | .holding ip =>
      match s.failures.lockedFor ip s.now with
      | some _ => some ((s.happened (.locked ip s.now)).setPhase i .releasing)
      | none => some ((s.happened (.began ip s.now)).setPhase i (.checking ip))
    | _ => none
  | .complete i isRight =>
    match s.phase i with
    | .checking ip =>
      if isRight then
        some (({ s with failures := s.failures.noteSuccess ip }.happened
          (.accepted ip s.now)).setPhase i .releasing)
      else
        let f := s.failures.noteFailure ip s.now
        let count := (f.perKey.lookup (failureKey ip)).elim 0 Prod.fst
        some (({ s with failures := f }.happened
          (.wrong ip s.now count f.global.1)).setPhase i .releasing)
    | _ => none
  | .release i =>
    match s.phase i with
    | .releasing => some ({ s with slot := none }.setPhase i .leaving)
    | _ => none
  | .leave i =>
    match s.phase i with
    | .leaving => some ({ s with queued := s.queued - 1 }.setPhase i .away)
    | _ => none
  | .abandon i =>
    match s.phase i with
    | .tested _ => some (s.setPhase i .away)
    | .waiting _ => some (s.setPhase i .leaving)
    | .holding _ | .checking _ => some (s.setPhase i .releasing)
    | _ => none

/-- No one has tried to log in yet. -/
def init (now : Nat) : State := ⟨now, ⟨[], 0, none⟩, 0, none, fun _ => .away, []⟩

variable {f : Failures} {ip : IpAddr} {now : Nat} {s t : State}

/-- Neither the key nor, for a remote address, all of them have too many failures. -/
def Unlocked (f : Failures) (ip : IpAddr) (now : Nat) : Prop :=
  (∀ n start, f.perKey.lookup (failureKey ip) = some (n, start) →
    n < MAX_FAILURES ∨ start + FAILURE_WINDOW ≤ now) ∧
  (isLoopback ip = false → ∀ n start, f.global = (n, some start) →
    n < MAX_GLOBAL_FAILURES ∨ start + FAILURE_WINDOW ≤ now)

theorem unlocked_of_lockedFor (h : f.lockedFor ip now = none) : Unlocked f ip now := by
  obtain ⟨perKey, n, start⟩ := f
  simp only [Failures.lockedFor] at h
  constructor
  · intro n' start' hlook
    rw [hlook] at h
    grind
  · intro hremote n' start' hglobal
    grind

/-- A loopback address is only locked by the failures of its own key. -/
theorem key_of_lockedFor (hloop : isLoopback ip = true) (h : (f.lockedFor ip now).isSome) :
    ∃ n start, f.perKey.lookup (failureKey ip) = some (n, start) ∧ MAX_FAILURES ≤ n ∧
      now < start + FAILURE_WINDOW := by
  rw [Failures.lockedFor, hloop] at h
  cases hlook : f.perKey.lookup (failureKey ip) with
  | none => simp [hlook] at h
  | some v =>
    obtain ⟨n, start⟩ := v
    simp only [hlook] at h
    by_cases hlive : MAX_FAILURES ≤ n ∧ now < start + FAILURE_WINDOW
    · exact ⟨n, start, rfl, hlive⟩
    · simp [hlive] at h

theorem Unlocked.mono (h : Unlocked f ip now) {later : Nat} (hle : now ≤ later) :
    Unlocked f ip later :=
  ⟨fun n start hlook => (h.1 n start hlook).imp_right (le_trans · hle),
    fun hremote n start hglobal => (h.2 hremote n start hglobal).imp_right (le_trans · hle)⟩

/-! ### The table of failures -/

namespace Failures

variable {perKey : List (IpAddr × (Nat × Nat))} {key k : IpAddr}

theorem dropOldest_eq_filter (perKey : List (IpAddr × (Nat × Nat))) :
    ∃ p, dropOldest perKey = perKey.filter p := by
  rw [dropOldest]
  cases perKey.argmin fun e => e.2.2 with
  | none => exact ⟨fun _ => true, (List.filter_true perKey).symm⟩
  | some oldest => exact ⟨_, rfl⟩

theorem keys_bump : (bump perKey key now).map Prod.fst =
    if key ∈ perKey.map Prod.fst then perKey.map Prod.fst
    else perKey.map Prod.fst ++ [key] := by
  rw [bump]
  split_ifs
  · rw [List.map_map]
    refine List.map_congr_left fun e _ => ?_
    dsimp only [Function.comp]
    split_ifs <;> rfl
  · simp

theorem lookup_bump (perKey : List (IpAddr × (Nat × Nat))) (key k : IpAddr) (now : Nat) :
    (bump perKey key now).lookup k =
      if k = key then some ((perKey.lookup key).elim (1, now) fun v => (v.1 + 1, v.2))
      else perKey.lookup k := by
  rw [bump]
  by_cases hmem : key ∈ perKey.map Prod.fst
  · have hmap : (perKey.map fun e => if e.1 = key then (e.1, e.2.1 + 1, e.2.2) else e) =
        perKey.map fun e => (e.1, if e.1 = key then (e.2.1 + 1, e.2.2) else e.2) := by
      refine List.map_congr_left fun e _ => ?_
      split_ifs <;> rfl
    rw [if_pos hmem, hmap, lookup_map perKey fun i v => if i = key then (v.1 + 1, v.2) else v]
    by_cases hk : k = key
    · subst hk
      cases hlook : perKey.lookup k with
      | none => exact absurd hmem (lookup_eq_none_iff_notMem.mp hlook)
      | some v => simp
    · simp [hk]
  · rw [if_neg hmem, List.lookup_append]
    by_cases hk : k = key
    · subst hk
      simp [lookup_eq_none_iff_notMem.mpr hmem]
    · cases perKey.lookup k <;> simp [hk]

theorem nodup_bump (h : (perKey.map Prod.fst).Nodup) :
    ((bump perKey key now).map Prod.fst).Nodup := by
  rw [keys_bump]
  split_ifs with hmem
  · exact h
  · rw [← List.concat_eq_append]
    exact h.concat hmem

theorem nodup_noteFailure (h : (f.perKey.map Prod.fst).Nodup) :
    ((f.noteFailure ip now).perKey.map Prod.fst).Nodup := by
  rw [noteFailure]
  refine nodup_bump ?_
  split_ifs
  · obtain ⟨p, hp⟩ := dropOldest_eq_filter (live f.perKey now)
    rw [hp]
    exact nodup_keys_filter (nodup_keys_filter h _) p
  · exact nodup_keys_filter h _

/-- What the table says after a failure, where no window that is not over is dropped. -/
theorem lookup_noteFailure (h : (f.perKey.map Prod.fst).Nodup)
    (hroom : failureKey ip ∉ (live f.perKey now).map Prod.fst →
      (live f.perKey now).length < MAX_TRACKED_ADDRESSES) (k : IpAddr) :
    (f.noteFailure ip now).perKey.lookup k =
      let entry := fun k => (f.perKey.lookup k).filter fun v =>
        decide (now < v.2 + FAILURE_WINDOW)
      if k = failureKey ip then
        some ((entry (failureKey ip)).elim (1, now) fun v => (v.1 + 1, v.2))
      else entry k := by
  rw [noteFailure]
  dsimp only
  rw [if_neg fun hfull => Nat.not_lt_of_le hfull.1 (hroom hfull.2), lookup_bump, live,
    lookup_filter h, lookup_filter h]

end Failures

namespace Failures

/-- A remote failure counts in the global window, or begins one. -/
theorem noteGlobal_eq (global : Nat × Option Nat) (now : Nat) :
    (noteGlobal global now = (global.1 + 1, global.2) ∧
        ∃ start, global.2 = some start ∧ now < start + FAILURE_WINDOW) ∨
      noteGlobal global now = (1, some now) ∧
        ∀ start, global.2 = some start → start + FAILURE_WINDOW ≤ now := by
  obtain ⟨n, _ | start⟩ := global
  · exact .inr ⟨rfl, nofun⟩
  · rw [noteGlobal]
    split_ifs with hlt
    · exact .inl ⟨rfl, start, rfl, hlt⟩
    · exact .inr ⟨rfl, fun start' h => Option.some.inj h ▸ Nat.le_of_not_lt hlt⟩

theorem mem_live {perKey : List (IpAddr × (Nat × Nat))} {e : IpAddr × (Nat × Nat)} :
    e ∈ live perKey now ↔ e ∈ perKey ∧ now < e.2.2 + FAILURE_WINDOW := by
  rw [live, List.mem_filter, decide_eq_true_iff]

theorem mem_bump {perKey : List (IpAddr × (Nat × Nat))} {key : IpAddr}
    {e : IpAddr × (Nat × Nat)} (he : e ∈ bump perKey key now) :
    e ∈ perKey ∨ e.1 = key ∧
      ((∃ n start, (key, (n, start)) ∈ perKey ∧ e.2 = (n + 1, start)) ∨ e.2 = (1, now)) := by
  rw [bump] at he
  split_ifs at he with hmem
  · obtain ⟨old, hold, heq⟩ := List.mem_map.mp he
    split_ifs at heq with hkey
    · subst heq
      exact .inr ⟨hkey, .inl ⟨old.2.1, old.2.2, hkey ▸ hold, rfl⟩⟩
    · exact .inl (heq ▸ hold)
  · obtain hold | hnew := List.mem_append.mp he
    · exact .inl hold
    · obtain rfl := List.mem_singleton.mp hnew
      exact .inr ⟨rfl, .inr rfl⟩

/-- The entries of the table after a failure, whether or not one had to go. -/
theorem mem_noteFailure {e : IpAddr × (Nat × Nat)} (he : e ∈ (f.noteFailure ip now).perKey) :
    e ∈ f.perKey ∨ e.1 = failureKey ip ∧
      ((∃ n start, (failureKey ip, (n, start)) ∈ f.perKey ∧ e.2 = (n + 1, start)) ∨
        e.2 = (1, now)) := by
  rw [noteFailure] at he
  have hsub : ∀ e, e ∈ (if MAX_TRACKED_ADDRESSES ≤ (live f.perKey now).length ∧
      failureKey ip ∉ (live f.perKey now).map Prod.fst then dropOldest (live f.perKey now)
      else live f.perKey now) → e ∈ f.perKey := by
    intro e he
    split_ifs at he
    · obtain ⟨p, hp⟩ := dropOldest_eq_filter (live f.perKey now)
      rw [hp] at he
      exact (mem_live.mp (List.mem_of_mem_filter he)).1
    · exact (mem_live.mp he).1
  obtain hold | ⟨hkey, ⟨n, start, hold, heq⟩ | heq⟩ := mem_bump he
  · exact .inl (hsub e hold)
  · exact .inr ⟨hkey, .inl ⟨n, start, hsub _ hold, heq⟩⟩
  · exact .inr ⟨hkey, .inr heq⟩

end Failures

end Ed2kServer.Admin.Auth
