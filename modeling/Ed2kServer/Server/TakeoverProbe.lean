import Ed2kServer.Lib.Transition
import Mathlib.Logic.Function.Basic
import Mathlib.Data.List.Basic

namespace Ed2kServer.Server.TakeoverProbe

open Ed2kServer.Lib.Transition

/-- In nanoseconds, as every time here. -/
def TAKEOVER_PROBE_WAIT : Nat := 16000000000

def TAKEOVER_PROBE_COOLDOWN : Nat := 10000000000

def TAKEOVER_CONTENDER_MEMORY : Nat := 600000000000

def POLL : Nat := 200000000

def PROBES_SWEPT : Nat := 60000000000

def LOST_SWEPT : Nat := 3600000000000

/-- A connection that logs in with the user hash, and the session it becomes. -/
abbrev Session := Nat

/-- Where a connection is; `prev` is the session that it found online. -/
inductive Phase
  | connected
  | contested (prev : Session)
  | asking (prev : Session)
  | probing (prev : Session)
  | waiting (prev : Session) (deadline wake : Nat)
  | answered (prev : Session) (gone : Bool)
  | passed
  | refused
  | online
  | ended
  deriving DecidableEq

def Phase.prev : Phase → Option Session
  | .contested prev | .asking prev | .probing prev | .waiting prev _ _ | .answered prev _ =>
    some prev
  | _ => none

/-- It is a session, or was one. -/
def Phase.wasOnline : Phase → Bool
  | .online | .ended => true
  | _ => false

/-- What the server keeps for one user hash. The probes that were started and the frames that were
pushed, with their session and time, are its history, newest first. -/
structure State (Source : Type) where
  now : Nat
  phase : Session → Phase
  clients : Option Session
  takeoverProbes : Option Nat
  takeoverLost : Source → Option (Nat × UInt32)
  started : List (Session × Nat)
  pushed : List (Session × Nat)

inductive Event
  | tick (d : Nat)
  | contest (p : Session)
  | consider (p : Session)
  | ask (p : Session)
  | enter (p : Session) (room : Bool)
  | poll (p : Session)
  | settle (p : Session)
  | login (p : Session)
  | quit (p : Session)
  | unregister (p : Session)
  | sweep
  deriving DecidableEq

variable {Source : Type}

def init : State Source where
  now := 0
  phase _ := .connected
  clients := none
  takeoverProbes := none
  takeoverLost _ := none
  started := []
  pushed := []

def State.isAlive (s : State Source) (p : Session) : Bool := s.phase p = .online

def State.goTo (s : State Source) (p : Session) (phase : Phase) : State Source :=
  { s with phase := Function.update s.phase p phase }

/-- A contender that the owner outlasted not long ago. -/
def State.known (s : State Source) (source : Source) : Bool :=
  (s.takeoverLost source).any fun e => s.now - e.1 < TAKEOVER_CONTENDER_MEMORY

def saturatingSucc (n : UInt32) : UInt32 := if n = 0xFFFFFFFF then n else n + 1

def State.lose [DecidableEq Source] (s : State Source) (source : Source) (known : Bool) :
    State Source :=
  let e := (s.takeoverLost source).getD (s.now, 0)
  { s with
    takeoverLost := Function.update s.takeoverLost source
      (some (if known then e.1 else s.now, saturatingSucc e.2)) }

/-- The frame is dropped where the channel is closed or full. -/
def State.startProbe (s : State Source) (prev : Session) (room : Bool) : State Source :=
  { s with
    takeoverProbes := some s.now
    started := (prev, s.now) :: s.started
    pushed := if room && s.isAlive prev then (prev, s.now) :: s.pushed else s.pushed }

/-- The table's entry: a probe that runs is waited for, one that has just found the session alive
is taken for an answer, else one is started. -/
def State.enter (s : State Source) (p prev : Session) (room : Bool) : State Source :=
  let started := (s.startProbe prev room).goTo p (.waiting prev (s.now + TAKEOVER_PROBE_WAIT) s.now)
  match s.takeoverProbes with
  | some t =>
    if s.now - t < TAKEOVER_PROBE_WAIT then
      s.goTo p (.waiting prev (t + TAKEOVER_PROBE_WAIT) s.now)
    else if s.now - t < TAKEOVER_PROBE_WAIT + TAKEOVER_PROBE_COOLDOWN then
      s.goTo p (.answered prev (!s.isAlive prev))
    else started
  | none => started

/-- One round of the loop, and what comes after the last. -/
def State.poll (s : State Source) (p prev : Session) (deadline : Nat) : State Source :=
  if s.now < deadline then
    if s.isAlive prev then s.goTo p (.waiting prev deadline (s.now + POLL))
    else { s with takeoverProbes := none }.goTo p (.answered prev true)
  else s.goTo p (.answered prev (!s.isAlive prev))

/-- One step; `none` where it cannot be taken. -/
def step [DecidableEq Source] (source : Session → Source) (s : State Source) :
    Event → Option (State Source)
  | .tick d => some { s with now := s.now + d }
  | .contest p =>
    match s.phase p, s.clients with
    | .connected, some prev => if s.isAlive prev then some (s.goTo p (.contested prev)) else none
    | _, _ => none
  | .consider p =>
    match s.phase p with
    | .contested prev =>
      if s.known (source p) then some ((s.lose (source p) true).goTo p .refused)
      else some (s.goTo p (.asking prev))
    | _ => none
  | .ask p =>
    match s.phase p with
    | .asking prev =>
      if s.isAlive prev then some (s.goTo p (.probing prev))
      else some (s.goTo p (.answered prev true))
    | _ => none
  | .enter p room =>
    match s.phase p with
    | .probing prev => some (s.enter p prev room)
    | _ => none
  | .poll p =>
    match s.phase p with
    | .waiting prev deadline wake => if wake ≤ s.now then some (s.poll p prev deadline) else none
    | _ => none
  | .settle p =>
    match s.phase p with
    | .answered _ gone =>
      if gone then some (s.goTo p .passed)
      else some ((s.lose (source p) false).goTo p .refused)
    | _ => none
  | .login p =>
    if s.phase p = .connected ∨ s.phase p = .passed then
      some { s.goTo p .online with clients := some p }
    else none
  | .quit p => if s.phase p = .online then some (s.goTo p .ended) else none
  | .unregister p => if s.clients = some p then some { s with clients := none } else none
  | .sweep =>
    some { s with
      takeoverProbes := s.takeoverProbes.filter fun t => s.now - t < PROBES_SWEPT
      takeoverLost := fun a => (s.takeoverLost a).filter fun e => s.now - e.1 < LOST_SWEPT }

/-- No probe of the hash was started within the wait and the cool-down. -/
def State.idle (s : State Source) : Prop :=
  ∀ t, s.takeoverProbes = some t → TAKEOVER_PROBE_WAIT + TAKEOVER_PROBE_COOLDOWN ≤ s.now - t

/-- What a step does to the sessions, the table and the history. -/
inductive Moved (s : State Source) : Event → State Source → Prop
  | tick (d : Nat) : Moved s (.tick d) { s with now := s.now + d }
  | move (e : Event) (p : Session) (phase : Phase) (lost : Source → Option (Nat × UInt32))
    (before : (s.phase p).wasOnline = false) (after : phase.wasOnline = false)
    (prev : ∀ q, phase.prev = some q → (s.phase p).prev = some q ∨ s.phase q = .online)
    (gone : ∀ q, phase = .answered q true → s.phase q ≠ .online) :
    Moved s e { s.goTo p phase with takeoverLost := lost }
  | start (p prev : Session) (room : Bool) (deadline : Nat) (before : s.phase p = .probing prev)
    (idle : s.idle) :
    Moved s (.enter p room) ((s.startProbe prev room).goTo p (.waiting prev deadline s.now))
  | forget (p prev : Session) (deadline wake : Nat)
    (before : s.phase p = .waiting prev deadline wake) (running : s.now < deadline)
    (gone : s.phase prev ≠ .online) :
    Moved s (.poll p) { s.goTo p (.answered prev true) with takeoverProbes := none }
  | login (p : Session) (before : (s.phase p).wasOnline = false) :
    Moved s (.login p) { s.goTo p .online with clients := some p }
  | quit (p : Session) (before : s.phase p = .online) : Moved s (.quit p) (s.goTo p .ended)
  | unregister (p : Session) : Moved s (.unregister p) { s with clients := none }
  | sweep (probes : Option Nat) (lost : Source → Option (Nat × UInt32))
    (kept : ∀ t, s.takeoverProbes = some t → s.now - t < PROBES_SWEPT → probes = some t) :
    Moved s .sweep { s with takeoverProbes := probes, takeoverLost := lost }

variable {source : Session → Source} {s t : State Source} {e : Event} {p prev : Session}

theorem not_alive : s.isAlive p = false ↔ s.phase p ≠ .online := decide_eq_false_iff_not

theorem Moved.moveOn {phase : Phase} (e : Event) (before : (s.phase p).wasOnline = false)
    (after : phase.wasOnline = false)
    (hprev : ∀ q, phase.prev = some q → (s.phase p).prev = some q ∨ s.phase q = .online)
    (gone : ∀ q, phase = .answered q true → s.phase q ≠ .online) :
    Moved s e (s.goTo p phase) :=
  .move e p phase s.takeoverLost before after hprev gone

theorem moved_enter (room : Bool) (hp : s.phase p = .probing prev) :
    Moved s (.enter p room) (s.enter p prev room) := by
  have hprev : ∀ phase : Phase, phase.prev = some prev →
      ∀ q, phase.prev = some q → (s.phase p).prev = some q ∨ s.phase q = .online := by
    intro phase hphase q hq
    rw [hp]
    exact .inl (hphase.symm.trans hq)
  rw [State.enter]
  cases hprobe : s.takeoverProbes with
  | some t =>
    dsimp only
    split_ifs with hrunning hcooling
    · exact .moveOn _ (by rw [hp]; rfl) rfl (hprev _ rfl) nofun
    · refine .moveOn _ (by rw [hp]; rfl) rfl (hprev _ rfl) fun q hq => ?_
      obtain ⟨rfl, halive⟩ := Phase.answered.inj hq
      exact not_alive.mp (Bool.not_eq_true' _ ▸ halive)
    · refine .start p prev room _ hp fun t' ht' => ?_
      rw [← Option.some.inj (hprobe.symm.trans ht')]
      omega
  | none =>
    refine .start p prev room _ hp fun t ht => ?_
    rw [hprobe] at ht
    cases ht

theorem moved_poll {deadline wake : Nat} (hp : s.phase p = .waiting prev deadline wake) :
    Moved s (.poll p) (s.poll p prev deadline) := by
  have hbefore : (s.phase p).wasOnline = false := by rw [hp]; rfl
  have hprev : ∀ phase : Phase, phase.prev = some prev →
      ∀ q, phase.prev = some q → (s.phase p).prev = some q ∨ s.phase q = .online := by
    intro phase hphase q hq
    rw [hp]
    exact .inl (hphase.symm.trans hq)
  rw [State.poll]
  split_ifs with hrunning halive
  · exact .moveOn _ hbefore rfl (hprev _ rfl) nofun
  · exact .forget p prev deadline wake hp hrunning (not_alive.mp (Bool.not_eq_true _ ▸ halive))
  · refine .moveOn _ hbefore rfl (hprev _ rfl) fun q hq => ?_
    obtain ⟨rfl, hgone⟩ := Phase.answered.inj hq
    exact not_alive.mp (Bool.not_eq_true' _ ▸ hgone)

/-- What a step can do. -/
theorem moved_of_step [DecidableEq Source] (h : step source s e = some t) : Moved s e t := by
  cases e with
  | tick d => exact Option.some.inj h ▸ .tick d
  | contest p =>
    simp only [step] at h
    split at h
    · rename_i prev hp hclients
      split_ifs at h with halive
      rw [← Option.some.inj h]
      refine .moveOn _ (by rw [hp]; rfl) rfl (fun q hq => ?_) nofun
      rw [← Option.some.inj hq]
      exact .inr (of_decide_eq_true halive)
    · cases h
  | consider p =>
    simp only [step] at h
    split at h
    · rename_i prev hp
      split_ifs at h
      · rw [← Option.some.inj h]
        exact .move _ p .refused _ (by rw [hp]; rfl) rfl nofun nofun
      · rw [← Option.some.inj h]
        exact .moveOn _ (by rw [hp]; rfl) rfl (fun q hq => .inl (by rw [hp]; exact hq)) nofun
    · cases h
  | ask p =>
    simp only [step] at h
    split at h
    · rename_i prev hp
      split_ifs at h with halive
      · rw [← Option.some.inj h]
        exact .moveOn _ (by rw [hp]; rfl) rfl (fun q hq => .inl (by rw [hp]; exact hq)) nofun
      · rw [← Option.some.inj h]
        refine .moveOn _ (by rw [hp]; rfl) rfl (fun q hq => .inl (by rw [hp]; exact hq)) ?_
        rintro q ⟨⟩
        exact not_alive.mp (Bool.not_eq_true _ ▸ halive)
    · cases h
  | enter p room =>
    simp only [step] at h
    split at h
    · rename_i prev hp
      exact Option.some.inj h ▸ moved_enter room hp
    · cases h
  | poll p =>
    simp only [step] at h
    split at h
    · rename_i prev deadline wake hp
      split_ifs at h
      exact Option.some.inj h ▸ moved_poll hp
    · cases h
  | settle p =>
    simp only [step] at h
    split at h
    · rename_i prev gone hp
      split_ifs at h
      · rw [← Option.some.inj h]
        exact .moveOn _ (by rw [hp]; rfl) rfl nofun nofun
      · rw [← Option.some.inj h]
        exact .move _ p .refused _ (by rw [hp]; rfl) rfl nofun nofun
    · cases h
  | login p =>
    simp only [step] at h
    split_ifs at h with hp
    rw [← Option.some.inj h]
    exact .login p (by rcases hp with hp | hp <;> rw [hp] <;> rfl)
  | quit p =>
    simp only [step] at h
    split_ifs at h with hp
    exact Option.some.inj h ▸ .quit p hp
  | unregister p =>
    simp only [step] at h
    split_ifs at h
    exact Option.some.inj h ▸ .unregister p
  | sweep =>
    rw [← Option.some.inj h]
    refine .sweep _ _ fun t ht hlt => ?_
    rw [ht]
    exact Option.filter_some_pos (decide_eq_true hlt)

end Ed2kServer.Server.TakeoverProbe
