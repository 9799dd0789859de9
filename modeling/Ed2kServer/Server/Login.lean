import Ed2kServer.Lib.Transition
import Ed2kServer.Sources.Address

namespace Ed2kServer.Server.Login

open Ed2kServer.Lib.Transition Ed2kServer.Slab.Record Ed2kServer.Sources.Address

/-- A connection and its task; it logs in once. -/
abbrev Session := Nat

/-- What a connection logs in with: the address of its socket, and the address and the IPv6 that
`handle_login` puts in its handle. -/
structure LoginRequest where
  userHash : UserHash
  peer : IpAddr
  ip : IpAddr
  port : UInt16
  ipv6 : Option Ipv6

structure Config where
  maxClients : Nat
  hashTakeoverFromAnyAddress : Bool
  ipv6SourcePrefixBits : Nat
  isSharedHash : UserHash → Bool

/-- An entry of `clients`; the rest of it is what its session logged in with. -/
structure ClientHandle where
  session : Session
  ipv6 : Option Ipv6
  deriving DecidableEq

def toIpv4Mapped (a : Ipv6) : Option Ipv4 :=
  if a.toList.take 12 = List.replicate 10 0 ++ [0xFF, 0xFF] then
    some (a[12].toUInt32 + (a[13].toUInt32 <<< 8) + (a[14].toUInt32 <<< 16) +
      (a[15].toUInt32 <<< 24))
  else none

/-- An IPv4-mapped address counts as the IPv4 one. -/
def canon : IpAddr → IpAddr
  | .v6 a =>
    match toIpv4Mapped a with
    | some v4 => .v4 v4
    | none => .v6 a
  | .v4 a => .v4 a

/-- The part of the byte at `i` that belongs to a prefix of so many bits. -/
def prefixMask (bits i : Nat) : UInt8 :=
  if 8 * (i + 1) ≤ bits then 0xFF
  else if bits ≤ 8 * i then 0
  else 0xFF <<< UInt8.ofNat (8 * (i + 1) - bits)

def sourceKey (bits : Nat) (ip : IpAddr) : IpAddr :=
  match canon ip with
  | .v6 a => .v6 (Vector.ofFn fun i => a[i] &&& prefixMask (max 1 (min bits 128)) i)
  | .v4 a => .v4 a

/-- How far a connection is, with what it has read or taken and still holds. -/
inductive Phase
  | connected
  | looked (online : Option ClientHandle)
  | admitted
  | found (online : Bool)
  | reserved
  | lookedAgain (online : Option ClientHandle)
  | checked (online : Option ClientHandle)
  | inserted (prev : Option ClientHandle)
  | releasing (taken : Option Session)
  | loggedIn
  | handling
  | left
  | leaving (taken : Option Session)
  | released
  | removed
  | ended
  deriving DecidableEq

namespace Phase

/-- The place in the order of the steps; only a handled frame goes back, to `loggedIn`. -/
def stage : Phase → Nat
  | .connected => 0
  | .looked _ => 1
  | .admitted => 2
  | .found _ => 3
  | .reserved => 4
  | .lookedAgain _ => 5
  | .checked _ => 6
  | .inserted _ => 7
  | .releasing _ => 8
  | .loggedIn => 9
  | .handling => 10
  | .left => 11
  | .leaving _ => 12
  | .released => 13
  | .removed => 14
  | .ended => 15

/-- The slot that is out of its handle and not yet given back. -/
def taken : Phase → Option Session
  | .releasing taken | .leaving taken => taken
  | _ => none

/-- Nothing is going on for the connection. -/
def rests : Phase → Bool
  | .connected | .loggedIn | .ended => true
  | _ => false

end Phase

structure State where
  clients : UserHash → Option ClientHandle
  phase : Session → Phase
  /-- The IPv6 each session advertises. -/
  ipv6 : Session → Option Ipv6
  /-- Has the login, or later the shared handle of the session, a slot? -/
  slot : Session → Bool
  held : Nat
  /-- Whose slots were reserved, and whose given back, the latest first. -/
  reserved : List Session
  returned : List Session

inductive Event
  | lookUp (p : Session)
  | proceed (p : Session)
  | refuse (p : Session)
  | find (p : Session)
  | reserve (p : Session)
  | lookAgain (p : Session)
  | check (p : Session)
  | insert (p : Session)
  | take (p : Session)
  | drop (p : Session)
  | frame (p : Session)
  | updateIpv6 (p : Session) (a : Option Ipv6)
  | finish (p : Session)
  | leave (p : Session)
  | remove (p : Session)
  | close (p : Session)
  deriving DecidableEq

variable (cfg : Config) (login : Session → LoginRequest)

def init : State where
  clients _ := none
  phase _ := .connected
  ipv6 p := (login p).ipv6
  slot _ := false
  held := 0
  reserved := []
  returned := []

namespace State

@[simps] def goTo (s : State) (p : Session) (phase : Phase) : State :=
  { s with phase := Function.update s.phase p phase }

@[simps] def reserveSlot (s : State) (p : Session) : State :=
  { s with
    slot := Function.update s.slot p true
    held := s.held + 1
    reserved := p :: s.reserved }

/-- The slot goes out of the handle of the session. -/
@[simps] def takeSlot (s : State) (q : Session) : State :=
  { s with slot := Function.update s.slot q false }

@[simps] def returnSlot (s : State) (q : Session) : State :=
  { s with held := s.held - 1, returned := q :: s.returned }

def giveBack (s : State) (taken : Option Session) : State :=
  match taken with
  | some q => s.returnSlot q
  | none => s

@[simps] def register (s : State) (p : Session) : State :=
  { s with clients :=
      Function.update s.clients (login p).userHash (some ⟨p, s.ipv6 p⟩) }

@[simps] def unregister (s : State) (p : Session) : State :=
  { s with clients := Function.update s.clients (login p).userHash none }

/-- The entry of a user, of whichever session, is written to. -/
@[simps] def setIpv6 (s : State) (p : Session) (a : Option Ipv6) : State :=
  { s with
    ipv6 := Function.update s.ipv6 p a
    clients := Function.update s.clients (login p).userHash
      ((s.clients (login p).userHash).map fun e => { e with ipv6 := a }) }

def stage (s : State) (p : Session) : Nat := (s.phase p).stage

/-- The users with an entry. -/
def users (s : State) : Set UserHash := {u | (s.clients u).isSome}

/-- The sessions whose slot is not given back. -/
def holders (s : State) : Finset Session := s.reserved.toFinset \ s.returned.toFinset

theorem goTo_stage (s : State) (p : Session) (phase : Phase) (q : Session) :
    (s.goTo p phase).stage q = if q = p then phase.stage else s.stage q := by
  rw [stage, goTo_phase, Function.update_apply]
  split <;> rfl

@[simp] theorem reserveSlot_stage (s : State) (p : Session) :
    (s.reserveSlot p).stage = s.stage := rfl

@[simp] theorem takeSlot_stage (s : State) (p : Session) : (s.takeSlot p).stage = s.stage := rfl

@[simp] theorem returnSlot_stage (s : State) (p : Session) :
    (s.returnSlot p).stage = s.stage := rfl

@[simp] theorem register_stage (s : State) (p : Session) :
    (s.register login p).stage = s.stage := rfl

@[simp] theorem unregister_stage (s : State) (p : Session) :
    (s.unregister login p).stage = s.stage := rfl

@[simp] theorem setIpv6_stage (s : State) (p : Session) (a : Option Ipv6) :
    (s.setIpv6 login p a).stage = s.stage := rfl

/-- An IPv6 update leaves every entry with its session. -/
theorem setIpv6_session (s : State) (p : Session) (a : Option Ipv6) (u : UserHash) :
    ((s.setIpv6 login p a).clients u).map ClientHandle.session =
      (s.clients u).map ClientHandle.session := by
  rw [setIpv6_clients, Function.update_apply]
  split
  · rename_i hu
    rw [hu, Option.map_map]
    rfl
  · rfl

end State

/-- The rule of a takeover, apart from a session that has ended: no one is protected, or the login
comes from the source of the session, or from the IPv6 that the session at an IPv4 advertises, with
its port. -/
def Entitled (prev : LoginRequest) (advertised : Option Ipv6) (peer : IpAddr) (port : UInt16) :
    Prop :=
  sourceKey cfg.ipv6SourcePrefixBits (canon prev.ip) =
      sourceKey cfg.ipv6SourcePrefixBits (canon peer) ∨
    match canon prev.ip, canon peer with
    | .v4 _, .v6 a => advertised = some a ∧ prev.port = port
    | _, _ => False

instance (prev : LoginRequest) (advertised : Option Ipv6) (peer : IpAddr) (port : UInt16) :
    Decidable (Entitled cfg prev advertised peer port) := by
  unfold Entitled
  split <;> infer_instance

def State.isAlive (s : State) (p : Session) : Bool := s.phase p ≠ .ended

def mayReplaceSession (s : State) (prev : ClientHandle) (peer : IpAddr) (listenPort : UInt16) :
    Bool :=
  !s.isAlive prev.session || cfg.hashTakeoverFromAnyAddress ||
    cfg.isSharedHash (login prev.session).userHash ||
    Entitled cfg (login prev.session) prev.ipv6 peer listenPort

/-- The check of a login against what it found online. -/
def passes (s : State) (p : Session) (online : Option ClientHandle) : Bool :=
  online.all fun prev => mayReplaceSession cfg login s prev (login p).peer (login p).port

def isCurrent (s : State) (p : Session) : Bool :=
  (s.clients (login p).userHash).any fun e => e.session = p

/-- One step of one connection; `none` where it is not at that step. -/
def step (s : State) : Event → Option State
  | .lookUp p =>
    match s.phase p with
    | .connected => some (s.goTo p (.looked (s.clients (login p).userHash)))
    | _ => none
  | .proceed p =>
    match s.phase p with
    | .looked online => if passes cfg login s p online then some (s.goTo p .admitted) else none
    | _ => none
  | .refuse p =>
    match s.phase p with
    | .looked online => if passes cfg login s p online then none else some (s.goTo p .ended)
    | _ => none
  | .find p =>
    match s.phase p with
    | .admitted => some (s.goTo p (.found (s.clients (login p).userHash).isSome))
    | _ => none
  | .reserve p =>
    match s.phase p with
    | .found online =>
      if online ∨ cfg.maxClients = 0 ∨ s.held < cfg.maxClients then
        some ((s.reserveSlot p).goTo p .reserved)
      else some (s.goTo p .ended)
    | _ => none
  | .lookAgain p =>
    match s.phase p with
    | .reserved => some (s.goTo p (.lookedAgain (s.clients (login p).userHash)))
    | _ => none
  | .check p =>
    match s.phase p with
    | .lookedAgain online =>
      if passes cfg login s p online then some (s.goTo p (.checked online))
      else some (((s.takeSlot p).returnSlot p).goTo p .ended)
    | _ => none
  | .insert p =>
    match s.phase p with
    | .checked _ =>
      some ((s.register login p).goTo p (.inserted (s.clients (login p).userHash)))
    | _ => none
  | .take p =>
    match s.phase p with
    | .inserted none => some (s.goTo p (.releasing none))
    | .inserted (some prev) =>
      some ((s.takeSlot prev.session).goTo p
        (.releasing (if s.slot prev.session then some prev.session else none)))
    | .left => some ((s.takeSlot p).goTo p (.leaving (if s.slot p then some p else none)))
    | _ => none
  | .drop p =>
    match s.phase p with
    | .releasing taken => some ((s.giveBack taken).goTo p .loggedIn)
    | .leaving taken => some ((s.giveBack taken).goTo p .released)
    | _ => none
  | .frame p =>
    match s.phase p with
    | .loggedIn =>
      if isCurrent login s p || cfg.isSharedHash (login p).userHash then some (s.goTo p .handling)
      else some (s.goTo p .left)
    | _ => none
  | .updateIpv6 p a =>
    match s.phase p with
    | .handling => some ((s.setIpv6 login p a).goTo p .loggedIn)
    | _ => none
  | .finish p =>
    match s.phase p with
    | .handling => some (s.goTo p .loggedIn)
    | _ => none
  | .leave p =>
    match s.phase p with
    | .loggedIn | .handling => some (s.goTo p .left)
    | _ => none
  | .remove p =>
    match s.phase p with
    | .released =>
      some ((if isCurrent login s p then s.unregister login p else s).goTo p .removed)
    | _ => none
  | .close p =>
    match s.phase p with
    | .removed => some (s.goTo p .ended)
    | _ => none

variable {cfg : Config} {login : Session → LoginRequest} {s t : State} {p q : Session}

/-- Stages between which a connection goes without touching its slot or its entry. -/
def quiet (n m : Nat) : Prop :=
  n < 4 ∧ (m < 4 ∨ m = 15) ∨ 4 ≤ n ∧ n ≤ 6 ∧ 4 ≤ m ∧ m ≤ 6 ∨
    7 ≤ n ∧ n ≤ 11 ∧ 7 ≤ m ∧ m ≤ 11 ∨ n = 12 ∧ m = 13 ∨ n = 14 ∧ m = 15

/-- What a step of one connection does: it moves no slot and writes no entry, or it does one thing
to them. -/
inductive Moved (cfg : Config) (login : Session → LoginRequest) (s : State) : Event → State → Prop
  | quiet (e : Event) (p : Session) (phase : Phase) (old : (s.phase p).taken = none)
    (new : phase.taken = none) (after : ∀ prev, s.phase p ≠ .inserted (some prev))
    (before : ∀ prev, phase ≠ .inserted (some prev)) (stages : quiet (s.stage p) phase.stage)
    (plain : phase.stage ≠ 5 ∧ phase.stage ≠ 6) : Moved cfg login s e (s.goTo p phase)
  | lookAgain (p : Session) (hp : s.phase p = .reserved) :
    Moved cfg login s (.lookAgain p) (s.goTo p (.lookedAgain (s.clients (login p).userHash)))
  | check (p : Session) (online : Option ClientHandle) (hp : s.phase p = .lookedAgain online)
    (pass : passes cfg login s p online = true) :
    Moved cfg login s (.check p) (s.goTo p (.checked online))
  | reserve (p : Session) (online : Bool) (hp : s.phase p = .found online)
    (room : online = true ∨ cfg.maxClients = 0 ∨ s.held < cfg.maxClients) :
    Moved cfg login s (.reserve p) ((s.reserveSlot p).goTo p .reserved)
  | refuse (p : Session) (hp : s.stage p = 5) (taken : (s.phase p).taken = none) :
    Moved cfg login s (.check p) (((s.takeSlot p).returnSlot p).goTo p .ended)
  | insert (p : Session) (online : Option ClientHandle) (hp : s.phase p = .checked online) :
    Moved cfg login s (.insert p)
      ((s.register login p).goTo p (.inserted (s.clients (login p).userHash)))
  | takeReplaced (p : Session) (prev : ClientHandle) (hp : s.phase p = .inserted (some prev)) :
    Moved cfg login s (.take p) ((s.takeSlot prev.session).goTo p
      (.releasing (if s.slot prev.session then some prev.session else none)))
  | takeOwn (p : Session) (hp : s.phase p = .left) :
    Moved cfg login s (.take p)
      ((s.takeSlot p).goTo p (.leaving (if s.slot p then some p else none)))
  | drop (p q : Session) (phase : Phase) (hp : (s.phase p).taken = some q)
    (hphase : s.stage p = 8 ∧ phase = .loggedIn ∨ s.stage p = 12 ∧ phase = .released) :
    Moved cfg login s (.drop p) ((s.returnSlot q).goTo p phase)
  | setIpv6 (p : Session) (a : Option Ipv6) (hp : s.phase p = .handling) :
    Moved cfg login s (.updateIpv6 p a) ((s.setIpv6 login p a).goTo p .loggedIn)
  | remove (p : Session) (hp : s.phase p = .released) (current : isCurrent login s p = true) :
    Moved cfg login s (.remove p) ((s.unregister login p).goTo p .removed)
  | keep (p : Session) (hp : s.phase p = .released) (current : isCurrent login s p = false) :
    Moved cfg login s (.remove p) (s.goTo p .removed)

theorem moved_quiet (cfg : Config) (login : Session → LoginRequest) (e : Event) {old phase : Phase}
    (hp : s.phase p = old) (hold : old.taken = none) (hnew : phase.taken = none)
    (hafter : ∀ prev, old ≠ .inserted (some prev)) (hbefore : ∀ prev, phase ≠ .inserted (some prev))
    (hstages : quiet old.stage phase.stage ∧ phase.stage ≠ 5 ∧ phase.stage ≠ 6) :
    Moved cfg login s e (s.goTo p phase) := by
  subst hp
  exact .quiet e p phase hold hnew hafter hbefore hstages.1 hstages.2

theorem moved_of_step {e : Event} (hstep : step cfg login s e = some t) :
    Moved cfg login s e t := by
  cases e with
  | lookUp p | find p | finish p | close p =>
    simp only [step] at hstep
    split at hstep
    · rename_i hp
      obtain rfl := Option.some.inj hstep
      exact moved_quiet _ _ _ hp rfl rfl (by simp) (by simp) (by simp [quiet, Phase.stage])
    · cases hstep
  | lookAgain p =>
    simp only [step] at hstep
    split at hstep
    · rename_i hp
      obtain rfl := Option.some.inj hstep
      exact .lookAgain p hp
    · cases hstep
  | proceed p =>
    simp only [step] at hstep
    split at hstep
    · rename_i hp
      split at hstep
      · obtain rfl := Option.some.inj hstep
        exact moved_quiet _ _ _ hp rfl rfl (by simp) (by simp) (by simp [quiet, Phase.stage])
      · cases hstep
    · cases hstep
  | refuse p =>
    simp only [step] at hstep
    split at hstep
    · rename_i hp
      split at hstep
      · cases hstep
      · obtain rfl := Option.some.inj hstep
        exact moved_quiet _ _ _ hp rfl rfl (by simp) (by simp) (by simp [quiet, Phase.stage])
    · cases hstep
  | frame p =>
    simp only [step] at hstep
    split at hstep
    · rename_i hp
      split at hstep <;> obtain rfl := Option.some.inj hstep <;>
        exact moved_quiet _ _ _ hp rfl rfl (by simp) (by simp) (by simp [quiet, Phase.stage])
    · cases hstep
  | leave p =>
    simp only [step] at hstep
    split at hstep
    · rename_i hp
      obtain rfl := Option.some.inj hstep
      exact moved_quiet _ _ _ hp rfl rfl (by simp) (by simp) (by simp [quiet, Phase.stage])
    · rename_i hp
      obtain rfl := Option.some.inj hstep
      exact moved_quiet _ _ _ hp rfl rfl (by simp) (by simp) (by simp [quiet, Phase.stage])
    · cases hstep
  | reserve p =>
    simp only [step] at hstep
    split at hstep
    · rename_i online hp
      split at hstep
      · rename_i hroom
        obtain rfl := Option.some.inj hstep
        exact .reserve p online hp hroom
      · obtain rfl := Option.some.inj hstep
        exact moved_quiet _ _ _ hp rfl rfl (by simp) (by simp) (by simp [quiet, Phase.stage])
    · cases hstep
  | check p =>
    simp only [step] at hstep
    split at hstep
    · rename_i online hp
      split at hstep
      · rename_i hpass
        obtain rfl := Option.some.inj hstep
        exact .check p online hp hpass
      · obtain rfl := Option.some.inj hstep
        exact .refuse p (by rw [State.stage, hp, Phase.stage]) (by rw [hp]; rfl)
    · cases hstep
  | insert p =>
    simp only [step] at hstep
    split at hstep
    · rename_i online hp
      obtain rfl := Option.some.inj hstep
      exact .insert p online hp
    · cases hstep
  | take p =>
    simp only [step] at hstep
    split at hstep
    · rename_i hp
      obtain rfl := Option.some.inj hstep
      exact moved_quiet _ _ _ hp rfl rfl (by simp) (by simp) (by simp [quiet, Phase.stage])
    · rename_i prev hp
      obtain rfl := Option.some.inj hstep
      exact .takeReplaced p prev hp
    · rename_i hp
      obtain rfl := Option.some.inj hstep
      exact .takeOwn p hp
    · cases hstep
  | drop p =>
    simp only [step] at hstep
    split at hstep
    · rename_i taken hp
      obtain rfl := Option.some.inj hstep
      cases taken with
      | none => exact moved_quiet _ _ _ hp rfl rfl (by simp) (by simp) (by simp [quiet, Phase.stage])
      | some q =>
        exact .drop p q _ (by rw [hp]; rfl) (.inl ⟨by rw [State.stage, hp, Phase.stage], rfl⟩)
    · rename_i taken hp
      obtain rfl := Option.some.inj hstep
      cases taken with
      | none => exact moved_quiet _ _ _ hp rfl rfl (by simp) (by simp) (by simp [quiet, Phase.stage])
      | some q =>
        exact .drop p q _ (by rw [hp]; rfl) (.inr ⟨by rw [State.stage, hp, Phase.stage], rfl⟩)
    · cases hstep
  | updateIpv6 p a =>
    simp only [step] at hstep
    split at hstep
    · rename_i hp
      obtain rfl := Option.some.inj hstep
      exact .setIpv6 p a hp
    · cases hstep
  | remove p =>
    simp only [step] at hstep
    split at hstep
    · rename_i hp
      obtain rfl := Option.some.inj hstep
      split
      · rename_i hcurrent
        exact .remove p hp hcurrent
      · rename_i hcurrent
        exact .keep p hp (by simpa using hcurrent)
    · cases hstep

end Ed2kServer.Server.Login
