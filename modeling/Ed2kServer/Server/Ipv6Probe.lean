import Mathlib
import Ed2kServer.Server.Login

namespace Ed2kServer.Server.Ipv6Probe

open Ed2kServer.Slab.Record Ed2kServer.Sources.Address
open Ed2kServer.Server.Login (Session ClientHandle)

/-- One client's probe: the address it is about, and the verdict, if there is one. -/
structure Probe where
  addr : Ipv6
  verdict : Option Bool
  /-- In nanoseconds, the time it is held back since, of the verdict or of the last retry. -/
  since : Nat
  dials : Nat
  deriving DecidableEq

def MAX_DIALS : Nat := 4

def RETRY_AFTER : Nat := 60 * 1000000000

/-- What a session does next; `login` tells its login from an `OP_IPV6_UPDATE`. -/
inductive Phase
  | connected
  /-- Remove the probe of the session before. -/
  | forget (addr : Ipv6)
  /-- Read the probe, in `mark_pending`. -/
  | mark (login : Bool) (addr : Ipv6)
  /-- Write the published address, in `mark_pending`. -/
  | clear (login : Bool) (addr : Ipv6) (prev : Option Probe)
  | insert (login : Bool) (addr : Ipv6) (dials : Nat)
  /-- Remove the published address of a session without one. -/
  | withdraw (login : Bool)
  | forgetWithdrawn (login : Bool)
  /-- Write the client map. -/
  | enter (login : Bool) (dial : Option Ipv6)
  /-- Count the dial, in `start`. -/
  | dial (addr : Ipv6)
  /-- Take a permit, in `start`. -/
  | permit (addr : Ipv6)
  | loggedIn
  /-- Leave the client map, in `end_session`. -/
  | leave
  | dropAddress
  | dropProbe
  | ended
  deriving DecidableEq

/-- A dial, and what `conclude` does next about it. -/
inductive Dial
  | calling (user : UserHash) (addr : Ipv6)
  | answered (user : UserHash) (addr : Ipv6) (ok : Bool)
  | found (user : UserHash) (addr : Ipv6) (ok : Bool)
  | gone (user : UserHash)
  | publish (user : UserHash) (addr : Ipv6) (ok : Bool)
  | done
  deriving DecidableEq

/-- One stalled probe of a sweep. -/
inductive Retry
  | look (user : UserHash) (addr : Ipv6)
  | touch (user : UserHash) (addr : Ipv6) (session : Session)
  | dial (user : UserHash) (addr : Ipv6) (session : Session)
  | permit (user : UserHash) (addr : Ipv6)
  | done
  deriving DecidableEq

/-- The same client, by its hash without the two bytes that mark the kind of client. -/
def sameClientHash (a b : UserHash) : Bool :=
  decide (∀ i : Fin 16, i = 5 ∨ i = 14 ∨ a.get i = b.get i)

structure State where
  clients : UserHash → Option ClientHandle
  clientIpv6 : UserHash → Option Ipv6
  ipv6Probe : UserHash → Option Probe
  /-- Free permits of the probe pool. -/
  probes : Nat
  /-- The IPv6 of each session, in the handle of its own. -/
  own : Session → Option Ipv6
  phase : Session → Phase
  dials : List Dial
  retries : List Retry
  /-- Who answered with the user's hash at which address. -/
  proven : List (UserHash × Ipv6)
  /-- The dials counted for each session. -/
  dialled : Session → Nat

def init (probes : Nat) : State where
  clients _ := none
  clientIpv6 _ := none
  ipv6Probe _ := none
  probes := probes
  own _ := none
  phase _ := .connected
  dials := []
  retries := []
  proven := []
  dialled _ := 0

namespace State

@[simps] def goTo (s : State) (p : Session) (phase : Phase) : State :=
  { s with phase := Function.update s.phase p phase }

@[simps] def setAddress (s : State) (user : UserHash) (addr : Option Ipv6) : State :=
  { s with clientIpv6 := Function.update s.clientIpv6 user addr }

@[simps] def setProbe (s : State) (user : UserHash) (probe : Option Probe) : State :=
  { s with ipv6Probe := Function.update s.ipv6Probe user probe }

@[simps] def setClient (s : State) (user : UserHash) (client : Option ClientHandle) : State :=
  { s with clients := Function.update s.clients user client }

@[simps] def setOwn (s : State) (p : Session) (addr : Option Ipv6) : State :=
  { s with own := Function.update s.own p addr }

@[simps] def setDial (s : State) (i : Nat) (dial : Dial) : State :=
  { s with dials := s.dials.set i dial }

/-- The task of a dial ends and returns its permit. -/
@[simps] def endDial (s : State) (i : Nat) : State :=
  { s with dials := s.dials.set i .done, probes := s.probes + 1 }

@[simps] def setRetry (s : State) (j : Nat) (retry : Retry) : State :=
  { s with retries := s.retries.set j retry }

/-- Does `start` go past its checks of the probe? -/
def mayDial (s : State) (user : UserHash) (addr : Ipv6) : Bool :=
  (s.ipv6Probe user).any fun p => p.addr = addr ∧ p.verdict = none ∧ p.dials < MAX_DIALS

/-- A dial is counted, for the session it is made for. -/
@[simps] def countDial (s : State) (user : UserHash) (p : Session) : State :=
  { s with
    ipv6Probe := Function.update s.ipv6Probe user
      ((s.ipv6Probe user).map fun e => { e with dials := e.dials + 1 })
    dialled := Function.update s.dialled p (s.dialled p + 1) }

/-- The dial is spawned, if there is a permit for it. -/
def spawn (s : State) (user : UserHash) (addr : Ipv6) : State :=
  if 0 < s.probes then
    { s with probes := s.probes - 1, dials := s.dials ++ [.calling user addr] }
  else s

end State

variable (userHash : Session → UserHash)

/-- The next step of a session. -/
def next (s : State) (p : Session) (now : Nat) : Phase → Option State
  | .forget addr => some ((s.setProbe (userHash p) none).goTo p (.mark true addr))
  | .mark login addr => some (s.goTo p (.clear login addr (s.ipv6Probe (userHash p))))
  | .clear login addr prev =>
    match prev.filter (·.addr = addr) with
    | some probe =>
      some ((s.setAddress (userHash p) (if probe.verdict = some true then some addr else none)).goTo
        p (.enter login (if login then some addr else none)))
    | none =>
      some ((s.setAddress (userHash p) none).goTo p
        (.insert login addr ((prev.map Probe.dials).getD 0)))
  | .insert login addr dials =>
    some ((s.setProbe (userHash p) (some ⟨addr, none, now, dials⟩)).goTo p
      (.enter login (some addr)))
  | .withdraw login => some ((s.setAddress (userHash p) none).goTo p (.forgetWithdrawn login))
  | .forgetWithdrawn login => some ((s.setProbe (userHash p) none).goTo p (.enter login none))
  | .enter login dial =>
    some ((s.setClient (userHash p)
      (if login then some ⟨p, s.own p⟩
      else (s.clients (userHash p)).map fun e => { e with ipv6 := s.own p })).goTo p
        (dial.elim .loggedIn .dial))
  | .dial addr =>
    if s.mayDial (userHash p) addr then
      some ((s.countDial (userHash p) p).goTo p (.permit addr))
    else some (s.goTo p .loggedIn)
  | .permit addr => some ((s.spawn (userHash p) addr).goTo p .loggedIn)
  | .leave =>
    if (s.clients (userHash p)).any (·.session = p) then
      some ((s.setClient (userHash p) none).goTo p .dropAddress)
    else some (s.goTo p .ended)
  | .dropAddress => some ((s.setAddress (userHash p) none).goTo p .dropProbe)
  | .dropProbe => some ((s.setProbe (userHash p) none).goTo p .ended)
  | .connected | .loggedIn | .ended => none

/-- The next step of `conclude`. -/
def conclude (s : State) (i : Nat) (now : Nat) : Dial → Option State
  | .answered user addr ok =>
    match s.clients user with
    | none => some (s.setDial i (.gone user))
    | some c =>
      if c.ipv6 = some addr then some (s.setDial i (.found user addr ok)) else some (s.endDial i)
  | .gone user => some ((s.setProbe user none).endDial i)
  | .found user addr ok =>
    match (s.ipv6Probe user).filter (·.addr = addr) with
    | some probe =>
      some ((s.setProbe user (some { probe with verdict := some ok, since := now })).setDial i
        (.publish user addr ok))
    | none => some (s.endDial i)
  | .publish user addr ok => some ((s.setAddress user (if ok then some addr else none)).endDial i)
  | .calling _ _ | .done => none

/-- A dial comes back. -/
def hear (s : State) (i : Nat) (answer : Option UserHash) : Dial → Option State
  | .calling user addr =>
    let ok := answer.any (sameClientHash · user)
    some { s.setDial i (.answered user addr ok) with
      proven := if ok then (user, addr) :: s.proven else s.proven }
  | _ => none

/-- The next step of a sweep about a stalled probe. -/
def sweep (s : State) (j : Nat) (now : Nat) : Retry → Option State
  | .look user addr =>
    match s.clients user with
    | none => some (s.setRetry j .done)
    | some c =>
      if c.ipv6 = some addr then some (s.setRetry j (.touch user addr c.session))
      else some (s.setRetry j .done)
  | .touch user addr p =>
    some ((s.setProbe user ((s.ipv6Probe user).map fun e => { e with since := now })).setRetry j
      (.dial user addr p))
  | .dial user addr p =>
    if s.mayDial user addr then some ((s.countDial user p).setRetry j (.permit user addr))
    else some (s.setRetry j .done)
  | .permit user addr => some ((s.spawn user addr).setRetry j .done)
  | .done => none

/-- Between two frames, or where the welcome of a login could not be sent. -/
def Phase.mayLeave : Phase → Bool
  | .loggedIn | .dial _ => true
  | _ => false

inductive Event
  | login (p : Session) (addr : Option Ipv6)
  /-- An `OP_IPV6_UPDATE` that is applied. -/
  | update (p : Session) (addr : Option Ipv6)
  | leave (p : Session)
  | next (p : Session) (now : Nat)
  /-- The outcome of a dial: the hash that came back, if one did. -/
  | answer (i : Nat) (answer : Option UserHash)
  | conclude (i : Nat) (now : Nat)
  /-- A sweep removes the probe of a user who is not there. -/
  | forgetGone (user : UserHash)
  /-- A sweep finds a stalled probe. -/
  | stall (user : UserHash) (now : Nat)
  | sweep (j : Nat) (now : Nat)

def step (s : State) : Event → Option State
  | .login p addr =>
    if s.phase p = .connected then
      some ((s.setOwn p addr).goTo p (addr.elim (.withdraw true) .forget))
    else none
  | .update p addr =>
    if s.phase p = .loggedIn then
      some ((s.setOwn p addr).goTo p (addr.elim (.withdraw false) (.mark false)))
    else none
  | .leave p => if (s.phase p).mayLeave then some (s.goTo p .leave) else none
  | .next p now => next userHash s p now (s.phase p)
  | .answer i answer => s.dials[i]?.bind (hear s i answer)
  | .conclude i now => s.dials[i]?.bind (conclude s i now)
  | .forgetGone user => if s.clients user = none then some (s.setProbe user none) else none
  | .stall user now =>
    (s.ipv6Probe user).bind fun p =>
      if p.verdict = none ∧ p.dials < MAX_DIALS ∧ p.since + RETRY_AFTER ≤ now then
        some { s with retries := s.retries ++ [.look user p.addr] }
      else none
  | .sweep j now => s.retries[j]?.bind (sweep s j now)

end Ed2kServer.Server.Ipv6Probe
