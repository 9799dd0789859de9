import Ed2kServer.Admin.Auth
import Ed2kServer.Lib.GuardCount
import Ed2kServer.Server.Login

namespace Ed2kServer.Admission.Guards

open Ed2kServer.Lib.GuardCount Ed2kServer.Slab.Record Ed2kServer.Sources.Address
open Ed2kServer.Admin.Auth (isLoopback)

structure Config where
  maxPendingLoginsPerSource : UInt32
  maxPendingLogins : Nat
  maxRetryTasks : Nat
  ipv6SourcePrefixBits : Nat

def Config.key (cfg : Config) (ip : IpAddr) : IpAddr :=
  Server.Login.sourceKey cfg.ipv6SourcePrefixBits ip

abbrev Pair := UserHash × UInt32

inductive Call
  | acquireIpSlot (ip : IpAddr) (limit : UInt32)
  | tryPending (ip : IpAddr)
  | tryRetry (requester : UserHash) (target : UInt32)

/-- How far a call is, or the guard it has returned. -/
inductive Phase
  /-- An `IpSlot`. -/
  | slot (key : IpAddr)
  | slotLeaving (key : IpAddr)
  /-- Refused by its source, whose new counter is to be removed. -/
  | sourceRefused (key : IpAddr)
  /-- Admitted by its source, if it has one, and about to ask the pool. -/
  | admitted (source : Option IpAddr)
  /-- A `PendingLogin`. -/
  | pending (source : Option IpAddr)
  /-- Only a `SourceShare` is left of it. -/
  | sharing (granted : Bool) (key : IpAddr)
  | shareLeaving (granted : Bool) (key : IpAddr)
  /-- A `RetryKey` alone, about to ask the pool. -/
  | paired (pair : Pair)
  /-- A `RetryKey` and a permit. -/
  | retrying (pair : Pair)
  | pairLeaving (pair : Pair)
  | permitLeaving
  | ended (granted : Bool)
  deriving DecidableEq

structure State where
  connPerIp : Table IpAddr
  pendingPerSource : Table IpAddr
  retryPairs : Pair → Bool
  /-- Free permits of the two pools. -/
  pendingLogin : Nat
  retries : Nat
  /-- All calls so far, in the order they began. -/
  calls : List Phase

def init (cfg : Config) : State :=
  ⟨fun _ => none, fun _ => none, fun _ => false, cfg.maxPendingLogins, cfg.maxRetryTasks, []⟩

def State.begin (s : State) (phase : Phase) : State := { s with calls := s.calls ++ [phase] }

def State.goTo (s : State) (i : Nat) (phase : Phase) : State :=
  { s with calls := s.calls.set i phase }

/-- A call up to and with its first access to a table. -/
def start (cfg : Config) (s : State) : Call → State
  | .acquireIpSlot ip limit =>
    let key := cfg.key ip
    if 0 < limit ∧ limit ≤ s.connPerIp.count key ∧ isLoopback ip = false then
      { s with connPerIp := touch s.connPerIp key }.begin (.ended false)
    else { s with connPerIp := claim s.connPerIp key }.begin (.slot key)
  | .tryPending ip =>
    let key := cfg.key ip
    if isLoopback ip then s.begin (.admitted none)
    else if cfg.maxPendingLoginsPerSource ≤ s.pendingPerSource.count key then
      { s with pendingPerSource := touch s.pendingPerSource key }.begin (.sourceRefused key)
    else
      { s with pendingPerSource := claim s.pendingPerSource key }.begin (.admitted (some key))
  | .tryRetry requester target =>
    let pair := (requester, target)
    if s.retryPairs pair then s.begin (.ended false)
    else { s with retryPairs := Function.update s.retryPairs pair true }.begin (.paired pair)

/-- The next access of a call or of the drop of its guard. -/
def next (s : State) (i : Nat) : Phase → Option State
  | .slotLeaving key =>
    some ({ s with connPerIp := removeIfZero s.connPerIp key }.goTo i (.ended true))
  | .sourceRefused key =>
    some ({ s with pendingPerSource := removeIfZero s.pendingPerSource key }.goTo i (.ended false))
  | .admitted source =>
    if 0 < s.pendingLogin then
      some ({ s with pendingLogin := s.pendingLogin - 1 }.goTo i (.pending source))
    else
      match source with
      | none => some (s.goTo i (.ended false))
      | some key => some (s.goTo i (.sharing false key))
  | .sharing granted key =>
    some ({ s with pendingPerSource := decrement s.pendingPerSource key }.goTo i
      (.shareLeaving granted key))
  | .shareLeaving granted key =>
    some ({ s with pendingPerSource := removeIfZero s.pendingPerSource key }.goTo i
      (.ended granted))
  | .paired pair =>
    if 0 < s.retries then some ({ s with retries := s.retries - 1 }.goTo i (.retrying pair))
    else some (s.goTo i (.pairLeaving pair))
  | .pairLeaving pair =>
    some ({ s with retryPairs := Function.update s.retryPairs pair false }.goTo i (.ended false))
  | .permitLeaving => some ({ s with retries := s.retries + 1 }.goTo i (.ended true))
  | .slot _ | .pending _ | .retrying _ | .ended _ => none

/-- The owner drops a guard: the first thing that does. -/
def drop (s : State) (i : Nat) : Phase → Option State
  | .slot key =>
    some ({ s with connPerIp := decrement s.connPerIp key }.goTo i (.slotLeaving key))
  | .pending source =>
    let s := { s with pendingLogin := s.pendingLogin + 1 }
    match source with
    | none => some (s.goTo i (.ended true))
    | some key => some (s.goTo i (.sharing true key))
  | .retrying pair =>
    some ({ s with retryPairs := Function.update s.retryPairs pair false }.goTo i .permitLeaving)
  | _ => none

inductive Event
  | start (call : Call)
  | next (i : Nat)
  | drop (i : Nat)

def step (cfg : Config) (s : State) : Event → Option State
  | .start call => some (start cfg s call)
  | .next i => s.calls[i]?.bind (next s i)
  | .drop i => s.calls[i]?.bind (drop s i)

end Ed2kServer.Admission.Guards
