import Ed2kServer.Server.NattProof

namespace Ed2kServer.Server.NattProofSafety

open Ed2kServer.Lib.History Ed2kServer.Lib.Transition
open Ed2kServer.Server.Login (Session canon)
open Ed2kServer.Server.LugdunumNatt (SocketAddr)
open Ed2kServer.Server.NattProof
open Ed2kServer.Slab.Record Ed2kServer.Sources.Address

variable {request : Session → LoginRequest} {s t : State}

/-- The connection has a socket. -/
def isOpen : Phase → Bool
  | .away | .closed => false
  | _ => true

def isResetting : Phase → Bool
  | .resetting _ => true
  | _ => false

/-- Some of the tables of its hash are the session's to write. -/
def isWriting : Phase → Bool
  | .resetting _ | .removing _ => true
  | _ => false

/-- The session's handle has been in `clients`. -/
def isInserted : Phase → Bool
  | .loggedIn | .removing _ | .ended | .closed => true
  | _ => false

/-- What is known of an entry of `clients` whatever port it has. -/
def who (h : ClientHandle) : Session × IpAddr := (h.session, h.ip)

/-- What a step does to the handles, the tables of the proofs and the log. -/
inductive Moved (request : Session → LoginRequest) (s : State) : Event → State → Prop
  | quiet (e : Event) (t : State)
      (hwho : ∀ u, (t.clients u).map who = (s.clients u).map who)
      (hseen : t.nattKeepaliveSeen = s.nattKeepaliveSeen) (hip : t.nattUdpIp = s.nattUdpIp)
      (hcounter : t.nattProofCounter = s.nattProofCounter) (htoken : t.nattToken = s.nattToken)
      (hlog : t.log = s.log)
      (hopen : (∀ q, isOpen (s.phase q) = true → q ∈ s.connected) →
        ∀ q, isOpen (t.phase q) = true → q ∈ t.connected)
      (hwriting : ∀ q, isWriting (t.phase q) = true → t.phase q = s.phase q)
      (hinserted : ∀ q, isInserted (s.phase q) = true → isInserted (t.phase q) = true)
      (hheld : ∀ q, s.phase q = .loggedIn →
        (s.clients (request q).userHash).map ClientHandle.session = some q →
          t.phase q = .loggedIn)
      (hresetting : ∀ q todo, s.phase q = .resetting todo → t.phase q = .resetting todo) :
      Moved request s e t
  | login (p : Session) (hphase : s.phase p = .connected) :
      Moved request s (.login p) (s.goTo p (.resetting loginResets))
  | reset (p : Session) (x : Table) (xs : List Table) (hphase : s.phase p = .resetting (x :: xs)) :
      Moved request s (.reset p) ((s.write (request p).userHash
        (if (request p).wantsNattToken then some p else none) x).goTo p (.resetting xs))
  | insert (p : Session) (hphase : s.phase p = .resetting []) :
      Moved request s (.insert p) ({ s with
        clients := Function.update s.clients (request p).userHash
          (some ⟨p, (request p).ip, (request p).udpPort⟩)
        announced := Function.update s.announced p (request p).udpPort }.goTo p .loggedIn)
  | finish (p : Session) (hphase : s.phase p = .loggedIn)
      (howner : (s.clients (request p).userHash).map ClientHandle.session = some p) :
      Moved request s (.finish p) ({ s with
        clients := Function.update s.clients (request p).userHash none }.goTo p
          (.removing endRemovals))
  | remove (p : Session) (x : Table) (xs : List Table)
      (hphase : s.phase p = .removing (x :: xs)) :
      Moved request s (.remove p)
        ((s.write (request p).userHash none x).goTo p (.removing xs))
  | keepalive (d : Keepalive) (ext : Bool) :
      Moved request s (.keepalive d ext) (handleKeepalive s d ext)

theorem phase_goTo (s : State) (p q : Session) (ph : Phase) :
    (s.goTo p ph).phase q = if q = p then ph else s.phase q :=
  Function.update_apply s.phase p ph q

/-- A step that only takes a connection on, of which nothing hangs. -/
theorem Moved.goTo {e : Event} {p : Session} {ph : Phase} {u : State}
    (hu : u = { s with connected := u.connected, connPerIp := u.connPerIp })
    (hopen : isOpen ph = true → p ∈ u.connected)
    (hconn : ∀ q, q ≠ p → q ∈ s.connected → q ∈ u.connected)
    (hwriting : isWriting ph = false)
    (hinserted : isInserted (s.phase p) = true → isInserted ph = true)
    (hheld : s.phase p = .loggedIn →
      (s.clients (request p).userHash).map ClientHandle.session ≠ some p)
    (hresetting : isResetting (s.phase p) = false) : Moved request s e (u.goTo p ph) := by
  have hphase : u.phase = s.phase := by rw [hu]
  refine .quiet _ _ (fun _ => by rw [hu]; rfl) (by rw [hu]; rfl) (by rw [hu]; rfl) (by rw [hu]; rfl)
    (by rw [hu]; rfl) (by rw [hu]; rfl) ?_ ?_ ?_ ?_ ?_
  all_goals simp only [phase_goTo, hphase]
  · intro hall q hq
    by_cases hqp : q = p
    · subst hqp
      rw [if_pos rfl] at hq
      exact hopen hq
    · rw [if_neg hqp] at hq
      exact hconn q hqp (hall q hq)
  · intro q hq
    split_ifs at hq ⊢ with hqp
    · rw [hwriting] at hq
      cases hq
    · rfl
  · intro q hq
    split_ifs with hqp
    · exact hinserted (hqp ▸ hq)
    · exact hq
  · intro q hq hown
    rw [if_neg, hq]
    rintro rfl
    exact hheld hq hown
  · intro q todo hq
    rw [if_neg, hq]
    rintro rfl
    rw [hq] at hresetting
    cases hresetting

/-- A step that leaves the connections. -/
theorem Moved.still {e : Event} (hphase : t.phase = s.phase) (hconn : t.connected = s.connected)
    (hwho : ∀ u, (t.clients u).map who = (s.clients u).map who)
    (hseen : t.nattKeepaliveSeen = s.nattKeepaliveSeen) (hip : t.nattUdpIp = s.nattUdpIp)
    (hcounter : t.nattProofCounter = s.nattProofCounter) (htoken : t.nattToken = s.nattToken)
    (hlog : t.log = s.log) : Moved request s e t :=
  .quiet _ _ hwho hseen hip hcounter htoken hlog (by rw [hphase, hconn]; exact id)
    (fun q _ => by rw [hphase]) (fun q h => by rwa [hphase]) (fun q h _ => by rwa [hphase])
    (fun q todo h => by rwa [hphase])

theorem countConnection_eq (s : State) (ip : IpAddr) (f : Nat → Nat) :
    ∃ c, countConnection s ip f = { s with connPerIp := c } := by
  cases ip with
  | v4 v => exact ⟨_, rfl⟩
  | v6 a => exact ⟨s.connPerIp, rfl⟩

theorem observe_eq (s : State) (peer : SocketAddr) :
    ∃ o, s.observe peer = { s with observedUdpPorts := o } := by
  rw [State.observe]
  cases peer.1 with
  | v4 v => exact ⟨_, rfl⟩
  | v6 a => exact ⟨s.observedUdpPorts, rfl⟩

theorem moved_of_step (hconnected : ∀ q, isOpen (s.phase q) = true → q ∈ s.connected)
    {e : Event} (ht : step request s e = some t) : Moved request s e t := by
  cases e with
  | tick d =>
    rw [← Option.some.inj ht]
    exact .still rfl rfl (fun _ => rfl) rfl rfl rfl rfl rfl
  | connect p =>
    rw [step] at ht
    cases hphase : s.phase p <;> simp only [hphase, reduceCtorEq] at ht
    rw [← Option.some.inj ht]
    obtain ⟨c, hc⟩ := countConnection_eq { s with connected := p :: s.connected } (request p).peer
      (· + 1)
    rw [hc]
    exact .goTo rfl (fun _ => List.mem_cons_self) (fun q _ hq => List.mem_cons_of_mem _ hq) rfl
      (by rw [hphase]; nofun) (by rw [hphase]; nofun) (by rw [hphase]; rfl)
  | login p =>
    rw [step] at ht
    cases hphase : s.phase p <;> simp only [hphase, reduceCtorEq] at ht
    rw [← Option.some.inj ht]
    exact .login p hphase
  | reset p =>
    rw [step] at ht
    split at ht
    · rename_i x xs hphase
      rw [← Option.some.inj ht]
      exact .reset p x xs hphase
    · cases ht
  | insert p =>
    rw [step] at ht
    split at ht
    · rename_i hphase
      rw [← Option.some.inj ht]
      exact .insert p hphase
    · cases ht
  | tell p =>
    rw [step] at ht
    cases hphase : s.phase p <;> simp only [hphase, reduceCtorEq] at ht
    rw [← Option.some.inj ht]
    exact .still rfl rfl (fun _ => rfl) rfl rfl rfl rfl rfl
  | announce p port =>
    rw [step] at ht
    cases hphase : s.phase p <;> simp only [hphase, reduceCtorEq] at ht
    split_ifs at ht <;> rw [← Option.some.inj ht]
    · exact .still rfl rfl (fun _ => rfl) rfl rfl rfl rfl rfl
    · refine .still rfl rfl (fun u => ?_) rfl rfl rfl rfl rfl
      dsimp only
      rw [Function.update_apply]
      split_ifs with hu
      · rw [hu, Option.map_map]
        rfl
      · rfl
  | finish p =>
    rw [step] at ht
    cases hphase : s.phase p <;> simp only [hphase, reduceCtorEq] at ht
    split_ifs at ht with howner <;> rw [← Option.some.inj ht]
    · exact .finish p hphase howner
    · exact .goTo rfl (fun _ => hconnected p (by rw [hphase]; rfl)) (fun q _ hq => hq) rfl
        (fun _ => rfl) (fun _ => howner) (by rw [hphase]; rfl)
  | remove p =>
    rw [step] at ht
    split at ht
    · rename_i x xs hphase
      rw [← Option.some.inj ht]
      exact .remove p x xs hphase
    · rename_i hphase
      rw [← Option.some.inj ht]
      exact .goTo rfl (fun _ => hconnected p (by rw [hphase]; rfl)) (fun q _ hq => hq) rfl
        (fun _ => rfl) (by rw [hphase]; nofun) (by rw [hphase]; rfl)
    · cases ht
  | close p =>
    rw [step] at ht
    split_ifs at ht with hphase
    rw [← Option.some.inj ht]
    obtain ⟨c, hc⟩ := countConnection_eq { s with connected := s.connected.erase p }
      (request p).peer (· - 1)
    rw [hc]
    refine .goTo rfl nofun (fun q hq hmem => (List.mem_erase_of_ne hq).mpr hmem) rfl
      (fun _ => rfl) ?_ ?_
    · obtain hphase | hphase := hphase <;> rw [hphase] <;> nofun
    · obtain hphase | hphase := hphase <;> rw [hphase] <;> rfl
  | keepalive d ext =>
    rw [step] at ht
    split_ifs at ht
    rw [← Option.some.inj ht]
    exact .keepalive d ext
  | query peer =>
    rw [← Option.some.inj ht]
    obtain ⟨o, ho⟩ := observe_eq s peer
    rw [ho]
    exact .still rfl rfl (fun _ => rfl) rfl rfl rfl rfl rfl
  | lookUp k u =>
    rw [step] at ht
    cases hclient : s.clients u <;> simp only [hclient, reduceCtorEq] at ht
    rw [← Option.some.inj ht]
    exact .still rfl rfl (fun _ => rfl) rfl rfl rfl rfl rfl
  | readIp k | readPort k =>
    rw [step] at ht
    cases hhanding : s.handing k <;> simp only [hhanding, reduceCtorEq] at ht
    rw [← Option.some.inj ht]
    exact .still rfl rfl (fun _ => rfl) rfl rfl rfl rfl rfl

/-! ### What the proofs are for -/

/-- The datagram has a proof under the token. -/
def isProven (d : Keepalive) (token : Token) : Bool :=
  d.proof.any fun proof => decide (proof.mac = .hmac token d.userHash proof.counter)

/-- The keepalive comes from the address of its session, or with a proof under its token. -/
def isBelievable (s : State) (d : Keepalive) : Bool :=
  (s.clients d.userHash).any fun h => decide (canon h.ip = canon d.peer.1) ||
    (s.nattToken d.userHash).any (isProven d)

/-- The writes that one login, or one session's end, makes to the tables of its hash come without
those of another between them, and a login's without a believable keepalive. -/
def Apart (request : Session → LoginRequest) (s : State) : Event → Prop
  | .login p => ∀ q ∈ s.connected, (request q).userHash = (request p).userHash →
      isWriting (s.phase q) = false
  | .finish p => ∀ q ∈ s.connected, (request q).userHash = (request p).userHash →
      isWriting (s.phase q) = false
  | .keepalive d _ => isBelievable s d = true →
      ∀ q ∈ s.connected, (request q).userHash = d.userHash → isResetting (s.phase q) = false
  | _ => True

/-- The counter of a proof that was accepted under the token. -/
def counterUnder (token : Token) (x : Record) : Option UInt32 :=
  match x.verdict with
  | some (.ok n) => if x.isBelieved && decide (x.token = some token) then some n else none
  | _ => none

def acceptedUnder (token : Token) (log : List Record) : List UInt32 :=
  log.filterMap (counterUnder token)

structure Safe (s : State) : Prop where
  /-- The counters accepted under one token increase. -/
  increasing : ∀ token, (acceptedUnder token s.log).Pairwise (· < ·)
  /-- An address other than the session's was proven under the token of the session. -/
  proven : ∀ u h a, s.clients u = some h → s.nattUdpIp u = some a → a ≠ canon h.ip →
    ∃ x ∈ s.log, x.datagram.userHash = u ∧ canon x.datagram.peer.1 = a ∧
      isProven x.datagram h.session = true
  /-- A proof is a replay only where one was accepted under its token. -/
  first : ∀ before x after proof, s.log = before ++ x :: after → x.verdict = some .replay →
    x.datagram.proof = some proof → 1 ≤ proof.counter →
      ∃ token, x.token = some token ∧ x.session = some token ∧ acceptedUnder token before ≠ []
  /-- After an obfuscated keepalive of the session a plain one without a proof is not believed. -/
  plain : ∀ before x after p, s.log = before ++ x :: after → x.session = some p →
    x.isBelieved = true → x.datagram.isObfuscated = false → isOk x.verdict = false →
      x.isExtensionEnabled = true →
        ∀ y ∈ before, y.session = some p → y.isBelieved = true → y.datagram.isObfuscated = false

/-- No login under way has already written the table of the hash. -/
def Untouched (request : Session → LoginRequest) (s : State) (u : UserHash) (x : Table) : Prop :=
  ∀ q todo, s.phase q = .resetting todo → (request q).userHash = u → x ∈ todo

structure Inv (request : Session → LoginRequest) (s : State) : Prop where
  connected : ∀ q, isOpen (s.phase q) = true → q ∈ s.connected
  alone : ∀ p q, isWriting (s.phase p) = true → isWriting (s.phase q) = true →
    (request p).userHash = (request q).userHash → p = q
  todo : ∀ p todo, s.phase p = .resetting todo → todo <:+ loginResets
  entry : ∀ u h, s.clients u = some h →
    (request h.session).userHash = u ∧ s.phase h.session = .loggedIn
  gone : ∀ p todo, s.phase p = .removing todo → s.clients (request p).userHash = none
  token : ∀ u h, s.clients u = some h → Untouched request s u .token →
    ∀ token, s.nattToken u = some token → token = h.session
  tokenSet : ∀ p todo, s.phase p = .resetting todo → .token ∉ todo →
    ∀ token, s.nattToken (request p).userHash = some token → token = p
  resetIp : ∀ p todo, s.phase p = .resetting todo → .udpIp ∉ todo →
    s.nattUdpIp (request p).userHash = none
  resetCounter : ∀ p todo, s.phase p = .resetting todo → .proofCounter ∉ todo →
    s.nattProofCounter (request p).userHash = none
  counter : ∀ u h, s.clients u = some h → Untouched request s u .proofCounter →
    s.nattProofCounter u = (acceptedUnder h.session s.log).getLast?
  seen : ∀ u h, s.clients u = some h → Untouched request s u .keepaliveSeen →
    ∀ y ∈ s.log, y.session = some h.session → y.isBelieved = true →
      y.datagram.isObfuscated = true → s.nattKeepaliveSeen u = some true
  session : ∀ x ∈ s.log, ∀ p, x.session = some p → isInserted (s.phase p) = true
  under : ∀ token, acceptedUnder token s.log ≠ [] → isInserted (s.phase token) = true
  safe : Safe s

theorem acceptedUnder_concat (token : Token) (log : List Record) (x : Record) :
    acceptedUnder token (log ++ [x]) = acceptedUnder token log ++ (counterUnder token x).toList := by
  rw [acceptedUnder, List.filterMap_append, ← acceptedUnder]
  cases h : counterUnder token x <;> simp [h]

/-- The log being the same, only the proven addresses need a look. -/
theorem Safe.of_log (h : Safe s) (hlog : t.log = s.log)
    (hproven : ∀ u k a, t.clients u = some k → t.nattUdpIp u = some a → a ≠ canon k.ip →
      ∃ x ∈ s.log, x.datagram.userHash = u ∧ canon x.datagram.peer.1 = a ∧
        isProven x.datagram k.session = true) : Safe t :=
  ⟨hlog ▸ h.increasing, fun u k a hk ha hne => hlog ▸ hproven u k a hk ha hne, hlog ▸ h.first,
    hlog ▸ h.plain⟩

theorem who_eq_some {a : Option ClientHandle} {b : Option ClientHandle}
    (h : a.map who = b.map who) {k : ClientHandle} (hk : a = some k) :
    ∃ k', b = some k' ∧ k'.session = k.session ∧ k'.ip = k.ip := by
  subst hk
  obtain ⟨k', hb, hw⟩ := Option.map_eq_some_iff.mp h.symm
  obtain ⟨hs, hip⟩ := Prod.mk.inj hw
  exact ⟨k', hb, hs, hip⟩

theorem not_inserted_of_resetting {ph : Phase} {todo : List Table} (h : ph = .resetting todo) :
    isInserted ph = false := by
  rw [h]
  rfl

theorem inv_quiet (h : Inv request s)
    (hwho : ∀ u, (t.clients u).map who = (s.clients u).map who)
    (hseen : t.nattKeepaliveSeen = s.nattKeepaliveSeen) (hip : t.nattUdpIp = s.nattUdpIp)
    (hcounter : t.nattProofCounter = s.nattProofCounter) (htoken : t.nattToken = s.nattToken)
    (hlog : t.log = s.log)
    (hopen : (∀ q, isOpen (s.phase q) = true → q ∈ s.connected) →
      ∀ q, isOpen (t.phase q) = true → q ∈ t.connected)
    (hwriting : ∀ q, isWriting (t.phase q) = true → t.phase q = s.phase q)
    (hinserted : ∀ q, isInserted (s.phase q) = true → isInserted (t.phase q) = true)
    (hheld : ∀ q, s.phase q = .loggedIn →
      (s.clients (request q).userHash).map ClientHandle.session = some q →
        t.phase q = .loggedIn)
    (hresetting : ∀ q todo, s.phase q = .resetting todo → t.phase q = .resetting todo) :
    Inv request t := by
  have hback : ∀ q todo, t.phase q = .resetting todo → s.phase q = .resetting todo := by
    intro q todo hq
    rw [← hwriting q (by rw [hq, isWriting]), hq]
  have huntouched : ∀ u x, Untouched request t u x → Untouched request s u x :=
    fun u x hu q todo hq => hu q todo (hresetting q todo hq)
  refine ⟨hopen h.connected, ?_, fun p todo hp => h.todo p todo (hback p todo hp), ?_, ?_, ?_, ?_,
    ?_, ?_, ?_, ?_, ?_, ?_, ?_⟩
  · intro p q hp hq
    exact h.alone p q (hwriting p hp ▸ hp) (hwriting q hq ▸ hq)
  · intro u k hk
    obtain ⟨k', hk', hsession, -⟩ := who_eq_some (hwho u) hk
    obtain ⟨hu, hphase⟩ := h.entry u k' hk'
    rw [hsession] at hu hphase
    refine ⟨hu, hheld _ hphase ?_⟩
    rw [hu, hk', Option.map_some, hsession]
  · intro p todo hp
    have hnone := h.gone p todo (by rw [← hwriting p (by rw [hp, isWriting]), hp])
    have := hwho (request p).userHash
    rwa [hnone, Option.map_none, Option.map_eq_none_iff] at this
  · intro u k hk hu token hget
    obtain ⟨k', hk', hsession, -⟩ := who_eq_some (hwho u) hk
    rw [htoken] at hget
    rw [← hsession]
    exact h.token u k' hk' (huntouched u _ hu) token hget
  · intro p todo hp hdone token hget
    rw [htoken] at hget
    exact h.tokenSet p todo (hback p todo hp) hdone token hget
  · intro p todo hp hdone
    rw [hip]
    exact h.resetIp p todo (hback p todo hp) hdone
  · intro p todo hp hdone
    rw [hcounter]
    exact h.resetCounter p todo (hback p todo hp) hdone
  · intro u k hk hu
    obtain ⟨k', hk', hsession, -⟩ := who_eq_some (hwho u) hk
    rw [hcounter, hlog, ← hsession]
    exact h.counter u k' hk' (huntouched u _ hu)
  · intro u k hk hu y hy hy'
    obtain ⟨k', hk', hsession, -⟩ := who_eq_some (hwho u) hk
    rw [hseen]
    rw [hlog] at hy
    rw [← hsession] at hy'
    exact h.seen u k' hk' (huntouched u _ hu) y hy hy'
  · intro x hx p hp
    rw [hlog] at hx
    exact hinserted p (h.session x hx p hp)
  · intro token hne
    rw [hlog] at hne
    exact hinserted token (h.under token hne)
  · refine h.safe.of_log hlog fun u k a hk ha hne => ?_
    obtain ⟨k', hk', hsession, hip'⟩ := who_eq_some (hwho u) hk
    rw [hip] at ha
    rw [← hip'] at hne
    rw [← hsession]
    exact h.safe.proven u k' a hk' ha hne

/-- The phases after one of them has moved. -/
theorem phase_moved {p q : Session} {ph : Phase} {u : State} (hu : u.phase = s.phase)
    (hq : q ≠ p) : (u.goTo p ph).phase q = s.phase q := by
  rw [phase_goTo, if_neg hq, hu]

theorem phase_self {p : Session} {ph : Phase} (s : State) : (s.goTo p ph).phase p = ph := by
  rw [phase_goTo, if_pos rfl]

theorem open_moved {p : Session} {ph : Phase} {u : State}
    (hconnected : ∀ q, isOpen (s.phase q) = true → q ∈ s.connected) (hu : u.phase = s.phase)
    (hconn : u.connected = s.connected) (hp : isOpen (s.phase p) = true) :
    ∀ q, isOpen ((u.goTo p ph).phase q) = true → q ∈ (u.goTo p ph).connected := by
  intro q hq
  rw [State.goTo]
  dsimp only
  rw [hconn]
  by_cases hqp : q = p
  · exact hconnected q (hqp ▸ hp)
  · rw [phase_moved hu hqp] at hq
    exact hconnected q hq

theorem inserted_moved {p q : Session} {ph : Phase} {u : State} (hu : u.phase = s.phase)
    (hp : isInserted (s.phase p) = true → isInserted ph = true)
    (hq : isInserted (s.phase q) = true) : isInserted ((u.goTo p ph).phase q) = true := by
  rw [phase_goTo, hu]
  split_ifs with hqp
  · exact hp (hqp ▸ hq)
  · exact hq

theorem Inv.resetting_unique (h : Inv request s) {p q : Session} {todo todo' : List Table}
    (hp : s.phase p = .resetting todo) (hq : s.phase q = .resetting todo')
    (hu : (request q).userHash = (request p).userHash) : q = p :=
  h.alone q p (by rw [hq]; rfl) (by rw [hp]; rfl) hu

theorem inv_login (h : Inv request s) {p : Session} (hphase : s.phase p = .connected)
    (hapart : Apart request s (.login p)) :
    Inv request (s.goTo p (.resetting loginResets)) := by
  set t := s.goTo p (.resetting loginResets) with ht
  have hself : t.phase p = .resetting loginResets := phase_self s
  have hother : ∀ q, q ≠ p → t.phase q = s.phase q := fun q hq => phase_moved rfl hq
  -- the new login has all its tables still to reset
  have hback : ∀ q todo, t.phase q = .resetting todo →
      todo = loginResets ∨ s.phase q = .resetting todo := by
    intro q todo hq
    by_cases hqp : q = p
    · subst hqp
      rw [hself] at hq
      exact .inl (Phase.resetting.inj hq).symm
    · exact .inr (hother q hqp ▸ hq)
  have huntouched : ∀ u x, Untouched request t u x → Untouched request s u x := by
    intro u x hu q todo hq hqu
    refine hu q todo ?_ hqu
    rw [hother, hq]
    rintro rfl
    rw [hphase] at hq
    cases hq
  have hinserted : ∀ q, isInserted (s.phase q) = true → isInserted (t.phase q) = true :=
    fun q => inserted_moved rfl (by rw [hphase]; nofun)
  refine ⟨open_moved h.connected rfl rfl (by rw [hphase]; rfl), ?_, ?_, ?_, ?_, ?_, ?_, ?_, ?_, ?_,
    ?_, fun x hx q hq => hinserted q (h.session x hx q hq),
    fun token hne => hinserted token (h.under token hne),
    h.safe.of_log rfl h.safe.proven⟩
  · have hfree : ∀ q, q ≠ p → isWriting (t.phase q) = true →
        (request q).userHash ≠ (request p).userHash := by
      intro q hq hwriting heq
      rw [hother q hq] at hwriting
      have hopen : isOpen (s.phase q) = true := by
        cases hph : s.phase q <;> simp_all [isWriting, isOpen]
      have := hapart q (h.connected q hopen) heq
      rw [hwriting] at this
      cases this
    intro q r hq hr heq
    by_cases hqp : q = p
    · by_cases hrp : r = p
      · rw [hqp, hrp]
      · exact absurd (hqp ▸ heq.symm) (hfree r hrp hr)
    · by_cases hrp : r = p
      · exact absurd (hrp ▸ heq) (hfree q hqp hq)
      · exact h.alone q r (hother q hqp ▸ hq) (hother r hrp ▸ hr) heq
  · intro q todo hq
    obtain rfl | hold := hback q todo hq
    · exact List.suffix_refl _
    · exact h.todo q todo hold
  · intro u k hk
    obtain ⟨hu, hk'⟩ := h.entry u k hk
    refine ⟨hu, ?_⟩
    rw [hother, hk']
    intro heq
    rw [heq, hphase] at hk'
    cases hk'
  · intro q todo hq
    by_cases hqp : q = p
    · subst hqp
      rw [hself] at hq
      cases hq
    · exact h.gone q todo (hother q hqp ▸ hq)
  · exact fun u k hk hu => h.token u k hk (huntouched u _ hu)
  · intro q todo hq hdone
    obtain rfl | hold := hback q todo hq
    · exact absurd (by decide) hdone
    · exact h.tokenSet q todo hold hdone
  · intro q todo hq hdone
    obtain rfl | hold := hback q todo hq
    · exact absurd (by decide) hdone
    · exact h.resetIp q todo hold hdone
  · intro q todo hq hdone
    obtain rfl | hold := hback q todo hq
    · exact absurd (by decide) hdone
    · exact h.resetCounter q todo hold hdone
  · exact fun u k hk hu => h.counter u k hk (huntouched u _ hu)
  · exact fun u k hk hu => h.seen u k hk (huntouched u _ hu)

section Write

variable (u v : UserHash) (token : Option Token) (x : Table)

theorem write_frame (s : State) :
    (s.write u token x).clients = s.clients ∧ (s.write u token x).log = s.log ∧
      (s.write u token x).phase = s.phase ∧ (s.write u token x).connected = s.connected := by
  cases x <;> exact ⟨rfl, rfl, rfl, rfl⟩

theorem write_nattKeepaliveSeen (s : State) : (s.write u token x).nattKeepaliveSeen v =
    if x = .keepaliveSeen ∧ v = u then none else s.nattKeepaliveSeen v := by
  cases x <;> simp [State.write, Function.update_apply]

theorem write_nattUdpIp (s : State) : (s.write u token x).nattUdpIp v =
    if x = .udpIp ∧ v = u then none else s.nattUdpIp v := by
  cases x <;> simp [State.write, Function.update_apply]

theorem write_nattProofCounter (s : State) : (s.write u token x).nattProofCounter v =
    if x = .proofCounter ∧ v = u then none else s.nattProofCounter v := by
  cases x <;> simp [State.write, Function.update_apply]

theorem write_nattToken (s : State) : (s.write u token x).nattToken v =
    if x = .token ∧ v = u then token else s.nattToken v := by
  cases x <;> simp [State.write, Function.update_apply]

end Write

theorem inv_reset (h : Inv request s) {p : Session} {x : Table} {xs : List Table}
    (hphase : s.phase p = .resetting (x :: xs)) :
    Inv request ((s.write (request p).userHash
      (if (request p).wantsNattToken then some p else none) x).goTo p (.resetting xs)) := by
  set u := (request p).userHash with hu
  set w := s.write u (if (request p).wantsNattToken then some p else none) x with hw
  obtain ⟨hclients, hlog, hphases, hconn⟩ := write_frame u
    (if (request p).wantsNattToken then some p else none) x s
  rw [← hw] at hclients hlog hphases hconn
  set t := w.goTo p (.resetting xs) with ht
  have hself : t.phase p = .resetting xs := phase_self w
  have hother : ∀ q, q ≠ p → t.phase q = s.phase q := fun q hq => phase_moved hphases hq
  have hback : ∀ q todo, t.phase q = .resetting todo → (q = p ∧ todo = xs) ∨
      (s.phase q = .resetting todo ∧ (request q).userHash ≠ u) := by
    intro q todo hq
    by_cases hqp : q = p
    · subst hqp
      rw [hself] at hq
      exact .inl ⟨rfl, (Phase.resetting.inj hq).symm⟩
    · rw [hother q hqp] at hq
      exact .inr ⟨hq, fun heq => hqp (h.resetting_unique hphase hq heq)⟩
  -- a table of the hash that is still untouched is not the one that is written
  have huntouched : ∀ v y, Untouched request t v y →
      Untouched request s v y ∧ ¬ (x = y ∧ v = u) := by
    intro v y hv
    refine ⟨fun q todo hq hqv => ?_, ?_⟩
    · by_cases hqp : q = p
      · subst hqp
        rw [hphase] at hq
        rw [← Phase.resetting.inj hq]
        exact List.mem_cons_of_mem x (hv q xs hself hqv)
      · exact hv q todo (hother q hqp ▸ hq) hqv
    · rintro ⟨rfl, rfl⟩
      have hmem := hv p xs hself rfl
      have hnodup := (h.todo p _ hphase).sublist.nodup (by decide)
      exact (List.nodup_cons.mp hnodup).1 hmem
  have hinserted : ∀ q, isInserted (s.phase q) = true → isInserted (t.phase q) = true :=
    fun q => inserted_moved hphases (by rw [hphase]; nofun)
  have hwriting : ∀ q, isWriting (t.phase q) = isWriting (s.phase q) := by
    intro q
    by_cases hqp : q = p
    · rw [hqp, hself, hphase]
      rfl
    · rw [hother q hqp]
  have htclients : t.clients = s.clients := hclients
  have htlog : t.log = s.log := hlog
  refine ⟨open_moved h.connected hphases hconn (by rw [hphase]; rfl), ?_, ?_, ?_, ?_, ?_, ?_, ?_,
    ?_, ?_, ?_, ?_, ?_, ?_⟩
  · intro q r hq hr
    rw [hwriting] at hq hr
    exact h.alone q r hq hr
  · intro q todo hq
    obtain ⟨rfl, rfl⟩ | ⟨hold, -⟩ := hback q todo hq
    · exact (List.suffix_cons x _).trans (h.todo q _ hphase)
    · exact h.todo q todo hold
  · intro v k hk
    rw [htclients] at hk
    obtain ⟨hv, hk'⟩ := h.entry v k hk
    refine ⟨hv, ?_⟩
    rw [hother, hk']
    intro heq
    rw [heq, hphase] at hk'
    cases hk'
  · intro q todo hq
    rw [htclients]
    by_cases hqp : q = p
    · subst hqp
      rw [hself] at hq
      cases hq
    · exact h.gone q todo (hother q hqp ▸ hq)
  · intro v k hk hv token hget
    rw [htclients] at hk
    obtain ⟨hv', hne⟩ := huntouched v _ hv
    rw [show t.nattToken = w.nattToken from rfl, write_nattToken, if_neg hne] at hget
    exact h.token v k hk hv' token hget
  · intro q todo hq hdone token hget
    rw [show t.nattToken = w.nattToken from rfl, write_nattToken] at hget
    obtain ⟨rfl, rfl⟩ | ⟨hold, hne⟩ := hback q todo hq
    · split_ifs at hget with hx hwants
      · exact (Option.some.inj hget).symm
      · refine h.tokenSet q _ hphase (fun hmem => ?_) token hget
        obtain heq | hmem := List.mem_cons.mp hmem
        · exact hx ⟨heq.symm, rfl⟩
        · exact hdone hmem
    · rw [if_neg fun hx => hne hx.2] at hget
      exact h.tokenSet q todo hold hdone token hget
  · intro q todo hq hdone
    rw [show t.nattUdpIp = w.nattUdpIp from rfl, write_nattUdpIp]
    split_ifs with hx
    · rfl
    · obtain ⟨rfl, rfl⟩ | ⟨hold, -⟩ := hback q todo hq
      · refine h.resetIp q _ hphase fun hmem => ?_
        obtain heq | hmem := List.mem_cons.mp hmem
        · exact hx ⟨heq.symm, rfl⟩
        · exact hdone hmem
      · exact h.resetIp q todo hold hdone
  · intro q todo hq hdone
    rw [show t.nattProofCounter = w.nattProofCounter from rfl, write_nattProofCounter]
    split_ifs with hx
    · rfl
    · obtain ⟨rfl, rfl⟩ | ⟨hold, -⟩ := hback q todo hq
      · refine h.resetCounter q _ hphase fun hmem => ?_
        obtain heq | hmem := List.mem_cons.mp hmem
        · exact hx ⟨heq.symm, rfl⟩
        · exact hdone hmem
      · exact h.resetCounter q todo hold hdone
  · intro v k hk hv
    rw [htclients] at hk
    obtain ⟨hv', hne⟩ := huntouched v _ hv
    rw [show t.nattProofCounter = w.nattProofCounter from rfl, write_nattProofCounter, if_neg hne,
      htlog]
    exact h.counter v k hk hv'
  · intro v k hk hv y hy
    rw [htclients] at hk
    rw [htlog] at hy
    obtain ⟨hv', hne⟩ := huntouched v _ hv
    rw [show t.nattKeepaliveSeen = w.nattKeepaliveSeen from rfl, write_nattKeepaliveSeen,
      if_neg hne]
    exact h.seen v k hk hv' y hy
  · rw [htlog]
    exact fun y hy q hq => hinserted q (h.session y hy q hq)
  · rw [htlog]
    exact fun token hne => hinserted token (h.under token hne)
  · refine h.safe.of_log htlog fun v k a hk ha hne => ?_
    rw [htclients] at hk
    rw [show t.nattUdpIp = w.nattUdpIp from rfl, write_nattUdpIp] at ha
    split_ifs at ha
    exact h.safe.proven v k a hk ha hne

theorem inv_remove (h : Inv request s) {p : Session} {x : Table} {xs : List Table}
    (hphase : s.phase p = .removing (x :: xs)) :
    Inv request ((s.write (request p).userHash none x).goTo p (.removing xs)) := by
  set u := (request p).userHash with hu
  set w := s.write u none x with hw
  obtain ⟨hclients, hlog, hphases, hconn⟩ := write_frame u none x s
  rw [← hw] at hclients hlog hphases hconn
  set t := w.goTo p (.removing xs) with ht
  have hnone : s.clients u = none := h.gone p _ hphase
  have hself : t.phase p = .removing xs := phase_self w
  have hother : ∀ q, q ≠ p → t.phase q = s.phase q := fun q hq => phase_moved hphases hq
  -- no login of the hash is under way
  have hback : ∀ q todo, t.phase q = .resetting todo →
      s.phase q = .resetting todo ∧ (request q).userHash ≠ u := by
    intro q todo hq
    by_cases hqp : q = p
    · subst hqp
      rw [hself] at hq
      cases hq
    · rw [hother q hqp] at hq
      exact ⟨hq, fun heq => hqp (h.alone q p (by rw [hq]; rfl) (by rw [hphase]; rfl) heq)⟩
  have huntouched : ∀ v y, Untouched request t v y → Untouched request s v y := by
    intro v y hv q todo hq hqv
    refine hv q todo ?_ hqv
    rw [hother, hq]
    rintro rfl
    rw [hphase] at hq
    cases hq
  have hinserted : ∀ q, isInserted (s.phase q) = true → isInserted (t.phase q) = true :=
    fun q => inserted_moved hphases fun _ => rfl
  have hwriting : ∀ q, isWriting (t.phase q) = isWriting (s.phase q) := by
    intro q
    by_cases hqp : q = p
    · rw [hqp, hself, hphase]
      rfl
    · rw [hother q hqp]
  have htclients : t.clients = s.clients := hclients
  have htlog : t.log = s.log := hlog
  have hne : ∀ {v k}, s.clients v = some k → v ≠ u := by
    rintro v k hk rfl
    rw [hnone] at hk
    cases hk
  refine ⟨open_moved h.connected hphases hconn (by rw [hphase]; rfl), ?_, ?_, ?_, ?_, ?_, ?_, ?_,
    ?_, ?_, ?_, ?_, ?_, ?_⟩
  · intro q r hq hr
    rw [hwriting] at hq hr
    exact h.alone q r hq hr
  · exact fun q todo hq => h.todo q todo (hback q todo hq).1
  · intro v k hk
    rw [htclients] at hk
    obtain ⟨hv, hk'⟩ := h.entry v k hk
    refine ⟨hv, ?_⟩
    rw [hother, hk']
    intro heq
    rw [heq, hphase] at hk'
    cases hk'
  · intro q todo hq
    rw [htclients]
    by_cases hqp : q = p
    · rw [hqp]
      exact hnone
    · exact h.gone q todo (hother q hqp ▸ hq)
  · intro v k hk hv token hget
    rw [htclients] at hk
    rw [show t.nattToken = w.nattToken from rfl, write_nattToken,
      if_neg fun hx => hne hk hx.2] at hget
    exact h.token v k hk (huntouched v _ hv) token hget
  · intro q todo hq hdone token hget
    obtain ⟨hold, hqu⟩ := hback q todo hq
    rw [show t.nattToken = w.nattToken from rfl, write_nattToken,
      if_neg fun hx => hqu hx.2] at hget
    exact h.tokenSet q todo hold hdone token hget
  · intro q todo hq hdone
    obtain ⟨hold, hqu⟩ := hback q todo hq
    rw [show t.nattUdpIp = w.nattUdpIp from rfl, write_nattUdpIp, if_neg fun hx => hqu hx.2]
    exact h.resetIp q todo hold hdone
  · intro q todo hq hdone
    obtain ⟨hold, hqu⟩ := hback q todo hq
    rw [show t.nattProofCounter = w.nattProofCounter from rfl, write_nattProofCounter,
      if_neg fun hx => hqu hx.2]
    exact h.resetCounter q todo hold hdone
  · intro v k hk hv
    rw [htclients] at hk
    rw [show t.nattProofCounter = w.nattProofCounter from rfl, write_nattProofCounter,
      if_neg fun hx => hne hk hx.2, htlog]
    exact h.counter v k hk (huntouched v _ hv)
  · intro v k hk hv y hy
    rw [htclients] at hk
    rw [htlog] at hy
    rw [show t.nattKeepaliveSeen = w.nattKeepaliveSeen from rfl, write_nattKeepaliveSeen,
      if_neg fun hx => hne hk hx.2]
    exact h.seen v k hk (huntouched v _ hv) y hy
  · rw [htlog]
    exact fun y hy q hq => hinserted q (h.session y hy q hq)
  · rw [htlog]
    exact fun token hne => hinserted token (h.under token hne)
  · refine h.safe.of_log htlog fun v k a hk ha hne' => ?_
    rw [htclients] at hk
    rw [show t.nattUdpIp = w.nattUdpIp from rfl, write_nattUdpIp,
      if_neg fun hx => hne hk hx.2] at ha
    exact h.safe.proven v k a hk ha hne'

theorem inv_insert (h : Inv request s) {p : Session} (hphase : s.phase p = .resetting []) :
    Inv request ({ s with
      clients := Function.update s.clients (request p).userHash
        (some ⟨p, (request p).ip, (request p).udpPort⟩)
      announced := Function.update s.announced p (request p).udpPort }.goTo p .loggedIn) := by
  set u := (request p).userHash with hu
  set t := { s with
    clients := Function.update s.clients u (some ⟨p, (request p).ip, (request p).udpPort⟩)
    announced := Function.update s.announced p (request p).udpPort }.goTo p .loggedIn with ht
  have hself : t.phase p = .loggedIn := phase_self _
  have hother : ∀ q, q ≠ p → t.phase q = s.phase q := fun q hq => phase_moved rfl hq
  have hclients : ∀ v k, t.clients v = some k →
      v = u ∧ k = ⟨p, (request p).ip, (request p).udpPort⟩ ∨ v ≠ u ∧ s.clients v = some k := by
    intro v k hk
    change Function.update s.clients u _ v = some k at hk
    rw [Function.update_apply] at hk
    split_ifs at hk with hv
    · exact .inl ⟨hv, (Option.some.inj hk).symm⟩
    · exact .inr ⟨hv, hk⟩
  have hback : ∀ q todo, t.phase q = .resetting todo →
      s.phase q = .resetting todo ∧ (request q).userHash ≠ u := by
    intro q todo hq
    by_cases hqp : q = p
    · subst hqp
      rw [hself] at hq
      cases hq
    · rw [hother q hqp] at hq
      exact ⟨hq, fun heq => hqp (h.resetting_unique hphase hq heq)⟩
  have huntouched : ∀ v y, v ≠ u → Untouched request t v y → Untouched request s v y := by
    intro v y hvu hv q todo hq hqv
    refine hv q todo ?_ hqv
    rw [hother, hq]
    rintro rfl
    exact hvu hqv.symm
  have hinserted : ∀ q, isInserted (s.phase q) = true → isInserted (t.phase q) = true :=
    fun q => inserted_moved rfl fun _ => rfl
  have hnot : isInserted (s.phase p) = false := not_inserted_of_resetting hphase
  refine ⟨open_moved h.connected rfl rfl (by rw [hphase]; rfl), ?_, ?_, ?_, ?_, ?_, ?_, ?_, ?_, ?_,
    ?_, fun x hx q hq => hinserted q (h.session x hx q hq),
    fun token hne => hinserted token (h.under token hne), ?_⟩
  · have hwriting : ∀ q, isWriting (t.phase q) = true → isWriting (s.phase q) = true := by
      intro q hq
      by_cases hqp : q = p
      · rw [hqp, hself] at hq
        cases hq
      · rwa [hother q hqp] at hq
    exact fun q r hq hr => h.alone q r (hwriting q hq) (hwriting r hr)
  · exact fun q todo hq => h.todo q todo (hback q todo hq).1
  · intro v k hk
    obtain ⟨rfl, rfl⟩ | ⟨hv, hk'⟩ := hclients v k hk
    · exact ⟨rfl, hself⟩
    · obtain ⟨hv', hk''⟩ := h.entry v k hk'
      refine ⟨hv', ?_⟩
      rw [hother, hk'']
      intro heq
      rw [heq, hphase] at hk''
      cases hk''
  · intro q todo hq
    by_cases hqp : q = p
    · subst hqp
      rw [hself] at hq
      cases hq
    · rw [hother q hqp] at hq
      have hqu : (request q).userHash ≠ u := fun heq =>
        hqp (h.alone q p (by rw [hq]; rfl) (by rw [hphase]; rfl) heq)
      change Function.update s.clients u _ (request q).userHash = none
      rw [Function.update_of_ne hqu]
      exact h.gone q todo hq
  · intro v k hk hv token hget
    obtain ⟨rfl, rfl⟩ | ⟨hvu, hk'⟩ := hclients v k hk
    · exact h.tokenSet p [] hphase (List.not_mem_nil) token hget
    · exact h.token v k hk' (huntouched v _ hvu hv) token hget
  · exact fun q todo hq => h.tokenSet q todo (hback q todo hq).1
  · exact fun q todo hq => h.resetIp q todo (hback q todo hq).1
  · exact fun q todo hq => h.resetCounter q todo (hback q todo hq).1
  · intro v k hk hv
    obtain ⟨rfl, rfl⟩ | ⟨hvu, hk'⟩ := hclients v k hk
    · -- nothing has been accepted under the new token
      have hnil : acceptedUnder p s.log = [] := by
        by_contra hne
        rw [h.under p hne] at hnot
        cases hnot
      change s.nattProofCounter _ = (acceptedUnder p s.log).getLast?
      rw [h.resetCounter p [] hphase List.not_mem_nil, hnil]
      rfl
    · exact h.counter v k hk' (huntouched v _ hvu hv)
  · intro v k hk hv y hy hsession
    obtain ⟨rfl, rfl⟩ | ⟨hvu, hk'⟩ := hclients v k hk
    · rw [h.session y hy p hsession] at hnot
      cases hnot
    · exact h.seen v k hk' (huntouched v _ hvu hv) y hy hsession
  · refine h.safe.of_log rfl fun v k a hk ha hne => ?_
    obtain ⟨rfl, rfl⟩ | ⟨hvu, hk'⟩ := hclients v k hk
    · have hnone := h.resetIp p [] hphase List.not_mem_nil
      rw [show t.nattUdpIp = s.nattUdpIp from rfl, hnone] at ha
      cases ha
    · exact h.safe.proven v k a hk' ha hne

theorem inv_finish (h : Inv request s) {p : Session} (hphase : s.phase p = .loggedIn)
    (hapart : Apart request s (.finish p)) :
    Inv request ({ s with
      clients := Function.update s.clients (request p).userHash none }.goTo p
        (.removing endRemovals)) := by
  set u := (request p).userHash with hu
  set t := { s with clients := Function.update s.clients u none }.goTo p
    (.removing endRemovals) with ht
  have hself : t.phase p = .removing endRemovals := phase_self _
  have hother : ∀ q, q ≠ p → t.phase q = s.phase q := fun q hq => phase_moved rfl hq
  have hclients : ∀ v k, t.clients v = some k → v ≠ u ∧ s.clients v = some k := by
    intro v k hk
    change Function.update s.clients u _ v = some k at hk
    rw [Function.update_apply] at hk
    split_ifs at hk with hv
    exact ⟨hv, hk⟩
  have hback : ∀ q todo, t.phase q = .resetting todo → s.phase q = .resetting todo := by
    intro q todo hq
    by_cases hqp : q = p
    · subst hqp
      rw [hself] at hq
      cases hq
    · exact hother q hqp ▸ hq
  have huntouched : ∀ v y, Untouched request t v y → Untouched request s v y := by
    intro v y hv q todo hq hqv
    refine hv q todo ?_ hqv
    rw [hother, hq]
    rintro rfl
    rw [hphase] at hq
    cases hq
  have hinserted : ∀ q, isInserted (s.phase q) = true → isInserted (t.phase q) = true :=
    fun q => inserted_moved rfl fun _ => rfl
  have hfree : ∀ q, q ≠ p → isWriting (t.phase q) = true → (request q).userHash ≠ u := by
    intro q hq hwriting heq
    rw [hother q hq] at hwriting
    have hopen : isOpen (s.phase q) = true := by
      cases hph : s.phase q <;> simp_all [isWriting, isOpen]
    have := hapart q (h.connected q hopen) heq
    rw [hwriting] at this
    cases this
  refine ⟨open_moved h.connected rfl rfl (by rw [hphase]; rfl), ?_,
    fun q todo hq => h.todo q todo (hback q todo hq), ?_, ?_, ?_,
    fun q todo hq => h.tokenSet q todo (hback q todo hq),
    fun q todo hq => h.resetIp q todo (hback q todo hq),
    fun q todo hq => h.resetCounter q todo (hback q todo hq), ?_, ?_,
    fun x hx q hq => hinserted q (h.session x hx q hq),
    fun token hne => hinserted token (h.under token hne), ?_⟩
  · intro q r hq hr heq
    by_cases hqp : q = p
    · by_cases hrp : r = p
      · rw [hqp, hrp]
      · exact absurd (by rw [← heq, hqp]) (hfree r hrp hr)
    · by_cases hrp : r = p
      · exact absurd (by rw [heq, hrp]) (hfree q hqp hq)
      · exact h.alone q r (hother q hqp ▸ hq) (hother r hrp ▸ hr) heq
  · intro v k hk
    obtain ⟨hvu, hk'⟩ := hclients v k hk
    obtain ⟨hv, hk''⟩ := h.entry v k hk'
    refine ⟨hv, ?_⟩
    rw [hother, hk'']
    rintro rfl
    exact hvu hv.symm
  · intro q todo hq
    change Function.update s.clients u none (request q).userHash = none
    rw [Function.update_apply]
    split_ifs with hqu
    · rfl
    · exact h.gone q todo (hother q (fun hqp => hqu (hqp ▸ rfl)) ▸ hq)
  · exact fun v k hk hv => h.token v k (hclients v k hk).2 (huntouched v _ hv)
  · exact fun v k hk hv => h.counter v k (hclients v k hk).2 (huntouched v _ hv)
  · exact fun v k hk hv => h.seen v k (hclients v k hk).2 (huntouched v _ hv)
  · exact h.safe.of_log rfl fun v k a hk => h.safe.proven v k a (hclients v k hk).2

/-! ### A keepalive -/

theorem isOk_eq {v : Option Verdict} : isOk v = true ↔ ∃ n, v = some (.ok n) := by
  cases v with
  | none => simp [isOk]
  | some v => cases v <;> simp [isOk]

theorem check_ok {u : UserHash} {proof : Proof} {token : Option Token} {last n : UInt32}
    (h : check u proof token last = .ok n) :
    n = proof.counter ∧ last < n ∧ ∃ k, token = some k ∧ proof.mac = .hmac k u proof.counter := by
  cases token with
  | none => cases h
  | some k =>
    rw [check] at h
    split_ifs at h with hmac hle
    obtain rfl := Verdict.ok.inj h
    exact ⟨rfl, UInt32.not_le.mp hle, k, rfl, (not_not.mp hmac).symm⟩

theorem check_replay {u : UserHash} {proof : Proof} {token : Option Token} {last : UInt32}
    (h : check u proof token last = .replay) :
    proof.counter ≤ last ∧ ∃ k, token = some k ∧ proof.mac = .hmac k u proof.counter := by
  cases token with
  | none => cases h
  | some k =>
    rw [check] at h
    split_ifs at h with hmac hle
    exact ⟨hle, k, rfl, (not_not.mp hmac).symm⟩

/-- What is believed is believable, and a plain datagram only where none was obfuscated. -/
theorem judge_believed {d : Keepalive} {ext : Bool} {k : ClientHandle}
    (h : (judge s d ext k).2 = true) :
    (isOk (judge s d ext k).1 = true ∨ (judge s d ext k).1 = none ∧ canon k.ip = canon d.peer.1) ∧
      (d.isObfuscated = false → isOk (judge s d ext k).1 = false → ext = true →
        s.nattKeepaliveSeen d.userHash ≠ some true) := by
  simp only [judge, Bool.and_eq_true, Bool.not_eq_true', Bool.and_eq_false_iff, Bool.or_eq_true,
    decide_eq_true_iff, Bool.not_eq_false'] at h ⊢
  obtain ⟨⟨hgood, hfrom⟩, hplain⟩ := h
  constructor
  · obtain hok | hok := Bool.eq_false_or_eq_true
      (isOk (d.proof.map fun proof => check d.userHash proof (s.nattToken d.userHash)
        ((s.nattProofCounter d.userHash).getD 0)))
    · exact .inl hok
    · rw [hok] at hfrom hgood
      right
      refine ⟨?_, hfrom.resolve_right Bool.false_ne_true⟩
      simpa using hgood
  · intro hobf hok hext hseen
    rw [hobf, hok, hext, hseen] at hplain
    simp at hplain

theorem judge_fst {d : Keepalive} {ext : Bool} {k : ClientHandle} :
    (judge s d ext k).1 = d.proof.map fun proof =>
      check d.userHash proof (s.nattToken d.userHash) ((s.nattProofCounter d.userHash).getD 0) :=
  rfl

theorem inv_ignored (h : Inv request s) {x : Record} {o : Ipv4 → Option (UInt16 × Nat)}
    (hx : x.isBelieved = false)
    (hsession : ∀ p, x.session = some p → isInserted (s.phase p) = true)
    (hreplay : ∀ proof, x.verdict = some .replay → x.datagram.proof = some proof →
      1 ≤ proof.counter → ∃ token, x.token = some token ∧ x.session = some token ∧
        acceptedUnder token s.log ≠ []) :
    Inv request { s with log := s.log ++ [x], observedUdpPorts := o } := by
  have hcounter : ∀ token, counterUnder token x = none := by
    intro token
    rw [counterUnder]
    split
    · simp [hx]
    · rfl
  have haccepted : ∀ token, acceptedUnder token (s.log ++ [x]) = acceptedUnder token s.log := by
    intro token
    rw [acceptedUnder_concat, hcounter]
    exact List.append_nil _
  refine ⟨h.connected, h.alone, h.todo, h.entry, h.gone, h.token, h.tokenSet, h.resetIp,
    h.resetCounter, ?_, ?_, ?_, ?_, ?_, ?_, ?_, ?_⟩
  · intro u k hk hu
    dsimp only
    rw [haccepted]
    exact h.counter u k hk hu
  · intro u k hk hu y hy hsession' hbelieved
    obtain hy | hy := List.mem_append.mp hy
    · exact h.seen u k hk hu y hy hsession' hbelieved
    · rw [List.mem_singleton.mp hy, hx] at hbelieved
      cases hbelieved
  · intro y hy
    obtain hy | hy := List.mem_append.mp hy
    · exact h.session y hy
    · exact List.mem_singleton.mp hy ▸ hsession
  · intro token hne
    dsimp only at hne
    rw [haccepted] at hne
    exact h.under token hne
  · intro token
    dsimp only
    rw [haccepted]
    exact h.safe.increasing token
  · intro u k a hk ha hne
    obtain ⟨y, hy, hfacts⟩ := h.safe.proven u k a hk ha hne
    exact ⟨y, List.mem_append_left _ hy, hfacts⟩
  · intro before y after proof hsplit hverdict hproof hpos
    obtain ⟨-, rfl, rfl⟩ | ⟨after', -, hlog⟩ := concat_eq_split hsplit
    · exact hreplay proof hverdict hproof hpos
    · exact h.safe.first before y after' proof hlog hverdict hproof hpos
  · intro before y after p hsplit hsession' hbelieved
    obtain ⟨-, -, hy⟩ | ⟨after', -, hlog⟩ := concat_eq_split hsplit
    · rw [← hy, hx] at hbelieved
      cases hbelieved
    · exact h.safe.plain before y after' p hlog hsession' hbelieved

/-- No login that a believable keepalive could come between is under way. -/
theorem Inv.not_resetting (h : Inv request s) {d : Keepalive} {ext : Bool}
    (hapart : Apart request s (.keepalive d ext)) (hd : isBelievable s d = true) {q : Session}
    {todo : List Table} (hq : s.phase q = .resetting todo) :
    (request q).userHash ≠ d.userHash := by
  intro hqu
  have := hapart hd q (h.connected q (by rw [hq]; rfl)) hqu
  rw [hq] at this
  cases this

theorem Inv.untouched (h : Inv request s) {d : Keepalive} {ext : Bool}
    (hapart : Apart request s (.keepalive d ext)) (hd : isBelievable s d = true) (x : Table) :
    Untouched request s d.userHash x :=
  fun _ _ hq hqu => absurd hqu (h.not_resetting hapart hd hq)

/-- With a mac under the token of the table the token is the session's. -/
theorem Inv.proof_session (h : Inv request s) {d : Keepalive} {ext : Bool}
    (hapart : Apart request s (.keepalive d ext)) {k : ClientHandle}
    (hk : s.clients d.userHash = some k) {proof : Proof} {token : Token}
    (hproof : d.proof = some proof) (htoken : s.nattToken d.userHash = some token)
    (hmac : proof.mac = .hmac token d.userHash proof.counter) :
    token = k.session ∧ s.nattProofCounter d.userHash = (acceptedUnder token s.log).getLast? := by
  have hd : isBelievable s d = true := by
    simp [isBelievable, hk, htoken, isProven, hproof, hmac]
  obtain rfl := h.token _ k hk (h.untouched hapart hd .token) token htoken
  exact ⟨rfl, h.counter _ k hk (h.untouched hapart hd .proofCounter)⟩

theorem le_getLast {l : List UInt32} (h : l.Pairwise (· < ·)) {m : UInt32}
    (hm : l.getLast? = some m) : ∀ c ∈ l, c ≤ m := by
  obtain ⟨init, rfl⟩ := List.getLast?_eq_some_iff.mp hm
  intro c hc
  obtain hc | hc := List.mem_append.mp hc
  · exact UInt32.le_of_lt ((List.pairwise_append.mp h).2.2 c hc m (List.mem_singleton_self m))
  · exact List.mem_singleton.mp hc ▸ UInt32.le_refl _

theorem isBelievable_of_judge {d : Keepalive} {ext : Bool} {k : ClientHandle}
    (hk : s.clients d.userHash = some k) (h : (judge s d ext k).2 = true) :
    isBelievable s d = true := by
  obtain ⟨hok | ⟨-, hip⟩, -⟩ := judge_believed h
  · obtain ⟨n, hn⟩ := isOk_eq.mp hok
    rw [judge_fst] at hn
    obtain ⟨proof, hproof, hcheck⟩ := Option.map_eq_some_iff.mp hn
    obtain ⟨-, -, token, htoken, hmac⟩ := check_ok hcheck
    simp [isBelievable, hk, htoken, isProven, hproof, hmac]
  · simp [isBelievable, hk, hip]

/-- A good proof is one under the session's own token, with a higher counter than before. -/
theorem Inv.good_proof (h : Inv request s) {d : Keepalive} {ext : Bool}
    (hapart : Apart request s (.keepalive d ext)) {k : ClientHandle}
    (hk : s.clients d.userHash = some k) {n : UInt32}
    (hn : (judge s d ext k).1 = some (.ok n)) :
    s.nattToken d.userHash = some k.session ∧ isProven d k.session = true ∧
      ∀ c ∈ acceptedUnder k.session s.log, c < n := by
  rw [judge_fst] at hn
  obtain ⟨proof, hproof, hcheck⟩ := Option.map_eq_some_iff.mp hn
  obtain ⟨rfl, hlt, token, htoken, hmac⟩ := check_ok hcheck
  obtain ⟨rfl, hcounter⟩ := h.proof_session hapart hk hproof htoken hmac
  refine ⟨htoken, by simp [isProven, hproof, hmac], fun c hc => ?_⟩
  cases hlast : (acceptedUnder k.session s.log).getLast? with
  | none =>
    rw [List.getLast?_eq_none_iff.mp hlast] at hc
    cases hc
  | some m =>
    rw [hcounter, hlast] at hlt
    exact UInt32.lt_of_le_of_lt (le_getLast (h.safe.increasing _) hlast c hc) hlt

theorem inv_believed (h : Inv request s) {d : Keepalive} {ext : Bool} {k : ClientHandle}
    (hapart : Apart request s (.keepalive d ext)) (hk : s.clients d.userHash = some k)
    (hbelieved : (judge s d ext k).2 = true) {o : Ipv4 → Option (UInt16 × Nat)} :
    Inv request { believe s d k (judge s d ext k).1 with
      log := s.log ++ [⟨d, ext, some k.session, s.nattToken d.userHash, (judge s d ext k).1, true⟩]
      observedUdpPorts := o } := by
  have hd := isBelievable_of_judge hk hbelieved
  have hfree := fun q todo => @Inv.not_resetting request s h d ext hapart hd q todo
  obtain ⟨hhow, hplain⟩ := judge_believed hbelieved
  obtain ⟨hku, hkphase⟩ := h.entry _ k hk
  have hgood := fun n => @Inv.good_proof request s h d ext hapart k hk n
  generalize hv : (judge s d ext k).1 = verdict at hhow hplain hgood ⊢
  set r : Record := ⟨d, ext, some k.session, s.nattToken d.userHash, verdict, true⟩ with hr
  set t : State := { believe s d k verdict with log := s.log ++ [r], observedUdpPorts := o } with ht
  -- the handles, and what is accepted under the token of each
  have hclients : ∀ v k', t.clients v = some k' →
      v = d.userHash ∧ k'.session = k.session ∧ k'.ip = k.ip ∨
        v ≠ d.userHash ∧ s.clients v = some k' ∧ k'.session ≠ k.session := by
    intro v k' hk'
    change Function.update s.clients d.userHash _ v = some k' at hk'
    by_cases hvu : v = d.userHash
    · subst hvu
      rw [Function.update_self] at hk'
      rw [← Option.some.inj hk']
      exact .inl ⟨rfl, rfl, rfl⟩
    · rw [Function.update_of_ne hvu] at hk'
      refine .inr ⟨hvu, hk', fun heq => hvu ?_⟩
      rw [← (h.entry v k' hk').1, heq, hku]
  have haccepted : ∀ token, acceptedUnder token t.log = acceptedUnder token s.log ++
      (counterUnder token r).toList := fun token => acceptedUnder_concat token s.log r
  have hcounted : ∀ token, (∃ n, verdict = some (.ok n) ∧ token = k.session ∧
      counterUnder token r = some n) ∨
      ((isOk verdict = false ∨ token ≠ k.session) ∧ counterUnder token r = none) := by
    intro token
    cases hok : isOk verdict with
    | false =>
      right
      refine ⟨.inl rfl, ?_⟩
      rw [counterUnder]
      split
      · rename_i n hn
        rw [show verdict = some (.ok n) from hn] at hok
        cases hok
      · rfl
    | true =>
      obtain ⟨n, rfl⟩ := isOk_eq.mp hok
      have htoken := (hgood n rfl).1
      by_cases heq : token = k.session
      · left
        refine ⟨n, rfl, heq, ?_⟩
        simp [counterUnder, hr, htoken, heq]
      · right
        refine ⟨.inr heq, ?_⟩
        simp [counterUnder, hr, htoken, Ne.symm heq]
  refine ⟨h.connected, h.alone, h.todo, ?_, ?_, ?_, h.tokenSet, ?_, ?_, ?_, ?_, ?_, ?_, ?_, ?_, ?_,
    ?_⟩
  · intro v k' hk'
    obtain ⟨rfl, hsession, -⟩ | ⟨-, hold, -⟩ := hclients v k' hk'
    · rw [hsession]
      exact ⟨hku, hkphase⟩
    · exact h.entry v k' hold
  · intro p todo hp
    have hnone := h.gone p todo hp
    change Function.update s.clients d.userHash _ (request p).userHash = none
    rw [Function.update_of_ne, hnone]
    intro heq
    rw [heq, hk] at hnone
    cases hnone
  · intro v k' hk' hu token hget
    obtain ⟨rfl, hsession, -⟩ | ⟨-, hold, -⟩ := hclients v k' hk'
    · rw [hsession]
      exact h.token _ k hk hu token hget
    · exact h.token v k' hold hu token hget
  · intro p todo hp hdone
    change Function.update s.nattUdpIp d.userHash _ (request p).userHash = none
    rw [Function.update_of_ne (hfree p todo hp)]
    exact h.resetIp p todo hp hdone
  · intro p todo hp hdone
    have hold := h.resetCounter p todo hp hdone
    change (match verdict with
      | some (.ok n) => Function.update s.nattProofCounter d.userHash (some n)
      | _ => s.nattProofCounter) (request p).userHash = none
    split
    · rw [Function.update_of_ne (hfree p todo hp)]
      exact hold
    · exact hold
  · intro v k' hk' hu
    have hcounters : ∀ v, t.nattProofCounter v = (match verdict with
        | some (.ok n) => Function.update s.nattProofCounter d.userHash (some n)
        | _ => s.nattProofCounter) v := fun v => rfl
    rw [hcounters, haccepted]
    obtain ⟨rfl, hsame, -⟩ | ⟨hvu, hold, hne⟩ := hclients v k' hk'
    · rw [hsame]
      obtain ⟨n, rfl, -, hcount⟩ | ⟨hok, hnone⟩ := hcounted k.session
      · rw [hcount]
        simp
      · rw [hnone, Option.toList_none, List.append_nil, ← h.counter _ k hk hu]
        have hok := hok.resolve_right (not_not.mpr rfl)
        split
        · cases hok
        · rfl
    · have hcount := ((hcounted k'.session).resolve_left fun ⟨_, _, heq, _⟩ => hne heq).2
      rw [hcount, Option.toList_none, List.append_nil, ← h.counter v k' hold hu]
      split
      · rw [Function.update_of_ne hvu]
      · rfl
  · intro v k' hk' hu y hy hsession hy' hobf
    change Function.update s.nattKeepaliveSeen d.userHash _ v = some true
    obtain ⟨rfl, hsame, -⟩ | ⟨hvu, hold, hne⟩ := hclients v k' hk'
    · rw [Function.update_self, Option.some.injEq, Bool.or_eq_true]
      obtain hy | hy := List.mem_append.mp hy
      · left
        rw [h.seen _ k hk hu y hy (hsame ▸ hsession) hy' hobf]
        rfl
      · right
        rw [List.mem_singleton.mp hy] at hobf
        exact hobf
    · rw [Function.update_of_ne hvu]
      obtain hy | hy := List.mem_append.mp hy
      · exact h.seen v k' hold hu y hy hsession hy' hobf
      · rw [List.mem_singleton.mp hy] at hsession
        exact absurd (Option.some.inj hsession).symm hne
  · intro y hy p hp
    obtain hy | hy := List.mem_append.mp hy
    · exact h.session y hy p hp
    · rw [List.mem_singleton.mp hy] at hp
      obtain rfl := Option.some.inj hp
      change isInserted (s.phase k.session) = true
      rw [hkphase]
      rfl
  · intro token hne
    rw [haccepted] at hne
    obtain ⟨n, -, rfl, -⟩ | ⟨-, hnone⟩ := hcounted token
    · change isInserted (s.phase k.session) = true
      rw [hkphase]
      rfl
    · rw [hnone, Option.toList_none, List.append_nil] at hne
      exact h.under token hne
  · intro token
    rw [haccepted]
    obtain ⟨n, hn, rfl, hcount⟩ | ⟨-, hnone⟩ := hcounted token
    · rw [hcount, Option.toList_some, List.pairwise_append]
      refine ⟨h.safe.increasing _, List.pairwise_singleton _ _, fun c hc m hm => ?_⟩
      rw [List.mem_singleton.mp hm]
      exact (hgood n hn).2.2 c hc
    · rw [hnone, Option.toList_none, List.append_nil]
      exact h.safe.increasing token
  · intro v k' a hk' ha hne
    obtain ⟨rfl, hsame, hip⟩ | ⟨hvu, hold, -⟩ := hclients v k' hk'
    · change Function.update s.nattUdpIp d.userHash _ d.userHash = some a at ha
      rw [Function.update_self] at ha
      split_ifs at ha with hsameIp
      obtain rfl := Option.some.inj ha
      obtain ⟨n, hn⟩ := isOk_eq.mp (hhow.resolve_right fun hfrom => hsameIp hfrom.2)
      refine ⟨r, List.mem_append_right _ (List.mem_singleton_self r), rfl, rfl, ?_⟩
      rw [hsame]
      exact (hgood n hn).2.1
    · change Function.update s.nattUdpIp d.userHash _ v = some a at ha
      rw [Function.update_of_ne hvu] at ha
      obtain ⟨y, hy, hfacts⟩ := h.safe.proven v k' a hold ha hne
      exact ⟨y, List.mem_append_left _ hy, hfacts⟩
  · intro before y after proof hsplit hverdict hproof hpos
    obtain ⟨-, -, hy⟩ | ⟨after', -, hlog⟩ := concat_eq_split hsplit
    · -- a replay is not believed
      rw [← hy] at hverdict
      rw [show verdict = some .replay from hverdict] at hhow
      obtain hok | ⟨hnone, -⟩ := hhow
      · cases hok
      · cases hnone
    · exact h.safe.first before y after' proof hlog hverdict hproof hpos
  · intro before y after p hsplit hsession hy' hobf hok hext z hz hzsession hz'
    obtain ⟨-, hbefore, hy⟩ | ⟨after', -, hlog⟩ := concat_eq_split hsplit
    · rw [← hy] at hsession hobf hok hext
      rw [← hbefore] at hz
      obtain rfl := Option.some.inj hsession
      rw [← Bool.not_eq_true]
      exact fun hzobf => hplain hobf hok hext
        (h.seen _ k hk (h.untouched hapart hd _) z hz hzsession hz' hzobf)
    · exact h.safe.plain before y after' p hlog hsession hy' hobf hok hext z hz hzsession hz'

theorem inv_keepalive (h : Inv request s) {d : Keepalive} {ext : Bool}
    (hapart : Apart request s (.keepalive d ext)) : Inv request (handleKeepalive s d ext) := by
  rw [handleKeepalive]
  cases hk : s.clients d.userHash with
  | none =>
    obtain ⟨o, ho⟩ := observe_eq
      { s with log := s.log ++ [⟨d, ext, none, s.nattToken d.userHash, none, false⟩] } d.peer
    dsimp only
    rw [ho]
    exact inv_ignored h rfl nofun nofun
  | some k =>
    dsimp only
    cases hbelieved : (judge s d ext k).2 with
    | false =>
      obtain ⟨o, ho⟩ := observe_eq { s with log := s.log ++
        [⟨d, ext, some k.session, s.nattToken d.userHash, (judge s d ext k).1, false⟩] } d.peer
      rw [if_neg Bool.false_ne_true, ho]
      refine inv_ignored h rfl (fun p hp => ?_) fun proof hverdict hproof hpos => ?_
      · obtain rfl := Option.some.inj hp
        rw [(h.entry _ k hk).2]
        rfl
      · dsimp only at hverdict hproof
        rw [judge_fst, hproof, Option.map_some, Option.some.injEq] at hverdict
        obtain ⟨hle, token, htoken, hmac⟩ := check_replay hverdict
        obtain ⟨rfl, hcounter⟩ := h.proof_session hapart hk hproof htoken hmac
        refine ⟨k.session, htoken, rfl, fun hnil => ?_⟩
        rw [hcounter, hnil] at hle
        exact absurd (UInt32.le_trans hpos hle) (by decide)
    | true =>
      obtain ⟨o, ho⟩ := observe_eq { believe s d k (judge s d ext k).1 with
        log := s.log ++ [⟨d, ext, some k.session, s.nattToken d.userHash, (judge s d ext k).1,
          true⟩] } d.peer
      rw [if_pos rfl]
      change Inv request (State.observe { believe s d k (judge s d ext k).1 with
        log := s.log ++ [⟨d, ext, some k.session, s.nattToken d.userHash, (judge s d ext k).1,
          true⟩] } d.peer)
      rw [ho]
      exact inv_believed h hapart hk hbelieved

/-! ### Runs -/

theorem inv_step {e : Event} (h : Inv request s) (hapart : Apart request s e)
    (ht : step request s e = some t) : Inv request t := by
  cases moved_of_step h.connected ht with
  | quiet e t hwho hseen hip hcounter htoken hlog hopen hwriting hinserted hheld hresetting =>
    exact inv_quiet h hwho hseen hip hcounter htoken hlog hopen hwriting hinserted hheld hresetting
  | login p hphase => exact inv_login h hphase hapart
  | reset p x xs hphase => exact inv_reset h hphase
  | insert p hphase => exact inv_insert h hphase
  | finish p hphase howner => exact inv_finish h hphase hapart
  | remove p x xs hphase => exact inv_remove h hphase
  | keepalive d ext => exact inv_keepalive h hapart

theorem inv_init (request : Session → LoginRequest) (now : Nat) : Inv request (init now) := by
  have hnil : ∀ {before after : List Record} {x : Record}, (init now).log ≠ before ++ x :: after := by
    simp [init]
  exact ⟨nofun, nofun, nofun, nofun, nofun, nofun, nofun, nofun, nofun, nofun, nofun, nofun,
    fun token hne => absurd rfl hne, fun _ => List.Pairwise.nil, nofun,
    fun _ _ _ _ h => absurd h hnil, fun _ _ _ _ h => absurd h hnil⟩

/-- A keepalive that is not believed changes no endpoint. -/
theorem handleKeepalive_ignored {d : Keepalive} {ext : Bool}
    (h : ∀ k, s.clients d.userHash = some k → (judge s d ext k).2 = false) :
    (handleKeepalive s d ext).clients = s.clients ∧
      (handleKeepalive s d ext).nattUdpIp = s.nattUdpIp ∧
      (handleKeepalive s d ext).nattUdpPorts = s.nattUdpPorts := by
  rw [handleKeepalive]
  cases hk : s.clients d.userHash with
  | none =>
    obtain ⟨o, ho⟩ := observe_eq
      { s with log := s.log ++ [⟨d, ext, none, s.nattToken d.userHash, none, false⟩] } d.peer
    dsimp only
    rw [ho]
    exact ⟨rfl, rfl, rfl⟩
  | some k =>
    dsimp only
    rw [h k hk, if_neg Bool.false_ne_true]
    obtain ⟨o, ho⟩ := observe_eq { s with log := s.log ++
      [⟨d, ext, some k.session, s.nattToken d.userHash, (judge s d ext k).1, false⟩] } d.peer
    rw [ho]
    exact ⟨rfl, rfl, rfl⟩

/-- The proofs are safe along every run whose logins and session ends come one after the other for
each hash, with no believable keepalive between the writes of a login. -/
theorem safe_along (request : Session → LoginRequest) (now : Nat) (es : List Event)
    (hapart : Along (step request) (Apart request) (init now) es)
    (hrun : exec (step request) (init now) es = some s) :
    Safe s ∧ ∀ d ext, (∀ k, s.clients d.userHash = some k → (judge s d ext k).2 = false) →
      (handleKeepalive s d ext).clients = s.clients ∧
        (handleKeepalive s d ext).nattUdpIp = s.nattUdpIp ∧
        (handleKeepalive s d ext).nattUdpPorts = s.nattUdpPorts := by
  have h := exec_invariant_along (fun _ _ _ hi hc ht => inv_step hi hc ht) (inv_init request now)
    hapart hrun
  exact ⟨h.safe, fun _ _ => handleKeepalive_ignored⟩

instance (request : Session → LoginRequest) : (s : State) → (e : Event) →
    Decidable (Apart request s e)
  | s, .login p | s, .finish p =>
    inferInstanceAs (Decidable (∀ q ∈ s.connected, (request q).userHash = (request p).userHash →
      isWriting (s.phase q) = false))
  | s, .keepalive d _ =>
    inferInstanceAs (Decidable (isBelievable s d = true → ∀ q ∈ s.connected,
      (request q).userHash = d.userHash → isResetting (s.phase q) = false))
  | _, .tick _ | _, .connect _ | _, .reset _ | _, .insert _ | _, .tell _ | _, .announce _ _
  | _, .remove _ | _, .close _ | _, .query _ | _, .lookUp _ _ | _, .readIp _ | _, .readPort _ =>
    .isTrue trivial

def sampleHash : UserHash := Vector.replicate 16 7

/-- The address `7.0.0.n`. -/
def sampleIp (n : Nat) : IpAddr := .v4 (UInt32.ofNat (7 + n * 2 ^ 24))

/-- Every login is one of the same user, from an address of its own. -/
def sampleRequest (p : Session) : LoginRequest :=
  ⟨sampleHash, sampleIp p, sampleIp p, 4672, true, rfl⟩

/-- The proof of a counter under a token, from an address. -/
def sampleKeepalive (token : Token) (counter : UInt32) (n : Nat) : Keepalive :=
  ⟨sampleHash, some ⟨counter, .hmac token sampleHash counter⟩, false, (sampleIp n, 4000)⟩

/-- A whole login that nothing comes between. -/
def sampleLogin (p : Session) : List Event :=
  [.connect p, .login p, .reset p, .reset p, .reset p, .reset p, .insert p, .tell p]

/-- A proof is accepted from elsewhere, and not a second time; then the user logs in again. -/
theorem safe_along_relogin :
    let es := sampleLogin 0 ++ [.keepalive (sampleKeepalive 0 5 9) true,
      .keepalive (sampleKeepalive 0 5 8) true] ++ sampleLogin 1 ++
      [.keepalive (sampleKeepalive 1 1 9) true]
    ∃ s, exec (step sampleRequest) (init 0) es = some s ∧ acceptedUnder 0 s.log = [5] ∧
      acceptedUnder 1 s.log = [1] ∧ Safe s := by
  have hlog : (exec (step sampleRequest) (init 0) (sampleLogin 0 ++
      [.keepalive (sampleKeepalive 0 5 9) true, .keepalive (sampleKeepalive 0 5 8) true] ++
      sampleLogin 1 ++ [.keepalive (sampleKeepalive 1 1 9) true])).map
        (fun s => (acceptedUnder 0 s.log, acceptedUnder 1 s.log)) = some ([5], [1]) := by
    decide
  obtain ⟨s, hrun, hlog⟩ := Option.map_eq_some_iff.mp hlog
  obtain ⟨hzero, hone⟩ := Prod.mk.inj hlog
  exact ⟨s, hrun, hzero, hone, (safe_along sampleRequest 0 _ (by decide) hrun).1⟩

/-- While the next login of the user has removed the counter and not yet replaced the token, the
proof is accepted again, from another address: that address is the new session's too, and the new
session's first proof is a replay. While it has removed the mark of the obfuscated keepalive, a
plain one without a proof is believed. -/
theorem not_safe_reset :
    (∃ s, exec (step sampleRequest) (init 0) (sampleLogin 0 ++
        [.keepalive (sampleKeepalive 0 5 0) true] ++ (sampleLogin 1).take 5 ++
        [.keepalive (sampleKeepalive 0 5 8) true] ++ (sampleLogin 1).drop 5 ++
        [.keepalive (sampleKeepalive 1 1 1) true]) = some s ∧
      acceptedUnder 0 s.log = [5, 5] ∧ s.nattUdpIp sampleHash = some (sampleIp 8) ∧
      (s.clients sampleHash).map ClientHandle.session = some 1 ∧
      (s.log.getLast?.bind Record.verdict = some .replay ∧ acceptedUnder 1 s.log = []) ∧
      ¬ Safe s) ∧
    ∃ s, exec (step sampleRequest) (init 0) (sampleLogin 0 ++
        [.keepalive ⟨sampleHash, none, true, (sampleIp 0, 4000)⟩ true] ++ (sampleLogin 1).take 3 ++
        [.keepalive ⟨sampleHash, none, false, (sampleIp 0, 4001)⟩ true]) = some s ∧
      s.nattUdpPorts sampleHash = some (4001, 0) ∧ ¬ Safe s := by
  constructor
  · have hfacts : (exec (step sampleRequest) (init 0) (sampleLogin 0 ++
        [.keepalive (sampleKeepalive 0 5 0) true] ++ (sampleLogin 1).take 5 ++
        [.keepalive (sampleKeepalive 0 5 8) true] ++ (sampleLogin 1).drop 5 ++
        [.keepalive (sampleKeepalive 1 1 1) true])).map (fun s =>
          ((acceptedUnder 0 s.log, s.nattUdpIp sampleHash),
            ((s.clients sampleHash).map ClientHandle.session,
              s.log.getLast?.bind Record.verdict, acceptedUnder 1 s.log))) =
        some (([5, 5], some (sampleIp 8)), (some 1, some .replay, [])) := by
      decide
    obtain ⟨s, hrun, hfacts⟩ := Option.map_eq_some_iff.mp hfacts
    simp only [Prod.mk.injEq] at hfacts
    obtain ⟨⟨htwice, hip⟩, hsession, hreplay, hnone⟩ := hfacts
    refine ⟨s, hrun, htwice, hip, hsession, ⟨hreplay, hnone⟩, fun h => ?_⟩
    have := h.increasing 0
    rw [htwice] at this
    revert this
    decide
  · have hfacts : (exec (step sampleRequest) (init 0) (sampleLogin 0 ++
        [.keepalive ⟨sampleHash, none, true, (sampleIp 0, 4000)⟩ true] ++ (sampleLogin 1).take 3 ++
        [.keepalive ⟨sampleHash, none, false, (sampleIp 0, 4001)⟩ true])).map
          (fun s => (s.nattUdpPorts sampleHash, s.log.map fun x => (x.session,
            x.isBelieved && x.isExtensionEnabled && !isOk x.verdict, x.datagram.isObfuscated))) =
        some (some (4001, 0), [(some 0, true, true), (some 0, true, false)]) := by
      decide
    obtain ⟨s, hrun, hfacts⟩ := Option.map_eq_some_iff.mp hfacts
    obtain ⟨hport, hlog⟩ := Prod.mk.inj hfacts
    refine ⟨s, hrun, hport, fun h => ?_⟩
    obtain ⟨y, log, hy, hybits, hrest⟩ := List.map_eq_cons_iff.mp hlog
    obtain ⟨x, rest, rfl, hxbits, hnil⟩ := List.map_eq_cons_iff.mp hrest
    simp only [Prod.mk.injEq, Bool.and_eq_true, Bool.not_eq_true'] at hybits hxbits
    obtain ⟨hysession, ⟨⟨hybelieved, -⟩, -⟩, hyobf⟩ := hybits
    obtain ⟨hxsession, ⟨⟨hxbelieved, hxext⟩, hxok⟩, hxobf⟩ := hxbits
    have hplain := h.plain [y] x rest 0 hy hxsession hxbelieved hxobf hxok hxext y
      (List.mem_singleton_self y) hysession hybelieved
    rw [hyobf] at hplain
    cases hplain

end Ed2kServer.Server.NattProofSafety
