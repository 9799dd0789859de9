import Ed2kServer.Lib.History
import Ed2kServer.Server.Ipv6Probe

namespace Ed2kServer.Server.Ipv6ProbeSafety

open Ed2kServer.Lib.History Ed2kServer.Lib.Transition Ed2kServer.Slab.Record
open Ed2kServer.Sources.Address
open Ed2kServer.Server.Login (Session ClientHandle)
open Ed2kServer.Server.Ipv6Probe

/-- The session is still to write the published address of its user. -/
def clears : Phase → Bool
  | .forget _ | .mark .. | .clear .. | .withdraw _ | .dropAddress => true
  | _ => false

/-- The login has written the published address and is still to write the client map. -/
def entering : Phase → Bool
  | .insert true _ _ | .forgetWithdrawn true | .enter true _ => true
  | _ => false

/-- The address that a session is handling. -/
def handled : Phase → Option Ipv6
  | .forget addr | .mark _ addr | .clear _ addr _ | .insert _ addr _ => some addr
  | _ => none

/-- The session whose entry the client map has. -/
def live (s : State) (user : UserHash) : Option Session :=
  (s.clients user).map ClientHandle.session

variable (userHash : Session → UserHash)

/-- A live session has the address, or one that is about to be live. -/
def Current (s : State) (user : UserHash) (addr : Ipv6) : Prop :=
  ∃ p, userHash p = user ∧ (live s user = some p ∨ entering (s.phase p) = true) ∧
    s.own p = some addr

def EnteringWith (s : State) (user : UserHash) (addr : Ipv6) : Prop :=
  ∀ p, userHash p = user → entering (s.phase p) = true → s.own p = some addr

/-- Somebody is to write the published address, or it may stand. -/
def Fits (s : State) (user : UserHash) (addr : Ipv6) : Prop :=
  (∃ p, userHash p = user ∧ clears (s.phase p) = true) ∨
    (Current userHash s user addr ∧ EnteringWith userHash s user addr)

/-- The account of what is published and of what it rests on. -/
structure Sound (s : State) : Prop where
  fits : ∀ user addr, s.clientIpv6 user = some addr → Fits userHash s user addr
  published : ∀ user addr, s.clientIpv6 user = some addr → (user, addr) ∈ s.proven
  verdict : ∀ user e, s.ipv6Probe user = some e → e.verdict = some true →
    (user, e.addr) ∈ s.proven
  copied : ∀ p login addr e, s.phase p = .clear login addr (some e) → e.verdict = some true →
    (userHash p, e.addr) ∈ s.proven
  ok : ∀ user addr, (.answered user addr true ∈ s.dials ∨ .found user addr true ∈ s.dials ∨
    .publish user addr true ∈ s.dials) → (user, addr) ∈ s.proven
  own : ∀ p addr, handled (s.phase p) = some addr → s.own p = some addr
  dialled : ∀ p, s.dialled p ≤ MAX_DIALS

variable {userHash} {s t : State} {user : UserHash} {addr : Ipv6} {p : Session}

/-- What does not touch the sessions of a user leaves it what fits. -/
theorem Fits.congr (h : Fits userHash s user addr) (hlive : live t user = live s user)
    (hphase : ∀ q, userHash q = user → clears (t.phase q) = clears (s.phase q) ∧
      entering (t.phase q) = entering (s.phase q) ∧ t.own q = s.own q) :
    Fits userHash t user addr := by
  refine h.imp ?_ ?_
  · rintro ⟨q, hq, hc⟩
    exact ⟨q, hq, by rw [(hphase q hq).1, hc]⟩
  · rintro ⟨⟨q, hq, hcur, ho⟩, he⟩
    obtain ⟨-, hent, hown⟩ := hphase q hq
    refine ⟨⟨q, hq, ?_, by rw [hown, ho]⟩, fun r hr hre => ?_⟩
    · rw [hlive, hent]
      exact hcur
    · obtain ⟨-, hent, hown⟩ := hphase r hr
      rw [hown]
      exact he r hr (hent ▸ hre)

/-- The entry of the user counts all dials made for the session. -/
def Counted (s : State) (user : UserHash) (p : Session) : Prop :=
  ∀ e, s.ipv6Probe user = some e → s.dialled p ≤ e.dials

variable (userHash) in
/-- A proven address is published where it fits, and a dial is made where the session's earlier ones
are counted. -/
def Safe (s : State) : Event → Prop
  | .next p _ =>
    (∀ login addr e, s.phase p = .clear login addr (some e) → e.addr = addr →
      e.verdict = some true →
        (∃ q, q ≠ p ∧ userHash q = userHash p ∧ clears (s.phase q) = true) ∨
          ((login = true ∨ Current userHash s (userHash p) addr) ∧
            EnteringWith userHash s (userHash p) addr)) ∧
      ∀ addr, s.phase p = .dial addr → s.mayDial (userHash p) addr = true →
        Counted s (userHash p) p
  | .conclude i _ =>
    ∀ user addr, s.dials[i]? = some (.publish user addr true) → Fits userHash s user addr
  | .sweep j _ =>
    ∀ user addr p, s.retries[j]? = some (.dial user addr p) → s.mayDial user addr = true →
      Counted s user p
  | _ => True

theorem sound_init (probes : Nat) : Sound userHash (init probes) := by
  constructor <;> simp [init, handled]

/-- A step of one session leaves the other users what fits. -/
theorem Sound.fits_of (h : Sound userHash s) (hphase : ∀ q, q ≠ p → t.phase q = s.phase q)
    (hown : ∀ q, q ≠ p → t.own q = s.own q)
    (hlive : ∀ user, user ≠ userHash p → live t user = live s user)
    (hipv6 : ∀ user, user ≠ userHash p → t.clientIpv6 user = s.clientIpv6 user)
    (hself : ∀ addr, t.clientIpv6 (userHash p) = some addr → Fits userHash t (userHash p) addr) :
    ∀ user addr, t.clientIpv6 user = some addr → Fits userHash t user addr := by
  intro user addr ht
  by_cases hu : user = userHash p
  · subst hu
    exact hself addr ht
  · rw [hipv6 user hu] at ht
    refine (h.fits user addr ht).congr (hlive user hu) fun q hq => ?_
    have hqp : q ≠ p := by
      rintro rfl
      exact hu hq.symm
    rw [hphase q hqp, hown q hqp]
    exact ⟨rfl, rfl, rfl⟩

theorem sound_begin (h : Sound userHash s) {phase : Phase} (own : Option Ipv6)
    (hc : clears phase = true) (hh : ∀ addr, handled phase = some addr → own = some addr)
    (hn : ∀ login addr e, phase ≠ .clear login addr (some e)) :
    Sound userHash ((s.setOwn p own).goTo p phase) := by
  constructor
  case fits =>
    refine h.fits_of (p := p) ?_ ?_ (fun _ _ => rfl) (fun _ _ => rfl) ?_
    · intro q hq
      simp [hq]
    · intro q hq
      simp [hq]
    · exact fun addr _ => Or.inl ⟨p, rfl, by simp [hc]⟩
  case published => exact h.published
  case verdict => exact h.verdict
  case copied =>
    intro q login addr e hq he
    by_cases hqp : q = p
    · subst hqp
      exact absurd (by simpa using hq) (hn login addr e)
    · exact h.copied q login addr e (by simpa [hqp] using hq) he
  case ok => exact h.ok
  case own =>
    intro q addr hq
    by_cases hqp : q = p
    · subst hqp
      simpa using hh addr (by simpa using hq)
    · simpa [hqp] using h.own q addr (by simpa [hqp] using hq)
  case dialled => exact h.dialled

section Move

variable {u : State} {phase : Phase}

theorem Sound.move (h : Sound userHash s) (hphase : u.phase = s.phase) (hown : u.own = s.own)
    (hproven : u.proven = s.proven)
    (hdials : ∀ d ∈ u.dials, d ∈ s.dials ∨ ∃ user addr, d = .calling user addr)
    (hdialled : ∀ q, u.dialled q ≤ MAX_DIALS)
    (hlive : ∀ user, user ≠ userHash p → live u user = live s user)
    (hipv6 : ∀ user, user ≠ userHash p → u.clientIpv6 user = s.clientIpv6 user)
    (hself : ∀ addr, u.clientIpv6 (userHash p) = some addr →
      Fits userHash (u.goTo p phase) (userHash p) addr ∧ (userHash p, addr) ∈ s.proven)
    (hprobe : ∀ user e, u.ipv6Probe user = some e → e.verdict = some true →
      (user, e.addr) ∈ s.proven)
    (hcopied : ∀ login addr e, phase = .clear login addr (some e) → e.verdict = some true →
      (userHash p, e.addr) ∈ s.proven)
    (hhandled : ∀ addr, handled phase = some addr → s.own p = some addr) :
    Sound userHash (u.goTo p phase) := by
  constructor
  case fits =>
    refine h.fits_of (p := p) ?_ ?_ hlive hipv6 fun addr ha => (hself addr ha).1
    · intro q hq
      simp [hq, hphase]
    · intro q hq
      simp [hown]
  case published =>
    intro user addr ha
    rw [State.goTo_proven, hproven]
    by_cases hu : user = userHash p
    · subst hu
      exact (hself addr ha).2
    · rw [State.goTo_clientIpv6, hipv6 user hu] at ha
      exact h.published user addr ha
  case verdict =>
    rw [State.goTo_proven, hproven]
    exact hprobe
  case copied =>
    intro q login addr e hq he
    rw [State.goTo_proven, hproven]
    by_cases hqp : q = p
    · subst hqp
      exact hcopied login addr e (by simpa using hq) he
    · exact h.copied q login addr e (by simpa [hqp, hphase] using hq) he
  case ok =>
    have hold : ∀ d ∈ u.dials, (∀ user addr, d ≠ .calling user addr) → d ∈ s.dials :=
      fun d hd hne => (hdials d hd).resolve_right fun ⟨user, addr, he⟩ => hne user addr he
    intro user addr hok
    rw [State.goTo_proven, hproven]
    rw [State.goTo_dials] at hok
    refine h.ok user addr (hok.imp ?_ (Or.imp ?_ ?_)) <;>
      exact fun hd => hold _ hd fun _ _ hne => nomatch hne
  case own =>
    intro q addr hq
    rw [State.goTo_own, hown]
    by_cases hqp : q = p
    · subst hqp
      exact hhandled addr (by simpa using hq)
    · exact h.own q addr (by simpa [hqp, hphase] using hq)
  case dialled => exact hdialled

/-- A step that says no more of the session than what it said before. -/
theorem Sound.fits_same (h : Sound userHash s) (hphase : u.phase = s.phase)
    (hown : u.own = s.own) (hlive : live u (userHash p) = live s (userHash p))
    (hipv6 : u.clientIpv6 (userHash p) = s.clientIpv6 (userHash p))
    (hc : clears phase = clears (s.phase p)) (he : entering phase = entering (s.phase p))
    (addr : Ipv6) (ha : u.clientIpv6 (userHash p) = some addr) :
    Fits userHash (u.goTo p phase) (userHash p) addr ∧ (userHash p, addr) ∈ s.proven := by
  rw [hipv6] at ha
  refine ⟨(h.fits _ addr ha).congr hlive fun q _ => ?_, h.published _ addr ha⟩
  by_cases hq : q = p
  · subst hq
    simp [hc, he, hown]
  · simp [hq, hphase, hown]

/-- A session that is still to write the published address. -/
theorem Sound.fits_clears (h : Sound userHash s)
    (hipv6 : u.clientIpv6 (userHash p) = s.clientIpv6 (userHash p)) (hc : clears phase = true)
    (addr : Ipv6) (ha : u.clientIpv6 (userHash p) = some addr) :
    Fits userHash (u.goTo p phase) (userHash p) addr ∧ (userHash p, addr) ∈ s.proven := by
  rw [hipv6] at ha
  exact ⟨Or.inl ⟨p, rfl, by simp [hc]⟩, h.published _ addr ha⟩

end Move

theorem Sound.probe_update (h : Sound userHash s) {new : Option Probe}
    (hnew : ∀ e, new = some e → e.verdict = some true → (user, e.addr) ∈ s.proven)
    (other : UserHash) (e : Probe) (he : (s.setProbe user new).ipv6Probe other = some e)
    (hv : e.verdict = some true) :
    (other, e.addr) ∈ s.proven := by
  rw [State.setProbe_ipv6Probe, Function.update_apply] at he
  split at he
  · rename_i ho
    rw [ho]
    exact hnew e he hv
  · exact h.verdict other e he hv

theorem live_setClient_ne (client : Option ClientHandle) {other : UserHash} (ho : other ≠ user) :
    live (s.setClient user client) other = live s other := by
  simp [live, ho]

/-- The address a session goes on with is published only where it fits. -/
theorem Sound.clear (h : Sound userHash s) {login : Bool} {addr : Ipv6} {prev : Option Probe}
    (hp : s.phase p = .clear login addr prev) {now : Nat} (hc : Safe userHash s (.next p now))
    (ht : next userHash s p now (.clear login addr prev) = some t) : Sound userHash t := by
  have hdown : s.own p = some addr := h.own p addr (by rw [hp]; rfl)
  rw [next] at ht
  have hne : ∀ (v : Option Ipv6) user, user ≠ userHash p →
      (s.setAddress (userHash p) v).clientIpv6 user = s.clientIpv6 user :=
    fun v user hu => by simp [hu]
  cases hf : prev.filter (·.addr = addr) with
  | none =>
    rw [hf] at ht
    cases ht
    refine h.move rfl rfl rfl (fun d hd => Or.inl hd) h.dialled (fun _ _ => rfl) (hne none) ?_
      h.verdict (fun _ _ _ he => nomatch he) ?_
    · simp
    · intro a ha
      rw [← Option.some.inj ha]
      exact hdown
  | some probe =>
    rw [hf] at ht
    cases ht
    obtain ⟨rfl, haddr⟩ := Option.filter_eq_some_iff.mp hf
    have haddr : probe.addr = addr := by simpa using haddr
    refine h.move rfl rfl rfl (fun d hd => Or.inl hd) h.dialled (fun _ _ => rfl) (hne _) ?_
      h.verdict (fun _ _ _ he => nomatch he) (fun _ ha => nomatch ha)
    intro a ha
    have hv : probe.verdict = some true ∧ a = addr := by
      rw [State.setAddress_clientIpv6, Function.update_self] at ha
      split at ha
      · rename_i hv
        exact ⟨hv, (Option.some.inj ha).symm⟩
      · cases ha
    obtain ⟨hv, rfl⟩ := hv
    refine ⟨?_, haddr ▸ h.copied p login a probe hp hv⟩
    obtain ⟨q, hqp, hq, hqc⟩ | ⟨hcur, hent⟩ := hc.1 login a probe hp haddr hv
    · exact Or.inl ⟨q, hq, by simpa [hqp] using hqc⟩
    · refine Or.inr ⟨?_, fun q hq hqe => ?_⟩
      · obtain rfl | ⟨q, hq, hqcur, hqo⟩ := hcur
        · exact ⟨p, rfl, Or.inr (by simp [entering]), hdown⟩
        · have hqp : q ≠ p ∨ live s (userHash p) = some q := by
            obtain hl | he := hqcur
            · exact Or.inr hl
            · refine Or.inl ?_
              rintro rfl
              rw [hp] at he
              cases he
          refine ⟨q, hq, ?_, hqo⟩
          obtain hqp | hl := hqp
          · exact hqcur.imp id fun he => by simpa [hqp] using he
          · exact Or.inl hl
      · by_cases hqp : q = p
        · rw [hqp]
          exact hdown
        · exact hent q hq (by simpa [hqp] using hqe)

/-- A login that enters the client map is live with its address. -/
theorem Sound.enter (h : Sound userHash s) {login : Bool} {dial : Option Ipv6}
    (hp : s.phase p = .enter login dial) {now : Nat}
    (ht : next userHash s p now (.enter login dial) = some t) : Sound userHash t := by
  rw [next] at ht
  cases ht
  have hphase : ∀ e : Phase → Bool, e .loggedIn = false → (∀ a, e (.dial a) = false) →
      e (dial.elim .loggedIn .dial) = false := by
    intro e hl hd
    cases dial with
    | none => exact hl
    | some a => exact hd a
  refine h.move rfl rfl rfl (fun d hd => Or.inl hd) h.dialled
    (fun _ hu => live_setClient_ne _ hu) (fun _ _ => rfl) ?_ h.verdict ?_ ?_
  · intro a ha
    cases login with
    | false =>
      refine h.fits_same (by rfl) (by rfl) ?_ (by rfl) ?_ ?_ a ha
      · simp [live]
        rfl
      · rw [hp, hphase clears rfl fun _ => rfl]
        rfl
      · rw [hp, hphase entering rfl fun _ => rfl]
        rfl
    | true =>
      refine ⟨?_, h.published _ a ha⟩
      obtain ⟨q, hq, hqc⟩ | ⟨-, hent⟩ := h.fits _ a ha
      · refine Or.inl ⟨q, hq, ?_⟩
        have hqp : q ≠ p := by
          rintro rfl
          rw [hp] at hqc
          cases hqc
        simpa [hqp] using hqc
      · refine Or.inr ⟨⟨p, rfl, Or.inl (by simp [live]), ?_⟩, fun q hq hqe => ?_⟩
        · exact hent p rfl (by rw [hp]; rfl)
        · by_cases hqp : q = p
          · rw [hqp]
            exact hent p rfl (by rw [hp]; rfl)
          · exact hent q hq (by simpa [hqp] using hqe)
  · intro login' addr e he
    cases dial <;> cases he
  · intro addr ha
    cases dial <;> cases ha

theorem countDial_dialled (h : Sound userHash s) (hm : s.mayDial user addr = true)
    (hc : Counted s user p) (q : Session) : (s.countDial user p).dialled q ≤ MAX_DIALS := by
  rw [State.countDial_dialled, Function.update_apply]
  split
  · obtain ⟨e, he, hok⟩ := (Option.any_eq_true _ _).mp hm
    have hlt : e.dials < MAX_DIALS := (of_decide_eq_true hok).2.2
    have hle := hc e he
    omega
  · exact h.dialled q

theorem countDial_probe (h : Sound userHash s) (other : UserHash) (e : Probe)
    (he : (s.countDial user p).ipv6Probe other = some e) (hv : e.verdict = some true) :
    (other, e.addr) ∈ s.proven := by
  rw [State.countDial_ipv6Probe, Function.update_apply] at he
  split at he
  · rename_i ho
    obtain ⟨e', he', rfl⟩ := Option.map_eq_some_iff.mp he
    rw [ho]
    exact h.verdict user e' he' hv
  · exact h.verdict other e he hv

theorem spawn_dials (d : Dial) (hd : d ∈ (s.spawn user addr).dials) :
    d ∈ s.dials ∨ ∃ user addr, d = .calling user addr := by
  rw [State.spawn] at hd
  split at hd
  · obtain hd | hd := List.mem_append.mp hd
    · exact Or.inl hd
    · exact Or.inr ⟨user, addr, List.mem_singleton.mp hd⟩
  · exact Or.inl hd

theorem spawn_same : (s.spawn user addr).phase = s.phase ∧ (s.spawn user addr).own = s.own ∧
    (s.spawn user addr).proven = s.proven ∧ (s.spawn user addr).clients = s.clients ∧
    (s.spawn user addr).clientIpv6 = s.clientIpv6 ∧ (s.spawn user addr).dialled = s.dialled ∧
    (s.spawn user addr).ipv6Probe = s.ipv6Probe := by
  rw [State.spawn]
  split <;> exact ⟨rfl, rfl, rfl, rfl, rfl, rfl, rfl⟩

theorem sound_next (h : Sound userHash s) {now : Nat} (hc : Safe userHash s (.next p now))
    (ht : next userHash s p now (s.phase p) = some t) : Sound userHash t := by
  have hset : ∀ user, user ≠ userHash p →
      (s.setAddress (userHash p) none).clientIpv6 user = s.clientIpv6 user :=
    fun user hu => by simp [hu]
  have hnone : ∀ a, (s.setAddress (userHash p) none).clientIpv6 (userHash p) ≠ some a :=
    fun a => by simp
  cases hp : s.phase p with
  | connected =>
    rw [hp] at ht
    cases ht
  | loggedIn =>
    rw [hp] at ht
    cases ht
  | ended =>
    rw [hp] at ht
    cases ht
  | clear login addr prev => exact h.clear hp hc (hp ▸ ht)
  | enter login dial => exact h.enter hp (hp ▸ ht)
  | forget addr =>
    rw [hp] at ht
    cases ht
    exact h.move rfl rfl rfl (fun d hd => Or.inl hd) h.dialled (fun _ _ => rfl) (fun _ _ => rfl)
      (h.fits_clears rfl rfl) (h.probe_update fun _ he => nomatch he) (fun _ _ _ he => nomatch he)
      fun a ha => h.own p a (hp ▸ ha)
  | mark login addr =>
    rw [hp] at ht
    cases ht
    refine h.move rfl rfl rfl (fun d hd => Or.inl hd) h.dialled (fun _ _ => rfl) (fun _ _ => rfl)
      (h.fits_clears rfl rfl) h.verdict (fun login' addr' e he hv => ?_)
      fun a ha => h.own p a (hp ▸ ha)
    injection he with _ _ he
    exact h.verdict _ e he hv
  | insert login addr dials =>
    rw [hp] at ht
    cases ht
    refine h.move rfl rfl rfl (fun d hd => Or.inl hd) h.dialled (fun _ _ => rfl) (fun _ _ => rfl)
      ?_ (h.probe_update fun e he hv => ?_) (fun _ _ _ he => nomatch he) (fun _ ha => nomatch ha)
    · refine h.fits_same (by rfl) (by rfl) (by rfl) (by rfl) ?_ ?_ <;> rw [hp]
      · rfl
      · cases login <;> rfl
    · cases he
      cases hv
  | withdraw login =>
    rw [hp] at ht
    cases ht
    exact h.move rfl rfl rfl (fun d hd => Or.inl hd) h.dialled (fun _ _ => rfl) hset
      (fun a ha => absurd ha (hnone a)) h.verdict (fun _ _ _ he => nomatch he)
      fun _ ha => nomatch ha
  | forgetWithdrawn login =>
    rw [hp] at ht
    cases ht
    refine h.move rfl rfl rfl (fun d hd => Or.inl hd) h.dialled (fun _ _ => rfl) (fun _ _ => rfl)
      ?_ (h.probe_update fun _ he => nomatch he) (fun _ _ _ he => nomatch he)
      fun _ ha => nomatch ha
    refine h.fits_same (by rfl) (by rfl) (by rfl) (by rfl) ?_ ?_ <;> rw [hp]
    · rfl
    · cases login <;> rfl
  | dial addr =>
    rw [hp, next] at ht
    split at ht
    · rename_i hm
      cases ht
      refine h.move rfl rfl rfl (fun d hd => Or.inl hd)
        (countDial_dialled h hm (hc.2 addr hp hm)) (fun _ _ => rfl) (fun _ _ => rfl) ?_
        (countDial_probe h) (fun _ _ _ he => nomatch he) fun _ ha => nomatch ha
      refine h.fits_same (by rfl) (by rfl) (by rfl) (by rfl) ?_ ?_ <;> rw [hp] <;> rfl
    · cases ht
      refine h.move rfl rfl rfl (fun d hd => Or.inl hd) h.dialled (fun _ _ => rfl)
        (fun _ _ => rfl) ?_ h.verdict (fun _ _ _ he => nomatch he) fun _ ha => nomatch ha
      refine h.fits_same (by rfl) (by rfl) (by rfl) (by rfl) ?_ ?_ <;> rw [hp] <;> rfl
  | permit addr =>
    rw [hp] at ht
    cases ht
    obtain ⟨hphase, hown, hproven, hclients, hipv6, hdialled, hprobe⟩ :=
      @spawn_same s (userHash p) addr
    have hlive : ∀ user, live (s.spawn (userHash p) addr) user = live s user :=
      fun user => by rw [live, hclients, live]
    refine h.move hphase hown hproven spawn_dials (hdialled ▸ h.dialled) (fun user _ => hlive user)
      (fun user _ => by rw [hipv6]) ?_ (hprobe ▸ h.verdict) (fun _ _ _ he => nomatch he)
      fun _ ha => nomatch ha
    refine h.fits_same hphase hown (hlive _) (by rw [hipv6]) ?_ ?_ <;> rw [hp] <;> rfl
  | leave =>
    rw [hp, next] at ht
    split at ht
    · cases ht
      exact h.move rfl rfl rfl (fun d hd => Or.inl hd) h.dialled
        (fun _ hu => live_setClient_ne _ hu) (fun _ _ => rfl) (h.fits_clears rfl rfl) h.verdict
        (fun _ _ _ he => nomatch he) fun _ ha => nomatch ha
    · cases ht
      refine h.move rfl rfl rfl (fun d hd => Or.inl hd) h.dialled (fun _ _ => rfl)
        (fun _ _ => rfl) ?_ h.verdict (fun _ _ _ he => nomatch he) fun _ ha => nomatch ha
      refine h.fits_same (by rfl) (by rfl) (by rfl) (by rfl) ?_ ?_ <;> rw [hp] <;> rfl
  | dropAddress =>
    rw [hp] at ht
    cases ht
    exact h.move rfl rfl rfl (fun d hd => Or.inl hd) h.dialled (fun _ _ => rfl) hset
      (fun a ha => absurd ha (hnone a)) h.verdict (fun _ _ _ he => nomatch he)
      fun _ ha => nomatch ha
  | dropProbe =>
    rw [hp] at ht
    cases ht
    refine h.move rfl rfl rfl (fun d hd => Or.inl hd) h.dialled (fun _ _ => rfl) (fun _ _ => rfl)
      ?_ (h.probe_update fun _ he => nomatch he) (fun _ _ _ he => nomatch he)
      fun _ ha => nomatch ha
    refine h.fits_same (by rfl) (by rfl) (by rfl) (by rfl) ?_ ?_ <;> rw [hp] <;> rfl

/-- A step of a dial or of a sweep. -/
theorem Sound.aside (h : Sound userHash s) (hphase : t.phase = s.phase) (hown : t.own = s.own)
    (hclients : t.clients = s.clients) (hproven : s.proven ⊆ t.proven)
    (hipv6 : ∀ user addr, t.clientIpv6 user = some addr →
      s.clientIpv6 user = some addr ∨ Fits userHash s user addr ∧ (user, addr) ∈ s.proven)
    (hprobe : ∀ user e, t.ipv6Probe user = some e → e.verdict = some true →
      (user, e.addr) ∈ s.proven)
    (hok : ∀ user addr, (.answered user addr true ∈ t.dials ∨ .found user addr true ∈ t.dials ∨
      .publish user addr true ∈ t.dials) → (user, addr) ∈ t.proven)
    (hdialled : ∀ q, t.dialled q ≤ MAX_DIALS) : Sound userHash t := by
  have hlive : ∀ user, live t user = live s user := fun user => by rw [live, hclients, live]
  constructor
  case fits =>
    intro user addr ha
    have hf : Fits userHash s user addr := (hipv6 user addr ha).elim (h.fits user addr) And.left
    exact hf.congr (hlive user) fun q _ => by rw [hphase, hown]; exact ⟨rfl, rfl, rfl⟩
  case published =>
    exact fun user addr ha => hproven ((hipv6 user addr ha).elim (h.published user addr) And.right)
  case verdict => exact fun user e he hv => hproven (hprobe user e he hv)
  case copied =>
    exact fun q login addr e hq hv => hproven (h.copied q login addr e (hphase ▸ hq) hv)
  case ok => exact hok
  case own => exact fun q addr hq => by rw [hown]; exact h.own q addr (hphase ▸ hq)
  case dialled => exact hdialled

/-- A dial that goes on carries no more than its own verdict. -/
theorem Sound.ok_set (h : Sound userHash s) {i : Nat} {d : Dial}
    (hd : ∀ user addr, d = .answered user addr true ∨ d = .found user addr true ∨
      d = .publish user addr true → (user, addr) ∈ s.proven) (user : UserHash) (addr : Ipv6)
    (hmem : .answered user addr true ∈ s.dials.set i d ∨ .found user addr true ∈ s.dials.set i d ∨
      .publish user addr true ∈ s.dials.set i d) : (user, addr) ∈ s.proven := by
  have hor : ∀ x, x ∈ s.dials.set i d → x ∈ s.dials ∨ d = x :=
    fun x hx => (List.mem_or_eq_of_mem_set hx).imp id Eq.symm
  obtain hm | hm | hm := hmem <;> obtain hm | hm := hor _ hm
  · exact h.ok user addr (Or.inl hm)
  · exact hd user addr (Or.inl hm)
  · exact h.ok user addr (Or.inr (Or.inl hm))
  · exact hd user addr (Or.inr (Or.inl hm))
  · exact h.ok user addr (Or.inr (Or.inr hm))
  · exact hd user addr (Or.inr (Or.inr hm))

theorem sound_conclude (h : Sound userHash s) {i now : Nat} {d : Dial} (hi : s.dials[i]? = some d)
    (hc : Safe userHash s (.conclude i now)) (ht : conclude s i now d = some t) :
    Sound userHash t := by
  have hmem := List.mem_of_getElem? hi
  have hsame : ∀ u a, s.clientIpv6 u = some a →
      s.clientIpv6 u = some a ∨ Fits userHash s u a ∧ (u, a) ∈ s.proven := fun _ _ => Or.inl
  have hend : Sound userHash (s.endDial i) :=
    h.aside rfl rfl rfl (fun _ hx => hx) hsame h.verdict (h.ok_set (by simp)) h.dialled
  cases d with
  | calling user addr => cases ht
  | done => cases ht
  | answered user addr ok =>
    rw [conclude] at ht
    split at ht
    · cases ht
      exact h.aside rfl rfl rfl (fun _ hx => hx) hsame h.verdict (h.ok_set (by simp)) h.dialled
    · split at ht
      · cases ht
        refine h.aside rfl rfl rfl (fun _ hx => hx) hsame h.verdict (h.ok_set ?_) h.dialled
        rintro u a (he | he | he) <;> cases he
        exact h.ok _ _ (Or.inl hmem)
      · cases ht
        exact hend
  | gone user =>
    cases ht
    exact h.aside rfl rfl rfl (fun _ hx => hx) hsame (h.probe_update fun _ he => nomatch he)
      (h.ok_set (by simp)) h.dialled
  | found user addr ok =>
    rw [conclude] at ht
    cases hf : (s.ipv6Probe user).filter (·.addr = addr) with
    | none =>
      rw [hf] at ht
      cases ht
      exact hend
    | some probe =>
      rw [hf] at ht
      cases ht
      obtain ⟨-, haddr⟩ := Option.filter_eq_some_iff.mp hf
      have haddr : probe.addr = addr := by simpa using haddr
      have hok : ok = true → (user, addr) ∈ s.proven := by
        rintro rfl
        exact h.ok user addr (Or.inr (Or.inl hmem))
      refine h.aside rfl rfl rfl (fun _ hx => hx) hsame (h.probe_update ?_) (h.ok_set ?_) h.dialled
      · rintro e he hv
        cases he
        rw [haddr]
        exact hok (Option.some.inj hv)
      · rintro u a (he | he | he) <;> cases he
        exact hok rfl
  | publish user addr ok =>
    cases ht
    refine h.aside rfl rfl rfl (fun _ hx => hx) ?_ h.verdict (h.ok_set (by simp)) h.dialled
    intro u a ha
    rw [State.endDial_clientIpv6, State.setAddress_clientIpv6, Function.update_apply] at ha
    split at ha
    · rename_i hu
      cases ok with
      | false => cases ha
      | true =>
        cases ha
        rw [hu]
        exact Or.inr ⟨hc user addr hi, h.ok user addr (Or.inr (Or.inr hmem))⟩
    · exact Or.inl ha

theorem sound_hear (h : Sound userHash s) {i : Nat} {answer : Option UserHash} {d : Dial}
    (ht : hear s i answer d = some t) : Sound userHash t := by
  cases d with
  | calling user addr =>
    cases ht
    have hmono : s.proven ⊆ (if answer.any (sameClientHash · user) = true then
        (user, addr) :: s.proven else s.proven) := by
      split
      · exact List.subset_cons_self _ _
      · exact fun x hx => hx
    refine h.aside rfl rfl rfl hmono (fun _ _ => Or.inl) h.verdict ?_ h.dialled
    intro u a hmem
    have hor : ∀ x, x ∈ s.dials.set i (.answered user addr (answer.any (sameClientHash · user))) →
        x ∈ s.dials ∨ x = .answered user addr (answer.any (sameClientHash · user)) :=
      fun x hx => List.mem_or_eq_of_mem_set hx
    obtain hm | hm | hm := hmem <;> obtain hm | hm := hor _ hm
    · exact hmono (h.ok u a (Or.inl hm))
    · injection hm with hu ha hok
      rw [hu, ha]
      simp [← hok]
    · exact hmono (h.ok u a (Or.inr (Or.inl hm)))
    · cases hm
    · exact hmono (h.ok u a (Or.inr (Or.inr hm)))
    · cases hm
  | answered user addr ok => cases ht
  | found user addr ok => cases ht
  | gone user => cases ht
  | publish user addr ok => cases ht
  | done => cases ht

theorem sound_sweep (h : Sound userHash s) {j now : Nat} {r : Retry} (hj : s.retries[j]? = some r)
    (hc : Safe userHash s (.sweep j now)) (ht : sweep s j now r = some t) : Sound userHash t := by
  have hsame : ∀ u a, s.clientIpv6 u = some a →
      s.clientIpv6 u = some a ∨ Fits userHash s u a ∧ (u, a) ∈ s.proven := fun _ _ => Or.inl
  have hset : ∀ r', Sound userHash (s.setRetry j r') := fun r' =>
    h.aside rfl rfl rfl (fun _ hx => hx) hsame h.verdict h.ok h.dialled
  cases r with
  | look user addr =>
    rw [sweep] at ht
    split at ht
    · cases ht
      exact hset _
    · split at ht <;> cases ht <;> exact hset _
  | touch user addr p =>
    cases ht
    refine h.aside rfl rfl rfl (fun _ hx => hx) hsame (h.probe_update ?_) h.ok h.dialled
    intro e he hv
    obtain ⟨e', he', rfl⟩ := Option.map_eq_some_iff.mp he
    exact h.verdict user e' he' hv
  | dial user addr p =>
    rw [sweep] at ht
    split at ht
    · rename_i hm
      cases ht
      exact h.aside rfl rfl rfl (fun _ hx => hx) hsame (countDial_probe (p := p) h) h.ok
        (countDial_dialled h hm (hc user addr p hj hm))
    · cases ht
      exact hset _
  | permit user addr =>
    cases ht
    obtain ⟨hphase, hown, hproven, hclients, hipv6, hdialled, hprobe⟩ :=
      @spawn_same s user addr
    refine h.aside hphase hown hclients (fun _ hx => hproven ▸ hx) (fun u a ha => ?_)
      (fun u e he hv => ?_) (fun u a hmem => ?_) (fun q => ?_)
    · exact Or.inl (hipv6 ▸ ha)
    · exact h.verdict u e (hprobe ▸ he) hv
    · have hold : ∀ d ∈ (s.spawn user addr).dials, (∀ u a, d ≠ .calling u a) → d ∈ s.dials :=
        fun d hd hne => (spawn_dials d hd).resolve_right fun ⟨u, a, he⟩ => hne u a he
      rw [State.setRetry_proven, hproven]
      refine h.ok u a (hmem.imp ?_ (Or.imp ?_ ?_)) <;>
        exact fun hd => hold _ hd fun _ _ hne => nomatch hne
    · rw [State.setRetry_dialled, hdialled]
      exact h.dialled q
  | done => cases ht

theorem sound_step (h : Sound userHash s) {e : Event} (hc : Safe userHash s e)
    (ht : step userHash s e = some t) : Sound userHash t := by
  cases e with
  | login p addr =>
    rw [step] at ht
    split at ht
    · cases ht
      cases addr with
      | none => exact sound_begin h none rfl (fun _ ha => nomatch ha) fun _ _ _ he => nomatch he
      | some a => exact sound_begin h (some a) rfl (fun _ ha => ha) fun _ _ _ he => nomatch he
    · cases ht
  | update p addr =>
    rw [step] at ht
    split at ht
    · cases ht
      cases addr with
      | none => exact sound_begin h none rfl (fun _ ha => nomatch ha) fun _ _ _ he => nomatch he
      | some a => exact sound_begin h (some a) rfl (fun _ ha => ha) fun _ _ _ he => nomatch he
    · cases ht
  | leave p =>
    rw [step] at ht
    split at ht
    · rename_i hm
      cases ht
      refine h.move rfl rfl rfl (fun d hd => Or.inl hd) h.dialled (fun _ _ => rfl)
        (fun _ _ => rfl) ?_ h.verdict (fun _ _ _ he => nomatch he) fun _ ha => nomatch ha
      have hrest : clears (s.phase p) = false ∧ entering (s.phase p) = false := by
        cases hp : s.phase p <;> rw [hp] at hm <;> first | exact ⟨rfl, rfl⟩ | cases hm
      refine h.fits_same (by rfl) (by rfl) (by rfl) (by rfl) ?_ ?_
      · exact hrest.1.symm
      · exact hrest.2.symm
    · cases ht
  | next p now => exact sound_next h hc ht
  | answer i answer =>
    obtain ⟨d, -, ht⟩ := Option.bind_eq_some_iff.mp ht
    exact sound_hear h ht
  | conclude i now =>
    obtain ⟨d, hi, ht⟩ := Option.bind_eq_some_iff.mp ht
    exact sound_conclude h hi hc ht
  | forgetGone user =>
    rw [step] at ht
    split at ht
    · cases ht
      exact h.aside rfl rfl rfl (fun _ hx => hx) (fun _ _ => Or.inl)
        (h.probe_update fun _ he => nomatch he) h.ok h.dialled
    · cases ht
  | stall user now =>
    obtain ⟨e, -, ht⟩ := Option.bind_eq_some_iff.mp ht
    split at ht
    · cases ht
      exact h.aside rfl rfl rfl (fun _ hx => hx) (fun _ _ => Or.inl) h.verdict h.ok h.dialled
    · cases ht
  | sweep j now =>
    obtain ⟨r, hj, ht⟩ := Option.bind_eq_some_iff.mp ht
    exact sound_sweep h hj hc ht

/-- The session is not logging in, updating its address or ending. -/
def resting : Phase → Bool
  | .connected | .loggedIn | .ended => true
  | _ => false

/-- A verdict about the user is being put in. -/
def concludes (user : UserHash) : Dial → Bool
  | .answered u _ _ | .found u _ _ | .gone u | .publish u _ _ => u = user
  | .calling _ _ | .done => false

variable (userHash) in
/-- Nothing is in progress for the user. -/
def Quiet (s : State) (user : UserHash) : Prop :=
  (∀ p, userHash p = user → resting (s.phase p) = true) ∧
    ∀ d ∈ s.dials, concludes user d = false

/-- The session an event is a step of. -/
def session : Event → Option Session
  | .login p _ | .update p _ | .leave p | .next p _ => some p
  | _ => none

section Sample

variable {es : List Event}

end Sample

end Ed2kServer.Server.Ipv6ProbeSafety
