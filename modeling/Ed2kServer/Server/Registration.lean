import Ed2kServer.Lib.History
import Ed2kServer.Server.ServerList

namespace Ed2kServer.Server.Registration

open Ed2kServer.Lib.Assoc Ed2kServer.Lib.History Ed2kServer.Lib.Transition
open Ed2kServer.Server.ServerList Ed2kServer.Sources.Address

variable {cfg : Config} {s t : State} {server : SocketAddrV4}

/-- What a step does to the registrations. -/
inductive Moved (cfg : Config) (s t : State) : Prop
  | elsewhere (hpending : t.pending = s.pending) (hphase : t.phase = s.phase)
      (hlog : t.log = s.log) (hprobes : t.probes = s.probes) (hnow : s.now ≤ t.now)
  | swept (ip : Ipv4)
      (heq : t = { s with
        pending := s.pending.filter fun e =>
          e.1 != ip || decide (s.now - e.2.since < PENDING_TTL) })
  | noted (src : Ipv4) (payload : List UInt8) (phase : Phase)
      (heq : t = { s with
        log := s.log ++ [.registration src payload (s.isClient src)], phase := phase })
      (hphase : phase = s.phase ∨ ∃ server, namedServer cfg src payload = some server ∧
        s.isClient src = false ∧ phase = .checked server)
  | dropped (heq : t = { s with phase := .idle })
  | unlisted (server : SocketAddrV4) (hphase : s.phase = .checked server)
      (heq : t = { s with phase := .unlisted server })
  | probed (server : SocketAddrV4) (random : UInt16) (hphase : s.phase = .unlisted server)
      (hold : ∀ p, s.pending.lookup server.1 = some p → PENDING_TTL ≤ s.now - p.since)
      (heq : t = { s with
        phase := .idle
        pending := (server.1, ⟨server.2, challengeOf random, s.now, s.probes⟩) ::
          s.pending.filter fun e => e.1 != server.1
        probes := s.probes + 1
        log := s.log ++
          [.probe s.probes (server.1, server.2 + 4) (challengeOf random) s.now] })
  | read (ip : Ipv4) (p : Pending) (payload : List UInt8) (hp : s.pending.lookup ip = some p)
      (hecho : echoes payload p.challenge = true)
      (heq : t = { s with phase := .echoed ip p payload })
  | took (ip : Ipv4) (p : Pending) (payload : List UInt8) (hphase : s.phase = .echoed ip p payload)
      (heq : t = s.takeAnswer ip p payload)
  | added (ip : Ipv4) (p : Pending) (hphase : s.phase = .answered ip p)
      (heq : t = { s with
        phase := .idle
        serverList := s.serverList ++ [(ip, p.port)]
        log := s.log ++ [.listed p.number (ip, p.port)] })

theorem moved_of_step {e : Event} (ht : step cfg s e = some t) : Moved cfg s t := by
  cases e with
  | register peer payload =>
    obtain rfl | ⟨src, -, rfl⟩ := step_register ht
    · exact .elsewhere rfl rfl rfl rfl (le_refl _)
    · obtain ⟨phase, heq, hphase⟩ := note_eq cfg s src payload
      exact .noted src payload phase heq hphase
  | confirm peer port payload =>
    obtain rfl | ⟨ip, -, rfl⟩ := step_confirm ht
    · exact .elsewhere rfl rfl rfl rfl (le_refl _)
    · obtain heq | ⟨p, hp, hecho, -, heq⟩ := readAnswer_eq s ip port payload
      · rw [heq]
        exact .elsewhere rfl rfl rfl rfl (le_refl _)
      · exact .read ip p payload hp hecho heq
  | lookUp =>
    obtain ⟨server, phase, hphase, rfl, rfl | ⟨-, rfl⟩⟩ := step_lookUp ht
    · exact .dropped rfl
    · exact .unlisted server hphase rfl
  | probe random =>
    obtain ⟨server, hphase, rfl⟩ := step_probe ht
    obtain heq | ⟨hold, heq⟩ := sendProbe_eq s server random
    · exact .dropped heq
    · exact .probed server random hphase hold heq
  | remove =>
    obtain ⟨ip, p, payload, hphase, rfl⟩ := step_remove ht
    exact .took ip p payload hphase rfl
  | list =>
    obtain ⟨ip, p, hphase, rfl⟩ := step_list ht
    obtain heq | ⟨-, -, heq⟩ := addRegistered_eq s ip p
    · exact .dropped heq
    · exact .added ip p hphase heq
  | sweepPending ip => exact .swept ip (Option.some.inj ht).symm
  | tick d =>
    rw [← Option.some.inj ht]
    exact .elsewhere rfl rfl rfl rfl (Nat.le_add_right _ _)
  | login ip =>
    cases ip with
    | v4 ip =>
      rw [← Option.some.inj ht]
      exact .elsewhere rfl rfl rfl rfl (le_refl _)
    | v6 ip =>
      rw [← Option.some.inj ht]
      exact .elsewhere rfl rfl rfl rfl (le_refl _)
  | seedVerified isClient seed =>
    simp only [step] at ht
    split_ifs at ht
    rw [← Option.some.inj ht]
    exact .elsewhere rfl rfl rfl rfl (le_refl _)
  | seedList blocked data =>
    simp only [step] at ht
    split at ht
    all_goals
      rw [← Option.some.inj ht]
      exact .elsewhere rfl rfl rfl rfl (le_refl _)
  | connect ip | disconnect ip | see ip | forget ip | clean keep
  | udpList isKnownPeer senderIsClient clientIps payload =>
    rw [← Option.some.inj ht]
    exact .elsewhere rfl rfl rfl rfl (le_refl _)

/-! ### What a listing rests on -/

/-- A server was probed after it had registered itself. -/
def Probed (log : List Happening) (ip : Ipv4) (p : Pending) : Prop :=
  ∃ payload random, 6 ≤ payload.length ∧ readEntry payload = (ip, p.port) ∧
    p.challenge = challengeOf random ∧
    [.registration ip payload false,
      .probe p.number (ip, p.port + 4) (challengeOf random) p.since].Sublist log

/-- Then it answered with the challenge of the probe; it was no client either time. -/
def Proved (log : List Happening) (number : Nat) (server : SocketAddrV4) : Prop :=
  ∃ payload random time answer, 6 ≤ payload.length ∧ readEntry payload = server ∧
    echoes answer (challengeOf random) = true ∧
    [.registration server.1 payload false,
      .probe number (server.1, server.2 + 4) (challengeOf random) time,
      .answer number (server.1, server.2 + 4) answer false].Sublist log

theorem Probed.append {log : List Happening} {ip : Ipv4} {p : Pending} (h : Probed log ip p)
    (more : List Happening) : Probed (log ++ more) ip p := by
  obtain ⟨payload, random, hlen, hread, hc, hsub⟩ := h
  exact ⟨payload, random, hlen, hread, hc, hsub.trans (List.sublist_append_left _ _)⟩

theorem Proved.append {log : List Happening} {number : Nat} {server : SocketAddrV4}
    (h : Proved log number server) (more : List Happening) :
    Proved (log ++ more) number server := by
  obtain ⟨payload, random, time, answer, hlen, hread, hecho, hsub⟩ := h
  exact ⟨payload, random, time, answer, hlen, hread, hecho,
    hsub.trans (List.sublist_append_left _ _)⟩

/-- An answer that echoes the challenge proves the server that was probed. -/
theorem Probed.answer {log : List Happening} {ip : Ipv4} {p : Pending} {payload : List UInt8}
    (h : Probed log ip p) (hecho : echoes payload p.challenge = true) :
    Proved (log ++ [.answer p.number (ip, p.port + 4) payload false]) p.number (ip, p.port) := by
  obtain ⟨named, random, hlen, hread, hc, hsub⟩ := h
  exact ⟨named, random, p.since, payload, hlen, hread, hc ▸ hecho,
    hsub.append (List.Sublist.refl [_])⟩

def answers (log : List Happening) : List Nat :=
  log.filterMap fun
    | .answer number _ _ _ => some number
    | _ => none

def listings (log : List Happening) : List Nat :=
  log.filterMap fun
    | .listed number _ => some number
    | _ => none

section

variable (log : List Happening) (ip : Ipv4) (number time : Nat) (challenge : UInt32)
  (payload : List UInt8) (isClient : Bool) (server : SocketAddrV4)

@[simp] theorem answers_registration :
    answers (log ++ [.registration ip payload isClient]) = answers log := by simp [answers]

@[simp] theorem answers_probe :
    answers (log ++ [.probe number server challenge time]) = answers log := by simp [answers]

@[simp] theorem answers_answer :
    answers (log ++ [.answer number server payload isClient]) = answers log ++ [number] := by
  simp [answers]

@[simp] theorem answers_listed :
    answers (log ++ [.listed number server]) = answers log := by simp [answers]

@[simp] theorem listings_registration :
    listings (log ++ [.registration ip payload isClient]) = listings log := by simp [listings]

@[simp] theorem listings_probe :
    listings (log ++ [.probe number server challenge time]) = listings log := by simp [listings]

@[simp] theorem listings_answer :
    listings (log ++ [.answer number server payload isClient]) = listings log := by
  simp [listings]

@[simp] theorem listings_listed :
    listings (log ++ [.listed number server]) = listings log ++ [number] := by simp [listings]

end

/-- What is known of the registration that is being handled. -/
def Handled (pending : List (Ipv4 × Pending)) (log : List Happening) : Phase → Prop
  | .idle => True
  | .checked server | .unlisted server => ∃ payload, 6 ≤ payload.length ∧
    readEntry payload = server ∧ .registration server.1 payload false ∈ log
  | .echoed ip p payload => Probed log ip p ∧ echoes payload p.challenge = true ∧
    p.number ∉ answers log ∧ ∀ q, (ip, q) ∈ pending → q = p
  | .answered ip p => Proved log p.number (ip, p.port) ∧ p.number ∈ answers log ∧
    p.number ∉ listings log

structure Account (pending : List (Ipv4 × Pending)) (phase : Phase) (log : List Happening)
    (probes : Nat) : Prop where
  keys : (pending.map Prod.fst).Nodup
  numbered : ∀ n dst c time, .probe n dst c time ∈ log → n < probes
  distinct : ∀ n dst c time dst' c' time', .probe n dst c time ∈ log →
    .probe n dst' c' time' ∈ log → dst = dst'
  probed : ∀ e ∈ pending, Probed log e.1 e.2
  unanswered : ∀ e ∈ pending, e.2.number ∉ answers log
  answers_lt : ∀ n ∈ answers log, n < probes
  handled : Handled pending log phase
  answered : ∀ n ∈ listings log, n ∈ answers log
  once : (listings log).Nodup
  proved : ∀ before n server after, log = before ++ .listed n server :: after →
    Proved before n server

/-- What is handled stays so as the log grows by a registration, and fewer are pending. -/
theorem Handled.registration {pending pending' : List (Ipv4 × Pending)} {log : List Happening}
    {phase : Phase} (h : Handled pending log phase) (hsub : pending' ⊆ pending)
    {more : List Happening} (ha : answers more = []) (hl : listings more = []) :
    Handled pending' (log ++ more) phase := by
  have hanswers : answers (log ++ more) = answers log := by
    rw [answers, List.filterMap_append]
    exact (congrArg (answers log ++ ·) ha).trans (List.append_nil _)
  have hlistings : listings (log ++ more) = listings log := by
    rw [listings, List.filterMap_append]
    exact (congrArg (listings log ++ ·) hl).trans (List.append_nil _)
  cases phase with
  | idle => trivial
  | checked server | unlisted server =>
    obtain ⟨payload, hlen, hread, hmem⟩ := h
    exact ⟨payload, hlen, hread, List.mem_append_left _ hmem⟩
  | echoed ip p payload =>
    obtain ⟨hprobed, hecho, hopen, hsame⟩ := h
    exact ⟨hprobed.append more, hecho, hanswers ▸ hopen, fun q hq => hsame q (hsub hq)⟩
  | answered ip p =>
    obtain ⟨hproved, hanswer, hopen⟩ := h
    exact ⟨hproved.append more, hanswers ▸ hanswer, hlistings ▸ hopen⟩

section

variable {pending : List (Ipv4 × Pending)} {phase : Phase} {log : List Happening} {probes : Nat}

theorem Handled.fewer {pending' : List (Ipv4 × Pending)} (h : Handled pending log phase)
    (hsub : pending' ⊆ pending) : Handled pending' log phase := by
  have hsame : Handled pending' (log ++ []) phase := h.registration hsub rfl rfl
  rwa [List.append_nil] at hsame

theorem Account.fewer (h : Account pending phase log probes) (p : Ipv4 × Pending → Bool)
    {phase' : Phase} (hh : Handled (pending.filter p) log phase') :
    Account (pending.filter p) phase' log probes :=
  { h with
    keys := h.keys.sublist (List.filter_sublist.map _)
    probed := fun e he => h.probed e (List.mem_of_mem_filter he)
    unanswered := fun e he => h.unanswered e (List.mem_of_mem_filter he)
    handled := hh }

theorem Account.registration (h : Account pending phase log probes) {src : Ipv4}
    {payload : List UInt8} {isClient : Bool} {phase' : Phase}
    (hh : Handled pending (log ++ [.registration src payload isClient]) phase') :
    Account pending phase' (log ++ [.registration src payload isClient]) probes where
  keys := h.keys
  numbered n dst c time hn := h.numbered n dst c time (by simpa using hn)
  distinct n dst c time dst' c' time' hn hn' :=
    h.distinct n dst c time dst' c' time' (by simpa using hn) (by simpa using hn')
  probed e he := (h.probed e he).append _
  unanswered e he := by simpa using h.unanswered e he
  answers_lt n hn := h.answers_lt n (by simpa using hn)
  handled := hh
  answered n hn := by
    have := h.answered n (by simpa using hn)
    simpa using this
  once := by simpa using h.once
  proved before n server after hsplit := by
    obtain ⟨-, -, hx⟩ | ⟨after', -, hlog⟩ := concat_eq_split hsplit
    · cases hx
    · exact h.proved before n server after' hlog

theorem Account.probe (h : Account pending (.unlisted server) log probes) {random : UInt16}
    {time : Nat} : Account ((server.1, ⟨server.2, challengeOf random, time, probes⟩) ::
      pending.filter fun e => e.1 != server.1) .idle
      (log ++ [.probe probes (server.1, server.2 + 4) (challengeOf random) time])
      (probes + 1) where
  keys := by
    rw [List.map_cons, List.nodup_cons]
    refine ⟨?_, h.keys.sublist (List.filter_sublist.map _)⟩
    simp
  numbered n dst c time' hn := by
    obtain hn | hn := List.mem_append.mp hn
    · exact Nat.lt_succ_of_lt (h.numbered n dst c time' hn)
    · rw [List.mem_singleton, Happening.probe.injEq] at hn
      exact hn.1 ▸ Nat.lt_succ_self _
  distinct n dst c time' dst' c' time'' hn hn' := by
    obtain hn | hn := List.mem_append.mp hn <;> obtain hn' | hn' := List.mem_append.mp hn'
    · exact h.distinct n dst c time' dst' c' time'' hn hn'
    · rw [List.mem_singleton, Happening.probe.injEq] at hn'
      exact absurd (h.numbered n dst c time' hn) (hn'.1 ▸ Nat.lt_irrefl _)
    · rw [List.mem_singleton, Happening.probe.injEq] at hn
      exact absurd (h.numbered n dst' c' time'' hn') (hn.1 ▸ Nat.lt_irrefl _)
    · rw [List.mem_singleton, Happening.probe.injEq] at hn hn'
      rw [hn.2.1, hn'.2.1]
  probed := by
    obtain ⟨payload, hlen, hread, hmem⟩ := h.handled
    refine List.forall_mem_cons.mpr ⟨⟨payload, random, hlen, hread, rfl, ?_⟩, fun e he => ?_⟩
    · exact (List.singleton_sublist.mpr hmem).append (List.Sublist.refl [_])
    · exact (h.probed e (List.mem_of_mem_filter he)).append _
  unanswered := by
    rw [answers_probe]
    exact List.forall_mem_cons.mpr ⟨fun hn => Nat.lt_irrefl _ (h.answers_lt _ hn),
      fun e he => h.unanswered e (List.mem_of_mem_filter he)⟩
  answers_lt n hn := Nat.lt_succ_of_lt (h.answers_lt n (by simpa using hn))
  handled := trivial
  answered n hn := by
    have := h.answered n (by simpa using hn)
    simpa using this
  once := by simpa using h.once
  proved before n server' after hsplit := by
    obtain ⟨-, -, hx⟩ | ⟨after', -, hlog⟩ := concat_eq_split hsplit
    · cases hx
    · exact h.proved before n server' after' hlog

theorem Account.answer {ip : Ipv4} {p : Pending} {payload : List UInt8} {isClient : Bool}
    (h : Account pending (.echoed ip p payload) log probes) :
    Account (pending.filter fun e => e.1 != ip) (if isClient then .idle else .answered ip p)
      (log ++ [.answer p.number (ip, p.port + 4) payload isClient]) probes where
  keys := h.keys.sublist (List.filter_sublist.map _)
  numbered n dst c time hn := h.numbered n dst c time (by simpa using hn)
  distinct n dst c time dst' c' time' hn hn' :=
    h.distinct n dst c time dst' c' time' (by simpa using hn) (by simpa using hn')
  probed e he := (h.probed e (List.mem_of_mem_filter he)).append _
  unanswered e he := by
    obtain ⟨hmem, hne⟩ := List.mem_filter.mp he
    have hopen := h.unanswered e hmem
    -- a probe has one number, so those to other addresses are still open
    have hnumber : e.2.number ≠ p.number := by
      intro heq
      obtain ⟨_, random, -, -, -, hsub⟩ := h.probed e hmem
      obtain ⟨_, random', -, -, -, hsub'⟩ := h.handled.1
      have hprobe := hsub.subset (List.mem_cons_of_mem _ (List.mem_singleton_self _))
      have hprobe' := hsub'.subset (List.mem_cons_of_mem _ (List.mem_singleton_self _))
      rw [heq] at hprobe
      have hdst := h.distinct _ _ _ _ _ _ _ hprobe hprobe'
      simp only [Prod.mk.injEq] at hdst
      simp [hdst.1] at hne
    rw [answers_answer, List.mem_append, List.mem_singleton, not_or]
    exact ⟨hopen, hnumber⟩
  answers_lt n hn := by
    rw [answers_answer, List.mem_append, List.mem_singleton] at hn
    obtain hn | rfl := hn
    · exact h.answers_lt n hn
    · obtain ⟨_, random, -, -, -, hsub⟩ := h.handled.1
      exact h.numbered _ _ _ _
        (hsub.subset (List.mem_cons_of_mem _ (List.mem_singleton_self _)))
  handled := by
    obtain ⟨hprobed, hecho, hopen, -⟩ := h.handled
    split_ifs with hclient
    · trivial
    · obtain rfl : isClient = false := by simpa using hclient
      refine ⟨hprobed.answer hecho, by simp, fun hn => hopen (h.answered _ ?_)⟩
      rwa [listings_answer] at hn
  answered n hn := by
    rw [answers_answer]
    exact List.mem_append_left _ (h.answered n (by rwa [listings_answer] at hn))
  once := by simpa using h.once
  proved before n server' after hsplit := by
    obtain ⟨-, -, hx⟩ | ⟨after', -, hlog⟩ := concat_eq_split hsplit
    · cases hx
    · exact h.proved before n server' after' hlog

theorem Account.listed {ip : Ipv4} {p : Pending}
    (h : Account pending (.answered ip p) log probes) :
    Account pending .idle (log ++ [.listed p.number (ip, p.port)]) probes where
  keys := h.keys
  numbered n dst c time hn := h.numbered n dst c time (by simpa using hn)
  distinct n dst c time dst' c' time' hn hn' :=
    h.distinct n dst c time dst' c' time' (by simpa using hn) (by simpa using hn')
  probed e he := (h.probed e he).append _
  unanswered e he := by simpa using h.unanswered e he
  answers_lt n hn := h.answers_lt n (by simpa using hn)
  handled := trivial
  answered n hn := by
    rw [answers_listed]
    rw [listings_listed, List.mem_append, List.mem_singleton] at hn
    obtain hn | rfl := hn
    · exact h.answered n hn
    · exact h.handled.2.1
  once := by
    rw [listings_listed, List.nodup_append]
    exact ⟨h.once, List.nodup_singleton _, fun a ha b hb hab =>
      h.handled.2.2 (List.mem_singleton.mp hb ▸ hab ▸ ha)⟩
  proved before n server after hsplit := by
    obtain ⟨-, rfl, hx⟩ | ⟨after', -, hlog⟩ := concat_eq_split hsplit
    · rw [Happening.listed.injEq] at hx
      obtain ⟨rfl, rfl⟩ := hx
      exact h.handled.1
    · exact h.proved before n server after' hlog

end

theorem Account.step {e : Event} (h : Account s.pending s.phase s.log s.probes)
    (ht : step cfg s e = some t) : Account t.pending t.phase t.log t.probes := by
  obtain ⟨hpending, hphase, hlog, hprobes, -⟩ | ⟨ip, rfl⟩ | ⟨src, payload, phase, rfl, hphase⟩ |
    rfl | ⟨server, hphase, rfl⟩ | ⟨server, random, hphase, -, rfl⟩ |
    ⟨ip, p, payload, hp, hecho, rfl⟩ | ⟨ip, p, payload, hphase, rfl⟩ | ⟨ip, p, hphase, rfl⟩ :=
    moved_of_step ht
  · rw [hpending, hphase, hlog, hprobes]
    exact h
  · exact h.fewer _ (h.handled.fewer fun e he => List.mem_of_mem_filter he)
  · refine h.registration ?_
    obtain rfl | ⟨server, hnamed, hclient, rfl⟩ := hphase
    · exact h.handled.registration (List.Subset.refl _) (by simp [answers]) (by simp [listings])
    · obtain ⟨hread, hlen, rfl, -⟩ := namedServer_eq_some hnamed
      exact ⟨payload, hlen, hread, List.mem_append_right _ (by simp [hclient])⟩
  · exact { h with handled := trivial }
  · have := h.handled
    rw [hphase] at this
    exact { h with handled := this }
  · rw [hphase] at h
    exact h.probe
  · have hmem := mem_of_lookup hp
    exact { h with handled := ⟨h.probed _ hmem, hecho, h.unanswered _ hmem,
      fun q hq => eq_of_mem h.keys hq hmem⟩ }
  · rw [hphase] at h
    exact h.answer
  · rw [hphase] at h
    exact h.listed

theorem account_init (now : Nat) :
    Account (init now).pending (init now).phase (init now).log (init now).probes :=
  ⟨List.nodup_nil, nofun, nofun, nofun, nofun, nofun, trivial, nofun, List.nodup_nil,
    fun before n server after h => by simp [init] at h⟩

theorem account_run {now : Nat} {es : List Event}
    (hrun : exec (ServerList.step cfg) (init now) es = some s) :
    Account s.pending s.phase s.log s.probes := by
  have hstep : ∀ (s : State) (e : Event) (t : State), Account s.pending s.phase s.log s.probes →
      ServerList.step cfg s e = some t → Account t.pending t.phase t.log t.probes :=
    fun _ _ _ h ht => h.step ht
  exact exec_invariant hstep (account_init now) hrun

/-! ### Probes to one address -/

/-- The probe was answered in the log. -/
def AnsweredIn (log : List Happening) (number : Nat) : Prop :=
  ∃ src payload isClient, .answer number src payload isClient ∈ log

/-- A probe to an address less than its time after another comes after the answer to that. -/
def Spaced (log : List Happening) : Prop :=
  ∀ before n dst c time between n' dst' c' time' after,
    log = before ++ .probe n dst c time :: (between ++ .probe n' dst' c' time' :: after) →
      dst.1 = dst'.1 → time' < time + PENDING_TTL → AnsweredIn between n

structure Open (s : State) : Prop where
  /-- A probe that was not answered is pending, or its time is over. -/
  waits : ∀ before n dst c time after, s.log = before ++ .probe n dst c time :: after →
    AnsweredIn after n ∨ (∃ p, (dst.1, p) ∈ s.pending ∧ p.number = n ∧ p.since = time) ∨
      time + PENDING_TTL ≤ s.now
  spaced : Spaced s.log

theorem AnsweredIn.append {log : List Happening} {number : Nat} (h : AnsweredIn log number)
    (more : List Happening) : AnsweredIn (log ++ more) number := by
  obtain ⟨src, payload, isClient, hmem⟩ := h
  exact ⟨src, payload, isClient, List.mem_append_left _ hmem⟩

/-- What is no probe breaks no spacing. -/
theorem Spaced.append {log : List Happening} {x : Happening} (h : Spaced log)
    (hx : ∀ n dst c time, x ≠ .probe n dst c time) : Spaced (log ++ [x]) := by
  intro before n dst c time between n' dst' c' time' after hsplit hdst hlt
  obtain ⟨hnil, -, -⟩ | ⟨after', hafter, hlog⟩ := concat_eq_split hsplit
  · exact absurd hnil (by simp)
  · obtain ⟨-, -, hx'⟩ | ⟨after'', -, hlog'⟩ := concat_eq_split hafter.symm
    · exact absurd hx' (hx _ _ _ _)
    · exact h before n dst c time between n' dst' c' time' after'' (hlog' ▸ hlog) hdst hlt

/-- What is no probe leaves every probe answered, pending or out of time, as far as it leaves
the pending ones. -/
theorem Open.append (h : Open s) {x : Happening} (hx : ∀ n dst c time, x ≠ .probe n dst c time)
    (hlog : t.log = s.log ++ [x]) (hnow : s.now ≤ t.now)
    (hpending : ∀ ip p, (ip, p) ∈ s.pending → AnsweredIn [x] p.number ∨ (ip, p) ∈ t.pending) :
    Open t := by
  refine ⟨fun before n dst c time after hsplit => ?_, hlog ▸ h.spaced.append hx⟩
  rw [hlog] at hsplit
  obtain ⟨-, -, hx'⟩ | ⟨after', rfl, hlog'⟩ := concat_eq_split hsplit
  · exact absurd hx' (hx _ _ _ _)
  · obtain hanswer | ⟨p, hmem, rfl, rfl⟩ | hover := h.waits _ _ _ _ _ _ hlog'
    · exact .inl (hanswer.append _)
    · obtain ⟨src, payload, isClient, hin⟩ | hmem := hpending _ _ hmem
      · exact .inl ⟨src, payload, isClient, List.mem_append_right _ hin⟩
      · exact .inr (.inl ⟨p, hmem, rfl, rfl⟩)
    · exact .inr (.inr (hover.trans hnow))

/-- The same, where nothing happens. -/
theorem Open.quiet (h : Open s) (hlog : t.log = s.log) (hnow : s.now ≤ t.now)
    (hpending : ∀ ip p, (ip, p) ∈ s.pending →
      (ip, p) ∈ t.pending ∨ p.since + PENDING_TTL ≤ t.now) : Open t := by
  refine ⟨fun before n dst c time after hsplit => ?_, hlog ▸ h.spaced⟩
  obtain hanswer | ⟨p, hmem, rfl, rfl⟩ | hover := h.waits _ _ _ _ _ _ (hlog ▸ hsplit)
  · exact .inl hanswer
  · obtain hmem | hover := hpending _ _ hmem
    · exact .inr (.inl ⟨p, hmem, rfl, rfl⟩)
    · exact .inr (.inr hover)
  · exact .inr (.inr (hover.trans hnow))

/-- A new probe comes after the answer to every other to the address that is not old. -/
theorem Open.probe (h : Open s) (hkeys : (s.pending.map Prod.fst).Nodup)
    {challenge : UInt32} (server : SocketAddrV4)
    (hold : ∀ p, s.pending.lookup server.1 = some p → PENDING_TTL ≤ s.now - p.since)
    (hlog : t.log = s.log ++ [.probe s.probes (server.1, server.2 + 4) challenge s.now])
    (hnow : t.now = s.now)
    (hpending : t.pending = (server.1, ⟨server.2, challenge, s.now, s.probes⟩) ::
      s.pending.filter fun e => e.1 != server.1) : Open t := by
  have hpos : 0 < PENDING_TTL := by decide
  have hover : ∀ p, (server.1, p) ∈ s.pending → p.since + PENDING_TTL ≤ s.now := by
    intro p hmem
    have := hold p (lookup_of_mem hkeys hmem)
    omega
  constructor
  · intro before n dst c time after hsplit
    rw [hlog] at hsplit
    rw [hpending, hnow]
    obtain ⟨rfl, rfl, hx⟩ | ⟨after', rfl, hlog'⟩ := concat_eq_split hsplit
    · rw [Happening.probe.injEq] at hx
      obtain ⟨rfl, rfl, rfl, rfl⟩ := hx
      exact .inr (.inl ⟨_, List.mem_cons_self, rfl, rfl⟩)
    · obtain hanswer | ⟨p, hmem, rfl, rfl⟩ | hover' := h.waits _ _ _ _ _ _ hlog'
      · exact .inl (hanswer.append _)
      · by_cases hdst : dst.1 = server.1
        · exact .inr (.inr (hover p (hdst ▸ hmem)))
        · refine .inr (.inl ⟨p, List.mem_cons_of_mem _ (List.mem_filter.mpr ⟨hmem, ?_⟩), rfl, rfl⟩)
          simpa using hdst
      · exact .inr (.inr hover')
  · intro before n dst c time between n' dst' c' time' after hsplit hdst hlt
    rw [hlog] at hsplit
    obtain ⟨hnil, -, -⟩ | ⟨after', hafter, hlog'⟩ := concat_eq_split hsplit
    · exact absurd hnil (by simp)
    · obtain ⟨-, rfl, hx⟩ | ⟨after'', -, rfl⟩ := concat_eq_split hafter.symm
      · rw [Happening.probe.injEq] at hx
        obtain ⟨rfl, rfl, rfl, rfl⟩ := hx
        obtain hanswer | ⟨p, hmem, -, rfl⟩ | hover' := h.waits _ _ _ _ _ _ hlog'
        · exact hanswer
        · exact absurd (hover p (hdst ▸ hmem)) (Nat.not_le_of_lt hlt)
        · exact absurd hover' (Nat.not_le_of_lt hlt)
      · exact h.spaced before n dst c time between n' dst' c' time' after'' hlog' hdst hlt

theorem Open.step {e : Event} (h : Open s) (ha : Account s.pending s.phase s.log s.probes)
    (ht : step cfg s e = some t) : Open t := by
  obtain ⟨hpending, -, hlog, -, hnow⟩ | ⟨ip, rfl⟩ | ⟨src, payload, phase, rfl, -⟩ |
    rfl | ⟨server, -, rfl⟩ | ⟨server, random, -, hold, rfl⟩ |
    ⟨ip, p, payload, -, -, rfl⟩ | ⟨ip, p, payload, hphase, rfl⟩ | ⟨ip, p, -, rfl⟩ :=
    moved_of_step ht
  · exact h.quiet hlog hnow fun ip p hmem => .inl (hpending ▸ hmem)
  · refine h.quiet rfl (le_refl _) fun ip' p hmem => ?_
    by_cases hfresh : s.now - p.since < PENDING_TTL
    · exact .inl (List.mem_filter.mpr ⟨hmem, by simp [hfresh]⟩)
    · have hpos : 0 < PENDING_TTL := by decide
      right
      dsimp only
      omega
  · exact h.append (by simp) rfl (le_refl _) fun ip p hmem => .inr hmem
  · exact h.quiet rfl (le_refl _) fun ip p hmem => .inl hmem
  · exact h.quiet rfl (le_refl _) fun ip p hmem => .inl hmem
  · exact h.probe ha.keys server hold rfl rfl rfl
  · exact h.quiet rfl (le_refl _) fun ip p hmem => .inl hmem
  · refine h.append (x := .answer p.number (ip, p.port + 4) payload (s.isClient ip)) (by simp) rfl
      (le_refl _) fun ip' q hmem => ?_
    have hhandled := ha.handled
    rw [hphase] at hhandled
    by_cases heq : ip' = ip
    · obtain rfl := hhandled.2.2.2 q (heq ▸ hmem)
      exact .inl ⟨_, _, _, List.mem_singleton_self _⟩
    · exact .inr (List.mem_filter.mpr ⟨hmem, by simpa using heq⟩)
  · exact h.append (by simp) rfl (le_refl _) fun ip p hmem => .inr hmem

end Ed2kServer.Server.Registration
