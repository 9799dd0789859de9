import Ed2kServer.Server.TakeoverProbe

namespace Ed2kServer.Server.TakeoverProbePace

open Ed2kServer.Lib.Transition Ed2kServer.Server.TakeoverProbe

variable {Source : Type}

/-- No session has two frames within the wait and the cool-down. -/
def Spaced (pushed : List (Session × Nat)) : Prop :=
  pushed.Pairwise fun later earlier =>
    later.1 = earlier.1 → earlier.2 + TAKEOVER_PROBE_WAIT + TAKEOVER_PROBE_COOLDOWN ≤ later.2

/-- A waiter that finds its session gone removes no entry, or one that was put in for a session
that is gone, too. -/
def careful (s : State Source) : Event → Bool
  | .poll p =>
    match s.phase p with
    | .waiting prev deadline _ =>
      s.isAlive prev || decide (deadline ≤ s.now) || s.takeoverProbes.isNone ||
        s.started.head?.all fun x => !s.isAlive x.1
    | _ => true
  | _ => true

/-- What holds in every run. -/
structure Sound (s : State Source) : Prop where
  prev : ∀ p q, (s.phase p).prev = some q → (s.phase q).wasOnline = true
  gone : ∀ p q, s.phase p = .answered q true → s.phase q = .ended
  started : ∀ x ∈ s.started, (s.phase x.1).wasOnline = true
  pushed : s.pushed ⊆ s.started

/-- A live session that was probed not long ago has the table's entry. -/
structure Paced (s : State Source) : Prop where
  current : ∀ x ∈ s.started, s.phase x.1 = .online →
    s.now < x.2 + TAKEOVER_PROBE_WAIT + TAKEOVER_PROBE_COOLDOWN →
    s.started.head? = some x ∧ s.takeoverProbes = some x.2
  spaced : Spaced s.pushed

variable {source : Session → Source} {s t : State Source} {e : Event} {p q prev : Session}

/-- The step changes one phase at most: of a connection that was never online, or at the end of a
session. -/
theorem phases_of_moved (h : Moved s e t) :
    t.phase = s.phase ∨ ∃ p phase, t.phase = Function.update s.phase p phase ∧
      ((s.phase p).wasOnline = false ∨ s.phase p = .online ∧ phase = .ended) := by
  cases h with
  | tick | unregister | sweep => exact .inl rfl
  | move e p phase lost before => exact .inr ⟨p, phase, rfl, .inl before⟩
  | start p prev room deadline before => exact .inr ⟨p, _, rfl, .inl (by rw [before]; rfl)⟩
  | forget p prev deadline wake before => exact .inr ⟨p, _, rfl, .inl (by rw [before]; rfl)⟩
  | login p before => exact .inr ⟨p, _, rfl, .inl before⟩
  | quit p before => exact .inr ⟨p, _, rfl, .inr ⟨before, rfl⟩⟩

theorem wasOnline_of_moved (h : Moved s e t) (hq : (s.phase q).wasOnline = true) :
    (t.phase q).wasOnline = true := by
  obtain hsame | ⟨p, phase, hphase, hp⟩ := phases_of_moved h
  · rwa [hsame]
  · rw [hphase, Function.update_apply]
    split_ifs with hqp
    · rw [← hqp, hq] at hp
      obtain hp | ⟨-, rfl⟩ := hp
      · cases hp
      · rfl
    · exact hq

theorem ended_of_moved (h : Moved s e t) (hq : s.phase q = .ended) : t.phase q = .ended := by
  obtain hsame | ⟨p, phase, hphase, hp⟩ := phases_of_moved h
  · rwa [hsame]
  · rw [hphase, Function.update_apply]
    split_ifs with hqp
    · rw [← hqp, hq] at hp
      obtain hp | ⟨hp, -⟩ := hp <;> cases hp
    · exact hq

/-- Where a session was known, it is online only if it was. -/
theorem online_of_moved (h : Moved s e t) (hq : (s.phase q).wasOnline = true)
    (hq' : t.phase q = .online) : s.phase q = .online := by
  cases hphase : s.phase q with
  | online => rfl
  | ended =>
    rw [ended_of_moved h hphase] at hq'
    cases hq'
  | _ =>
    rw [hphase] at hq
    cases hq

theorem ended_of_gone (hq : (s.phase q).wasOnline = true) (hgone : s.phase q ≠ .online) :
    s.phase q = .ended := by
  cases hphase : s.phase q with
  | online => exact absurd hphase hgone
  | ended => rfl
  | _ =>
    rw [hphase] at hq
    cases hq

theorem sound_init : Sound (init : State Source) :=
  ⟨nofun, nofun, nofun, List.Subset.refl _⟩

/-- A connection's new phase is about a session that was online, and ended if it says so. -/
theorem Sound.goTo (h : Sound s) (hm : Moved s e t) {phase : Phase}
    (hphase : t.phase = Function.update s.phase p phase)
    (hprev : ∀ q, phase.prev = some q → (s.phase q).wasOnline = true)
    (hgone : ∀ q, phase = .answered q true → s.phase q ≠ .online)
    (hstarted : ∀ x ∈ t.started, x ∈ s.started ∨ (s.phase x.1).wasOnline = true)
    (hpushed : t.pushed ⊆ t.started) : Sound t := by
  refine ⟨fun p' q hq => ?_, fun p' q hq => ?_, fun x hx => ?_, hpushed⟩
  · rw [hphase, Function.update_apply] at hq
    split_ifs at hq
    · exact wasOnline_of_moved hm (hprev q hq)
    · exact wasOnline_of_moved hm (h.prev p' q hq)
  · rw [hphase, Function.update_apply] at hq
    split_ifs at hq
    · exact ended_of_moved hm (ended_of_gone (hprev q (by rw [hq]; rfl)) (hgone q hq))
    · exact ended_of_moved hm (h.gone p' q hq)
  · rcases hstarted x hx with hx | hx
    · exact wasOnline_of_moved hm (h.started x hx)
    · exact wasOnline_of_moved hm hx

theorem sound_moved (h : Sound s) (hm : Moved s e t) : Sound t := by
  cases hm with
  | tick | unregister | sweep => exact ⟨h.prev, h.gone, h.started, h.pushed⟩
  | move e p phase lost before after prev gone =>
    refine h.goTo (.move e p phase lost before after prev gone) rfl (fun q hq => ?_) gone
      (fun x hx => .inl hx) h.pushed
    rcases prev q hq with hq | hq
    · exact h.prev p q hq
    · rw [hq]
      rfl
  | start p prev room deadline before idle =>
    have hprev : (s.phase prev).wasOnline = true := h.prev p prev (by rw [before]; rfl)
    refine h.goTo (.start p prev room deadline before idle) rfl (fun q hq => ?_) nofun
      (fun x hx => ?_) ?_
    · rw [← Option.some.inj hq]
      exact hprev
    · rcases List.mem_cons.mp hx with rfl | hx
      · exact .inr hprev
      · exact .inl hx
    · change (if room && s.isAlive prev then (prev, s.now) :: s.pushed else s.pushed) ⊆
        (prev, s.now) :: s.started
      split_ifs
      · exact List.cons_subset_cons _ h.pushed
      · exact List.subset_cons_of_subset _ h.pushed
  | forget p prev deadline wake before running gone =>
    refine h.goTo (.forget p prev deadline wake before running gone) rfl (fun q hq => ?_)
      (fun q hq => ?_) (fun x hx => .inl hx) h.pushed
    · rw [← Option.some.inj hq]
      exact h.prev p prev (by rw [before]; rfl)
    · obtain ⟨rfl, -⟩ := Phase.answered.inj hq
      exact gone
  | login p before =>
    exact h.goTo (.login p before) rfl nofun nofun (fun x hx => .inl hx) h.pushed
  | quit p before =>
    exact h.goTo (.quit p before) rfl nofun nofun (fun x hx => .inl hx) h.pushed

theorem paced_init : Paced (init : State Source) := ⟨nofun, .nil⟩

/-- A step that leaves the table and the history alone. -/
theorem Paced.keep (h : Paced s) (hsound : Sound s) (hm : Moved s e t) (hnow : s.now ≤ t.now)
    (hstarted : t.started = s.started) (hpushed : t.pushed = s.pushed)
    (hprobes : ∀ x, s.takeoverProbes = some x →
      s.now < x + TAKEOVER_PROBE_WAIT + TAKEOVER_PROBE_COOLDOWN → t.takeoverProbes = some x) :
    Paced t := by
  refine ⟨fun x hx hlive hrecent => ?_, hpushed ▸ h.spaced⟩
  rw [hstarted] at hx ⊢
  have hrecent' := Nat.lt_of_le_of_lt hnow hrecent
  obtain ⟨hhead, hprobe⟩ :=
    h.current x hx (online_of_moved hm (hsound.started x hx) hlive) hrecent'
  exact ⟨hhead, hprobes x.2 hprobe hrecent'⟩

theorem paced_moved (hsound : Sound s) (h : Paced s) (hc : careful s e = true)
    (hm : Moved s e t) : Paced t := by
  cases hm with
  | tick d =>
    exact h.keep hsound (.tick d) (Nat.le_add_right _ _) rfl rfl fun _ hx _ => hx
  | move e p phase lost before after prev gone =>
    exact h.keep hsound (.move e p phase lost before after prev gone) (Nat.le_refl _) rfl rfl
      fun _ hx _ => hx
  | start p prev room deadline before idle =>
    have hold : ∀ x ∈ s.started, s.phase x.1 = .online →
        x.2 + TAKEOVER_PROBE_WAIT + TAKEOVER_PROBE_COOLDOWN ≤ s.now := by
      intro x hx hlive
      by_contra hrecent
      have hidle := idle x.2 (h.current x hx hlive (Nat.lt_of_not_le hrecent)).2
      rw [TAKEOVER_PROBE_WAIT, TAKEOVER_PROBE_COOLDOWN] at hidle hrecent
      omega
    refine ⟨fun x hx hlive hrecent => ?_, ?_⟩
    · rcases List.mem_cons.mp hx with rfl | hx
      · exact ⟨rfl, rfl⟩
      · have hlive' := online_of_moved (.start p prev room deadline before idle)
          (hsound.started x hx) hlive
        exact absurd hrecent (Nat.not_lt.mpr (hold x hx hlive'))
    · change Spaced (if room && s.isAlive prev then (prev, s.now) :: s.pushed else s.pushed)
      split_ifs with hpush
      · refine List.pairwise_cons.mpr ⟨fun x hx heq => ?_, h.spaced⟩
        rw [Bool.and_eq_true] at hpush
        refine hold x (hsound.pushed hx) ?_
        rw [← heq]
        exact of_decide_eq_true hpush.2
      · exact h.spaced
  | forget p prev deadline wake before running gone =>
    refine ⟨fun x hx hlive hrecent => ?_, h.spaced⟩
    have hlive' := online_of_moved (.forget p prev deadline wake before running gone)
      (hsound.started x hx) hlive
    obtain ⟨hhead, hprobe⟩ := h.current x hx hlive' hrecent
    have halive : s.isAlive x.1 = true := decide_eq_true hlive'
    rw [careful, before, hhead, hprobe] at hc
    simp [not_alive.mpr gone, halive, Nat.not_le.mpr running] at hc
  | login p before =>
    exact h.keep hsound (.login p before) (Nat.le_refl _) rfl rfl fun _ hx _ => hx
  | quit p before =>
    exact h.keep hsound (.quit p before) (Nat.le_refl _) rfl rfl fun _ hx _ => hx
  | unregister p =>
    exact h.keep hsound (.unregister p) (Nat.le_refl _) rfl rfl fun _ hx _ => hx
  | sweep probes lost kept =>
    refine h.keep hsound (.sweep probes lost kept) (Nat.le_refl _) rfl rfl fun x hx hrecent => ?_
    refine kept x hx ?_
    rw [TAKEOVER_PROBE_WAIT, TAKEOVER_PROBE_COOLDOWN] at hrecent
    rw [PROBES_SWEPT]
    omega

theorem sound_run [DecidableEq Source] {es : List Event}
    (hrun : exec (step source) init es = some s) : Sound s :=
  exec_invariant (fun _ _ _ h ht => sound_moved h (moved_of_step ht)) sound_init hrun

theorem paced_run [DecidableEq Source] {es : List Event}
    (hc : Along (step source) (fun s e => careful s e = true) init es)
    (hrun : exec (step source) init es = some s) : Paced s := by
  have hkeep : ∀ s e t, Sound s ∧ Paced s → careful s e = true → step source s e = some t →
      Sound t ∧ Paced t :=
    fun s e t h hc ht =>
      ⟨sound_moved h.1 (moved_of_step ht), paced_moved h.1 h.2 hc (moved_of_step ht)⟩
  exact (exec_invariant_along hkeep ⟨sound_init, paced_init⟩ hc hrun).2

/-- A session that is taken for gone has ended; and in a run whose waiters remove no entry of a
live session, no session gets two frames within the wait and the cool-down. -/
theorem probes_paced [DecidableEq Source] (source : Session → Source) {es : List Event}
    (hrun : exec (step source) init es = some s) :
    (∀ p prev, s.phase p = .answered prev true → s.phase prev = .ended) ∧
      (Along (step source) (fun s e => careful s e = true) init es → Spaced s.pushed) :=
  ⟨(sound_run hrun).gone, fun hc => (paced_run hc hrun).spaced⟩

/-- A login that finds another session online and gets to the table. -/
def contests (p : Session) : List Event := [.contest p, .consider p, .ask p, .enter p true]

/-- Two contenders for the session 0, which ends; the first one follows it. -/
def followed : List Event :=
  [.login 0] ++ contests 1 ++ [.poll 1, .tick 50000000] ++ contests 2 ++
    [.poll 2, .tick 100000000, .quit 0, .tick 50000000, .poll 1, .settle 1, .tick 10000000,
      .login 1, .tick 10000000]

/-- The third contender probes the new session; the second one forgets that, and the fourth probes
it again. -/
def contestedAgain : List Event :=
  followed ++ contests 3 ++ [.tick 30000000, .poll 2, .tick 10000000] ++ contests 4

theorem probes_paced_followed : ∃ s, exec (step id) init followed = some s ∧
    (∀ p prev, s.phase p = .answered prev true → s.phase prev = .ended) ∧ Spaced s.pushed := by
  have hsome : (exec (step id) init followed).isSome = true := by decide
  obtain ⟨s, hs⟩ := Option.isSome_iff_exists.mp hsome
  have hc : Along (step id) (fun s e => careful s e = true) init followed := by decide
  obtain ⟨hgone, hspaced⟩ := probes_paced id hs
  exact ⟨s, hs, hgone, hspaced hc⟩

/-- Two frames within 40 ms. -/
theorem probed_twice : ∃ s, exec (step id) init contestedAgain = some s ∧
    s.phase 1 = .online ∧
    s.pushed = [(1, 260000000), (1, 220000000), (0, 0)] ∧ ¬Spaced s.pushed := by
  have hrun : (exec (step id) init contestedAgain).map (fun s => (s.phase 1, s.pushed)) =
      some (.online, [(1, 260000000), (1, 220000000), (0, 0)]) := by decide
  obtain ⟨s, hs, heq⟩ := Option.map_eq_some_iff.mp hrun
  obtain ⟨hlive, hpushed⟩ := Prod.mk.inj heq
  refine ⟨s, hs, hlive, hpushed, fun hspaced => ?_⟩
  rw [hpushed, Spaced, List.pairwise_cons] at hspaced
  have hgap := hspaced.1 (1, 220000000) List.mem_cons_self rfl
  rw [TAKEOVER_PROBE_WAIT, TAKEOVER_PROBE_COOLDOWN] at hgap
  omega

end Ed2kServer.Server.TakeoverProbePace
