import Ed2kServer.Admin.Auth
import Ed2kServer.Lib.History

namespace Ed2kServer.Admin.Lockout

open Ed2kServer.Admin.Auth Ed2kServer.Lib.Assoc Ed2kServer.Lib.History
open Ed2kServer.Lib.Transition Ed2kServer.Sources.Address
open Ed2kServer.Server.Login (canon toIpv4Mapped)

variable {s t : State} {ip : IpAddr} {k : IpAddr}

/-- The address of the attempt. -/
def phaseIp : Phase → Option IpAddr
  | .tested ip | .waiting ip | .holding ip | .checking ip => some ip
  | .away | .releasing | .leaving => none

/-- The attempt has the slot. -/
def holds : Phase → Bool
  | .holding _ | .checking _ | .releasing => true
  | .away | .tested _ | .waiting _ | .leaving => false

/-- What a step does to the failures and the log. -/
inductive Moved (s : State) (e : Event) (t : State) : Prop
  | quiet (hf : t.failures = s.failures) (hlog : t.log = s.log) (hnow : s.now ≤ t.now)
      (hphase : ∀ j ip, t.phase j = .checking ip → s.phase j = .checking ip)
  | locked (i : Nat) (ip : IpAddr) (hip : e = .arrive i ip ∨ phaseIp (s.phase i) = some ip)
      (hlocked : (s.failures.lockedFor ip s.now).isSome)
      (hf : t.failures = s.failures) (hlog : t.log = s.log ++ [.locked ip s.now])
      (hnow : t.now = s.now) (hphase : ∀ j ip, t.phase j = .checking ip → s.phase j = .checking ip)
  | busy (i : Nat) (ip : IpAddr) (hip : phaseIp (s.phase i) = some ip)
      (hremote : isLoopback ip = false)
      (hf : t.failures = s.failures) (hlog : t.log = s.log ++ [.busy ip s.now])
      (hnow : t.now = s.now) (hphase : ∀ j ip, t.phase j = .checking ip → s.phase j = .checking ip)
  | began (i : Nat) (ip : IpAddr) (hip : phaseIp (s.phase i) = some ip)
      (hunlocked : Unlocked s.failures ip s.now)
      (hf : t.failures = s.failures) (hlog : t.log = s.log ++ [.began ip s.now])
      (hnow : t.now = s.now)
      (hphase : ∀ j ip', t.phase j = .checking ip' → s.phase j = .checking ip' ∨ ip' = ip)
  | accepted (i : Nat) (ip : IpAddr) (hchecking : s.phase i = .checking ip)
      (hf : t.failures = s.failures.noteSuccess ip) (hlog : t.log = s.log ++ [.accepted ip s.now])
      (hnow : t.now = s.now)
      (hphase : ∀ j ip', t.phase j = .checking ip' → j ≠ i ∧ s.phase j = .checking ip')
  | wrong (i : Nat) (ip : IpAddr) (count : Nat) (he : e = .complete i false)
      (hchecking : s.phase i = .checking ip)
      (hf : t.failures = s.failures.noteFailure ip s.now)
      (hcount : count = (t.failures.perKey.lookup (failureKey ip)).elim 0 Prod.fst)
      (hlog : t.log = s.log ++ [.wrong ip s.now count t.failures.global.1])
      (hnow : t.now = s.now)
      (hphase : ∀ j ip', t.phase j = .checking ip' → j ≠ i ∧ s.phase j = .checking ip')

theorem checking_setPhase {i j : Nat} {p : Phase} (hp : ∀ ip, p ≠ .checking ip)
    (h : Function.update s.phase i p j = .checking ip) : j ≠ i ∧ s.phase j = .checking ip := by
  by_cases hj : j = i
  · subst hj
    rw [Function.update_self] at h
    exact absurd h (hp ip)
  · rw [Function.update_of_ne hj] at h
    exact ⟨hj, h⟩

theorem moved_of_step {e : Event} (ht : step s e = some t) : Moved s e t := by
  cases e with
  | tick d =>
    rw [← Option.some.inj ht]
    exact .quiet rfl rfl (Nat.le_add_right _ _) fun _ _ h => h
  | arrive i ip =>
    simp only [step] at ht
    cases hphase : s.phase i <;> simp only [hphase, reduceCtorEq] at ht
    cases hlock : s.failures.lockedFor ip s.now <;> rw [hlock] at ht <;>
      rw [← Option.some.inj ht]
    · exact .quiet rfl rfl (le_refl _) fun _ _ h => (checking_setPhase (by simp) h).2
    · exact .locked i ip (.inl rfl) (by rw [hlock]; rfl) rfl rfl rfl fun _ _ h => h
  | enqueue i =>
    simp only [step] at ht
    cases hphase : s.phase i <;> simp only [hphase, reduceCtorEq] at ht
    split_ifs at ht with hbusy <;> rw [← Option.some.inj ht]
    · exact .busy i _ (by rw [hphase]; rfl) (by simpa using hbusy.2) rfl rfl rfl
        fun _ _ h => (checking_setPhase (by simp) h).2
    · exact .quiet rfl rfl (le_refl _) fun _ _ h => (checking_setPhase (by simp) h).2
  | acquire i =>
    simp only [step] at ht
    cases hphase : s.phase i <;> simp only [hphase, reduceCtorEq] at ht
    cases hslot : s.slot <;> simp only [hslot, reduceCtorEq] at ht
    rw [← Option.some.inj ht]
    exact .quiet rfl rfl (le_refl _) fun _ _ h => (checking_setPhase (by simp) h).2
  | retest i =>
    simp only [step] at ht
    cases hphase : s.phase i <;> simp only [hphase, reduceCtorEq] at ht
    rename_i ip
    cases hlock : s.failures.lockedFor ip s.now <;> rw [hlock] at ht <;>
      rw [← Option.some.inj ht]
    · refine .began i ip (by rw [hphase]; rfl) (unlocked_of_lockedFor hlock) rfl rfl rfl
        fun j ip' h => ?_
      by_cases hj : j = i
      · subst hj
        right
        simpa [State.setPhase, State.happened, eq_comm] using h
      · left
        simpa [State.setPhase, State.happened, hj] using h
    · exact .locked i ip (.inr (by rw [hphase]; rfl)) (by rw [hlock]; rfl) rfl rfl rfl
        fun _ _ h => (checking_setPhase (by simp) h).2
  | complete i isRight =>
    simp only [step] at ht
    cases hphase : s.phase i <;> simp only [hphase, reduceCtorEq] at ht
    split_ifs at ht with hright <;> rw [← Option.some.inj ht]
    · exact .accepted i _ hphase rfl rfl rfl fun _ _ h => checking_setPhase (by simp) h
    · obtain rfl : isRight = false := by simpa using hright
      exact .wrong i _ _ rfl hphase rfl rfl rfl rfl fun _ _ h => checking_setPhase (by simp) h
  | release i | leave i | abandon i =>
    simp only [step] at ht
    cases hphase : s.phase i <;> simp only [hphase, reduceCtorEq] at ht
    all_goals
      rw [← Option.some.inj ht]
      exact .quiet rfl rfl (le_refl _) fun _ _ h => (checking_setPhase (by simp) h).2

/-- The slot is that of the one attempt that has it. -/
theorem slot_step {e : Event} (h : ∀ i, holds (s.phase i) = true → s.slot = some i)
    (ht : step s e = some t) : ∀ i, holds (t.phase i) = true → t.slot = some i := by
  have hset : ∀ (s : State) (i : Nat) (p : Phase),
      (∀ j, j ≠ i → holds (s.phase j) = true → s.slot = some j) →
      (holds p = true → s.slot = some i) →
      ∀ j, holds ((s.setPhase i p).phase j) = true → (s.setPhase i p).slot = some j := by
    intro s i p hothers hp j hj
    by_cases hji : j = i
    · subst hji
      rw [State.setPhase] at hj
      dsimp only at hj
      rw [Function.update_self] at hj
      exact hp hj
    · rw [State.setPhase] at hj
      dsimp only at hj
      rw [Function.update_of_ne hji] at hj
      exact hothers j hji hj
  cases e with
  | tick d =>
    rw [← Option.some.inj ht]
    exact h
  | arrive i ip =>
    simp only [step] at ht
    cases hphase : s.phase i <;> simp only [hphase, reduceCtorEq] at ht
    cases hlock : s.failures.lockedFor ip s.now <;> rw [hlock] at ht <;>
      rw [← Option.some.inj ht]
    · exact hset _ i _ (fun j _ => h j) (by simp [holds])
    · exact h
  | enqueue i =>
    simp only [step] at ht
    cases hphase : s.phase i <;> simp only [hphase, reduceCtorEq] at ht
    split_ifs at ht with hbusy <;> rw [← Option.some.inj ht]
    · exact hset _ i _ (fun j _ => h j) (by simp [holds])
    · exact hset _ i _ (fun j _ => h j) (by simp [holds])
  | acquire i =>
    simp only [step] at ht
    cases hphase : s.phase i <;> simp only [hphase, reduceCtorEq] at ht
    cases hslot : s.slot <;> simp only [hslot, reduceCtorEq] at ht
    rw [← Option.some.inj ht]
    refine hset _ i _ (fun j _ hj => ?_) fun _ => rfl
    exact absurd (h j hj) (by simp [hslot])
  | retest i =>
    simp only [step] at ht
    cases hphase : s.phase i <;> simp only [hphase, reduceCtorEq] at ht
    rename_i ip
    have hslot := h i (by rw [hphase]; rfl)
    cases hlock : s.failures.lockedFor ip s.now <;> rw [hlock] at ht <;>
      rw [← Option.some.inj ht] <;> exact hset _ i _ (fun j _ => h j) fun _ => hslot
  | complete i isRight =>
    simp only [step] at ht
    cases hphase : s.phase i <;> simp only [hphase, reduceCtorEq] at ht
    have hslot := h i (by rw [hphase]; rfl)
    split_ifs at ht <;> rw [← Option.some.inj ht] <;>
      exact hset _ i _ (fun j _ => h j) fun _ => hslot
  | release i =>
    simp only [step] at ht
    cases hphase : s.phase i <;> simp only [hphase, reduceCtorEq] at ht
    have hslot := h i (by rw [hphase]; rfl)
    rw [← Option.some.inj ht]
    refine hset _ i _ (fun j hj hheld => ?_) (by simp [holds])
    exact absurd (Option.some.inj ((h j hheld).symm.trans hslot)) hj
  | leave i =>
    simp only [step] at ht
    cases hphase : s.phase i <;> simp only [hphase, reduceCtorEq] at ht
    rw [← Option.some.inj ht]
    exact hset _ i _ (fun j _ => h j) (by simp [holds])
  | abandon i =>
    simp only [step] at ht
    cases hphase : s.phase i <;> simp only [hphase, reduceCtorEq] at ht
    all_goals
      rw [← Option.some.inj ht]
      refine hset _ i _ (fun j _ => h j) fun hp => ?_
      first
        | exact h i (by rw [hphase]; rfl)
        | exact absurd hp (by simp [holds])

/-- What is true of every run. -/
structure Core (s : State) : Prop where
  slot : ∀ i, holds (s.phase i) = true → s.slot = some i
  ready : ∀ i ip, s.phase i = .checking ip → Unlocked s.failures ip s.now
  keys : (s.failures.perKey.map Prod.fst).Nodup
  positive : ∀ e ∈ s.failures.perKey, 1 ≤ e.2.1
  globalPositive : ∀ n start, s.failures.global = (n, some start) → 1 ≤ n
  times : ∀ x ∈ s.log, x.time ≤ s.now

theorem Core.step {e : Event} (h : Core s) (ht : step s e = some t) : Core t := by
  have hslot := slot_step h.slot ht
  -- no other attempt is at its check while one completes its own
  have halone : ∀ {i : Nat} {ip : IpAddr}, s.phase i = .checking ip →
      (∀ j ip', t.phase j = .checking ip' → j ≠ i ∧ s.phase j = .checking ip') →
      ∀ j ip', t.phase j ≠ .checking ip' := by
    intro i ip hi hphase j ip' hj
    obtain ⟨hne, hold⟩ := hphase j ip' hj
    have hj' := h.slot j (by rw [hold]; rfl)
    exact hne (Option.some.inj (hj'.symm.trans (h.slot i (by rw [hi]; rfl))))
  have hconcat : ∀ {x : Happening}, x.time = s.now → t.now = s.now → t.log = s.log ++ [x] →
      ∀ y ∈ t.log, y.time ≤ t.now := by
    intro x hx hnow hlog y hy
    rw [hlog] at hy
    rw [hnow]
    obtain hy | hy := List.mem_append.mp hy
    · exact h.times y hy
    · exact (List.mem_singleton.mp hy ▸ hx).le
  cases moved_of_step ht with
  | quiet hf hlog hnow hphase =>
    exact ⟨hslot, fun i ip hi => hf ▸ (h.ready i ip (hphase i ip hi)).mono hnow, hf ▸ h.keys,
      hf ▸ h.positive, hf ▸ h.globalPositive, fun x hx => (h.times x (hlog ▸ hx)).trans hnow⟩
  | locked i ip _ _ hf hlog hnow hphase | busy i ip _ _ hf hlog hnow hphase =>
    exact ⟨hslot, fun i ip hi => by rw [hf, hnow]; exact h.ready i ip (hphase i ip hi),
      hf ▸ h.keys, hf ▸ h.positive, hf ▸ h.globalPositive, hconcat rfl hnow hlog⟩
  | began i ip _ hunlocked hf hlog hnow hphase =>
    refine ⟨hslot, fun j ip' hj => ?_, hf ▸ h.keys, hf ▸ h.positive, hf ▸ h.globalPositive,
      hconcat rfl hnow hlog⟩
    rw [hf, hnow]
    obtain hold | rfl := hphase j ip' hj
    · exact h.ready j ip' hold
    · exact hunlocked
  | accepted i ip hchecking hf hlog hnow hphase =>
    refine ⟨hslot, fun j ip' hj => absurd hj (halone hchecking hphase j ip'), ?_, ?_, ?_,
      hconcat rfl hnow hlog⟩
    · rw [hf]
      exact nodup_keys_filter h.keys _
    · rw [hf]
      exact fun e he => h.positive e (List.mem_of_mem_filter he)
    · rw [hf]
      exact h.globalPositive
  | wrong i ip count _ hchecking hf hcount hlog hnow hphase =>
    refine ⟨hslot, fun j ip' hj => absurd hj (halone hchecking hphase j ip'), ?_, ?_, ?_,
      hconcat rfl hnow hlog⟩
    · rw [hf]
      exact Failures.nodup_noteFailure h.keys
    · rw [hf]
      intro e he
      obtain hold | ⟨-, ⟨n, start, -, heq⟩ | heq⟩ := Failures.mem_noteFailure he
      · exact h.positive e hold
      · rw [heq]
        exact Nat.le_add_left _ _
      · rw [heq]
    · rw [hf, Failures.noteFailure]
      intro n start hglobal
      dsimp only at hglobal
      split_ifs at hglobal
      · exact h.globalPositive n start hglobal
      · obtain ⟨heq, -⟩ | ⟨heq, -⟩ := Failures.noteGlobal_eq s.failures.global s.now
        · rw [heq, Prod.mk.injEq] at hglobal
          omega
        · rw [heq, Prod.mk.injEq] at hglobal
          omega

theorem core_init (now : Nat) : Core (init now) :=
  ⟨nofun, nofun, List.nodup_nil, nofun, nofun, nofun⟩

/-! ### Windows -/

/-- What counts failures in windows. Each is open from the first that is counted, until it is over
or something ends it; what needs the counter is not done where it is full. -/
structure Counter where
  opens : Happening → Option Nat
  counts : Happening → Bool
  ends : Happening → Bool
  needs : Happening → Bool
  limit : Nat
  read : Failures → Option (Nat × Nat)

def keyCounter (key : IpAddr) : Counter where
  opens
    | .wrong ip time count _ => if count = 1 ∧ failureKey ip = key then some time else none
    | _ => none
  counts x := x.isWrong && decide (failureKey x.ip = key)
  ends x := x.isAccepted && decide (failureKey x.ip = key)
  needs x := x.isChecked && decide (failureKey x.ip = key)
  limit := MAX_FAILURES
  read f := f.perKey.lookup key

def globalCounter : Counter where
  opens
    | .wrong ip time _ global => if global = 1 ∧ isLoopback ip = false then some time else none
    | _ => none
  counts x := x.isWrong && !isLoopback x.ip
  ends _ := false
  needs x := x.isChecked && !isLoopback x.ip
  limit := MAX_GLOBAL_FAILURES
  read f := f.global.2.map fun start => (f.global.1, start)

variable {c : Counter}

/-- In a window no more than the limit is counted, and after that many nothing is done that needs
the counter. -/
def Windowed (c : Counter) (log : List Happening) : Prop :=
  ∀ before x start window after, log = before ++ x :: (window ++ after) → c.opens x = some start →
    (∀ y ∈ window, c.ends y = false) → (∀ y ∈ window, y.time < start + FAILURE_WINDOW) →
      1 + window.countP c.counts ≤ c.limit ∧
      ∀ y rest, after = y :: rest → c.needs y = true → y.time < start + FAILURE_WINDOW →
        1 + window.countP c.counts < c.limit

/-- While a window lasts, the counter has it, with what was counted in it. -/
def Tracked (c : Counter) (s : State) : Prop :=
  ∀ before x start after, s.log = before ++ x :: after → c.opens x = some start →
    (∀ y ∈ after, c.ends y = false) → s.now < start + FAILURE_WINDOW →
      c.read s.failures = some (1 + after.countP c.counts, start)

/-- The windows of a log that grew by an event, if none was full that it would go on. -/
theorem Windowed.append {log : List Happening} {x : Happening} (hpos : 1 ≤ c.limit)
    (hneeds : c.counts x = true → c.needs x = true) (h : Windowed c log)
    (hx : ∀ before y start window, log = before ++ y :: window → c.opens y = some start →
      (∀ z ∈ window, c.ends z = false) → c.needs x = true → x.time < start + FAILURE_WINDOW →
        1 + window.countP c.counts < c.limit) : Windowed c (log ++ [x]) := by
  intro before y start window after hsplit hopens hends htime
  obtain ⟨hnil, -, -⟩ | ⟨rest, hrest, hlog⟩ := concat_eq_split hsplit
  · obtain ⟨rfl, rfl⟩ := List.append_eq_nil_iff.mp hnil
    exact ⟨hpos, nofun⟩
  · obtain rfl | ⟨after', z, rfl⟩ := List.eq_nil_or_concat after
    · rw [List.append_nil] at hrest
      subst hrest
      have hends' : ∀ z ∈ rest, c.ends z = false :=
        fun z hz => hends z (List.mem_append_left _ hz)
      have hold := h before y start rest [] (by rw [hlog, List.append_nil]) hopens hends'
        fun z hz => htime z (List.mem_append_left _ hz)
      refine ⟨?_, nofun⟩
      rw [List.countP_append, List.countP_singleton]
      split_ifs with hcounts
      · have := hx before y start rest hlog hopens hends' (hneeds hcounts)
          (htime x (List.mem_append_right _ (List.mem_singleton_self x)))
        omega
      · exact hold.1
    · rw [List.concat_eq_append, ← List.append_assoc] at hrest
      obtain ⟨rfl, hxz⟩ := List.append_inj' hrest rfl
      obtain rfl := List.singleton_inj.mp hxz
      have hold := h before y start window after' hlog hopens hends htime
      refine ⟨hold.1, fun z' rest hz hneed hlt => ?_⟩
      cases after' with
      | nil =>
        obtain ⟨rfl, -⟩ := List.cons.inj hz
        rw [List.append_nil] at hlog
        exact hx before y start window hlog hopens hends hneed hlt
      | cons z'' after' =>
        obtain ⟨rfl, -⟩ := List.cons.inj hz
        exact hold.2 z'' after' rfl hneed hlt

/-- What is tracked after an event, if it is counted in the window that is open. -/
theorem Tracked.append {x : Happening} (h : Tracked c s) (hnow : t.now = s.now)
    (hlog : t.log = s.log ++ [x])
    (hnew : ∀ start, c.opens x = some start → s.now < start + FAILURE_WINDOW →
      c.read t.failures = some (1, start))
    (hold : ∀ n start, c.read s.failures = some (n, start) → s.now < start + FAILURE_WINDOW →
      c.ends x = false →
        c.read t.failures = some (n + if c.counts x then 1 else 0, start)) : Tracked c t := by
  intro before y start after hsplit hopens hends hlt
  rw [hlog] at hsplit
  rw [hnow] at hlt
  obtain ⟨rfl, -, rfl⟩ | ⟨after', rfl, hlog'⟩ := concat_eq_split hsplit
  · exact hnew start hopens hlt
  · have := h before y start after' hlog' hopens
      (fun z hz => hends z (List.mem_append_left _ hz)) hlt
    rw [hold _ _ this hlt (hends x (List.mem_append_right _ (List.mem_singleton_self x))),
      List.countP_append, List.countP_singleton, Nat.add_assoc]

/-- The same, where the failures do not change. -/
theorem Tracked.same {x : Happening} (h : Tracked c s) (hopens : c.opens x = none)
    (hcounts : c.counts x = false) (hf : t.failures = s.failures) (hlog : t.log = s.log ++ [x])
    (hnow : t.now = s.now) : Tracked c t := by
  refine h.append hnow hlog (fun start hx => ?_) fun n start hread _ _ => ?_
  · rw [hopens] at hx
    cases hx
  · rw [hf, hread, hcounts]
    rfl

/-- A check for which the counter is not full is not one too many. -/
theorem Tracked.windowed (h : Tracked c s) (hwindowed : Windowed c s.log) (hpos : 1 ≤ c.limit)
    {x : Happening} (hneeds : c.counts x = true → c.needs x = true) (htime : x.time = s.now)
    (hfree : c.needs x = true → ∀ n start, c.read s.failures = some (n, start) →
      n < c.limit ∨ start + FAILURE_WINDOW ≤ s.now) :
    Windowed c (s.log ++ [x]) := by
  refine hwindowed.append hpos hneeds fun before y start window hlog hopens hends hneed hlt => ?_
  rw [htime] at hlt
  exact (hfree hneed _ _ (h before y start window hlog hopens hends hlt)).resolve_right
    (Nat.not_le_of_lt hlt)

/-! ### The two counters -/

theorem free_keyCounter {key : IpAddr} {x : Happening}
    (hunlocked : x.isChecked = true → Unlocked s.failures x.ip s.now)
    (hneed : (keyCounter key).needs x = true) :
    ∀ n start, (keyCounter key).read s.failures = some (n, start) →
      n < MAX_FAILURES ∨ start + FAILURE_WINDOW ≤ s.now := by
  rw [keyCounter, Bool.and_eq_true, decide_eq_true_iff] at hneed
  obtain ⟨hchecked, rfl⟩ := hneed
  exact (hunlocked hchecked).1

theorem free_globalCounter {x : Happening}
    (hunlocked : x.isChecked = true → Unlocked s.failures x.ip s.now)
    (hneed : globalCounter.needs x = true) :
    ∀ n start, globalCounter.read s.failures = some (n, start) →
      n < MAX_GLOBAL_FAILURES ∨ start + FAILURE_WINDOW ≤ s.now := by
  rw [globalCounter, Bool.and_eq_true, Bool.not_eq_true'] at hneed
  intro n start hread
  obtain ⟨start', hstart, heq⟩ := Option.map_eq_some_iff.mp hread
  obtain ⟨rfl, rfl⟩ := Prod.mk.inj heq
  exact (hunlocked hneed.1).2 hneed.2 _ _ (Prod.ext rfl hstart)

/-- A failure finds no full table, or its key has a window. -/
def HasRoom (s : State) (ip : IpAddr) : Prop :=
  failureKey ip ∉ (Failures.live s.failures.perKey s.now).map Prod.fst →
    (Failures.live s.failures.perKey s.now).length < MAX_TRACKED_ADDRESSES

theorem tracked_key_wrong {key : IpAddr} (h : Tracked (keyCounter key) s) (hcore : Core s)
    {count : Nat} (hroom : HasRoom s ip) (hf : t.failures = s.failures.noteFailure ip s.now)
    (hcount : count = (t.failures.perKey.lookup (failureKey ip)).elim 0 Prod.fst)
    (hlog : t.log = s.log ++ [.wrong ip s.now count t.failures.global.1]) (hnow : t.now = s.now) :
    Tracked (keyCounter key) t := by
  have hlookup := fun k => Failures.lookup_noteFailure hcore.keys hroom k
  rw [← hf] at hlookup
  dsimp only at hlookup
  refine h.append hnow hlog ?_ ?_
  · intro start hopens _
    simp only [keyCounter, Option.ite_none_right_eq_some, Option.some.injEq] at hopens ⊢
    obtain ⟨⟨hone, rfl⟩, rfl⟩ := hopens
    have hself := hlookup (failureKey ip)
    rw [if_pos rfl] at hself
    rw [hone, hself, Option.elim_some] at hcount
    rw [hself]
    cases hentry : (s.failures.perKey.lookup (failureKey ip)).filter
        fun v => decide (s.now < v.2 + FAILURE_WINDOW) with
    | none => rfl
    | some v =>
      -- an entry has a failure already
      have hpos := hcore.positive (failureKey ip, v)
        (mem_of_lookup (Option.filter_eq_some_iff.mp hentry).1)
      rw [hentry, Option.elim_some] at hcount
      dsimp only at hpos hcount
      omega
  · intro n start hold hlt _
    have hentry : (s.failures.perKey.lookup key).filter
        (fun v => decide (s.now < v.2 + FAILURE_WINDOW)) = some (n, start) := by
      rw [show s.failures.perKey.lookup key = some (n, start) from hold, Option.filter_some,
        if_pos (decide_eq_true hlt)]
    change t.failures.perKey.lookup key = _
    rw [hlookup]
    by_cases hkey : key = failureKey ip
    · subst hkey
      rw [if_pos rfl, hentry]
      simp [keyCounter, Happening.isWrong, Happening.ip]
    · have hne : failureKey ip ≠ key := Ne.symm hkey
      rw [if_neg hkey, hentry]
      simp [keyCounter, Happening.ip, hne]

theorem tracked_key_accepted {key : IpAddr} (h : Tracked (keyCounter key) s) (hcore : Core s)
    (hf : t.failures = s.failures.noteSuccess ip) (hlog : t.log = s.log ++ [.accepted ip s.now])
    (hnow : t.now = s.now) : Tracked (keyCounter key) t := by
  refine h.append hnow hlog nofun fun n start hold hlt hends => ?_
  have hne : failureKey ip ≠ key := of_decide_eq_false (p := failureKey ip = key) hends
  change t.failures.perKey.lookup key = _
  rw [hf, Failures.noteSuccess, lookup_filter hcore.keys,
    show s.failures.perKey.lookup key = some (n, start) from hold]
  simp [Option.filter, Ne.symm hne, keyCounter, Happening.isWrong]

theorem tracked_global_wrong (h : Tracked globalCounter s) (hcore : Core s) {count : Nat}
    (hf : t.failures = s.failures.noteFailure ip s.now)
    (hlog : t.log = s.log ++ [.wrong ip s.now count t.failures.global.1]) (hnow : t.now = s.now) :
    Tracked globalCounter t := by
  have hglobal : t.failures.global =
      if isLoopback ip then s.failures.global else Failures.noteGlobal s.failures.global s.now := by
    rw [hf, Failures.noteFailure]
  refine h.append hnow hlog ?_ ?_
  · intro start hopens _
    simp only [globalCounter, Option.ite_none_right_eq_some, Option.some.injEq] at hopens ⊢
    obtain ⟨⟨hone, hremote⟩, rfl⟩ := hopens
    rw [hglobal, hremote, if_neg Bool.false_ne_true] at hone ⊢
    obtain ⟨heq, start, hstart, -⟩ | ⟨heq, -⟩ := Failures.noteGlobal_eq s.failures.global s.now
    · have hpos := hcore.globalPositive s.failures.global.1 start (Prod.ext rfl hstart)
      rw [heq] at hone
      dsimp only at hone
      omega
    · rw [heq]
      rfl
  · intro n start hread hlt _
    obtain ⟨start', hstart, heq⟩ := Option.map_eq_some_iff.mp hread
    obtain ⟨rfl, rfl⟩ := Prod.mk.inj heq
    have hold : s.failures.global = (s.failures.global.1, some start') := Prod.ext rfl hstart
    change t.failures.global.2.map (fun start => (t.failures.global.1, start)) = _
    rw [hglobal]
    cases hloop : isLoopback ip with
    | true =>
      rw [if_pos rfl, hstart]
      simp [globalCounter, Happening.ip, hloop]
    | false =>
      rw [if_neg Bool.false_ne_true, hold, Failures.noteGlobal, if_pos hlt]
      simp [globalCounter, Happening.ip, Happening.isWrong, hloop]

/-! ### Loopback -/

/-- Loopback, also as an IPv6 socket sees the address. -/
def isLocal (ip : IpAddr) : Bool := isLoopback (canon ip)

/-- The key of a loopback address. -/
def isLoopbackKey : IpAddr → Bool
  | .v4 a => octet a 0 == 127
  | .v6 a => a.toList == List.replicate 16 0

/-- The address shares its key with no loopback address, or is one. -/
def Plain (ip : IpAddr) : Prop := isLoopbackKey (failureKey ip) = true → isLoopback ip = true

theorem eq_of_isLoopback {a : Ipv6} (h : isLoopback (.v6 a) = true) :
    a = #v[0, 0, 0, 0, 0, 0, 0, 0, 0, 0, 0, 0, 0, 0, 0, 1] := by
  rw [← Vector.toList_inj]
  exact eq_of_beq h

theorem isLoopbackKey_of_isLoopback (h : isLoopback ip = true) :
    isLoopbackKey (failureKey ip) = true := by
  cases ip with
  | v4 a => exact h
  | v6 a =>
    obtain rfl := eq_of_isLoopback h
    decide

theorem isLocal_of_isLoopback (h : isLoopback ip = true) : isLocal ip = true := by
  cases ip with
  | v4 a => exact h
  | v6 a =>
    obtain rfl := eq_of_isLoopback h
    decide

theorem isLoopback_of_isLocal (hplain : Plain ip) (h : isLocal ip = true) :
    isLoopback ip = true := by
  cases ip with
  | v4 a => exact h
  | v6 a =>
    rw [isLocal, canon] at h
    rw [Plain, failureKey] at hplain
    cases hmapped : toIpv4Mapped a with
    | none => simpa only [hmapped] using h
    | some v4 =>
      simp only [hmapped] at h hplain
      exact hplain h

/-- A loopback attempt never finds the queue full, and is locked only by so many failures from
loopback addresses of its key in a window. -/
def LocalFree (log : List Happening) : Prop :=
  (∀ ip time, .busy ip time ∈ log → isLocal ip = false) ∧
  ∀ before ip time after, log = before ++ .locked ip time :: after → isLocal ip = true →
    ∃ start, time < start + FAILURE_WINDOW ∧ MAX_FAILURES ≤ before.countP fun x =>
      x.isWrong && isLocal x.ip && decide (failureKey x.ip = failureKey ip) &&
        decide (start ≤ x.time)

/-- The failures of a key from a time on. -/
def since (key : IpAddr) (start : Nat) (log : List Happening) : Nat :=
  log.countP fun x => x.isWrong && decide (failureKey x.ip = key) && decide (start ≤ x.time)

structure Local (s : State) : Prop where
  phases : ∀ i ip, phaseIp (s.phase i) = some ip → Plain ip
  plain : ∀ x ∈ s.log, Plain x.ip
  started : ∀ e ∈ s.failures.perKey, e.2.2 ≤ s.now
  counted : ∀ e ∈ s.failures.perKey, e.2.1 ≤ since e.1 e.2.2 s.log
  free : LocalFree s.log

/-- The address of an attempt is the one that it arrived with. -/
theorem phaseIp_step {e : Event} (ht : step s e = some t) {j : Nat}
    (hj : phaseIp (t.phase j) = some ip) :
    phaseIp (s.phase j) = some ip ∨ e = .arrive j ip := by
  have hset : ∀ (s : State) (i : Nat) (p : Phase), phaseIp ((s.setPhase i p).phase j) = some ip →
      phaseIp (s.phase j) = some ip ∨ (j = i ∧ phaseIp p = some ip) := by
    intro s i p h
    rw [State.setPhase] at h
    dsimp only at h
    by_cases hji : j = i
    · subst hji
      rw [Function.update_self] at h
      exact .inr ⟨rfl, h⟩
    · rw [Function.update_of_ne hji] at h
      exact .inl h
  cases e with
  | tick d =>
    rw [← Option.some.inj ht] at hj
    exact .inl hj
  | arrive i ip' =>
    simp only [step] at ht
    cases hphase : s.phase i <;> simp only [hphase, reduceCtorEq] at ht
    cases hlock : s.failures.lockedFor ip' s.now <;> rw [hlock] at ht <;>
      rw [← Option.some.inj ht] at hj
    · obtain hold | ⟨rfl, hnew⟩ := hset _ i _ hj
      · exact .inl hold
      · rw [phaseIp, Option.some.injEq] at hnew
        exact .inr (by rw [hnew])
    · exact .inl hj
  | complete i isRight =>
    simp only [step] at ht
    cases hphase : s.phase i <;> simp only [hphase, reduceCtorEq] at ht
    left
    split_ifs at ht <;> rw [← Option.some.inj ht] at hj <;>
      exact (hset _ i _ hj).resolve_right (by simp [phaseIp])
  | enqueue i =>
    simp only [step] at ht
    cases hphase : s.phase i <;> simp only [hphase, reduceCtorEq] at ht
    left
    split_ifs at ht <;> rw [← Option.some.inj ht] at hj <;>
      obtain hold | ⟨rfl, hnew⟩ := hset _ i _ hj
    · exact hold
    · cases hnew
    · exact hold
    · rw [hphase]
      exact hnew
  | acquire i =>
    simp only [step] at ht
    cases hphase : s.phase i <;> simp only [hphase, reduceCtorEq] at ht
    cases hslot : s.slot <;> simp only [hslot, reduceCtorEq] at ht
    left
    rw [← Option.some.inj ht] at hj
    obtain hold | ⟨rfl, hnew⟩ := hset _ i _ hj
    · exact hold
    · rw [hphase]
      exact hnew
  | retest i =>
    simp only [step] at ht
    cases hphase : s.phase i <;> simp only [hphase, reduceCtorEq] at ht
    rename_i ip'
    left
    cases hlock : s.failures.lockedFor ip' s.now <;> rw [hlock] at ht <;>
      rw [← Option.some.inj ht] at hj <;> obtain hold | ⟨rfl, hnew⟩ := hset _ i _ hj
    · exact hold
    · rw [hphase]
      exact hnew
    · exact hold
    · cases hnew
  | release i | leave i | abandon i =>
    simp only [step] at ht
    cases hphase : s.phase i <;> simp only [hphase, reduceCtorEq] at ht
    all_goals
      left
      rw [← Option.some.inj ht] at hj
      exact (hset _ i _ hj).resolve_right (by simp [phaseIp])

theorem since_append (key : IpAddr) (start : Nat) (log : List Happening) (x : Happening) :
    since key start (log ++ [x]) = since key start log +
      if x.isWrong ∧ failureKey x.ip = key ∧ start ≤ x.time then 1 else 0 := by
  simp [since, List.countP_append, List.countP_singleton, and_assoc]

theorem LocalFree.append {log : List Happening} {x : Happening} (h : LocalFree log)
    (hbusy : ∀ ip time, x = .busy ip time → isLocal ip = false)
    (hlocked : ∀ ip time, x = .locked ip time → isLocal ip = true →
      ∃ start, time < start + FAILURE_WINDOW ∧ MAX_FAILURES ≤ log.countP fun x =>
        x.isWrong && isLocal x.ip && decide (failureKey x.ip = failureKey ip) &&
          decide (start ≤ x.time)) : LocalFree (log ++ [x]) := by
  constructor
  · intro ip time hmem
    obtain hmem | hmem := List.mem_append.mp hmem
    · exact h.1 ip time hmem
    · exact hbusy ip time (List.mem_singleton.mp hmem).symm
  · intro before ip time after hsplit hlocal
    obtain ⟨-, rfl, rfl⟩ | ⟨after', -, hlog⟩ := concat_eq_split hsplit
    · exact hlocked ip time rfl hlocal
    · exact h.2 before ip time after' hlog hlocal

theorem Local.locked (h : Local s) (hplain : Plain ip)
    (hlocked : (s.failures.lockedFor ip s.now).isSome) (hlocal : isLocal ip = true) :
    ∃ start, s.now < start + FAILURE_WINDOW ∧ MAX_FAILURES ≤ s.log.countP fun x =>
      x.isWrong && isLocal x.ip && decide (failureKey x.ip = failureKey ip) &&
        decide (start ≤ x.time) := by
  have hloop := isLoopback_of_isLocal hplain hlocal
  obtain ⟨n, start, hlook, hfull, hlt⟩ := key_of_lockedFor hloop hlocked
  have hcounted := h.counted _ (mem_of_lookup hlook)
  refine ⟨start, hlt, hfull.trans (hcounted.trans ?_)⟩
  refine List.countP_mono_left fun x hx hwrong => ?_
  simp only [Bool.and_eq_true, decide_eq_true_iff] at hwrong ⊢
  obtain ⟨⟨hwrong, hkey⟩, hstart⟩ := hwrong
  -- the key is that of a loopback address
  have hx' := h.plain x hx (hkey ▸ isLoopbackKey_of_isLoopback hloop)
  exact ⟨⟨⟨hwrong, isLocal_of_isLoopback hx'⟩, hkey⟩, hstart⟩

theorem Local.step {e : Event} (h : Local s) (hplain : ∀ i ip, e = .arrive i ip → Plain ip)
    (ht : step s e = some t) : Local t := by
  have hphases : ∀ i ip, phaseIp (t.phase i) = some ip → Plain ip := fun i ip hi =>
    (phaseIp_step ht hi).elim (h.phases i ip) (hplain i ip)
  -- what an event that is no failure leaves of the account
  have hmore : ∀ x : Happening, ∀ e ∈ s.failures.perKey,
      e.2.1 ≤ since e.1 e.2.2 (s.log ++ [x]) := fun x e he => by
    rw [since_append]
    exact (h.counted e he).trans (Nat.le_add_right _ _)
  have hall : ∀ {x : Happening}, Plain x.ip → ∀ y ∈ s.log ++ [x], Plain y.ip := by
    intro x hx y hy
    obtain hy | hy := List.mem_append.mp hy
    · exact h.plain y hy
    · exact List.mem_singleton.mp hy ▸ hx
  have hip : ∀ {i : Nat} {ip : IpAddr}, e = .arrive i ip ∨ phaseIp (s.phase i) = some ip →
      Plain ip := fun hip => hip.elim (hplain _ _) (h.phases _ _)
  cases moved_of_step ht with
  | quiet hf hlog hnow hphase =>
    exact ⟨hphases, hlog ▸ h.plain, fun e he => (h.started e (hf ▸ he)).trans hnow,
      hf ▸ hlog ▸ h.counted, hlog ▸ h.free⟩
  | locked i ip hi hlocked hf hlog hnow hphase =>
    refine ⟨hphases, hlog ▸ hall (hip hi), hf ▸ hnow ▸ h.started, hf ▸ hlog ▸ hmore _, ?_⟩
    rw [hlog]
    refine h.free.append (by simp) fun ip' time heq hlocal => ?_
    obtain ⟨rfl, rfl⟩ := Happening.locked.inj heq
    exact h.locked (hip hi) hlocked hlocal
  | busy i ip hi hremote hf hlog hnow hphase =>
    refine ⟨hphases, hlog ▸ hall (hip (.inr hi)), hf ▸ hnow ▸ h.started, hf ▸ hlog ▸ hmore _, ?_⟩
    rw [hlog]
    refine h.free.append (fun ip' time heq => ?_) (by simp)
    obtain ⟨rfl, rfl⟩ := Happening.busy.inj heq
    rw [← Bool.not_eq_true]
    intro hlocal
    rw [isLoopback_of_isLocal (hip (.inr hi)) hlocal] at hremote
    cases hremote
  | began i ip hi hunlocked hf hlog hnow hphase =>
    exact ⟨hphases, hlog ▸ hall (hip (.inr hi)), hf ▸ hnow ▸ h.started, hf ▸ hlog ▸ hmore _,
      hlog ▸ h.free.append (by simp) (by simp)⟩
  | accepted i ip hchecking hf hlog hnow hphase =>
    have hi : phaseIp (s.phase i) = some ip := by rw [hchecking, phaseIp]
    refine ⟨hphases, hlog ▸ hall (hip (.inr hi)), ?_, ?_, hlog ▸ h.free.append (by simp) (by simp)⟩
    · rw [hf, hnow]
      exact fun e he => h.started e (List.mem_of_mem_filter he)
    · rw [hf, hlog]
      exact fun e he => hmore _ e (List.mem_of_mem_filter he)
  | wrong i ip count he hchecking hf hcount hlog hnow hphase =>
    have hi : phaseIp (s.phase i) = some ip := by rw [hchecking, phaseIp]
    refine ⟨hphases, hlog ▸ hall (hip (.inr hi)), ?_, ?_, hlog ▸ h.free.append (by simp) (by simp)⟩
    · rw [hf, hnow]
      intro e he
      obtain hold | ⟨-, ⟨n, start, hold, heq⟩ | heq⟩ := Failures.mem_noteFailure he
      · exact h.started e hold
      · rw [heq]
        exact h.started _ hold
      · rw [heq]
    · rw [hf, hlog]
      intro e he
      obtain hold | ⟨hkey, ⟨n, start, hold, heq⟩ | heq⟩ := Failures.mem_noteFailure he
      · exact hmore _ e hold
      · have hstart := h.started _ hold
        have hcounted := h.counted _ hold
        rw [hkey, heq, since_append, if_pos ⟨rfl, rfl, hstart⟩]
        exact Nat.succ_le_succ hcounted
      · rw [hkey, heq, since_append, if_pos ⟨rfl, rfl, le_refl _⟩]
        exact Nat.le_add_left _ _

theorem local_init (now : Nat) : Local (init now) :=
  ⟨fun _ _ h => by simp [init, phaseIp] at h, nofun, nofun, nofun, nofun,
    fun before ip time after h => by simp [init] at h⟩

/-! ### Remote keys -/

def remoteTimes (log : List Happening) : List Nat :=
  (log.filter fun x => x.isWrong && !isLoopback x.ip).map (·.time)

/-- The remote failures are those of the global window and those before it; of these no more
than the limit are not over when it begins. -/
def Split (global : Nat × Option Nat) (now : Nat) (times : List Nat) : Prop :=
  ∃ old new, times = old ++ new ∧ new.length ≤ MAX_GLOBAL_FAILURES ∧
    (global.2 = none → old = [] ∧ new = []) ∧
    ∀ start, global.2 = some start → global.1 = new.length ∧ start ≤ now ∧
      (∀ time ∈ old, time ≤ start) ∧
      old.countP (fun time => decide (start < time + FAILURE_WINDOW)) ≤ MAX_GLOBAL_FAILURES

structure Recent (s : State) : Prop where
  began : ∀ e ∈ s.failures.perKey, ∃ x ∈ s.log,
    x.isWrong = true ∧ failureKey x.ip = e.1 ∧ x.time = e.2.2
  split : Split s.failures.global s.now (remoteTimes s.log)

theorem remoteTimes_concat (log : List Happening) (x : Happening) :
    remoteTimes (log ++ [x]) =
      remoteTimes log ++ if x.isWrong && !isLoopback x.ip then [x.time] else [] := by
  rw [remoteTimes, List.filter_append, List.map_append, remoteTimes]
  by_cases hx : (x.isWrong && !isLoopback x.ip) = true
  · simp [hx]
  · simp [hx]

theorem Split.mono {global : Nat × Option Nat} {now later : Nat} {times : List Nat}
    (h : Split global now times) (hle : now ≤ later) : Split global later times := by
  obtain ⟨old, new, htimes, hlen, hnone, hsome⟩ := h
  refine ⟨old, new, htimes, hlen, hnone, fun start hstart => ?_⟩
  obtain ⟨hn, hstart', hold, hcount⟩ := hsome start hstart
  exact ⟨hn, hstart'.trans hle, hold, hcount⟩

/-- One more remote failure, where the counter was not full. -/
theorem Split.note {global : Nat × Option Nat} {now : Nat} {times : List Nat}
    (h : Split global now times) (htimes : ∀ time ∈ times, time ≤ now)
    (hfree : ∀ start, global.2 = some start →
      global.1 < MAX_GLOBAL_FAILURES ∨ start + FAILURE_WINDOW ≤ now) :
    Split (Failures.noteGlobal global now) now (times ++ [now]) := by
  obtain ⟨old, new, rfl, hlen, hnone, hsome⟩ := h
  obtain ⟨heq, start, hstart, hlt⟩ | ⟨heq, hover⟩ := Failures.noteGlobal_eq global now
  · obtain ⟨hn, hle, hold, hcount⟩ := hsome start hstart
    have hfew := (hfree start hstart).resolve_right (Nat.not_le_of_lt hlt)
    rw [heq, hn]
    refine ⟨old, new ++ [now], List.append_assoc _ _ _, ?_, fun h => ?_, fun start' h => ?_⟩
    · rw [List.length_append, List.length_singleton, ← hn]
      exact hfew
    · rw [hstart] at h
      cases h
    · obtain rfl := Option.some.inj (hstart.symm.trans h)
      exact ⟨by simp, hle, hold, hcount⟩
  · rw [heq]
    refine ⟨old ++ new, [now], rfl, ?_, nofun, fun start h => ?_⟩
    · rw [List.length_singleton]
      decide
    obtain rfl := Option.some.inj h
    refine ⟨rfl, le_refl _, htimes, ?_⟩
    -- those before the window that is over are over too
    have hold : old.countP (fun time => decide (now < time + FAILURE_WINDOW)) = 0 := by
      rw [List.countP_eq_zero]
      intro time htime
      cases hglobal : global.2 with
      | none =>
        rw [(hnone hglobal).1] at htime
        cases htime
      | some start =>
        have := (hsome start hglobal).2.2.1 time htime
        have := hover start hglobal
        rw [decide_eq_true_iff]
        omega
    rw [List.countP_append, hold, Nat.zero_add]
    exact List.countP_le_length.trans hlen

theorem Split.count_le {global : Nat × Option Nat} {now : Nat} {times : List Nat}
    (h : Split global now times) :
    times.countP (fun time => decide (now < time + FAILURE_WINDOW)) ≤
      2 * MAX_GLOBAL_FAILURES := by
  obtain ⟨old, new, rfl, hlen, hnone, hsome⟩ := h
  have hnew := (List.countP_le_length (p := fun time => decide (now < time + FAILURE_WINDOW))
    (l := new)).trans hlen
  rw [List.countP_append, Nat.two_mul]
  cases hglobal : global.2 with
  | none =>
    rw [(hnone hglobal).1, (hnone hglobal).2]
    exact Nat.zero_le _
  | some start =>
    obtain ⟨-, hle, -, hcount⟩ := hsome start hglobal
    refine Nat.add_le_add ((List.countP_mono_left fun time _ h => ?_).trans hcount) hnew
    rw [decide_eq_true_iff] at h ⊢
    exact hle.trans_lt h

theorem Recent.step {e : Event} (h : Recent s) (hcore : Core s) (ht : step s e = some t) :
    Recent t := by
  have hbegan : ∀ x : Happening, ∀ e ∈ s.failures.perKey, ∃ y ∈ s.log ++ [x],
      y.isWrong = true ∧ failureKey y.ip = e.1 ∧ y.time = e.2.2 := by
    intro x e he
    obtain ⟨y, hy, hfacts⟩ := h.began e he
    exact ⟨y, List.mem_append_left _ hy, hfacts⟩
  have hsame : ∀ x : Happening, x.isWrong = false →
      remoteTimes (s.log ++ [x]) = remoteTimes s.log := by
    intro x hx
    rw [remoteTimes_concat, hx]
    simp
  cases moved_of_step ht with
  | quiet hf hlog hnow hphase =>
    refine ⟨hf ▸ hlog ▸ h.began, ?_⟩
    rw [hf, hlog]
    exact h.split.mono hnow
  | locked i ip hi hlocked hf hlog hnow hphase | busy i ip hi hlocked hf hlog hnow hphase
  | began i ip hi hlocked hf hlog hnow hphase =>
    refine ⟨hf ▸ hlog ▸ hbegan _, ?_⟩
    rw [hf, hlog, hnow, hsame _ rfl]
    exact h.split
  | accepted i ip hchecking hf hlog hnow hphase =>
    constructor
    · rw [hf, hlog]
      exact fun e he => hbegan _ e (List.mem_of_mem_filter he)
    · rw [hf, hlog, hnow, hsame _ rfl]
      exact h.split
  | wrong i ip count he hchecking hf hcount hlog hnow hphase =>
    constructor
    · rw [hf, hlog]
      intro e he
      obtain hold | ⟨hkey, ⟨n, start, hold, heq⟩ | heq⟩ := Failures.mem_noteFailure he
      · exact hbegan _ e hold
      · rw [hkey, heq]
        exact hbegan _ _ hold
      · rw [hkey, heq]
        exact ⟨_, List.mem_append_right _ (List.mem_singleton_self _), rfl, rfl, rfl⟩
    · have hglobal : t.failures.global = if isLoopback ip then s.failures.global
          else Failures.noteGlobal s.failures.global s.now := by
        rw [hf, Failures.noteFailure]
      rw [hglobal, hlog, hnow, remoteTimes_concat]
      cases hloop : isLoopback ip with
      | true => simpa [Happening.isWrong, Happening.ip, hloop] using h.split
      | false =>
        have hnote := h.split.note (fun time htime => ?_) fun start hstart =>
          (hcore.ready i ip hchecking).2 hloop _ start (Prod.ext rfl hstart)
        · simpa [Happening.isWrong, Happening.ip, Happening.time, hloop] using hnote
        · obtain ⟨x, hx, rfl⟩ := List.mem_map.mp htime
          exact hcore.times x (List.mem_of_mem_filter hx)

theorem recent_init (now : Nat) : Recent (init now) :=
  ⟨nofun, [], [], rfl, Nat.zero_le _, fun _ => ⟨rfl, rfl⟩, nofun⟩

/-- Every attempt whose key is that of a loopback address comes from a loopback address, and a
failure that opens a window finds the table not full. -/
def Careful (s : State) : Event → Prop
  | .arrive _ ip => Plain ip
  | .complete i false =>
    match s.phase i with
    | .checking ip => HasRoom s ip
    | _ => True
  | _ => True

/-- What the lockout promises of a log. -/
structure Kept (log : List Happening) : Prop where
  key : ∀ key, Windowed (keyCounter key) log
  global : Windowed globalCounter log
  loopback : LocalFree log

structure Inv (s : State) : Prop where
  core : Core s
  loopback : Local s
  recent : Recent s
  key : ∀ key, Tracked (keyCounter key) s ∧ Windowed (keyCounter key) s.log
  global : Tracked globalCounter s ∧ Windowed globalCounter s.log

theorem Tracked.quiet (h : Tracked c s) (hf : t.failures = s.failures) (hlog : t.log = s.log)
    (hnow : s.now ≤ t.now) : Tracked c t := by
  intro before x start after hsplit hopens hends hlt
  rw [hlog] at hsplit
  rw [hf]
  exact h before x start after hsplit hopens hends (hnow.trans_lt hlt)

/-- The windows after an event of an address that is not locked, if the event needs that. -/
theorem windowed_key {key : IpAddr} {x : Happening}
    (h : Tracked (keyCounter key) s ∧ Windowed (keyCounter key) s.log) (htime : x.time = s.now)
    (hunlocked : x.isChecked = true → Unlocked s.failures x.ip s.now) :
    Windowed (keyCounter key) (s.log ++ [x]) := by
  refine h.1.windowed h.2 (by decide : 1 ≤ MAX_FAILURES) (fun hcounts => ?_) htime
    (free_keyCounter hunlocked)
  cases x <;> simp_all [keyCounter, Happening.isWrong, Happening.isChecked]

theorem windowed_global {x : Happening}
    (h : Tracked globalCounter s ∧ Windowed globalCounter s.log) (htime : x.time = s.now)
    (hunlocked : x.isChecked = true → Unlocked s.failures x.ip s.now) :
    Windowed globalCounter (s.log ++ [x]) := by
  refine h.1.windowed h.2 (by decide : 1 ≤ MAX_GLOBAL_FAILURES) (fun hcounts => ?_) htime
    (free_globalCounter hunlocked)
  cases x <;> simp_all [globalCounter, Happening.isWrong, Happening.isChecked]

theorem inv_step {e : Event} (h : Inv s) (hcareful : Careful s e) (ht : step s e = some t) :
    Inv t := by
  have hplain : ∀ i ip, e = .arrive i ip → Plain ip := by
    rintro i ip rfl
    exact hcareful
  have hcore := h.core.step ht
  have hlocal := h.loopback.step hplain ht
  have hrecent := h.recent.step h.core ht
  -- an event that is no check needs no counter, and leaves the failures
  have hidle : ∀ {x : Happening}, x.isChecked = false → x.time = s.now →
      t.failures = s.failures → t.log = s.log ++ [x] → t.now = s.now → Inv t := by
    intro x hx htime hf hlog hnow
    have hunlocked : x.isChecked = true → Unlocked s.failures x.ip s.now := by simp [hx]
    refine ⟨hcore, hlocal, hrecent, fun key => ⟨?_, ?_⟩, ?_, ?_⟩
    · refine (h.key key).1.same ?_ ?_ hf hlog hnow <;>
        cases x <;> simp_all [keyCounter, Happening.isWrong, Happening.isChecked]
    · rw [hlog]
      exact windowed_key (h.key key) htime hunlocked
    · refine h.global.1.same ?_ ?_ hf hlog hnow <;>
        cases x <;> simp_all [globalCounter, Happening.isWrong, Happening.isChecked]
    · rw [hlog]
      exact windowed_global h.global htime hunlocked
  cases moved_of_step ht with
  | quiet hf hlog hnow hphase =>
    exact ⟨hcore, hlocal, hrecent,
      fun key => ⟨(h.key key).1.quiet hf hlog hnow, hlog ▸ (h.key key).2⟩,
      h.global.1.quiet hf hlog hnow, hlog ▸ h.global.2⟩
  | locked i ip hi hlocked hf hlog hnow hphase => exact hidle rfl rfl hf hlog hnow
  | busy i ip hi hremote hf hlog hnow hphase => exact hidle rfl rfl hf hlog hnow
  | began i ip hi hunlocked hf hlog hnow hphase =>
    refine ⟨hcore, hlocal, hrecent, fun key => ⟨?_, ?_⟩, ?_, ?_⟩
    · exact (h.key key).1.same rfl rfl hf hlog hnow
    · rw [hlog]
      exact windowed_key (h.key key) rfl fun _ => hunlocked
    · exact h.global.1.same rfl rfl hf hlog hnow
    · rw [hlog]
      exact windowed_global h.global rfl fun _ => hunlocked
  | accepted i ip hchecking hf hlog hnow hphase =>
    have hunlocked := h.core.ready i ip hchecking
    refine ⟨hcore, hlocal, hrecent, fun key => ⟨?_, ?_⟩, ?_, ?_⟩
    · exact tracked_key_accepted (h.key key).1 h.core hf hlog hnow
    · rw [hlog]
      exact windowed_key (h.key key) rfl fun _ => hunlocked
    · refine h.global.1.append hnow hlog (fun _ h _ => absurd h.symm (Option.some_ne_none _))
        fun n start hold _ _ => ?_
      rw [hf]
      exact hold
    · rw [hlog]
      exact windowed_global h.global rfl fun _ => hunlocked
  | wrong i ip count he hchecking hf hcount hlog hnow hphase =>
    subst he
    have hunlocked := h.core.ready i ip hchecking
    have hroom : HasRoom s ip := by simpa only [Careful, hchecking] using hcareful
    refine ⟨hcore, hlocal, hrecent, fun key => ⟨?_, ?_⟩, ?_, ?_⟩
    · exact tracked_key_wrong (h.key key).1 h.core hroom hf hcount hlog hnow
    · rw [hlog]
      exact windowed_key (h.key key) rfl fun _ => hunlocked
    · exact tracked_global_wrong h.global.1 h.core hf hlog hnow
    · rw [hlog]
      exact windowed_global h.global rfl fun _ => hunlocked

theorem inv_init (now : Nat) : Inv (init now) := by
  have hnil : ∀ {before after : List Happening} {x : Happening},
      (init now).log ≠ before ++ x :: after := by
    simp [init]
  exact ⟨core_init now, local_init now, recent_init now,
    fun key => ⟨fun _ _ _ _ h => absurd h hnil, fun _ _ _ _ _ h => absurd h hnil⟩,
    fun _ _ _ _ h => absurd h hnil, fun _ _ _ _ _ h => absurd h hnil⟩

instance : Decidable (Plain ip) := inferInstanceAs (Decidable (_ → _))

instance : Decidable (HasRoom s ip) := inferInstanceAs (Decidable (_ → _))

instance : (s : State) → (e : Event) → Decidable (Careful s e)
  | _, .arrive _ ip => inferInstanceAs (Decidable (Plain ip))
  | s, .complete i false =>
    match h : s.phase i with
    | .checking ip => decidable_of_iff (HasRoom s ip) (by simp [Careful, h])
    | .away | .tested _ | .waiting _ | .holding _ | .releasing | .leaving =>
      .isTrue (by simp [Careful, h])
  | _, .complete _ true | _, .tick _ | _, .enqueue _ | _, .acquire _ | _, .retest _
  | _, .release _ | _, .leave _ | _, .abandon _ => .isTrue trivial

/-- An attempt that no other one comes between. -/
def attempt (i : Nat) (ip : IpAddr) (isRight : Bool) : List Event :=
  [.arrive i ip, .enqueue i, .acquire i, .retest i, .complete i isRight, .release i, .leave i]

end Ed2kServer.Admin.Lockout
