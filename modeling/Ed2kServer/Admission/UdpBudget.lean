import Ed2kServer.Admission.Bucket
import Ed2kServer.Lib.Assoc
import Ed2kServer.Lib.Totals
import Ed2kServer.Server.Login

namespace Ed2kServer.Admission.UdpBudget

open Ed2kServer.Admission.Bucket Ed2kServer.Lib.Assoc Ed2kServer.Lib.Totals
open Ed2kServer.Lib.Transition Ed2kServer.Sources.Address

inductive UdpRefusal
  | global
  | source
  | tableFull
  deriving DecidableEq

structure Config where
  globalRate : Nat
  globalBurst : Nat
  cap : Nat
  srcRate : Nat
  srcBurst : Nat
  v6Bits : Nat
  enforce : Bool

def Config.key (cfg : Config) (ip : IpAddr) : IpAddr := Server.Login.sourceKey cfg.v6Bits ip

/-- How far a call of `admit` is. -/
inductive Phase
  /-- It has read the clock. -/
  | sampled
  /-- The server-wide budget has been charged. -/
  | charged
  /-- A slot of the table is reserved for a new key, whose entry is locked. -/
  | reserved
  /-- The charge is to be given back. -/
  | refused (r : UdpRefusal)
  | ended (r : Option UdpRefusal)
  deriving DecidableEq

structure Call where
  key : IpAddr
  cost : Nat
  now : Nat
  phase : Phase
  deriving DecidableEq

/-- What `admit` answers; with `enforce` off every packet is served. -/
def Call.answer (cfg : Config) (c : Call) : Option Bool :=
  match c.phase with
  | .ended r => some (r.isNone || !cfg.enforce)
  | _ => none

structure State where
  clock : Nat
  global : TokenBucket
  sources : List (IpAddr × TokenBucket)
  entries : Nat
  /-- Keys a sweep has counted off and not yet removed; their entries are locked. -/
  leaving : List IpAddr
  /-- All calls so far, in the order they read the clock. -/
  calls : List Call

def init (cfg : Config) (boot : Nat) : State :=
  ⟨boot, .new cfg.globalRate cfg.globalBurst boot, [], 0, [], []⟩

def State.goTo (s : State) (i : Nat) (c : Call) (phase : Phase) : State :=
  { s with calls := s.calls.set i { c with phase } }

def State.setGlobal (s : State) (b : TokenBucket) : State := { s with global := b }

def State.locked (s : State) (key : IpAddr) : Bool :=
  s.leaving.contains key || s.calls.any fun c => c.key = key && c.phase = .reserved

/-- The next locked section of a call. -/
def next (cfg : Config) (s : State) (i : Nat) (c : Call) : Option State :=
  match c.phase with
  | .sampled =>
    let taken := s.global.take c.cost c.now
    some ((s.setGlobal taken.2).goTo i c
      (if taken.1 then .charged else .ended (some .global)))
  | .charged =>
    if s.locked c.key then none
    else
      match s.sources.lookup c.key with
      | some b =>
        let taken := b.take c.cost c.now
        some ({ s with sources := alter s.sources c.key fun _ => taken.2 }.goTo i c
          (if taken.1 then .ended none else .refused .source))
      | none =>
        if cfg.cap ≤ s.entries then some (s.goTo i c (.refused .tableFull))
        else some ({ s with entries := s.entries + 1 }.goTo i c .reserved)
  | .reserved =>
    let taken := (TokenBucket.new cfg.srcRate cfg.srcBurst c.now).take c.cost c.now
    some ({ s with sources := (c.key, taken.2) :: s.sources }.goTo i c
      (if taken.1 then .ended none else .refused .source))
  | .refused r => some ((s.setGlobal (s.global.refund c.cost)).goTo i c (.ended (some r)))
  | .ended _ => none

inductive Event
  | tick (d : Nat)
  | call (ip : IpAddr) (cost : Nat)
  | next (i : Nat)
  /-- A sweep that read the clock at `now` finds an entry full. -/
  | release (key : IpAddr) (now : Nat)
  | remove (key : IpAddr)

def step (cfg : Config) (s : State) : Event → Option State
  | .tick d => some { s with clock := s.clock + d }
  | .call ip cost =>
    some { s with calls := s.calls ++ [⟨cfg.key ip, cost, s.clock, .sampled⟩] }
  | .next i => s.calls[i]?.bind (next cfg s i)
  | .release key now =>
    (s.sources.lookup key).bind fun b =>
      if s.clock < now ∨ s.locked key = true ∨ b.isFullAt now = false then none
      else some { s with entries := s.entries - 1, leaving := key :: s.leaving }
  | .remove key =>
    if key ∈ s.leaving then
      some { s with
        sources := s.sources.filter fun e => e.1 ≠ key
        leaving := s.leaving.erase key }
    else none

/-- What a call has been charged and may be given back. -/
def Call.held (c : Call) : Nat :=
  match c.phase with
  | .charged | .reserved | .refused _ => c.cost
  | _ => 0

/-- What a call was admitted with. -/
def Call.won (c : Call) : Nat := if c.phase = .ended none then c.cost else 0

/-- The cost of a call that has not ended. -/
def Call.open (c : Call) : Nat :=
  match c.phase with
  | .ended _ => 0
  | _ => c.cost

/-- The credits of the packets admitted by the calls from the `n`-th on. -/
def State.admittedFrom (s : State) (n : Nat) : Nat :=
  total (fun i c => if n ≤ i then c.won else 0) s.calls

def State.inFlight (s : State) : Nat := total (fun _ c => c.open) s.calls

/-- What the budget may still lose: the charges of all calls and the packets of the new ones. -/
def drawn (n i : Nat) (c : Call) : Nat := c.held + if n ≤ i then c.won else 0

def openBefore (n i : Nat) (c : Call) : Nat := if i < n then c.open else 0

section Steps

variable {cfg : Config} {s t : State} {i n : Nat} {c : Call}

theorem held_add_won_le (c : Call) : c.held + c.won ≤ c.cost := by
  rcases c with ⟨key, cost, now, _ | _ | _ | r | r⟩ <;> simp [Call.held, Call.won]
  split <;> omega

theorem held_le_open (c : Call) : c.held ≤ c.open := by
  rcases c with ⟨key, cost, now, _ | _ | _ | r | r⟩ <;> simp [Call.held, Call.open]

theorem open_le_cost (c : Call) : c.open ≤ c.cost := by
  rcases c with ⟨key, cost, now, _ | _ | _ | r | r⟩ <;> simp [Call.open]

section Fields

variable (s : State) (b : TokenBucket) (i : Nat) (c : Call) (phase : Phase)

theorem setGlobal_calls : (s.setGlobal b).calls = s.calls := rfl

theorem setGlobal_goTo_global : ((s.setGlobal b).goTo i c phase).global = b := rfl

theorem setGlobal_goTo_calls :
    ((s.setGlobal b).goTo i c phase).calls = s.calls.set i { c with phase } := rfl

theorem setGlobal_goTo_clock : ((s.setGlobal b).goTo i c phase).clock = s.clock := rfl

end Fields

/-- What one section of a call does to the server-wide budget and to the call. -/
theorem next_cases (h : next cfg s i c = some t) : t.clock = s.clock ∧
    ∃ phase, t.calls = s.calls.set i { c with phase } ∧
      ((∃ ok, c.phase = .sampled ∧ s.global.take c.cost c.now = (ok, t.global) ∧
          phase = if ok then .charged else .ended (some .global)) ∨
        (c.held = c.cost ∧ c.open = c.cost ∧ c.phase ≠ .sampled ∧ t.global = s.global) ∨
        ∃ r, c.phase = .refused r ∧ t.global = s.global.refund c.cost ∧
          phase = .ended (some r)) := by
  rw [next] at h
  split at h
  · rename_i hphase
    cases h
    refine ⟨setGlobal_goTo_clock _ _ _ _ _, _, setGlobal_goTo_calls _ _ _ _ _,
      Or.inl ⟨(s.global.take c.cost c.now).1, hphase, ?_, rfl⟩⟩
    rw [setGlobal_goTo_global, Prod.mk.eta]
  · rename_i hphase
    have hmove : c.held = c.cost ∧ c.open = c.cost ∧ c.phase ≠ .sampled := by
      rw [Call.held, Call.open, hphase]
      exact ⟨rfl, rfl, Phase.noConfusion⟩
    obtain ⟨hheld, hopen, hne⟩ := hmove
    split at h
    · cases h
    split at h
    · cases h
      exact ⟨rfl, _, rfl, Or.inr (Or.inl ⟨hheld, hopen, hne, rfl⟩)⟩
    split at h
    · cases h
      exact ⟨rfl, _, rfl, Or.inr (Or.inl ⟨hheld, hopen, hne, rfl⟩)⟩
    · cases h
      exact ⟨rfl, _, rfl, Or.inr (Or.inl ⟨hheld, hopen, hne, rfl⟩)⟩
  · rename_i hphase
    cases h
    refine ⟨rfl, _, rfl, Or.inr (Or.inl ⟨?_, ?_, ?_, rfl⟩)⟩
    · rw [Call.held, hphase]
    · rw [Call.open, hphase]
    · rw [hphase]
      exact Phase.noConfusion
  · rename_i r hphase
    cases h
    exact ⟨setGlobal_goTo_clock _ _ _ _ _, _, setGlobal_goTo_calls _ _ _ _ _,
      Or.inr (Or.inr ⟨r, hphase, setGlobal_goTo_global _ _ _ _ _, rfl⟩)⟩
  · cases h

theorem drawn_le (c : Call) (n i : Nat) : drawn n i c ≤ c.cost := by
  have h := held_add_won_le c
  rw [drawn]
  split <;> omega

theorem take_worth_refill {b b' : TokenBucket} {cost now : Nat} (till : Nat)
    (ht : b.take cost now = (true, b')) :
    b'.worth till + cost * 1000000 ≤ (b.refill now).worth till := by
  obtain ⟨hle, rfl⟩ := TokenBucket.take_eq_true ht
  simp only [TokenBucket.worth]
  omega

/-- What the budget is worth at most from `start` on, with what it may get back of the charges
before. -/
def allowance (cfg : Config) (start till before : Nat) : Nat :=
  cfg.globalBurst * 1000000 + cfg.globalRate * ((till - start + 999) / 1000) + before * 1000000

/-- A state of a run from `start` on, when there were `n` calls, of which the ones not ended had
cost `before`; either no new call has come to the budget yet, or what is drawn is bounded. -/
structure Within (cfg : Config) (n start before till : Nat) (s : State) : Prop where
  sized : s.global.Sized cfg.globalRate cfg.globalBurst
  start_le : start ≤ s.clock
  clock_le : s.clock ≤ till
  length_le : n ≤ s.calls.length
  now_le : ∀ i c, s.calls[i]? = some c → c.now ≤ s.clock ∧ (n ≤ i → start ≤ c.now)
  open_le : total (openBefore n) s.calls ≤ before
  drawn_le : (∀ i c, s.calls[i]? = some c → n ≤ i → c.phase = .sampled) ∨
    s.global.worth till + total (drawn n) s.calls * 1000000 ≤ allowance cfg start till before

variable {start before till : Nat}

theorem forall_set {calls : List Call} {c' : Call} {P : Nat → Call → Prop}
    (h : ∀ j d, calls[j]? = some d → P j d) (hi : P i c') {j : Nat} {d : Call}
    (hj : (calls.set i c')[j]? = some d) : P j d := by
  rw [List.getElem?_set] at hj
  split at hj
  · rename_i hij
    split at hj
    · cases hj
      exact hij ▸ hi
    · cases hj
  · exact h j d hj

theorem within_set (h : Within cfg n start before till s) (hc : s.calls[i]? = some c)
    {phase : Phase} (hopen : ({ c with phase } : Call).open ≤ c.open) (hclock : t.clock = s.clock)
    (hcalls : t.calls = s.calls.set i { c with phase })
    (hsized : t.global.Sized cfg.globalRate cfg.globalBurst)
    (hdrawn : (∀ i c, t.calls[i]? = some c → n ≤ i → c.phase = .sampled) ∨
      t.global.worth till + total (drawn n) t.calls * 1000000 ≤ allowance cfg start till before) :
    Within cfg n start before till t := by
  have hnow : ({ c with phase } : Call).now ≤ s.clock ∧
      (n ≤ i → start ≤ ({ c with phase } : Call).now) := h.now_le i c hc
  have htotal := total_set (openBefore n) hc { c with phase }
  have hle : openBefore n i { c with phase } ≤ openBefore n i c := by
    rw [openBefore, openBefore]
    split
    · exact hopen
    · exact le_refl _
  have hbefore := h.open_le
  refine ⟨hsized, hclock ▸ h.start_le, hclock ▸ h.clock_le, ?_, ?_, ?_, hdrawn⟩
  · rw [hcalls, List.length_set]
    exact h.length_le
  · rw [hcalls, hclock]
    exact fun j d hj => forall_set h.now_le hnow hj
  · rw [hcalls]
    omega

/-- Until a new call comes to the budget, the charges are those of calls from before. -/
theorem drawn_le_before (h : Within cfg n start before till s)
    (hnone : ∀ i c, s.calls[i]? = some c → n ≤ i → c.phase = .sampled) :
    total (drawn n) s.calls ≤ before := by
  refine (total_mono fun i c hc => ?_).trans h.open_le
  rw [drawn, openBefore]
  by_cases hi : i < n
  · rw [if_pos hi, if_neg (Nat.not_le.mpr hi)]
    exact held_le_open c
  · have hphase := hnone i c hc (Nat.not_lt.mp hi)
    rw [if_neg hi, if_pos (Nat.not_lt.mp hi), Call.held, Call.won, hphase]
    simp

theorem within_charge (h : Within cfg n start before till s) (hc : s.calls[i]? = some c)
    {ok : Bool} (hphase : c.phase = .sampled)
    (htake : s.global.take c.cost c.now = (ok, t.global)) (hclock : t.clock = s.clock)
    (hcalls : t.calls = s.calls.set i
      { c with phase := if ok then .charged else .ended (some .global) }) :
    Within cfg n start before till t := by
  obtain ⟨hnow, hstart⟩ := h.now_le i c hc
  have hsized : t.global.Sized cfg.globalRate cfg.globalBurst := by
    have := h.sized.take c.cost c.now
    rwa [htake] at this
  have hopen : c.open = c.cost := by rw [Call.open, hphase]
  have hbefore : drawn n i c = 0 := by
    rw [drawn, Call.held, Call.won, hphase]
    simp
  have hafter : drawn n i { c with phase := if ok then .charged else .ended (some .global) } =
      if ok then c.cost else 0 := by
    cases ok <;> simp [drawn, Call.held, Call.won]
  have htotal := total_set (drawn n) hc
    { c with phase := if ok then .charged else .ended (some .global) }
  -- the drawn credits come out of what the refilled budget is worth
  have hpaid : t.global.worth till + (if ok then c.cost else 0) * 1000000 ≤
      (s.global.refill c.now).worth till := by
    cases ok with
    | true => exact take_worth_refill till htake
    | false =>
      rw [TokenBucket.take_eq_false htake]
      simp
  refine within_set h hc ?_ hclock hcalls hsized ?_
  · rw [hopen]
    exact open_le_cost _
  rw [hcalls]
  obtain hnone | hdrawn := h.drawn_le
  · by_cases hi : n ≤ i
    · refine Or.inr ?_
      have hfirst := TokenBucket.worth_of_refill h.sized (hstart hi) (hnow.trans h.clock_le)
      have hcharges := drawn_le_before h hnone
      rw [hbefore, hafter] at htotal
      rw [allowance]
      linarith
    · refine Or.inl fun j d hj hn => ?_
      rw [List.getElem?_set_ne (by omega)] at hj
      exact hnone j d hj hn
  · refine Or.inr ?_
    have hrefill := TokenBucket.refill_worth s.global (hnow.trans h.clock_le)
    rw [hbefore, hafter] at htotal
    linarith

theorem within_next (h : Within cfg n start before till s) (hc : s.calls[i]? = some c)
    (ht : next cfg s i c = some t) : Within cfg n start before till t := by
  obtain ⟨hclock, phase, hcalls, ⟨ok, hphase, htake, rfl⟩ | ⟨hheld, hopen, hne, hglobal⟩ |
    ⟨r, hphase, hglobal, rfl⟩⟩ := next_cases ht
  · exact within_charge h hc hphase htake hclock hcalls
  · have htotal := total_set (drawn n) hc { c with phase }
    have hle : drawn n i { c with phase } ≤ drawn n i c :=
      (drawn_le _ n i).trans (hheld.symm.le.trans (Nat.le_add_right _ _))
    refine within_set h hc ?_ hclock hcalls (hglobal ▸ h.sized) ?_
    · rw [hopen]
      exact open_le_cost _
    rw [hcalls, hglobal]
    obtain hnone | hdrawn := h.drawn_le
    · refine Or.inl fun j d hj hn => ?_
      have hij : i ≠ j := fun hij => hne (hnone i c hc (hij ▸ hn))
      rw [List.getElem?_set_ne hij] at hj
      exact hnone j d hj hn
    · exact Or.inr (by linarith)
  · have htotal := total_set (drawn n) hc { c with phase := .ended (some r) }
    have hbefore : drawn n i c = c.cost := by
      rw [drawn, Call.held, Call.won, hphase]
      simp
    have hafter : drawn n i { c with phase := .ended (some r) } = 0 := by
      simp [drawn, Call.held, Call.won]
    refine within_set h hc (Nat.zero_le _) hclock hcalls (hglobal ▸ h.sized.refund c.cost) ?_
    rw [hcalls, hglobal]
    obtain hnone | hdrawn := h.drawn_le
    · refine Or.inl fun j d hj hn => ?_
      have hij : i ≠ j := by
        rintro rfl
        have := hnone i c hc hn
        rw [hphase] at this
        cases this
      rw [List.getElem?_set_ne hij] at hj
      exact hnone j d hj hn
    · refine Or.inr ?_
      have hrefund := TokenBucket.refund_worth s.global c.cost till
      linarith

theorem clock_mono {e : Event} (h : step cfg s e = some t) : s.clock ≤ t.clock := by
  cases e with
  | tick d =>
    cases h
    exact Nat.le_add_right _ _
  | call ip cost =>
    cases h
    exact le_refl _
  | next i =>
    obtain ⟨c, -, ht⟩ := Option.bind_eq_some_iff.mp h
    exact (next_cases ht).1.ge
  | release key now =>
    obtain ⟨b, -, ht⟩ := Option.bind_eq_some_iff.mp h
    split at ht
    · cases ht
    · cases ht
      exact le_refl _
  | remove key =>
    rw [step] at h
    split at h
    · cases h
      exact le_refl _
    · cases h

theorem clock_run {es : List Event} (h : exec (step cfg) s es = some t) : s.clock ≤ t.clock :=
  @exec_invariant State Event (step cfg) (fun u => s.clock ≤ u.clock)
    (fun _ _ _ hle hu => hle.trans (clock_mono hu)) s t es (le_refl _) h

/-- What touches neither the budget nor the calls. -/
theorem within_aside (h : Within cfg n start before till s) (hglobal : t.global = s.global)
    (hcalls : t.calls = s.calls) (hle : s.clock ≤ t.clock) (htill : t.clock ≤ till) :
    Within cfg n start before till t := by
  obtain ⟨hsized, hstart, -, hlength, hnow, hopen, hdrawn⟩ := h
  rw [← hglobal] at hsized hdrawn
  rw [← hcalls] at hlength hnow hopen hdrawn
  exact ⟨hsized, hstart.trans hle, htill, hlength,
    fun i c hc => ⟨(hnow i c hc).1.trans hle, (hnow i c hc).2⟩, hopen, hdrawn⟩

theorem within_call (h : Within cfg n start before till s) (key : IpAddr) (cost : Nat) :
    Within cfg n start before till
      { s with calls := s.calls ++ [⟨key, cost, s.clock, .sampled⟩] } := by
  have hdrawn : drawn n s.calls.length ⟨key, cost, s.clock, .sampled⟩ = 0 := by
    simp [drawn, Call.held, Call.won]
  have hopen : openBefore n s.calls.length ⟨key, cost, s.clock, .sampled⟩ = 0 :=
    if_neg (Nat.not_lt.mpr h.length_le)
  have hcases : ∀ (j : Nat) (d : Call),
      (s.calls ++ [⟨key, cost, s.clock, .sampled⟩])[j]? = some d →
        s.calls[j]? = some d ∨ d = ⟨key, cost, s.clock, .sampled⟩ := by
    intro j d hj
    rw [List.getElem?_append] at hj
    split at hj
    · exact Or.inl hj
    · rw [List.getElem?_singleton] at hj
      split at hj
      · exact Or.inr (Option.some.inj hj).symm
      · cases hj
  refine ⟨h.sized, h.start_le, h.clock_le, ?_, fun j d hj => ?_, ?_, ?_⟩
  · rw [List.length_append]
    exact h.length_le.trans (Nat.le_add_right _ _)
  · obtain hj | rfl := hcases j d hj
    · exact h.now_le j d hj
    · exact ⟨le_refl _, fun _ => h.start_le⟩
  · rw [total_concat, hopen]
    exact h.open_le
  · rw [total_concat, hdrawn]
    refine h.drawn_le.imp_left fun hnone j d hj hn => ?_
    obtain hj | rfl := hcases j d hj
    · exact hnone j d hj hn
    · rfl

theorem within_step {e : Event} (h : Within cfg n start before till s)
    (ht : step cfg s e = some t) (htill : t.clock ≤ till) : Within cfg n start before till t := by
  cases e with
  | tick d =>
    cases ht
    exact within_aside h rfl rfl (Nat.le_add_right _ _) htill
  | call ip cost =>
    cases ht
    exact within_call h _ _
  | next i =>
    obtain ⟨c, hc, ht⟩ := Option.bind_eq_some_iff.mp ht
    exact within_next h hc ht
  | release key now =>
    obtain ⟨b, -, ht⟩ := Option.bind_eq_some_iff.mp ht
    split at ht
    · cases ht
    · cases ht
      exact within_aside h rfl rfl (le_refl _) htill
  | remove key =>
    rw [step] at ht
    split at ht
    · cases ht
      exact within_aside h rfl rfl (le_refl _) htill
    · cases ht

theorem within_run {es : List Event} (h : Within cfg n start before till s)
    (ht : exec (step cfg) s es = some t) (htill : t.clock ≤ till) :
    Within cfg n start before till t := by
  induction es generalizing s with
  | nil =>
    cases ht
    exact h
  | cons e es ih =>
    obtain ⟨u, hu, ht⟩ := exec_cons_eq_some.mp ht
    exact ih (within_step h hu ((clock_run ht).trans htill)) ht

theorem within_start (hsized : s.global.Sized cfg.globalRate cfg.globalBurst)
    (hnow : ∀ (i : Nat) (c : Call), s.calls[i]? = some c → c.now ≤ s.clock)
    (htill : s.clock ≤ till) :
    Within cfg s.calls.length s.clock s.inFlight till s := by
  have hlt : ∀ {i : Nat} {c : Call}, s.calls[i]? = some c → i < s.calls.length := fun hc =>
    (List.getElem?_eq_some_iff.mp hc).1
  refine ⟨hsized, le_refl _, htill, le_refl _, fun i c hc => ⟨hnow i c hc, fun hi => ?_⟩,
    total_mono fun i c hc => ?_, Or.inl fun i c hc hi => ?_⟩
  · exact absurd (hlt hc) (Nat.not_lt.mpr hi)
  · rw [openBefore, if_pos (hlt hc)]
  · exact absurd (hlt hc) (Nat.not_lt.mpr hi)

theorem within_init (cfg : Config) (boot till : Nat) (h : boot ≤ till) :
    Within cfg 0 boot 0 till (init cfg boot) := by
  refine within_start (s := init cfg boot) (TokenBucket.sized_new _ _ _) (fun i c hc => ?_) h
  cases hc

/-- In whatever order the calls run, and however old their readings of the clock are, the packets
admitted by calls from some moment on cost no more than the burst and what the time since brings,
and the cost of the calls under way at that moment. -/
theorem admitted_le (cfg : Config) (boot : Nat) (es fs : List Event) (s t : State)
    (hs : exec (step cfg) (init cfg boot) es = some s) (ht : exec (step cfg) s fs = some t) :
    t.admittedFrom s.calls.length * 1000000 ≤ cfg.globalBurst * 1000000 +
      cfg.globalRate * ((t.clock - s.clock + 999) / 1000) + s.inFlight * 1000000 := by
  have hreached := within_run (within_init cfg boot s.clock (clock_run hs)) hs (le_refl _)
  have hwindow := within_run (within_start hreached.sized
    (fun i c hc => (hreached.now_le i c hc).1) (clock_run ht)) ht (le_refl _)
  have hadmitted : t.admittedFrom s.calls.length ≤ total (drawn s.calls.length) t.calls :=
    total_mono fun i c _ => Nat.le_add_left _ _
  obtain hnone | hdrawn := hwindow.drawn_le
  · have hzero : t.admittedFrom s.calls.length = 0 := by
      refine total_eq_zero fun i c hc => ?_
      split
      · rename_i hi
        rw [Call.won, hnone i c hc hi]
        rfl
      · rfl
    rw [hzero, Nat.zero_mul]
    exact Nat.zero_le _
  · rw [allowance] at hdrawn
    linarith

def smallBudget : Config := ⟨10, 5, 2, 1, 3, 64, true⟩

/-- One call is under way while others come. -/
def firstCall : List Event := [.call (.v4 1) 4, .next 0]

def laterCalls : List Event := [.tick 2000000, .call (.v4 2) 1, .next 1, .next 1, .next 1]

theorem admitted_le_laterCalls : ∃ s t,
    exec (step smallBudget) (init smallBudget 0) firstCall = some s ∧
    exec (step smallBudget) s laterCalls = some t ∧
    t.admittedFrom s.calls.length * 1000000 ≤ smallBudget.globalBurst * 1000000 +
      smallBudget.globalRate * ((t.clock - s.clock + 999) / 1000) + s.inFlight * 1000000 :=
  ⟨_, _, rfl, rfl, admitted_le smallBudget 0 firstCall laterCalls _ _ rfl rfl⟩

end Steps

section Entries

variable {cfg : Config} {s t : State} {i : Nat} {c : Call}

def isReserved (c : Call) : Nat := if c.phase = .reserved then 1 else 0

def State.reserved (s : State) : Nat := total (fun _ c => isReserved c) s.calls

/-- The counter is the size of the table, but for slots reserved and entries counted off. -/
structure Counted (cfg : Config) (s : State) : Prop where
  keys_nodup : (s.sources.map Prod.fst).Nodup
  leaving_nodup : s.leaving.Nodup
  leaving_mem : ∀ key ∈ s.leaving, key ∈ s.sources.map Prod.fst
  reserved_new : ∀ (i : Nat) (c : Call), s.calls[i]? = some c → c.phase = .reserved →
    c.key ∉ s.sources.map Prod.fst
  reserved_inj : ∀ (i j : Nat) (c d : Call), s.calls[i]? = some c → s.calls[j]? = some d →
    c.phase = .reserved → d.phase = .reserved → c.key = d.key → i = j
  entries_le : s.entries ≤ cfg.cap
  entries_eq : s.entries + s.leaving.length = s.sources.length + s.reserved

theorem not_locked {key : IpAddr} (h : ¬s.locked key = true) : key ∉ s.leaving ∧
    ∀ (i : Nat) (c : Call), s.calls[i]? = some c → c.phase = .reserved → c.key ≠ key := by
  rw [State.locked, Bool.or_eq_true, not_or] at h
  refine ⟨fun hmem => h.1 (List.contains_iff_mem.mpr hmem), fun i c hc hphase hkey => ?_⟩
  refine h.2 (List.any_eq_true.mpr ⟨c, List.mem_of_getElem? hc, ?_⟩)
  rw [Bool.and_eq_true, decide_eq_true_iff, decide_eq_true_iff]
  exact ⟨hkey, hphase⟩

/-- A call leaves the table as it is, and no slot is reserved. -/
theorem counted_goTo (h : Counted cfg s) (hc : s.calls[i]? = some c) (hold : c.phase ≠ .reserved)
    {phase : Phase} (hnew : phase ≠ .reserved) : Counted cfg (s.goTo i c phase) := by
  have htotal := total_set (fun _ c => isReserved c) hc { c with phase }
  have hbefore : isReserved c = 0 := if_neg hold
  have hafter : isReserved { c with phase } = 0 := if_neg hnew
  have hcalls : ∀ (j : Nat) (d : Call), (s.goTo i c phase).calls[j]? = some d →
      d.phase = .reserved → s.calls[j]? = some d := by
    intro j d hj hd
    have hj : (s.calls.set i { c with phase })[j]? = some d := hj
    rw [List.getElem?_set] at hj
    split at hj
    · split at hj
      · cases hj
        exact absurd hd hnew
      · cases hj
    · exact hj
  refine ⟨h.keys_nodup, h.leaving_nodup, h.leaving_mem,
    fun j d hj hd => h.reserved_new j d (hcalls j d hj hd) hd,
    fun j k d e hj hk hd he => h.reserved_inj j k d e (hcalls j d hj hd) (hcalls k e hk he) hd he,
    h.entries_le, ?_⟩
  have hentries := h.entries_eq
  change s.entries + s.leaving.length = s.sources.length + total _ (s.calls.set i { c with phase })
  rw [State.reserved] at hentries
  omega

theorem counted_setGlobal (h : Counted cfg s) (b : TokenBucket) : Counted cfg (s.setGlobal b) :=
  ⟨h.keys_nodup, h.leaving_nodup, h.leaving_mem, h.reserved_new, h.reserved_inj, h.entries_le,
    h.entries_eq⟩

theorem counted_alter (h : Counted cfg s) (key : IpAddr) (f : TokenBucket → TokenBucket) :
    Counted cfg { s with sources := alter s.sources key f } := by
  obtain ⟨hkeys, hleaving, hmem, hnew, hinj, hle, heq⟩ := h
  rw [← keys_alter s.sources key f] at hkeys hmem hnew
  rw [← length_alter s.sources key f] at heq
  exact ⟨hkeys, hleaving, hmem, hnew, hinj, hle, heq⟩

theorem counted_reserve (h : Counted cfg s) (hc : s.calls[i]? = some c)
    (hphase : c.phase = .charged) (hlocked : ¬s.locked c.key = true)
    (hnone : s.sources.lookup c.key = none) (hcap : ¬cfg.cap ≤ s.entries) :
    Counted cfg ({ s with entries := s.entries + 1 }.goTo i c .reserved) := by
  have htotal := total_set (fun _ c => isReserved c) hc { c with phase := .reserved }
  have hbefore : isReserved c = 0 := by rw [isReserved, hphase, if_neg Phase.noConfusion]
  have hafter : isReserved { c with phase := .reserved } = 1 := if_pos rfl
  have hother := (not_locked hlocked).2
  have hcalls : ∀ (j : Nat) (d : Call),
      (s.calls.set i { c with phase := .reserved })[j]? = some d →
        (j = i ∧ d.key = c.key) ∨ (j ≠ i ∧ s.calls[j]? = some d) := by
    intro j d hj
    rw [List.getElem?_set] at hj
    split at hj
    · rename_i hij
      split at hj
      · cases hj
        exact Or.inl ⟨hij.symm, rfl⟩
      · cases hj
    · rename_i hij
      exact Or.inr ⟨Ne.symm hij, hj⟩
  refine ⟨h.keys_nodup, h.leaving_nodup, h.leaving_mem, fun j d hj hd => ?_,
    fun j k d e hj hk hd he hkey => ?_, Nat.lt_of_not_le hcap, ?_⟩
  · obtain ⟨-, hkey⟩ | ⟨-, hj⟩ := hcalls j d hj
    · rw [hkey]
      exact lookup_eq_none_iff_notMem.mp hnone
    · exact h.reserved_new j d hj hd
  · obtain ⟨rfl, hdk⟩ | ⟨-, hjs⟩ := hcalls j d hj
    · obtain ⟨rfl, -⟩ | ⟨-, hks⟩ := hcalls k e hk
      · rfl
      · exact absurd (hkey.symm.trans hdk) (hother k e hks he)
    · obtain ⟨rfl, hek⟩ | ⟨-, hks⟩ := hcalls k e hk
      · exact absurd (hkey.trans hek) (hother j d hjs hd)
      · exact h.reserved_inj j k d e hjs hks hd he hkey
  · have hentries := h.entries_eq
    change s.entries + 1 + s.leaving.length =
      s.sources.length + total _ (s.calls.set i { c with phase := .reserved })
    rw [State.reserved] at hentries
    omega

theorem counted_insert (h : Counted cfg s) (hc : s.calls[i]? = some c)
    (hphase : c.phase = .reserved) (b : TokenBucket) {phase : Phase} (hnew : phase ≠ .reserved) :
    Counted cfg ({ s with sources := (c.key, b) :: s.sources }.goTo i c phase) := by
  have htotal := total_set (fun _ c => isReserved c) hc { c with phase }
  have hbefore : isReserved c = 1 := if_pos hphase
  have hafter : isReserved { c with phase } = 0 := if_neg hnew
  have hcalls : ∀ (j : Nat) (d : Call), (s.calls.set i { c with phase })[j]? = some d →
      d.phase = .reserved → j ≠ i ∧ s.calls[j]? = some d := by
    intro j d hj hd
    rw [List.getElem?_set] at hj
    split at hj
    · split at hj
      · cases hj
        exact absurd hd hnew
      · cases hj
    · rename_i hij
      exact ⟨Ne.symm hij, hj⟩
  refine ⟨List.nodup_cons.mpr ⟨h.reserved_new i c hc hphase, h.keys_nodup⟩, h.leaving_nodup,
    fun key hkey => List.mem_cons_of_mem _ (h.leaving_mem key hkey), fun j d hj hd => ?_,
    fun j k d e hj hk hd he => ?_, h.entries_le, ?_⟩
  · obtain ⟨hne, hj⟩ := hcalls j d hj hd
    refine fun hmem => (List.mem_cons.mp hmem).elim (fun hkey => ?_) (h.reserved_new j d hj hd)
    exact hne (h.reserved_inj j i d c hj hc hd hphase hkey)
  · exact h.reserved_inj j k d e (hcalls j d hj hd).2 (hcalls k e hk he).2 hd he
  · have hentries := h.entries_eq
    change s.entries + s.leaving.length =
      s.sources.length + 1 + total _ (s.calls.set i { c with phase })
    rw [State.reserved] at hentries
    omega

theorem counted_next (h : Counted cfg s) (hc : s.calls[i]? = some c)
    (ht : next cfg s i c = some t) : Counted cfg t := by
  have hverdict : ∀ ok : Bool, (if ok then .ended none else .refused .source) ≠ Phase.reserved := by
    decide
  rw [next] at ht
  split at ht
  · rename_i hphase
    cases ht
    have hcall : (s.setGlobal (s.global.take c.cost c.now).2).calls[i]? = some c := by
      rw [setGlobal_calls]
      exact hc
    refine counted_goTo (counted_setGlobal h _) hcall ?_ ?_
    · rw [hphase]
      exact Phase.noConfusion
    · split <;> exact Phase.noConfusion
  · rename_i hphase
    have hold : c.phase ≠ .reserved := by
      rw [hphase]
      exact Phase.noConfusion
    split at ht
    · cases ht
    rename_i hlocked
    split at ht
    · cases ht
      exact counted_goTo (counted_alter h c.key _) hc hold (hverdict _)
    rename_i hnone
    split at ht
    · cases ht
      refine counted_goTo h hc hold ?_
      exact Phase.noConfusion
    · rename_i hcap
      cases ht
      exact counted_reserve h hc hphase hlocked hnone hcap
  · rename_i hphase
    cases ht
    exact counted_insert h hc hphase _ (hverdict _)
  · rename_i r hphase
    cases ht
    have hcall : (s.setGlobal (s.global.refund c.cost)).calls[i]? = some c := by
      rw [setGlobal_calls]
      exact hc
    refine counted_goTo (counted_setGlobal h _) hcall ?_ ?_
    · rw [hphase]
      exact Phase.noConfusion
    · exact Phase.noConfusion
  · cases ht

theorem length_filter_ne {key : IpAddr} {l : List (IpAddr × TokenBucket)}
    (hkeys : (l.map Prod.fst).Nodup) (hmem : key ∈ l.map Prod.fst) :
    (l.filter fun e => e.1 ≠ key).length + 1 = l.length := by
  have hfilter : (l.filter fun e => e.1 ≠ key).map Prod.fst = (l.map Prod.fst).erase key := by
    rw [hkeys.erase_eq_filter, List.filter_map]
    congr 1
    refine List.filter_congr fun e _ => ?_
    rw [Function.comp_apply, bne, beq_eq_decide, decide_not]
  have hlength := congrArg List.length hfilter
  rw [List.length_map, List.length_erase_of_mem hmem, List.length_map] at hlength
  have hpos := List.length_pos_of_mem hmem
  rw [List.length_map] at hpos
  omega

theorem counted_release {key : IpAddr} (h : Counted cfg s) (hmem : key ∈ s.sources.map Prod.fst)
    (hlocked : ¬s.locked key = true) :
    Counted cfg { s with entries := s.entries - 1, leaving := key :: s.leaving } := by
  have hnew := (not_locked hlocked).1
  have hnodup : (key :: s.leaving).Nodup := List.nodup_cons.mpr ⟨hnew, h.leaving_nodup⟩
  have hsub : (key :: s.leaving) ⊆ s.sources.map Prod.fst :=
    List.cons_subset.mpr ⟨hmem, h.leaving_mem⟩
  have hlength := (List.subperm_of_subset hnodup hsub).length_le
  have hentries := h.entries_eq
  rw [List.length_cons, List.length_map] at hlength
  refine ⟨h.keys_nodup, hnodup, hsub, h.reserved_new, h.reserved_inj,
    (Nat.sub_le _ _).trans h.entries_le, ?_⟩
  change s.entries - 1 + (s.leaving.length + 1) = s.sources.length + s.reserved
  omega

theorem counted_remove {key : IpAddr} (h : Counted cfg s) (hmem : key ∈ s.leaving) :
    Counted cfg { s with
      sources := s.sources.filter fun e => e.1 ≠ key
      leaving := s.leaving.erase key } := by
  have hlength := length_filter_ne h.keys_nodup (h.leaving_mem key hmem)
  have herase := List.length_erase_of_mem hmem
  have hpos := List.length_pos_of_mem hmem
  have hentries := h.entries_eq
  have hsub : (s.sources.filter fun e => e.1 ≠ key).map Prod.fst ⊆ s.sources.map Prod.fst :=
    (List.filter_sublist.map _).subset
  refine ⟨nodup_keys_filter h.keys_nodup _, h.leaving_nodup.erase key, fun k hk => ?_,
    fun i c hc hphase => ?_, h.reserved_inj, h.entries_le, ?_⟩
  · obtain ⟨hne, hk⟩ := (h.leaving_nodup.mem_erase_iff).mp hk
    obtain ⟨e, he, rfl⟩ := List.mem_map.mp (h.leaving_mem k hk)
    exact List.mem_map_of_mem (List.mem_filter.mpr ⟨he, decide_eq_true hne⟩)
  · exact fun hk => h.reserved_new i c hc hphase (hsub hk)
  · change s.entries + (s.leaving.erase key).length =
      (s.sources.filter fun e => e.1 ≠ key).length + s.reserved
    omega

theorem counted_step {e : Event} (h : Counted cfg s) (ht : step cfg s e = some t) :
    Counted cfg t := by
  cases e with
  | tick d =>
    cases ht
    exact ⟨h.keys_nodup, h.leaving_nodup, h.leaving_mem, h.reserved_new, h.reserved_inj,
      h.entries_le, h.entries_eq⟩
  | call ip cost =>
    cases ht
    have hcalls : ∀ (j : Nat) (d : Call),
        (s.calls ++ [⟨cfg.key ip, cost, s.clock, .sampled⟩])[j]? = some d → d.phase = .reserved →
          s.calls[j]? = some d := by
      intro j d hj hd
      rw [List.getElem?_append] at hj
      split at hj
      · exact hj
      · rw [List.getElem?_singleton] at hj
        split at hj
        · cases hj
          cases hd
        · cases hj
    refine ⟨h.keys_nodup, h.leaving_nodup, h.leaving_mem,
      fun j d hj hd => h.reserved_new j d (hcalls j d hj hd) hd,
      fun j k d f hj hk hd hf => h.reserved_inj j k d f (hcalls j d hj hd) (hcalls k f hk hf) hd hf,
      h.entries_le, ?_⟩
    have hentries := h.entries_eq
    rw [State.reserved] at hentries ⊢
    rw [total_concat]
    exact hentries
  | next i =>
    obtain ⟨c, hc, ht⟩ := Option.bind_eq_some_iff.mp ht
    exact counted_next h hc ht
  | release key now =>
    obtain ⟨b, hb, ht⟩ := Option.bind_eq_some_iff.mp ht
    split at ht
    · cases ht
    · rename_i hno
      cases ht
      exact counted_release h (List.mem_map_of_mem (mem_of_lookup hb))
        fun hlocked => hno (Or.inr (Or.inl hlocked))
  | remove key =>
    rw [step] at ht
    split at ht
    · cases ht
      exact counted_remove h (by assumption)
    · cases ht

/-- The cap on the table of sources holds for its counter at all times, and for the table but for
entries that a sweep is removing; when neither a call nor a sweep is at an entry, the counter is
the size of the table. -/
theorem entries_counted (cfg : Config) (boot : Nat) (es : List Event) (s : State)
    (hs : exec (step cfg) (init cfg boot) es = some s) :
    s.entries ≤ cfg.cap ∧ s.sources.length ≤ cfg.cap + s.leaving.length ∧
      (s.leaving = [] → (∀ c ∈ s.calls, c.phase ≠ .reserved) → s.entries = s.sources.length) := by
  have hinit : Counted cfg (init cfg boot) := by
    refine ⟨List.nodup_nil, List.nodup_nil, fun _ h => absurd h List.not_mem_nil,
      fun i c hc => ?_, fun i j c d hc => ?_, Nat.zero_le _, rfl⟩
    · cases hc
    · cases hc
  have h := exec_invariant (fun _ _ _ hc ht => counted_step hc ht) hinit hs
  have hentries := h.entries_eq
  refine ⟨h.entries_le, ?_, fun hleaving hnone => ?_⟩
  · have := h.entries_le
    omega
  · have hzero : s.reserved = 0 :=
      total_eq_zero fun i c hc => if_neg (hnone c (List.mem_of_getElem? hc))
    rw [hleaving, hzero] at hentries
    exact hentries

theorem entries_counted_firstCall : ∃ s, exec (step smallBudget) (init smallBudget 0)
      (firstCall ++ [.next 0]) = some s ∧ s.entries ≤ smallBudget.cap ∧
    s.sources.length ≤ smallBudget.cap + s.leaving.length ∧
    (s.leaving = [] → (∀ c ∈ s.calls, c.phase ≠ .reserved) → s.entries = s.sources.length) :=
  ⟨_, rfl, entries_counted smallBudget 0 (firstCall ++ [.next 0]) _ rfl⟩

end Entries

end Ed2kServer.Admission.UdpBudget
