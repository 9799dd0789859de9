import Ed2kServer.Admission.Guards
import Ed2kServer.Lib.History

namespace Ed2kServer.Admission.GuardCounts

open Ed2kServer.Lib.GuardCount Ed2kServer.Lib.Transition Ed2kServer.Lib.History
open Ed2kServer.Sources.Address
open Ed2kServer.Admin.Auth (isLoopback)
open Ed2kServer.Admission.Guards

def slotKey : Phase → Option IpAddr
  | .slot key => some key
  | _ => none

def slotGone : Phase → Option IpAddr
  | .slotLeaving key => some key
  | _ => none

/-- The key of a `SourceShare`, in a call or in a guard. -/
def shareKey : Phase → Option IpAddr
  | .admitted source | .pending source => source
  | .sharing _ key => some key
  | _ => none

def shareGone : Phase → Option IpAddr
  | .sourceRefused key | .shareLeaving _ key => some key
  | _ => none

/-- The pair of a `RetryKey`, in a call or in a guard. -/
def pairOf : Phase → Option Pair
  | .paired pair | .retrying pair | .pairLeaving pair => some pair
  | _ => none

def hasLogin : Phase → Bool
  | .pending _ => true
  | _ => false

def hasRetry : Phase → Bool
  | .retrying _ | .permitLeaving => true
  | _ => false

/-- How many hold the key. -/
def held {K : Type} [DecidableEq K] (f : Phase → Option K) (s : State) (k : K) : Nat :=
  s.calls.countP (fun phase => f phase = some k)

/-- The account of the tables and the pools. -/
structure Accounted (cfg : Config) (s : State) : Prop where
  slots : Exact s.connPerIp (held slotKey s) (held slotGone s)
  shares : Exact s.pendingPerSource (held shareKey s) (held shareGone s)
  pairs : ∀ pair, held pairOf s pair = if s.retryPairs pair then 1 else 0
  logins : s.pendingLogin + s.calls.countP hasLogin = cfg.maxPendingLogins
  retries : s.retries + s.calls.countP hasRetry = cfg.maxRetryTasks

theorem accounted_init (cfg : Config) : Accounted cfg (init cfg) := by
  constructor
  case slots => exact Exact.empty
  case shares => exact Exact.empty
  case pairs => exact fun _ => rfl
  case logins => rfl
  case retries => rfl

/-- One call goes from `q` to `p`; without `q` it begins. -/
def Moved (s t : State) (q : Option Phase) (p : Phase) : Prop :=
  ∀ P : Phase → Bool, t.calls.countP P + q.elim 0 (fun q => if P q then 1 else 0) =
    s.calls.countP P + if P p then 1 else 0

variable {cfg : Config} {s t : State} {q : Option Phase} {p : Phase}

theorem moved_begin (s t : State) (h : t.calls = s.calls) (p : Phase) :
    Moved s (t.begin p) none p := by
  intro P
  rw [State.begin, h, List.countP_append, List.countP_singleton]
  rfl

theorem moved_goTo (t : State) (h : t.calls = s.calls) {i : Nat} {q : Phase}
    (hi : s.calls[i]? = some q) (p : Phase) : Moved s (t.goTo i p) (some q) p := by
  intro P
  obtain ⟨hlt, hq⟩ := List.getElem?_eq_some_iff.mp hi
  have hle := List.boole_getElem_le_countP (p := P) hlt
  rw [State.goTo, h, List.countP_set hlt]
  rw [hq] at hle ⊢
  simp only [Option.elim_some]
  omega

namespace Moved

section Tables

variable {K : Type} [DecidableEq K] {f g : Phase → Option K} {m : Table K} {k : K}

theorem held_eq (hm : Moved s t q p) (f : Phase → Option K) (k : K) :
    held f t k + (if q.bind f = some k then 1 else 0) =
      held f s k + if f p = some k then 1 else 0 := by
  have h := hm (fun phase => f phase = some k)
  cases q with
  | none => simpa [held] using h
  | some q => simpa [held] using h

theorem held_same (hm : Moved s t q p) (hf : f p = q.bind f) (k : K) :
    held f t k = held f s k := by
  have h := hm.held_eq f k
  rw [hf] at h
  omega

theorem held_more (hm : Moved s t q p) (hp : f p = some k) (hq : q.bind f = none) (j : K) :
    held f t j = held f s j + if j = k then 1 else 0 := by
  have h := hm.held_eq f j
  rw [hp, hq] at h
  simp only [Option.some.injEq, reduceCtorEq, if_false, Nat.add_zero] at h
  rw [h]
  simp only [eq_comm]

theorem held_less (hm : Moved s t q p) (hp : f p = none) (hq : q.bind f = some k) (j : K) :
    held f s j = held f t j + if j = k then 1 else 0 := by
  have h := hm.held_eq f j
  rw [hp, hq] at h
  simp only [Option.some.injEq, reduceCtorEq, if_false, Nat.add_zero] at h
  rw [← h]
  simp only [eq_comm]

theorem same (hm : Moved s t q p) (h : Exact m (held f s) (held g s)) (hf : f p = q.bind f)
    (hg : g p = q.bind g) : Exact m (held f t) (held g t) :=
  h.congr (hm.held_same hf) (hm.held_same hg)

end Tables

end Moved

namespace Accounted

theorem pairs_same (h : Accounted cfg s) (hm : Moved s t q p) (ht : t.retryPairs = s.retryPairs)
    (hp : pairOf p = q.bind pairOf) (pair : Pair) :
    held pairOf t pair = if t.retryPairs pair then 1 else 0 := by
  rw [hm.held_same hp, ht]
  exact h.pairs pair

theorem pairs_insert (h : Accounted cfg s) {new : Pair} (hm : Moved s t none p)
    (ht : t.retryPairs = Function.update s.retryPairs new true) (hnew : s.retryPairs new = false)
    (hp : pairOf p = some new) (pair : Pair) :
    held pairOf t pair = if t.retryPairs pair then 1 else 0 := by
  rw [hm.held_more hp rfl, ht, h.pairs]
  by_cases hpair : pair = new
  · subst hpair
    simp [hnew]
  · simp [hpair]

theorem pairs_remove (h : Accounted cfg s) {old : Pair} (hm : Moved s t q p)
    (ht : t.retryPairs = Function.update s.retryPairs old false) (hq : q.bind pairOf = some old)
    (hp : pairOf p = none) (pair : Pair) :
    held pairOf t pair = if t.retryPairs pair then 1 else 0 := by
  have hless := hm.held_less hp hq pair
  rw [h.pairs] at hless
  rw [ht]
  by_cases hpair : pair = old
  · subst hpair
    rw [if_pos rfl] at hless
    rw [Function.update_self]
    split at hless <;> simp <;> omega
  · rw [if_neg hpair, Nat.add_zero] at hless
    rw [Function.update_of_ne hpair, hless]

theorem number_same {P : Phase → Bool} (hm : Moved s t q p) (hp : P p = q.any P) :
    t.calls.countP P = s.calls.countP P := by
  have h := hm P
  cases q with
  | none => simpa [hp] using h
  | some q =>
    simp only [Option.any_some] at hp
    simpa [hp] using h

theorem number_more {P : Phase → Bool} (hm : Moved s t q p) (hp : P p = true)
    (hq : q.any P = false) : t.calls.countP P = s.calls.countP P + 1 := by
  have h := hm P
  cases q with
  | none => simpa [hp] using h
  | some q =>
    simp only [Option.any_some] at hq
    simpa [hp, hq] using h

theorem number_less {P : Phase → Bool} (hm : Moved s t q p) (hp : P p = false)
    (hq : q.any P = true) : s.calls.countP P = t.calls.countP P + 1 := by
  have h := hm P
  cases q with
  | none => cases hq
  | some q =>
    simp only [Option.any_some] at hq
    simpa [hp, hq] using h.symm

theorem logins_same (h : Accounted cfg s) (hm : Moved s t q p)
    (ht : t.pendingLogin = s.pendingLogin) (hp : hasLogin p = q.any hasLogin) :
    t.pendingLogin + t.calls.countP hasLogin = cfg.maxPendingLogins := by
  rw [ht, number_same hm hp]
  exact h.logins

theorem retries_same (h : Accounted cfg s) (hm : Moved s t q p) (ht : t.retries = s.retries)
    (hp : hasRetry p = q.any hasRetry) :
    t.retries + t.calls.countP hasRetry = cfg.maxRetryTasks := by
  rw [ht, number_same hm hp]
  exact h.retries

/-- A counter that is there and not 0 is only looked at. -/
theorem touch_eq {K : Type} [DecidableEq K] {m : Table K} {k : K} (hk : m.count k ≠ 0) :
    touch m k = m := by
  funext j
  by_cases hj : j = k
  · subst hj
    cases hm : m j with
    | none => exact absurd (by rw [Table.count, hm]; rfl) hk
    | some n => simp [touch, Table.count, hm]
  · rw [touch, Function.update_of_ne hj]

end Accounted

/-- Where the counters of 32 bits suffice: a call without a cap meets fewer than 2^32 - 1 slots. -/
def Uncrowded (cfg : Config) (s : State) : Event → Prop
  | .start (.acquireIpSlot ip limit) =>
    limit = 0 ∨ isLoopback ip = true → held slotKey s (cfg.key ip) + 1 < 2 ^ 32
  | _ => True

theorem accounted_start (h : Accounted cfg s) (call : Call)
    (hc : Uncrowded cfg s (.start call)) : Accounted cfg (start cfg s call) := by
  cases call with
  | acquireIpSlot ip limit =>
    rw [start]
    split
    · rename_i hfull
      have hne : s.connPerIp.count (cfg.key ip) ≠ 0 := by
        intro hz
        rw [hz] at hfull
        exact absurd (lt_of_lt_of_le hfull.1 hfull.2.1) (lt_irrefl 0)
      have hm := moved_begin s { s with connPerIp := touch s.connPerIp (cfg.key ip) } rfl
        (.ended false)
      refine ⟨?_, hm.same h.shares rfl rfl, h.pairs_same hm rfl rfl, h.logins_same hm rfl rfl,
        h.retries_same hm rfl rfl⟩
      exact Eq.subst (motive := fun m => Exact m _ _) (Accounted.touch_eq hne).symm
        (hm.same h.slots rfl rfl)
    · rename_i hfree
      have hroom : held slotKey s (cfg.key ip) + 1 < 2 ^ 32 := by
        by_cases hcap : limit = 0 ∨ isLoopback ip = true
        · exact hc hcap
        · obtain ⟨hlimit, hloop⟩ := not_or.mp hcap
          have hpos : 0 < limit := by
            rw [UInt32.lt_iff_toNat_lt]
            have hne : limit.toNat ≠ 0 := fun hz => hlimit (UInt32.toNat_inj.mp hz)
            exact Nat.pos_of_ne_zero hne
          have hlt : s.connPerIp.count (cfg.key ip) < limit := by
            rw [← not_le]
            exact fun hle => hfree ⟨hpos, hle, by simpa using hloop⟩
          rw [UInt32.lt_iff_toNat_lt, h.slots.count] at hlt
          have hbound := limit.toNat_lt
          omega
      have hm := moved_begin s { s with connPerIp := claim s.connPerIp (cfg.key ip) } rfl
        (.slot (cfg.key ip))
      exact ⟨h.slots.claim hroom (hm.held_more rfl rfl) (hm.held_same rfl),
        hm.same h.shares rfl rfl, h.pairs_same hm rfl rfl, h.logins_same hm rfl rfl,
        h.retries_same hm rfl rfl⟩
  | tryPending ip =>
    rw [start]
    split
    · have hm := moved_begin s s rfl (.admitted none)
      exact ⟨hm.same h.slots rfl rfl, hm.same h.shares rfl rfl, h.pairs_same hm rfl rfl,
        h.logins_same hm rfl rfl, h.retries_same hm rfl rfl⟩
    · split
      · have hm := moved_begin s
          { s with pendingPerSource := touch s.pendingPerSource (cfg.key ip) } rfl
          (.sourceRefused (cfg.key ip))
        exact ⟨hm.same h.slots rfl rfl, h.shares.touch (hm.held_same rfl) (hm.held_more rfl rfl),
          h.pairs_same hm rfl rfl, h.logins_same hm rfl rfl, h.retries_same hm rfl rfl⟩
      · rename_i hfree
        have hroom : held shareKey s (cfg.key ip) + 1 < 2 ^ 32 := by
          rw [not_le, UInt32.lt_iff_toNat_lt, h.shares.count] at hfree
          have hbound := cfg.maxPendingLoginsPerSource.toNat_lt
          omega
        have hm := moved_begin s
          { s with pendingPerSource := claim s.pendingPerSource (cfg.key ip) } rfl
          (.admitted (some (cfg.key ip)))
        exact ⟨hm.same h.slots rfl rfl,
          h.shares.claim hroom (hm.held_more rfl rfl) (hm.held_same rfl),
          h.pairs_same hm rfl rfl, h.logins_same hm rfl rfl, h.retries_same hm rfl rfl⟩
  | tryRetry requester target =>
    rw [start]
    split
    · have hm := moved_begin s s rfl (.ended false)
      exact ⟨hm.same h.slots rfl rfl, hm.same h.shares rfl rfl, h.pairs_same hm rfl rfl,
        h.logins_same hm rfl rfl, h.retries_same hm rfl rfl⟩
    · rename_i hnew
      have hm := moved_begin s
        { s with retryPairs := Function.update s.retryPairs (requester, target) true } rfl
        (.paired (requester, target))
      exact ⟨hm.same h.slots rfl rfl, hm.same h.shares rfl rfl,
        h.pairs_insert hm rfl (by simpa using hnew) rfl, h.logins_same hm rfl rfl,
        h.retries_same hm rfl rfl⟩

theorem accounted_next (h : Accounted cfg s) {i : Nat} {phase : Phase}
    (hi : s.calls[i]? = some phase) (ht : next s i phase = some t) : Accounted cfg t := by
  cases phase with
  | slot key => cases ht
  | pending source => cases ht
  | retrying pair => cases ht
  | ended granted => cases ht
  | slotLeaving key =>
    cases ht
    have hm := moved_goTo { s with connPerIp := removeIfZero s.connPerIp key } rfl hi (.ended true)
    exact ⟨h.slots.removeIfZero (hm.held_same rfl) (hm.held_less rfl rfl),
      hm.same h.shares rfl rfl, h.pairs_same hm rfl rfl, h.logins_same hm rfl rfl,
      h.retries_same hm rfl rfl⟩
  | sourceRefused key =>
    cases ht
    have hm := moved_goTo { s with pendingPerSource := removeIfZero s.pendingPerSource key } rfl hi
      (.ended false)
    exact ⟨hm.same h.slots rfl rfl,
      h.shares.removeIfZero (hm.held_same rfl) (hm.held_less rfl rfl),
      h.pairs_same hm rfl rfl, h.logins_same hm rfl rfl, h.retries_same hm rfl rfl⟩
  | admitted source =>
    rw [next.eq_def] at ht
    simp only at ht
    split at ht
    · rename_i hfree
      cases ht
      have hm := moved_goTo { s with pendingLogin := s.pendingLogin - 1 } rfl hi (.pending source)
      refine ⟨hm.same h.slots rfl rfl, hm.same h.shares rfl rfl, h.pairs_same hm rfl rfl, ?_,
        h.retries_same hm rfl rfl⟩
      have hl := h.logins
      rw [Accounted.number_more hm rfl rfl]
      simp only [State.goTo]
      omega
    · cases source with
      | none =>
        cases ht
        have hm := moved_goTo s rfl hi (.ended false)
        exact ⟨hm.same h.slots rfl rfl, hm.same h.shares rfl rfl, h.pairs_same hm rfl rfl,
          h.logins_same hm rfl rfl, h.retries_same hm rfl rfl⟩
      | some key =>
        cases ht
        have hm := moved_goTo s rfl hi (.sharing false key)
        exact ⟨hm.same h.slots rfl rfl, hm.same h.shares rfl rfl, h.pairs_same hm rfl rfl,
          h.logins_same hm rfl rfl, h.retries_same hm rfl rfl⟩
  | sharing granted key =>
    cases ht
    have hm := moved_goTo { s with pendingPerSource := decrement s.pendingPerSource key } rfl hi
      (.shareLeaving granted key)
    exact ⟨hm.same h.slots rfl rfl, h.shares.decrement (hm.held_less rfl rfl) (hm.held_more rfl rfl),
      h.pairs_same hm rfl rfl, h.logins_same hm rfl rfl, h.retries_same hm rfl rfl⟩
  | shareLeaving granted key =>
    cases ht
    have hm := moved_goTo { s with pendingPerSource := removeIfZero s.pendingPerSource key } rfl hi
      (.ended granted)
    exact ⟨hm.same h.slots rfl rfl,
      h.shares.removeIfZero (hm.held_same rfl) (hm.held_less rfl rfl),
      h.pairs_same hm rfl rfl, h.logins_same hm rfl rfl, h.retries_same hm rfl rfl⟩
  | paired pair =>
    rw [next] at ht
    split at ht
    · rename_i hfree
      cases ht
      have hm := moved_goTo { s with retries := s.retries - 1 } rfl hi (.retrying pair)
      refine ⟨hm.same h.slots rfl rfl, hm.same h.shares rfl rfl, h.pairs_same hm rfl rfl,
        h.logins_same hm rfl rfl, ?_⟩
      have hr := h.retries
      rw [Accounted.number_more hm rfl rfl]
      simp only [State.goTo]
      omega
    · cases ht
      have hm := moved_goTo s rfl hi (.pairLeaving pair)
      exact ⟨hm.same h.slots rfl rfl, hm.same h.shares rfl rfl, h.pairs_same hm rfl rfl,
        h.logins_same hm rfl rfl, h.retries_same hm rfl rfl⟩
  | pairLeaving pair =>
    cases ht
    have hm := moved_goTo { s with retryPairs := Function.update s.retryPairs pair false } rfl hi
      (.ended false)
    exact ⟨hm.same h.slots rfl rfl, hm.same h.shares rfl rfl, h.pairs_remove hm rfl rfl rfl,
      h.logins_same hm rfl rfl, h.retries_same hm rfl rfl⟩
  | permitLeaving =>
    cases ht
    have hm := moved_goTo { s with retries := s.retries + 1 } rfl hi (.ended true)
    refine ⟨hm.same h.slots rfl rfl, hm.same h.shares rfl rfl, h.pairs_same hm rfl rfl,
      h.logins_same hm rfl rfl, ?_⟩
    have hr := h.retries
    rw [Accounted.number_less hm rfl rfl] at hr
    simp only [State.goTo] at hr ⊢
    omega

theorem accounted_drop (h : Accounted cfg s) {i : Nat} {phase : Phase}
    (hi : s.calls[i]? = some phase) (ht : drop s i phase = some t) : Accounted cfg t := by
  cases phase with
  | slot key =>
    cases ht
    have hm := moved_goTo { s with connPerIp := decrement s.connPerIp key } rfl hi
      (.slotLeaving key)
    exact ⟨h.slots.decrement (hm.held_less rfl rfl) (hm.held_more rfl rfl),
      hm.same h.shares rfl rfl, h.pairs_same hm rfl rfl, h.logins_same hm rfl rfl,
      h.retries_same hm rfl rfl⟩
  | pending source =>
    have hl := h.logins
    cases source with
    | none =>
      cases ht
      have hm := moved_goTo { s with pendingLogin := s.pendingLogin + 1 } rfl hi (.ended true)
      refine ⟨hm.same h.slots rfl rfl, hm.same h.shares rfl rfl, h.pairs_same hm rfl rfl, ?_,
        h.retries_same hm rfl rfl⟩
      rw [Accounted.number_less hm rfl rfl] at hl
      simp only [State.goTo] at hl ⊢
      omega
    | some key =>
      cases ht
      have hm := moved_goTo { s with pendingLogin := s.pendingLogin + 1 } rfl hi (.sharing true key)
      refine ⟨hm.same h.slots rfl rfl, hm.same h.shares rfl rfl, h.pairs_same hm rfl rfl, ?_,
        h.retries_same hm rfl rfl⟩
      rw [Accounted.number_less hm rfl rfl] at hl
      simp only [State.goTo] at hl ⊢
      omega
  | retrying pair =>
    cases ht
    have hm := moved_goTo { s with retryPairs := Function.update s.retryPairs pair false } rfl hi
      .permitLeaving
    exact ⟨hm.same h.slots rfl rfl, hm.same h.shares rfl rfl, h.pairs_remove hm rfl rfl rfl,
      h.logins_same hm rfl rfl, h.retries_same hm rfl rfl⟩
  | slotLeaving key => cases ht
  | sourceRefused key => cases ht
  | admitted source => cases ht
  | sharing granted key => cases ht
  | shareLeaving granted key => cases ht
  | paired pair => cases ht
  | pairLeaving pair => cases ht
  | permitLeaving => cases ht
  | ended granted => cases ht

theorem accounted_step (h : Accounted cfg s) {e : Event} (hc : Uncrowded cfg s e)
    (ht : step cfg s e = some t) : Accounted cfg t := by
  cases e with
  | start call =>
    cases ht
    exact accounted_start h call hc
  | next i =>
    obtain ⟨phase, hi, ht⟩ := Option.bind_eq_some_iff.mp ht
    exact accounted_next h hi ht
  | drop i =>
    obtain ⟨phase, hi, ht⟩ := Option.bind_eq_some_iff.mp ht
    exact accounted_drop h hi ht

/-- The call a step belongs to. -/
def callOf (s : State) : Event → Nat
  | .start _ => s.calls.length
  | .next i | .drop i => i

/-- Only the call of the step goes on. -/
theorem step_calls {e : Event} (ht : step cfg s e = some t) :
    ∃ q p, Moved s t q p ∧ q = s.calls[callOf s e]? ∧ t.calls[callOf s e]? = some p ∧
      ∀ j, j ≠ callOf s e → t.calls[j]? = s.calls[j]? := by
  have hbegin : ∀ u : State, u.calls = s.calls → ∀ p, ∃ q p', Moved s (u.begin p) q p' ∧
      q = s.calls[s.calls.length]? ∧ (u.begin p).calls[s.calls.length]? = some p' ∧
      ∀ j, j ≠ s.calls.length → (u.begin p).calls[j]? = s.calls[j]? := by
    intro u hu p
    refine ⟨none, p, moved_begin s u hu p, by simp, by simp [State.begin, hu], fun j hj => ?_⟩
    rw [State.begin, hu, List.getElem?_append]
    split
    · rfl
    · rename_i hlt
      rw [List.getElem?_eq_none (by simp; omega), List.getElem?_eq_none (by omega)]
  have hgoTo : ∀ (i : Nat) (phase : Phase), s.calls[i]? = some phase →
      ∀ u : State, u.calls = s.calls → ∀ p, ∃ q p', Moved s (u.goTo i p) q p' ∧
      q = s.calls[i]? ∧ (u.goTo i p).calls[i]? = some p' ∧
      ∀ j, j ≠ i → (u.goTo i p).calls[j]? = s.calls[j]? := by
    intro i phase hi u hu p
    have hlt := (List.getElem?_eq_some_iff.mp hi).1
    refine ⟨some phase, p, moved_goTo u hu hi p, hi.symm, ?_, fun j hj => ?_⟩
    · simp [State.goTo, hu, hlt]
    · rw [State.goTo, hu, List.getElem?_set_ne (Ne.symm hj)]
  cases e with
  | start call =>
    cases ht
    cases call with
    | acquireIpSlot ip limit =>
      simp only [start, callOf]
      split <;> exact hbegin _ (by rfl) _
    | tryPending ip =>
      simp only [start, callOf]
      split
      · exact hbegin _ rfl _
      · split <;> exact hbegin _ (by rfl) _
    | tryRetry requester target =>
      simp only [start, callOf]
      split <;> exact hbegin _ (by rfl) _
  | next i =>
    obtain ⟨phase, hi, ht⟩ := Option.bind_eq_some_iff.mp ht
    have hg := hgoTo i phase hi
    cases phase with
    | slotLeaving key =>
      cases ht
      exact hg _ rfl _
    | sourceRefused key =>
      cases ht
      exact hg _ rfl _
    | admitted source =>
      rw [next.eq_def] at ht
      simp only at ht
      split at ht
      · cases ht
        exact hg _ rfl _
      · cases source <;> cases ht <;> exact hg _ rfl _
    | sharing granted key =>
      cases ht
      exact hg _ rfl _
    | shareLeaving granted key =>
      cases ht
      exact hg _ rfl _
    | paired pair =>
      rw [next] at ht
      split at ht <;> cases ht <;> exact hg _ rfl _
    | pairLeaving pair =>
      cases ht
      exact hg _ rfl _
    | permitLeaving =>
      cases ht
      exact hg _ rfl _
    | slot key => cases ht
    | pending source => cases ht
    | retrying pair => cases ht
    | ended granted => cases ht
  | drop i =>
    obtain ⟨phase, hi, ht⟩ := Option.bind_eq_some_iff.mp ht
    have hg := hgoTo i phase hi
    cases phase with
    | slot key =>
      cases ht
      exact hg _ rfl _
    | pending source => cases source <;> cases ht <;> exact hg _ rfl _
    | retrying pair =>
      cases ht
      exact hg _ rfl _
    | slotLeaving key => cases ht
    | sourceRefused key => cases ht
    | admitted source => cases ht
    | sharing granted key => cases ht
    | shareLeaving granted key => cases ht
    | paired pair => cases ht
    | pairLeaving pair => cases ht
    | permitLeaving => cases ht
    | ended granted => cases ht

/-- What the steps of one call, with the drop of its guard, change of a count. -/
def ownChange (cfg : Config) (count : State → Nat) (i : Nat) : State → List Event → Int
  | _, [] => 0
  | s, e :: es =>
    match step cfg s e with
    | none => 0
    | some t =>
      (if callOf s e = i then (count t : Int) - count s else 0) + ownChange cfg count i t es

section OwnChange

variable {K : Type} [DecidableEq K] {f : Phase → Option K} {k : K}

/-- Does the call hold the key? -/
def share (f : Phase → Option K) (k : K) (phase : Option Phase) : Int :=
  if phase.bind f = some k then 1 else 0

/-- A call has changed a count by what it holds of it now. -/
theorem ownChange_eq {count : State → Nat} (hcount : ∀ s, Accounted cfg s → count s = held f s k)
    (i : Nat) {es : List Event} (h : Accounted cfg s) (hc : Along (step cfg) (Uncrowded cfg) s es)
    (hrun : exec (step cfg) s es = some t) :
    ownChange cfg count i s es = share f k t.calls[i]? - share f k s.calls[i]? := by
  induction es generalizing s with
  | nil =>
    cases hrun
    rw [ownChange, sub_self]
  | cons e es ih =>
    obtain ⟨u, hu, hrest⟩ := exec_cons_eq_some.mp hrun
    have hacc := accounted_step h hc.1 hu
    obtain ⟨q, p, hm, hq, hp, hother⟩ := step_calls hu
    have hown : (if callOf s e = i then (count u : Int) - count s else 0) =
        share f k u.calls[i]? - share f k s.calls[i]? := by
      by_cases hi : callOf s e = i
      · rw [if_pos hi, hcount u hacc, hcount s h, ← hi, hp, ← hq]
        have heq := hm.held_eq f k
        rw [share, share, Option.bind_some]
        split_ifs at heq ⊢ <;> omega
      · rw [if_neg hi, hother i (Ne.symm hi), sub_self]
    have htail := ih hacc (hc.2 u hu) hrest
    simp only [ownChange, hu]
    rw [hown, htail]
    omega

end OwnChange

theorem count_decrement_le {K : Type} [DecidableEq K] (m : Table K) (k j : K) :
    Table.count (decrement m k) j ≤ m.count j := by
  rw [count_decrement]
  split
  · rename_i hj
    rw [hj]
    split
    · exact UInt32.le_iff_toNat_le.mpr (Nat.zero_le _)
    · rename_i hne
      rw [UInt32.le_iff_toNat_le, UInt32.toNat_sub_of_le]
      · exact Nat.sub_le _ _
      · rw [UInt32.le_iff_toNat_le, UInt32.toNat_one]
        exact Nat.pos_of_ne_zero fun hz => hne (UInt32.toNat_inj.mp hz)
  · exact le_refl _

/-- Only a call for a slot raises a count of `conn_per_ip`, and only below its limit. -/
theorem step_connPerIp {e : Event} (ht : step cfg s e = some t) :
    (∀ k, t.connPerIp.count k ≤ s.connPerIp.count k) ∨
      ∃ ip limit, e = .start (.acquireIpSlot ip limit) ∧
        ¬ (0 < limit ∧ limit ≤ s.connPerIp.count (cfg.key ip) ∧ isLoopback ip = false) ∧
        t.connPerIp = claim s.connPerIp (cfg.key ip) := by
  have hsame : t.connPerIp = s.connPerIp → ∀ k, t.connPerIp.count k ≤ s.connPerIp.count k :=
    fun he k => he ▸ le_refl _
  cases e with
  | start call =>
    cases ht
    cases call with
    | acquireIpSlot ip limit =>
      simp only [start]
      split
      · exact Or.inl fun k => le_of_eq (count_touch k)
      · rename_i hfree
        exact Or.inr ⟨ip, limit, rfl, hfree, rfl⟩
    | tryPending ip =>
      refine Or.inl (hsame ?_)
      simp only [start]
      split
      · rfl
      · split <;> rfl
    | tryRetry requester target =>
      refine Or.inl (hsame ?_)
      simp only [start]
      split <;> rfl
  | next i =>
    obtain ⟨phase, hi, ht⟩ := Option.bind_eq_some_iff.mp ht
    refine Or.inl ?_
    cases phase with
    | slotLeaving key =>
      cases ht
      exact fun k => le_of_eq (count_removeIfZero k)
    | admitted source =>
      rw [next.eq_def] at ht
      simp only at ht
      split at ht
      · cases ht
        exact hsame rfl
      · cases source <;> cases ht <;> exact hsame rfl
    | paired pair =>
      rw [next] at ht
      split at ht <;> cases ht <;> exact hsame rfl
    | _ => cases ht <;> exact hsame rfl
  | drop i =>
    obtain ⟨phase, hi, ht⟩ := Option.bind_eq_some_iff.mp ht
    refine Or.inl ?_
    cases phase with
    | slot key =>
      cases ht
      exact fun k => count_decrement_le _ _ _
    | pending source => cases source <;> cases ht <;> exact hsame rfl
    | _ => cases ht <;> exact hsame rfl

/-- Only a call for a login raises a count of `pending_per_source`, and only below its limit. -/
theorem step_pendingPerSource {e : Event} (ht : step cfg s e = some t) :
    (∀ k, t.pendingPerSource.count k ≤ s.pendingPerSource.count k) ∨
      ∃ key, s.pendingPerSource.count key < cfg.maxPendingLoginsPerSource ∧
        t.pendingPerSource = claim s.pendingPerSource key := by
  have hsame : t.pendingPerSource = s.pendingPerSource →
      ∀ k, t.pendingPerSource.count k ≤ s.pendingPerSource.count k := fun he k => he ▸ le_refl _
  cases e with
  | start call =>
    cases ht
    cases call with
    | acquireIpSlot ip limit =>
      refine Or.inl (hsame ?_)
      simp only [start]
      split <;> rfl
    | tryPending ip =>
      simp only [start]
      split
      · exact Or.inl fun k => le_refl _
      · split
        · exact Or.inl fun k => le_of_eq (count_touch k)
        · rename_i hfree
          exact Or.inr ⟨cfg.key ip, not_le.mp hfree, rfl⟩
    | tryRetry requester target =>
      refine Or.inl (hsame ?_)
      simp only [start]
      split <;> rfl
  | next i =>
    obtain ⟨phase, hi, ht⟩ := Option.bind_eq_some_iff.mp ht
    refine Or.inl ?_
    cases phase with
    | sourceRefused key =>
      cases ht
      exact fun k => le_of_eq (count_removeIfZero k)
    | shareLeaving granted key =>
      cases ht
      exact fun k => le_of_eq (count_removeIfZero k)
    | sharing granted key =>
      cases ht
      exact fun k => count_decrement_le _ _ _
    | admitted source =>
      rw [next.eq_def] at ht
      simp only at ht
      split at ht
      · cases ht
        exact hsame rfl
      · cases source <;> cases ht <;> exact hsame rfl
    | paired pair =>
      rw [next] at ht
      split at ht <;> cases ht <;> exact hsame rfl
    | _ => cases ht <;> exact hsame rfl
  | drop i =>
    obtain ⟨phase, hi, ht⟩ := Option.bind_eq_some_iff.mp ht
    refine Or.inl ?_
    cases phase with
    | pending source => cases source <;> cases ht <;> exact hsame rfl
    | _ => cases ht <;> exact hsame rfl

/-- A claim below a limit stays within it. -/
theorem count_claim_le {K : Type} [DecidableEq K] {m : Table K} {k j : K} {bound : UInt32}
    (hk : j = k → m.count k < bound) (hj : m.count j ≤ bound) :
    Table.count (claim m k) j ≤ bound := by
  rw [count_claim]
  split
  · rename_i hjk
    have hlt := UInt32.lt_iff_toNat_lt.mp (hk hjk)
    have hb := bound.toNat_lt
    rw [UInt32.le_iff_toNat_le, UInt32.toNat_add, UInt32.toNat_one, Nat.mod_eq_of_lt (by omega)]
    exact hlt
  · exact hj

/-- A call for a slot of the key has a limit, no higher than the bound, and is not from loopback. -/
def Capped (cfg : Config) (k : IpAddr) (bound : UInt32) (e : Event) : Prop :=
  ∀ ip limit, e = .start (.acquireIpSlot ip limit) → cfg.key ip = k →
    isLoopback ip = false ∧ 0 < limit ∧ limit ≤ bound

theorem connPerIp_le {es : List Event} {k : IpAddr} {bound : UInt32}
    (hcap : ∀ e ∈ es, Capped cfg k bound e) (hrun : exec (step cfg) (init cfg) es = some t) :
    t.connPerIp.count k ≤ bound := by
  suffices hstep : ∀ (s : State) (e : Event) (t : State), s.connPerIp.count k ≤ bound →
      Capped cfg k bound e → step cfg s e = some t → t.connPerIp.count k ≤ bound from
    exec_invariant_along hstep (UInt32.le_iff_toNat_le.mpr (Nat.zero_le _))
      (along_of_forall _ hcap) hrun
  intro s e t hle hc ht
  obtain hdown | ⟨ip, limit, rfl, hfree, he⟩ := step_connPerIp ht
  · exact le_trans (hdown k) hle
  · rw [he]
    refine count_claim_le (fun hk => ?_) hle
    obtain ⟨hloop, hpos, hlimit⟩ := hc ip limit rfl hk.symm
    rw [← not_le]
    exact fun hge => hfree ⟨hpos, le_trans hlimit hge, hloop⟩

theorem pendingPerSource_le {es : List Event} (hrun : exec (step cfg) (init cfg) es = some t)
    (k : IpAddr) : t.pendingPerSource.count k ≤ cfg.maxPendingLoginsPerSource := by
  suffices hstep : ∀ (s : State) (e : Event) (t : State),
      s.pendingPerSource.count k ≤ cfg.maxPendingLoginsPerSource → step cfg s e = some t →
        t.pendingPerSource.count k ≤ cfg.maxPendingLoginsPerSource from
    exec_invariant hstep (UInt32.le_iff_toNat_le.mpr (Nat.zero_le _)) hrun
  intro s e t hle ht
  obtain hdown | ⟨key, hfree, he⟩ := step_pendingPerSource ht
  · exact le_trans (hdown k) hle
  · rw [he]
    exact count_claim_le (fun _ => hfree) hle

theorem eq_of_countP_le_one {P : Phase → Bool} {l : List Phase} (h : l.countP P ≤ 1) {i j : Nat}
    {x y : Phase} (hi : l[i]? = some x) (hj : l[j]? = some y) (hx : P x = true)
    (hy : P y = true) : i = j := by
  induction l generalizing i j with
  | nil => cases hi
  | cons a l ih =>
    rw [List.countP_cons] at h
    have hpos : ∀ (z : Phase) (n : Nat), l[n]? = some z → P z = true → 0 < l.countP P :=
      fun z n hz hP => List.countP_pos_iff.mpr ⟨z, List.mem_of_getElem? hz, hP⟩
    cases i with
    | zero =>
      cases j with
      | zero => rfl
      | succ j =>
        obtain rfl : a = x := by simpa using hi
        have hl := hpos y j (by simpa using hj) hy
        rw [if_pos hx] at h
        omega
    | succ i =>
      cases j with
      | zero =>
        obtain rfl : a = y := by simpa using hj
        have hl := hpos x i (by simpa using hi) hx
        rw [if_pos hy] at h
        omega
      | succ j =>
        exact congrArg (· + 1) (ih (by omega) (by simpa using hi) (by simpa using hj))

/-- What the tables say after the events. -/
structure CountsExact (cfg : Config) (es : List Event) (t : State) : Prop where
  /-- A count is the number of those who hold the key, the drops before their decrement included. -/
  counts : ∀ k, (t.connPerIp.count k).toNat = held slotKey t k ∧
    (t.pendingPerSource.count k).toNat = held shareKey t k
  limits : (∀ k, t.pendingPerSource.count k ≤ cfg.maxPendingLoginsPerSource) ∧
    ∀ k bound, (∀ e ∈ es, Capped cfg k bound e) → t.connPerIp.count k ≤ bound
  /-- The counter of a holder is there to be decremented. -/
  positive : ∀ k, (0 < held slotKey t k → ∃ n, t.connPerIp k = some n ∧ 0 < n) ∧
    (0 < held shareKey t k → ∃ n, t.pendingPerSource k = some n ∧ 0 < n)
  /-- The steps of a refused call undo each other. -/
  refused : ∀ i : Nat, t.calls[i]? = some (.ended false) →
    (∀ k, ownChange cfg (fun s => (s.connPerIp.count k).toNat) i (init cfg) es = 0 ∧
      ownChange cfg (fun s => (s.pendingPerSource.count k).toNat) i (init cfg) es = 0) ∧
    ∀ pair, ownChange cfg (fun s => if s.retryPairs pair then 1 else 0) i (init cfg) es = 0
  pair_unique : ∀ (i j : Nat) (p q : Phase) (pair : Pair), t.calls[i]? = some p → t.calls[j]? = some q →
    pairOf p = some pair → pairOf q = some pair → i = j
  emptied : (∀ phase ∈ t.calls, ∃ granted, phase = .ended granted) →
    t.connPerIp = (fun _ => none) ∧ t.pendingPerSource = (fun _ => none) ∧
      t.retryPairs = (fun _ => false) ∧ t.pendingLogin = cfg.maxPendingLogins ∧
        t.retries = cfg.maxRetryTasks

theorem accounted_run {es : List Event} (hc : Along (step cfg) (Uncrowded cfg) (init cfg) es)
    (hrun : exec (step cfg) (init cfg) es = some t) : Accounted cfg t :=
  exec_invariant_along (fun _ _ _ h hc ht => accounted_step h hc ht) (accounted_init cfg) hc hrun

/-- The counts of admission are exact in every run that no source crowds. -/
theorem counts_exact {es : List Event} (hc : Along (step cfg) (Uncrowded cfg) (init cfg) es)
    (hrun : exec (step cfg) (init cfg) es = some t) : CountsExact cfg es t := by
  have h := accounted_run hc hrun
  constructor
  case counts => exact fun k => ⟨h.slots.count k, h.shares.count k⟩
  case limits => exact ⟨pendingPerSource_le hrun, fun k bound hcap => connPerIp_le hcap hrun⟩
  case positive => exact fun k => ⟨h.slots.positive, h.shares.positive⟩
  case refused =>
    intro i hi
    have hstart : (init cfg).calls[i]? = none := rfl
    refine ⟨fun k => ⟨?_, ?_⟩, fun pair => ?_⟩
    · rw [ownChange_eq (f := slotKey) (k := k) (fun s hs => hs.slots.count k) i
        (accounted_init cfg) hc hrun, hi, hstart]
      rfl
    · rw [ownChange_eq (f := shareKey) (k := k) (fun s hs => hs.shares.count k) i
        (accounted_init cfg) hc hrun, hi, hstart]
      rfl
    · rw [ownChange_eq (f := pairOf) (k := pair) (fun s hs => (hs.pairs pair).symm) i
        (accounted_init cfg) hc hrun, hi, hstart]
      rfl
  case pair_unique =>
    intro i j p q pair hi hj hp hq
    have hle : held pairOf t pair ≤ 1 := by
      rw [h.pairs]
      split <;> omega
    exact eq_of_countP_le_one hle hi hj (by simpa using hp) (by simpa using hq)
  case emptied =>
    intro hall
    have hnone : ∀ {K : Type} [DecidableEq K] (f : Phase → Option K),
        (∀ granted, f (.ended granted) = none) → ∀ k, held f t k = 0 := by
      intro K _ f hf k
      refine List.countP_eq_zero.mpr fun phase hphase => ?_
      obtain ⟨granted, rfl⟩ := hall phase hphase
      simp [hf]
    have hzero : ∀ P : Phase → Bool, (∀ granted, P (.ended granted) = false) →
        t.calls.countP P = 0 := by
      intro P hP
      refine List.countP_eq_zero.mpr fun phase hphase => ?_
      obtain ⟨granted, rfl⟩ := hall phase hphase
      simp [hP]
    have hl := h.logins
    have hr := h.retries
    rw [hzero hasLogin fun _ => rfl] at hl
    rw [hzero hasRetry fun _ => rfl] at hr
    refine ⟨h.slots.eq_empty (hnone slotKey fun _ => rfl) (hnone slotGone fun _ => rfl),
      h.shares.eq_empty (hnone shareKey fun _ => rfl) (hnone shareGone fun _ => rfl), ?_, hl, hr⟩
    funext pair
    have hp := h.pairs pair
    rw [hnone pairOf fun _ => rfl] at hp
    by_contra hne
    rw [if_pos (by simpa using hne)] at hp
    cases hp

/-- Where every call has a limit and none comes from loopback, no counter can wrap. -/
theorem along_capped (s : State) {es : List Event}
    (h : ∀ e ∈ es, ∀ ip limit, e = .start (.acquireIpSlot ip limit) →
      limit ≠ 0 ∧ isLoopback ip = false) : Along (step cfg) (Uncrowded cfg) s es := by
  refine along_mono ?_ (along_of_forall s h)
  intro s e he
  cases e with
  | start call =>
    cases call with
    | acquireIpSlot ip limit =>
      obtain ⟨hlimit, hloop⟩ := he ip limit rfl
      rintro (h | h)
      · exact absurd h hlimit
      · rw [hloop] at h
        cases h
    | tryPending ip => trivial
    | tryRetry requester target => trivial
  | next i => trivial
  | drop i => trivial

def sampleConfig : Config := ⟨2, 4, 4, 64⟩

def sampleIp : IpAddr := .v4 0x077100CB

def samplePair : Pair := (Vector.replicate 16 0xAB, 7)

/-- A slot, a login, a retry and a second retry of the same pair, then all dropped. -/
def sampleRun : List Event :=
  [.start (.acquireIpSlot sampleIp 2), .start (.tryPending sampleIp), .next 1,
    .start (.tryRetry samplePair.1 samplePair.2), .start (.tryRetry samplePair.1 samplePair.2),
    .next 2, .drop 0, .drop 1, .next 0, .next 1, .next 1, .drop 2, .next 2]

theorem sampleRun_exact : ∃ t, exec (step sampleConfig) (init sampleConfig) sampleRun = some t ∧
    CountsExact sampleConfig sampleRun t := by
  obtain ⟨t, ht⟩ := Option.isSome_iff_exists.mp (by decide :
    (exec (step sampleConfig) (init sampleConfig) sampleRun).isSome = true)
  refine ⟨t, ht, counts_exact (along_capped _ ?_) ht⟩
  intro e he ip limit hcall
  subst hcall
  simp [sampleRun, samplePair] at he
  obtain ⟨rfl, rfl⟩ := he
  exact ⟨by decide, by decide⟩

def localhost : IpAddr := .v4 0x0100007F

/-- So many connections from the machine itself. -/
def crowd (n : Nat) : List Event := List.replicate n (.start (.acquireIpSlot localhost 0))

theorem exec_crowd (n : Nat) : ∃ t, exec (step cfg) (init cfg) (crowd n) = some t ∧
    t.calls = List.replicate n (.slot (cfg.key localhost)) ∧
    t.connPerIp.count (cfg.key localhost) = UInt32.ofNat n := by
  induction n with
  | zero => exact ⟨init cfg, rfl, rfl, rfl⟩
  | succ n ih =>
    obtain ⟨t, hrun, hcalls, hcount⟩ := ih
    refine ⟨start cfg t (.acquireIpSlot localhost 0), ?_, ?_, ?_⟩
    · rw [crowd, List.replicate_succ', exec_concat_eq_some]
      exact ⟨t, hrun, rfl⟩
    · rw [start, if_neg (fun h => absurd h.1 (lt_irrefl 0)), State.begin, hcalls,
        List.replicate_succ']
    · rw [start, if_neg (fun h => absurd h.1 (lt_irrefl 0)), State.begin, count_claim, if_pos rfl,
        hcount, UInt32.ofNat_add]
      rfl

/-- With 2^32 connections from the machine itself the counter is at 0. -/
theorem crowd_miscounts : ∃ t,
    exec (step sampleConfig) (init sampleConfig) (crowd (2 ^ 32)) = some t ∧
      ¬ CountsExact sampleConfig (crowd (2 ^ 32)) t := by
  obtain ⟨n, hn⟩ : ∃ n, n = 2 ^ 32 := ⟨_, rfl⟩
  rw [← hn]
  obtain ⟨t, hrun, hcalls, hcount⟩ := @exec_crowd sampleConfig n
  refine ⟨t, hrun, fun h => ?_⟩
  have heq := (h.counts (sampleConfig.key localhost)).1
  have hheld : held slotKey t (sampleConfig.key localhost) = n := by
    rw [held, hcalls, List.countP_replicate]
    simp [slotKey]
  rw [hcount, hheld, UInt32.toNat_ofNat', hn] at heq
  simp at heq

end Ed2kServer.Admission.GuardCounts
