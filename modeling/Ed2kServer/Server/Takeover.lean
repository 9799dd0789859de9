import Ed2kServer.Server.ClientSlots

namespace Ed2kServer.Server.Takeover

open Ed2kServer.Lib.Transition Ed2kServer.Lib.History
open Ed2kServer.Slab.Record Ed2kServer.Sources.Address
open Ed2kServer.Server.Login Ed2kServer.Server.ClientSlots

variable {cfg : Config} {login : Session → LoginRequest} {s t : State} {p q : Session}

/-- Every entry holds the IPv6 that its session advertises. -/
def Advertised (s : State) : Prop :=
  ∀ u e, s.clients u = some e → e.ipv6 = s.ipv6 e.session

/-- An insert finds no entry, or the one that the login saw at its second look-up, and an IPv6
update no entry but its own session's. -/
def undisturbed (login : Session → LoginRequest) (s : State) : Event → Bool
  | .insert p => (s.clients (login p).userHash).all fun e =>
    match s.phase p with
    | .checked (some prev) => prev.session = e.session
    | _ => false
  | .updateIpv6 p _ => (s.clients (login p).userHash).all fun e => e.session = p
  | _ => true

theorem advertised_step (hinv : Inv login s) (h : Advertised s) {e : Event}
    (hc : undisturbed login s e = true) (hstep : step cfg login s e = some t) : Advertised t := by
  cases moved_of_step hstep with
  | quiet | lookAgain | check | reserve | refuse | takeReplaced | takeOwn | drop | keep => exact h
  | insert p =>
    intro u e he
    simp only [State.goTo_clients, State.register_clients, Function.update_apply] at he
    split at he
    · rw [← Option.some.inj he]
      rfl
    · exact h u e he
  | setIpv6 p a =>
    intro u e he
    simp only [State.goTo_clients, State.setIpv6_clients, Function.update_apply] at he
    simp only [State.goTo_ipv6, State.setIpv6_ipv6, Function.update_apply]
    split at he
    · obtain ⟨e₀, he₀, rfl⟩ := Option.map_eq_some_iff.mp he
      have hown : e₀.session = p := by simpa [undisturbed, he₀] using hc
      rw [if_pos hown]
    · rename_i hu
      have hother : e.session ≠ p := by
        rintro rfl
        exact hu (hinv.owners.entry u e he).1.symm
      rw [if_neg hother]
      exact h u e he
  | remove p =>
    intro u e he
    simp only [State.goTo_clients, State.unregister_clients, Function.update_apply] at he
    split at he
    · cases he
    · exact h u e he

theorem advertised_run {es : List Event}
    (hc : Along (step cfg login) (fun s e => undisturbed login s e = true) (init login) es)
    (hrun : exec (step cfg login) (init login) es = some s) : Advertised s := by
  have hkeep : ∀ s e t, Inv login s ∧ Advertised s → undisturbed login s e = true →
      step cfg login s e = some t → Inv login t ∧ Advertised t :=
    fun s e t hi hc ht => ⟨inv_step hi.1 ht, advertised_step hi.1 hi.2 hc ht⟩
  exact (exec_invariant_along hkeep ⟨inv_init login, fun _ _ he => by cases he⟩ hc hrun).2

/-- The phases of a step that is not at the second look-up or the check. -/
theorem goTo_elsewhere {phase phase' : Phase} (ht : (s.goTo q phase).phase p = phase')
    (hphase : phase ≠ phase') : s.phase p = phase' := by
  rw [State.goTo_phase, Function.update_apply] at ht
  split at ht
  · exact absurd ht hphase
  · exact ht

/-- A login is past its check only through it. -/
theorem checked_since {e : Event} {online : Option ClientHandle}
    (hstep : step cfg login s e = some t) (ht : t.phase p = .checked online) :
    s.phase p = .checked online ∨
      e = .check p ∧ s.phase p = .lookedAgain online ∧ passes cfg login s p online = true := by
  cases moved_of_step hstep with
  | check q seen hq hpass =>
    rw [State.goTo_phase, Function.update_apply] at ht
    split at ht
    · rename_i hpq
      obtain rfl := Phase.checked.inj ht
      rw [hpq]
      exact .inr ⟨rfl, hq, hpass⟩
    · exact .inl ht
  | quiet e q phase hold hnew hafter hbefore hquiet hplain =>
    refine .inl (goTo_elsewhere ht ?_)
    rintro rfl
    exact hplain.2 rfl
  | drop q r phase hq hphase =>
    refine .inl (goTo_elsewhere ht ?_)
    obtain ⟨-, rfl⟩ | ⟨-, rfl⟩ := hphase <;> simp
  | _ => exact .inl (goTo_elsewhere ht (by simp))

theorem lookedAgain_since {e : Event} {online : Option ClientHandle}
    (hstep : step cfg login s e = some t) (ht : t.phase p = .lookedAgain online) :
    s.phase p = .lookedAgain online ∨
      e = .lookAgain p ∧ s.clients (login p).userHash = online := by
  cases moved_of_step hstep with
  | lookAgain q hq =>
    rw [State.goTo_phase, Function.update_apply] at ht
    split at ht
    · rename_i hpq
      rw [hpq]
      exact .inr ⟨rfl, Phase.lookedAgain.inj ht⟩
    · exact .inl ht
  | quiet e q phase hold hnew hafter hbefore hquiet hplain =>
    refine .inl (goTo_elsewhere ht ?_)
    rintro rfl
    exact hplain.1 rfl
  | drop q r phase hq hphase =>
    refine .inl (goTo_elsewhere ht ?_)
    obtain ⟨-, rfl⟩ | ⟨-, rfl⟩ := hphase <;> simp
  | _ => exact .inl (goTo_elsewhere ht (by simp))

/-- How a login came to its insert: what it found at the second look-up, and that this passed. -/
theorem insert_since {before : List Event} {online : Option ClientHandle}
    (hrun : exec (step cfg login) (init login) before = some s)
    (hp : s.phase p = .checked online) :
    ∃ first second third s₁ s₂,
      before = first ++ .lookAgain p :: second ++ .check p :: third ∧
      exec (step cfg login) (init login) first = some s₁ ∧
      exec (step cfg login) (init login) (first ++ .lookAgain p :: second) = some s₂ ∧
      s₁.clients (login p).userHash = online ∧ passes cfg login s₂ p online = true := by
  have hchecked : ∀ s e t, step cfg login s e = some t → t.phase p = .checked online →
      s.phase p = .checked online ∨
        e = .check p ∧ s.phase p = .lookedAgain online ∧ passes cfg login s p online = true :=
    fun s e t => checked_since
  have hlooked : ∀ s e t, step cfg login s e = some t → t.phase p = .lookedAgain online →
      s.phase p = .lookedAgain online ∨
        e = .lookAgain p ∧ s.clients (login p).userHash = online :=
    fun s e t => lookedAgain_since
  obtain ⟨upTo, e, third, s₂, rfl, hs₂, rfl, hphase, hpass⟩ :=
    exec_since hchecked (by simp [init]) hrun hp
  obtain ⟨first, e, second, s₁, rfl, hs₁, rfl, honline⟩ :=
    exec_since hlooked (by simp [init]) hs₂ hphase
  exact ⟨first, second, third, s₁, s₂, rfl, hs₁, hs₂, honline, hpass⟩

/-- In a run that leaves the logins undisturbed, a session is replaced only by a login that was
entitled to it: the session was online at the login's second look-up, and at its check the task of
the session had ended, or the rule held for the session as it was when it was looked up. -/
theorem replaced_entitled (cfg : Config) (login : Session → LoginRequest)
    (hany : cfg.hashTakeoverFromAnyAddress = false) {before after : List Event} {e : ClientHandle}
    (hc : Along (step cfg login) (fun s e => undisturbed login s e = true) (init login)
      (before ++ .insert p :: after))
    (hrun : exec (step cfg login) (init login) before = some s)
    (hshared : cfg.isSharedHash (login p).userHash = false)
    (he : s.clients (login p).userHash = some e) :
    ∃ first second third s₁ s₂ prev,
      before = first ++ .lookAgain p :: second ++ .check p :: third ∧
      exec (step cfg login) (init login) first = some s₁ ∧
      exec (step cfg login) (init login) (first ++ .lookAgain p :: second) = some s₂ ∧
      s₁.clients (login p).userHash = some prev ∧ prev.session = e.session ∧
      (s₂.phase e.session = .ended ∨
        Entitled cfg (login e.session) (s₁.ipv6 e.session) (login p).peer (login p).port) := by
  obtain ⟨hbefore, hlast⟩ := along_append.mp hc
  have hat := (hlast s hrun).1
  simp only [undisturbed, he, Option.all_some] at hat
  split at hat
  · rename_i prev hp
    rw [decide_eq_true_iff] at hat
    obtain ⟨first, second, third, s₁, s₂, rfl, hs₁, hs₂, honline, hpass⟩ := insert_since hrun hp
    refine ⟨first, second, third, s₁, s₂, prev, rfl, hs₁, hs₂, honline, hat, ?_⟩
    have hfirst := along_of_append (along_of_append hbefore)
    have hown := advertised_run hfirst hs₁ _ _ honline
    have huser := ((inv_run hs₁).owners.entry _ _ honline).1
    rw [passes, Option.all_some, mayReplaceSession, huser, hshared, hany, hown] at hpass
    rw [← hat]
    simpa [State.isAlive] using hpass
  · cases hat

/-- Logins of one user, each from its own IPv4 address. -/
def rivals (p : Session) : LoginRequest :=
  { apart p with userHash := Vector.replicate 16 1 }

/-- Logins of one user from one address. -/
def reconnects (_ : Session) : LoginRequest := rivals 0

def noLimit : Config := { oneClient with maxClients := 0 }

/-- The steps of a login before its insert. -/
def approaches (p : Session) : List Event :=
  [.lookUp p, .proceed p, .find p, .reserve p, .lookAgain p, .check p]

theorem replaced_entitled_reconnect : ∃ s e,
    exec (step noLimit reconnects) (init reconnects) (logsIn 0 ++ approaches 1) = some s ∧
      s.clients (reconnects 1).userHash = some e ∧ e.session = 0 ∧
      ∃ first second third s₁ s₂ prev,
        logsIn 0 ++ approaches 1 = first ++ .lookAgain 1 :: second ++ .check 1 :: third ∧
        exec (step noLimit reconnects) (init reconnects) first = some s₁ ∧
        exec (step noLimit reconnects) (init reconnects)
          (first ++ .lookAgain 1 :: second) = some s₂ ∧
        s₁.clients (reconnects 1).userHash = some prev ∧ prev.session = e.session ∧
        (s₂.phase e.session = .ended ∨ Entitled noLimit (reconnects e.session)
          (s₁.ipv6 e.session) (reconnects 1).peer (reconnects 1).port) := by
  have hsome : (exec (step noLimit reconnects) (init reconnects)
      (logsIn 0 ++ approaches 1)).map (fun s => s.clients (reconnects 1).userHash) =
        some (some ⟨0, none⟩) := by decide
  obtain ⟨s, hs, he⟩ := Option.map_eq_some_iff.mp hsome
  refine ⟨s, _, hs, he, rfl, ?_⟩
  have hc : Along (step noLimit reconnects) (fun s e => undisturbed reconnects s e = true)
      (init reconnects) (logsIn 0 ++ approaches 1 ++ .insert 1 :: []) := by decide
  exact replaced_entitled noLimit reconnects rfl hc hs rfl he

/-- Two logins that both begin while the user is offline: the second insert replaces the first
session, which is alive, from an address that the rule turns away. -/
theorem rival_displaced : (exec (step noLimit rivals) (init rivals)
    (approaches 0 ++ approaches 1 ++ [.insert 0, .take 0, .drop 0])).map (fun s =>
      (s.clients (rivals 1).userHash, s.phase 0, s.phase 1)) =
        some (some ⟨0, none⟩, .loggedIn, .checked none) ∧
    (exec (step noLimit rivals) (init rivals)
      (approaches 0 ++ approaches 1 ++ [.insert 0, .take 0, .drop 0] ++ [.insert 1])).map
        (fun s => (s.clients (rivals 1).userHash, s.phase 0)) =
          some (some ⟨1, none⟩, .loggedIn) ∧
    ¬ Entitled noLimit (rivals 0) none (rivals 1).peer (rivals 1).port := by
  decide

end Ed2kServer.Server.Takeover
