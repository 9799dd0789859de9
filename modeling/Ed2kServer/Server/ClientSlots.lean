import Ed2kServer.Lib.History
import Ed2kServer.Server.Login

namespace Ed2kServer.Server.ClientSlots

open Ed2kServer.Lib.Transition Ed2kServer.Lib.History
open Ed2kServer.Slab.Record Ed2kServer.Sources.Address Ed2kServer.Server.Login

variable {cfg : Config} {login : Session → LoginRequest} {s t : State} {p q : Session}

/-- The account of the slots: where each one is that is not given back. -/
structure Ledger (s : State) : Prop where
  holding : ∀ p, s.slot p = true → 4 ≤ s.stage p ∧ s.stage p ≤ 11
  pending : ∀ p, 4 ≤ s.stage p → s.stage p ≤ 6 → s.slot p = true
  out_iff : ∀ p, p ∈ s.reserved ∧ p ∉ s.returned ↔
    s.slot p = true ∨ ∃ t, (s.phase t).taken = some p
  taken_slot : ∀ t p, (s.phase t).taken = some p → s.slot p = false
  taken_inj : ∀ t t' p, (s.phase t).taken = some p → (s.phase t').taken = some p → t = t'
  reserved_stage : ∀ p, p ∈ s.reserved → 4 ≤ s.stage p
  stage_reserved : ∀ p, 4 ≤ s.stage p → s.stage p ≤ 14 → p ∈ s.reserved
  reserved_nodup : s.reserved.Nodup
  returned_nodup : s.returned.Nodup
  returned_subset : s.returned ⊆ s.reserved
  held_eq : s.held + s.returned.length = s.reserved.length

theorem ledger_init (login : Session → LoginRequest) : Ledger (init login) := by
  constructor <;> simp [init, State.stage, Phase.stage, Phase.taken]

/-- A step of one connection that moves no slot. -/
theorem Ledger.goTo (h : Ledger s) {phase : Phase} (htaken : phase.taken = (s.phase p).taken)
    (hhold : s.slot p = true → 4 ≤ phase.stage ∧ phase.stage ≤ 11)
    (hpend : 4 ≤ phase.stage → phase.stage ≤ 6 → s.slot p = true)
    (hlow : p ∈ s.reserved → 4 ≤ phase.stage)
    (hhigh : 4 ≤ phase.stage → phase.stage ≤ 14 → p ∈ s.reserved) : Ledger (s.goTo p phase) := by
  have hsame : ∀ q, ((s.goTo p phase).phase q).taken = (s.phase q).taken := by
    intro q
    rw [State.goTo_phase, Function.update_apply]
    split
    · rename_i hq
      rw [hq, htaken]
    · rfl
  obtain ⟨h₁, h₂, h₃, h₄, h₅, h₆, h₇, h₈, h₉, h₁₀, h₁₁⟩ := h
  constructor <;> simp only [hsame, State.goTo_stage, State.goTo_slot, State.goTo_reserved,
    State.goTo_returned, State.goTo_held]
  case holding => grind
  case pending => grind
  case out_iff => exact h₃
  case taken_slot => exact h₄
  case taken_inj => exact h₅
  case reserved_stage => grind
  case stage_reserved => grind
  case reserved_nodup => exact h₈
  case returned_nodup => exact h₉
  case returned_subset => exact h₁₀
  case held_eq => exact h₁₁

/-- A slot is reserved. -/
theorem Ledger.reserve (h : Ledger s) {online : Bool} (hp : s.phase p = .found online) :
    Ledger ((s.reserveSlot p).goTo p .reserved) := by
  have hstage : s.stage p = 3 := by rw [State.stage, hp]; rfl
  have htaken : (s.phase p).taken = none := by rw [hp]; rfl
  obtain ⟨h₁, h₂, h₃, h₄, h₅, h₆, h₇, h₈, h₉, h₁₀, h₁₁⟩ := h
  have hnew : p ∉ s.reserved := fun hmem => absurd (h₆ p hmem) (by omega)
  have hnot : p ∉ s.returned := fun hmem => hnew (h₁₀ hmem)
  constructor <;> simp only [State.goTo_stage, State.goTo_slot, State.goTo_reserved,
    State.goTo_returned, State.goTo_held, State.goTo_phase, State.reserveSlot_stage,
    State.reserveSlot_slot, State.reserveSlot_reserved, State.reserveSlot_returned,
    State.reserveSlot_held, State.reserveSlot_phase, Function.update_apply]
  case holding => grind [Phase.stage]
  case pending => grind [Phase.stage]
  case out_iff => grind [Phase.taken]
  case taken_slot => grind [Phase.taken]
  case taken_inj => grind [Phase.taken]
  case reserved_stage => grind [Phase.stage]
  case stage_reserved => grind [Phase.stage]
  case reserved_nodup => exact List.nodup_cons.mpr ⟨hnew, h₈⟩
  case returned_nodup => exact h₉
  case returned_subset => exact List.subset_cons_of_subset p h₁₀
  case held_eq =>
    simp only [List.length_cons]
    omega

/-- A slot goes out of a handle. -/
theorem Ledger.take (h : Ledger s) {phase : Phase} (q : Session)
    (hbefore : (s.phase p).taken = none) (hafter : phase.taken = if s.slot q then some q else none)
    (hseven : 7 ≤ s.stage q) (hphase : 7 ≤ phase.stage)
    (hhold : s.slot p = true → p ≠ q → phase.stage ≤ 11) (hmem : p ∈ s.reserved) :
    Ledger ((s.takeSlot q).goTo p phase) := by
  obtain ⟨h₁, h₂, h₃, h₄, h₅, h₆, h₇, h₈, h₉, h₁₀, h₁₁⟩ := h
  constructor <;> simp only [State.goTo_stage, State.goTo_slot, State.goTo_reserved,
    State.goTo_returned, State.goTo_held, State.goTo_phase, State.takeSlot_stage,
    State.takeSlot_slot, State.takeSlot_reserved, State.takeSlot_returned, State.takeSlot_held,
    State.takeSlot_phase, Function.update_apply]
  case holding => grind
  case pending => grind
  case out_iff => grind
  case taken_slot => grind
  case taken_inj => grind
  case reserved_stage => grind
  case stage_reserved => grind
  case reserved_nodup => exact h₈
  case returned_nodup => exact h₉
  case returned_subset => exact h₁₀
  case held_eq => exact h₁₁

theorem held_pos (h : Ledger s) (hmem : q ∈ s.reserved) (hnot : q ∉ s.returned) : 0 < s.held := by
  have hnodup : (q :: s.returned).Nodup := List.nodup_cons.mpr ⟨hnot, h.returned_nodup⟩
  have hsub : q :: s.returned ⊆ s.reserved := List.cons_subset.mpr ⟨hmem, h.returned_subset⟩
  have hle := (hnodup.subperm hsub).length_le
  have heq := h.held_eq
  simp only [List.length_cons] at hle
  omega

/-- A slot that is out of its handle is given back. -/
theorem Ledger.drop (h : Ledger s) {phase : Phase} (hbefore : (s.phase p).taken = some q)
    (hafter : phase.taken = none) (hhold : s.slot p = true → phase.stage ≤ 11)
    (hphase : 7 ≤ phase.stage) (hmem : p ∈ s.reserved) :
    Ledger ((s.returnSlot q).goTo p phase) := by
  have hq := (h.out_iff q).mpr (.inr ⟨p, hbefore⟩)
  have hpos := held_pos h hq.1 hq.2
  obtain ⟨h₁, h₂, h₃, h₄, h₅, h₆, h₇, h₈, h₉, h₁₀, h₁₁⟩ := h
  constructor <;> simp only [State.goTo_stage, State.goTo_slot, State.goTo_reserved,
    State.goTo_returned, State.goTo_held, State.goTo_phase, State.returnSlot_stage,
    State.returnSlot_slot, State.returnSlot_reserved, State.returnSlot_returned,
    State.returnSlot_held, State.returnSlot_phase, Function.update_apply]
  case holding => grind
  case pending => grind
  case out_iff => grind
  case taken_slot => grind
  case taken_inj => grind
  case reserved_stage => grind
  case stage_reserved => grind
  case reserved_nodup => exact h₈
  case returned_nodup => exact List.nodup_cons.mpr ⟨hq.2, h₉⟩
  case returned_subset => exact List.cons_subset.mpr ⟨hq.1, h₁₀⟩
  case held_eq =>
    simp only [List.length_cons]
    omega

/-- A login that is refused gives its slot back itself. -/
theorem Ledger.refuse (h : Ledger s) (hslot : s.slot p = true) (hbefore : (s.phase p).taken = none) :
    Ledger (((s.takeSlot p).returnSlot p).goTo p .ended) := by
  have hp := (h.out_iff p).mpr (.inl hslot)
  have hpos := held_pos h hp.1 hp.2
  obtain ⟨h₁, h₂, h₃, h₄, h₅, h₆, h₇, h₈, h₉, h₁₀, h₁₁⟩ := h
  constructor <;> simp only [State.goTo_stage, State.goTo_slot, State.goTo_reserved,
    State.goTo_returned, State.goTo_held, State.goTo_phase, State.returnSlot_stage,
    State.returnSlot_slot, State.returnSlot_reserved, State.returnSlot_returned,
    State.returnSlot_held, State.returnSlot_phase, State.takeSlot_stage,
    State.takeSlot_slot, State.takeSlot_reserved, State.takeSlot_returned, State.takeSlot_held,
    State.takeSlot_phase, Function.update_apply]
  case holding => grind
  case pending => grind [Phase.stage]
  case out_iff => grind [Phase.taken]
  case taken_slot => grind [Phase.taken]
  case taken_inj => grind [Phase.taken]
  case reserved_stage => grind [Phase.stage]
  case stage_reserved => grind [Phase.stage]
  case reserved_nodup => exact h₈
  case returned_nodup => exact List.nodup_cons.mpr ⟨hp.2, h₉⟩
  case returned_subset => exact List.cons_subset.mpr ⟨hp.1, h₁₀⟩
  case held_eq =>
    simp only [List.length_cons]
    omega

theorem Ledger.of_eq (h : Ledger s) (hslot : t.slot = s.slot) (hphase : t.phase = s.phase)
    (hheld : t.held = s.held) (hreserved : t.reserved = s.reserved)
    (hreturned : t.returned = s.returned) : Ledger t := by
  have hstage : t.stage = s.stage := by
    funext p
    rw [State.stage, hphase, State.stage]
  obtain ⟨h₁, h₂, h₃, h₄, h₅, h₆, h₇, h₈, h₉, h₁₀, h₁₁⟩ := h
  constructor <;> simp only [hstage, hslot, hphase, hheld, hreserved, hreturned] <;> assumption

/-- Entries and slots: an entry has its slot until its session leaves, and a slot belongs to an
entry, or to one that has just been replaced. -/
structure Owners (login : Session → LoginRequest) (s : State) : Prop where
  entry : ∀ u e, s.clients u = some e →
    (login e.session).userHash = u ∧ 7 ≤ s.stage e.session ∧ s.stage e.session ≤ 13
  entry_slot : ∀ u e, s.clients u = some e → s.stage e.session ≤ 11 → s.slot e.session = true
  owner : ∀ p, s.slot p = true → 7 ≤ s.stage p →
    (∃ e, s.clients (login p).userHash = some e ∧ e.session = p) ∨
      ∃ t e, s.phase t = .inserted (some e) ∧ e.session = p
  replaced : ∀ t e, s.phase t = .inserted (some e) → 7 ≤ s.stage e.session ∧
    ∀ u e', s.clients u = some e' → e'.session ≠ e.session

theorem owners_init (login : Session → LoginRequest) : Owners login (init login) := by
  constructor <;> simp [init]

theorem Owners.of_eq (h : Owners login s) (hclients : t.clients = s.clients)
    (hslot : t.slot = s.slot) (hphase : t.phase = s.phase) : Owners login t := by
  have hstage : t.stage = s.stage := by
    funext p
    rw [State.stage, hphase, State.stage]
  obtain ⟨h₁, h₂, h₃, h₄⟩ := h
  constructor <;> simp only [hstage, hclients, hslot, hphase] <;> assumption

/-- A step that leaves the entries and the slots as they are. -/
theorem Owners.goTo (h : Owners login s) {old phase : Phase} (hp : s.phase p = old)
    (hold : ∀ e, old ≠ .inserted (some e)) (hnew : ∀ e, phase ≠ .inserted (some e))
    (hstage : old.stage < 7 ∧ (phase.stage < 7 ∨ s.slot p = false) ∨
      7 ≤ old.stage ∧ 7 ≤ phase.stage ∧ (phase.stage ≤ 11 → old.stage ≤ 11) ∧
        (14 ≤ phase.stage → 14 ≤ old.stage ∨ ∀ u e, s.clients u = some e → e.session ≠ p)) :
    Owners login (s.goTo p phase) := by
  have hs : s.stage p = old.stage := by rw [State.stage, hp]
  obtain ⟨h₁, h₂, h₃, h₄⟩ := h
  constructor <;> simp only [State.goTo_stage, State.goTo_slot, State.goTo_clients,
    State.goTo_phase, Function.update_apply]
  case entry => grind
  case entry_slot => grind
  case owner => grind
  case replaced => grind

theorem Owners.reserve (h : Owners login s) (hp : s.stage p = 3) :
    Owners login ((s.reserveSlot p).goTo p .reserved) := by
  obtain ⟨h₁, h₂, h₃, h₄⟩ := h
  constructor <;> simp only [State.goTo_stage, State.goTo_slot, State.goTo_clients,
    State.goTo_phase, State.reserveSlot_stage, State.reserveSlot_slot, State.reserveSlot_clients,
    State.reserveSlot_phase, Function.update_apply]
  case entry => grind [Phase.stage]
  case entry_slot => grind [Phase.stage]
  case owner => grind [Phase.stage, State.stage]
  case replaced => grind [Phase.stage]

theorem Owners.refuse (h : Owners login s) (hp : s.stage p = 5) :
    Owners login (((s.takeSlot p).returnSlot p).goTo p .ended) := by
  obtain ⟨h₁, h₂, h₃, h₄⟩ := h
  constructor <;> simp only [State.goTo_stage, State.goTo_slot, State.goTo_clients,
    State.goTo_phase, State.returnSlot_stage, State.returnSlot_slot, State.returnSlot_clients,
    State.returnSlot_phase, State.takeSlot_stage, State.takeSlot_slot, State.takeSlot_clients,
    State.takeSlot_phase, Function.update_apply]
  case entry => grind [Phase.stage]
  case entry_slot => grind [Phase.stage]
  case owner => grind [Phase.stage, State.stage]
  case replaced => grind [Phase.stage]

/-- The insert: the entry that it replaces stays behind with its slot. -/
theorem Owners.insert (h : Owners login s) (hp : s.stage p = 6) (hslot : s.slot p = true) :
    Owners login ((s.register login p).goTo p
      (.inserted (s.clients (login p).userHash))) := by
  obtain ⟨h₁, h₂, h₃, h₄⟩ := h
  constructor <;> simp only [State.goTo_stage, State.goTo_slot, State.goTo_clients,
    State.goTo_phase, State.register_stage, State.register_slot, State.register_clients,
    State.register_phase, Function.update_apply]
  case entry => grind [Phase.stage]
  case entry_slot => grind [Phase.stage]
  case owner =>
    intro q hq hstage
    by_cases hqp : q = p
    · subst hqp
      exact .inl ⟨_, if_pos rfl, rfl⟩
    · rw [if_neg hqp] at hstage
      obtain ⟨e, he, hes⟩ | ⟨t, e, ht, hes⟩ := h₃ q hq hstage
      · by_cases hu : (login q).userHash = (login p).userHash
        · rw [hu] at he
          exact .inr ⟨p, e, by rw [if_pos rfl, he], hes⟩
        · exact .inl ⟨e, by rw [if_neg hu, he], hes⟩
      · have htp : t ≠ p := by
          rintro rfl
          rw [State.stage, ht, Phase.stage] at hp
          omega
        exact .inr ⟨t, e, by rw [if_neg htp, ht], hes⟩
  case replaced => grind [Phase.stage]

theorem Owners.takeReplaced (h : Owners login s) {prev : ClientHandle} {taken : Option Session}
    (hp : s.phase p = .inserted (some prev)) :
    Owners login ((s.takeSlot prev.session).goTo p (.releasing taken)) := by
  have hs : s.stage p = 7 := by rw [State.stage, hp, Phase.stage]
  obtain ⟨h₁, h₂, h₃, h₄⟩ := h
  constructor <;> simp only [State.goTo_stage, State.goTo_slot, State.goTo_clients,
    State.goTo_phase, State.takeSlot_stage, State.takeSlot_slot, State.takeSlot_clients,
    State.takeSlot_phase, Function.update_apply]
  case entry => grind [Phase.stage]
  case entry_slot => grind [Phase.stage]
  case owner => grind [Phase.stage]
  case replaced => grind [Phase.stage]

theorem Owners.takeOwn (h : Owners login s) {taken : Option Session} (hp : s.phase p = .left) :
    Owners login ((s.takeSlot p).goTo p (.leaving taken)) := by
  have hs : s.stage p = 11 := by rw [State.stage, hp, Phase.stage]
  obtain ⟨h₁, h₂, h₃, h₄⟩ := h
  constructor <;> simp only [State.goTo_stage, State.goTo_slot, State.goTo_clients,
    State.goTo_phase, State.takeSlot_stage, State.takeSlot_slot, State.takeSlot_clients,
    State.takeSlot_phase, Function.update_apply]
  case entry => grind [Phase.stage]
  case entry_slot => grind [Phase.stage]
  case owner => grind [Phase.stage]
  case replaced => grind [Phase.stage]

theorem Owners.setIpv6 (h : Owners login s) (p : Session) (a : Option Ipv6) :
    Owners login (s.setIpv6 login p a) := by
  have hback : ∀ u e, (s.setIpv6 login p a).clients u = some e →
      ∃ e₀, s.clients u = some e₀ ∧ e₀.session = e.session := by
    intro u e he
    have hmap := State.setIpv6_session login s p a u
    rw [he, Option.map_some] at hmap
    exact Option.map_eq_some_iff.mp hmap.symm
  constructor
  case entry =>
    intro u e he
    obtain ⟨e₀, he₀, hes⟩ := hback u e he
    rw [← hes]
    exact h.entry u e₀ he₀
  case entry_slot =>
    intro u e he
    obtain ⟨e₀, he₀, hes⟩ := hback u e he
    rw [← hes]
    exact h.entry_slot u e₀ he₀
  case owner =>
    intro q hq hstage
    obtain ⟨e, he, hes⟩ | hr := h.owner q hq hstage
    · have hmap := State.setIpv6_session login s p a (login q).userHash
      rw [he, Option.map_some] at hmap
      obtain ⟨e', he', hes'⟩ := Option.map_eq_some_iff.mp hmap
      exact .inl ⟨e', he', hes'.trans hes⟩
    · exact .inr hr
  case replaced =>
    intro t e ht
    refine ⟨(h.replaced t e ht).1, fun u e' he' => ?_⟩
    obtain ⟨e₀, he₀, hes⟩ := hback u e' he'
    rw [← hes]
    exact (h.replaced t e ht).2 u e₀ he₀

/-- Only its own session removes an entry. -/
theorem Owners.remove (h : Owners login s) (hslot : s.slot p = false) (hp : s.stage p = 13)
    (hcurrent : isCurrent login s p = true) :
    Owners login ((s.unregister login p).goTo p .removed) := by
  rw [isCurrent, Option.any_eq_true_iff_get] at hcurrent
  obtain ⟨h₁, h₂, h₃, h₄⟩ := h
  constructor <;> simp only [State.goTo_stage, State.goTo_slot, State.goTo_clients,
    State.goTo_phase, State.unregister_stage, State.unregister_slot, State.unregister_clients,
    State.unregister_phase, Function.update_apply]
  case entry => grind [Phase.stage]
  case entry_slot => grind [Phase.stage]
  case owner => grind [Phase.stage, State.stage]
  case replaced => grind [Phase.stage]

/-- No step loses a slot or gives one back twice. -/
theorem ledger_moved (h : Ledger s) (ho : Owners login s) {e : Event}
    (hmoved : Moved cfg login s e t) : Ledger t := by
  cases hmoved with
  | quiet e p phase hold hnew hafter hbefore hquiet =>
    have h₁ := h.holding p
    have h₂ := h.pending p
    have h₆ := h.reserved_stage p
    have h₇ := h.stage_reserved p
    rw [quiet] at hquiet
    exact h.goTo (by rw [hnew, hold]) (by grind) (by grind) (by grind) (by grind)
  | lookAgain p hp =>
    have hstage : s.stage p = 4 := by rw [State.stage, hp, Phase.stage]
    exact h.goTo (by rw [hp]; rfl) (fun _ => by simp [Phase.stage])
      (fun _ _ => h.pending p (by omega) (by omega)) (fun _ => by simp [Phase.stage])
      (fun _ _ => h.stage_reserved p (by omega) (by omega))
  | check p online hp hpass =>
    have hstage : s.stage p = 5 := by rw [State.stage, hp, Phase.stage]
    exact h.goTo (by rw [hp]; rfl) (fun _ => by simp [Phase.stage])
      (fun _ _ => h.pending p (by omega) (by omega)) (fun _ => by simp [Phase.stage])
      (fun _ _ => h.stage_reserved p (by omega) (by omega))
  | reserve p online hp hroom => exact h.reserve hp
  | refuse p hp htaken => exact h.refuse (h.pending p (by omega) (by omega)) htaken
  | insert p online hp =>
    have hstage : s.stage p = 6 := by rw [State.stage, hp, Phase.stage]
    have hreg : Ledger (s.register login p) := h.of_eq rfl rfl rfl rfl rfl
    refine hreg.goTo (by rw [State.register_phase, hp]; rfl) (fun _ => by simp [Phase.stage])
      (by simp [Phase.stage]) (fun _ => by simp [Phase.stage]) (fun _ _ => h.stage_reserved p (by omega) (by omega))
  | takeReplaced p prev hp =>
    have hstage : s.stage p = 7 := by rw [State.stage, hp, Phase.stage]
    refine h.take prev.session (by rw [hp]; rfl) rfl (ho.replaced p prev hp).1
      (by simp [Phase.stage]) (fun _ _ => by simp [Phase.stage]) ?_
    exact h.stage_reserved p (by omega) (by omega)
  | takeOwn p hp =>
    have hstage : s.stage p = 11 := by rw [State.stage, hp, Phase.stage]
    refine h.take p (by rw [hp]; rfl) rfl (by omega) (by simp [Phase.stage]) ?_ ?_
    · exact fun _ hne => absurd rfl hne
    · exact h.stage_reserved p (by omega) (by omega)
  | drop p q phase hp hphase =>
    obtain ⟨hstage, rfl⟩ | ⟨hstage, rfl⟩ := hphase
    · exact h.drop hp rfl (fun _ => by simp [Phase.stage]) (by simp [Phase.stage])
        (h.stage_reserved p (by omega) (by omega))
    · refine h.drop hp rfl (fun hslot => ?_) (by simp [Phase.stage])
        (h.stage_reserved p (by omega) (by omega))
      have := (h.holding p hslot).2
      omega
  | setIpv6 p a hp =>
    have hset : Ledger (s.setIpv6 login p a) := h.of_eq rfl rfl rfl rfl rfl
    have hstage : s.stage p = 10 := by rw [State.stage, hp, Phase.stage]
    exact hset.goTo (by rw [State.setIpv6_phase, hp]; rfl) (fun _ => by simp [Phase.stage])
      (by simp [Phase.stage]) (fun _ => by simp [Phase.stage])
      (fun _ _ => h.stage_reserved p (by omega) (by omega))
  | remove p hp hcurrent =>
    have hun : Ledger (s.unregister login p) := h.of_eq rfl rfl rfl rfl rfl
    have hstage : s.stage p = 13 := by rw [State.stage, hp, Phase.stage]
    refine hun.goTo (by rw [State.unregister_phase, hp]; rfl) (fun hslot => ?_)
      (by simp [Phase.stage]) (fun _ => by simp [Phase.stage])
      (fun _ _ => h.stage_reserved p (by omega) (by omega))
    have := (h.holding p hslot).2
    omega
  | keep p hp hcurrent =>
    have hstage : s.stage p = 13 := by rw [State.stage, hp, Phase.stage]
    refine h.goTo (by rw [hp]; rfl) (fun hslot => ?_) (by simp [Phase.stage])
      (fun _ => by simp [Phase.stage]) (fun _ _ => h.stage_reserved p (by omega) (by omega))
    have := (h.holding p hslot).2
    omega

theorem owners_moved (hl : Ledger s) (h : Owners login s) {e : Event}
    (hmoved : Moved cfg login s e t) : Owners login t := by
  have hout : ∀ p, s.stage p < 4 ∨ 12 ≤ s.stage p → s.slot p = false := by
    intro p hp
    cases hslot : s.slot p with
    | false => rfl
    | true =>
      have := hl.holding p hslot
      omega
  cases hmoved with
  | quiet e p phase hold hnew hafter hbefore hquiet =>
    have hslot := hout p
    rw [quiet] at hquiet
    exact h.goTo rfl hafter hbefore (by change _ ∨ 7 ≤ s.stage p ∧ _; grind [State.stage])
  | reserve p online hp hroom => exact h.reserve (by rw [State.stage, hp, Phase.stage])
  | refuse p hp htaken => exact h.refuse hp
  | lookAgain p hp => exact h.goTo hp (by simp) (by simp) (by simp [Phase.stage])
  | check p online hp hpass => exact h.goTo hp (by simp) (by simp) (by simp [Phase.stage])
  | insert p online hp =>
    have hstage : s.stage p = 6 := by rw [State.stage, hp, Phase.stage]
    exact h.insert hstage (hl.pending p (by omega) (by omega))
  | takeReplaced p prev hp => exact h.takeReplaced hp
  | takeOwn p hp => exact h.takeOwn hp
  | drop p q phase hp hphase =>
    have hback : Owners login (s.returnSlot q) := h.of_eq rfl rfl rfl
    have hnot : ∀ prev, s.phase p ≠ .inserted (some prev) := by
      intro prev hprev
      rw [hprev] at hp
      cases hp
    refine hback.goTo rfl hnot ?_ ?_
    · obtain ⟨-, rfl⟩ | ⟨-, rfl⟩ := hphase <;> simp
    · change s.stage p < 7 ∧ _ ∨ 7 ≤ s.stage p ∧ _ ∧ (_ → s.stage p ≤ 11) ∧ _
      obtain ⟨hstage, rfl⟩ | ⟨hstage, rfl⟩ := hphase <;> simp [hstage, Phase.stage]
  | setIpv6 p a hp =>
    have hp' : (s.setIpv6 login p a).phase p = .handling := hp
    exact (h.setIpv6 p a).goTo hp' (by simp) (by simp) (by simp [Phase.stage])
  | remove p hp hcurrent =>
    have hstage : s.stage p = 13 := by rw [State.stage, hp, Phase.stage]
    exact h.remove (hout p (by omega)) hstage hcurrent
  | keep p hp hcurrent =>
    refine h.goTo hp (by simp) (by simp)
      (.inr ⟨by simp [Phase.stage], by simp [Phase.stage], by simp [Phase.stage], fun _ => ?_⟩)
    refine .inr fun u e he hep => Bool.eq_false_iff.mp hcurrent ?_
    have hu := (h.entry u e he).1
    rw [hep] at hu
    rw [isCurrent, hu, he]
    simp [hep]

/-- The invariant of every run. -/
structure Inv (login : Session → LoginRequest) (s : State) : Prop where
  ledger : Ledger s
  owners : Owners login s

theorem inv_init (login : Session → LoginRequest) : Inv login (init login) :=
  ⟨ledger_init login, owners_init login⟩

theorem inv_step (h : Inv login s) {e : Event} (hstep : step cfg login s e = some t) :
    Inv login t :=
  ⟨ledger_moved h.ledger h.owners (moved_of_step hstep),
    owners_moved h.ledger h.owners (moved_of_step hstep)⟩

theorem inv_run {es : List Event} (hrun : exec (step cfg login) (init login) es = some s) :
    Inv login s :=
  exec_invariant (fun _ _ _ hi ht => inv_step hi ht) (inv_init login) hrun

theorem mem_holders : p ∈ s.holders ↔ p ∈ s.reserved ∧ p ∉ s.returned := by
  rw [State.holders, Finset.mem_sdiff, List.mem_toFinset, List.mem_toFinset]

theorem card_holders (h : Ledger s) : s.holders.card = s.held := by
  have hsub : s.returned.toFinset ⊆ s.reserved.toFinset := by
    intro p hp
    rw [List.mem_toFinset] at hp ⊢
    exact h.returned_subset hp
  have heq := h.held_eq
  rw [State.holders, Finset.card_sdiff_of_subset hsub,
    List.toFinset_card_of_nodup h.reserved_nodup, List.toFinset_card_of_nodup h.returned_nodup]
  omega

/-- No login and no end is in progress. -/
def Rests (s : State) : Prop := ∀ p, (s.phase p).rests = true

theorem holder_entry (h : Inv login s) (hrest : Rests s) (hp : p ∈ s.holders) :
    ∃ e, s.clients (login p).userHash = some e ∧ e.session = p := by
  have hnone : ∀ t, (s.phase t).taken = none := by
    intro t
    have := hrest t
    cases hphase : s.phase t <;> simp_all [Phase.rests, Phase.taken]
  have hslot : s.slot p = true := by
    obtain hslot | ⟨t, ht⟩ := (h.ledger.out_iff p).mp (mem_holders.mp hp)
    · exact hslot
    · rw [hnone] at ht
      cases ht
  have hstage : 7 ≤ s.stage p := by
    have hhold := h.ledger.holding p hslot
    have := hrest p
    rw [State.stage] at hhold ⊢
    cases hphase : s.phase p <;> simp_all [Phase.rests, Phase.stage]
  obtain hentry | ⟨t, e, ht, -⟩ := h.owners.owner p hslot hstage
  · exact hentry
  · have := hrest t
    rw [ht] at this
    cases this

theorem entry_holder (h : Inv login s) {u : UserHash} {e : ClientHandle}
    (he : s.clients u = some e) (hslot : s.slot e.session = true) :
    e.session ∈ s.holders ∧ (login e.session).userHash = u :=
  ⟨mem_holders.mpr ((h.ledger.out_iff _).mpr (.inl hslot)), (h.owners.entry u e he).1⟩

theorem users_rest (h : Inv login s) (hrest : Rests s) :
    s.users = ↑(s.holders.image fun p => (login p).userHash) := by
  ext u
  simp only [State.users, Set.mem_ofPred_eq, Finset.coe_image, Set.mem_image, Finset.mem_coe]
  constructor
  · intro hu
    obtain ⟨e, he⟩ := Option.isSome_iff_exists.mp hu
    have hstage : s.stage e.session ≤ 11 := by
      have hhi := (h.owners.entry u e he).2
      have := hrest e.session
      rw [State.stage] at hhi ⊢
      cases hphase : s.phase e.session <;> simp_all [Phase.rests, Phase.stage]
    exact ⟨e.session, entry_holder h he (h.owners.entry_slot u e he hstage)⟩
  · rintro ⟨p, hp, rfl⟩
    obtain ⟨e, he, -⟩ := holder_entry h hrest hp
    rw [he]
    rfl

/-- At rest the held slots are as many as the logged-in users. -/
theorem held_rest (h : Inv login s) (hrest : Rests s) : s.users.encard = s.held := by
  have hinj : Set.InjOn (fun p => (login p).userHash) (s.holders : Set Session) := by
    intro p hp q hq hpq
    obtain ⟨e, he, rfl⟩ := holder_entry h hrest hp
    obtain ⟨e', he', rfl⟩ := holder_entry h hrest hq
    dsimp only at hpq
    rw [hpq, he'] at he
    rw [Option.some.inj he]
  rw [users_rest h hrest, Set.encard_coe_eq_coe_finsetCard, Finset.card_image_of_injOn hinj,
    card_holders h.ledger]

/-- The users whose entry belongs to a session that has given its slot back. -/
def leavers (s : State) : Set UserHash :=
  {u | ∃ e, s.clients u = some e ∧ e.session ∈ s.returned}

/-- A reservation that the limit does not bind is for a user with a slot, and a login of a new user
enters while no entry is without its slot, or while there is room for these too. -/
def InRoom (cfg : Config) (login : Session → LoginRequest) (s : State) : Event → Prop
  | .reserve p => s.phase p = .found true → s.held < cfg.maxClients ∨
      ∃ q ∈ s.holders, (login q).userHash = (login p).userHash
  | .insert p => s.clients (login p).userHash = none → leavers s = ∅ ∨
      (leavers s).encard + s.held ≤ cfg.maxClients
  | _ => True

/-- The users with a slot, and those with an entry, are within the limit. -/
structure Within (cfg : Config) (login : Session → LoginRequest) (s : State) : Prop where
  inv : Inv login s
  slots : (s.holders.image fun p => (login p).userHash).card ≤ cfg.maxClients
  entries : s.users.encard ≤ cfg.maxClients

theorem Within.of_subset (h : Within cfg login s) (hinv : Inv login t)
    (hholders : t.holders ⊆ s.holders) (husers : t.users ⊆ s.users) : Within cfg login t :=
  ⟨hinv, (Finset.card_le_card (Finset.image_subset_image hholders)).trans h.slots,
    (Set.encard_le_encard husers).trans h.entries⟩

theorem within_reserve (h : Within cfg login s) (hpos : 0 < cfg.maxClients) {online : Bool}
    (hinv : Inv login ((s.reserveSlot p).goTo p .reserved)) (hp : s.phase p = .found online)
    (hroom : online = true ∨ cfg.maxClients = 0 ∨ s.held < cfg.maxClients)
    (hc : InRoom cfg login s (.reserve p)) :
    Within cfg login ((s.reserveSlot p).goTo p .reserved) := by
  have hsub : ((s.reserveSlot p).goTo p .reserved).holders ⊆ insert p s.holders := by
    intro q hq
    have hq' := mem_holders.mp hq
    simp only [State.goTo_reserved, State.reserveSlot_reserved, State.goTo_returned,
      State.reserveSlot_returned, List.mem_cons] at hq'
    rw [Finset.mem_insert, mem_holders]
    tauto
  refine ⟨hinv, ?_, h.entries⟩
  have himage := Finset.card_le_card
    (Finset.image_subset_image (f := fun p => (login p).userHash) hsub)
  rw [Finset.image_insert] at himage
  have hcase : s.held < cfg.maxClients ∨
      ∃ q ∈ s.holders, (login q).userHash = (login p).userHash := by
    cases online with
    | true => exact hc hp
    | false =>
      obtain hfalse | hzero | hlt := hroom
      · cases hfalse
      · omega
      · exact .inl hlt
  obtain hlt | ⟨q, hq, hqp⟩ := hcase
  · have hcard := Finset.card_insert_le (login p).userHash
      (s.holders.image fun p => (login p).userHash)
    have hle : (s.holders.image fun p => (login p).userHash).card ≤ s.holders.card :=
      Finset.card_image_le
    rw [card_holders h.inv.ledger] at hle
    omega
  · have hmem : (login p).userHash ∈ s.holders.image fun p => (login p).userHash :=
      Finset.mem_image.mpr ⟨q, hq, hqp⟩
    rw [Finset.insert_eq_of_mem hmem] at himage
    exact himage.trans h.slots

theorem within_insert (h : Within cfg login s) (hstage : s.stage p = 6)
    (hinv : Inv login ((s.register login p).goTo p (.inserted (s.clients (login p).userHash))))
    (hc : InRoom cfg login s (.insert p)) :
    Within cfg login ((s.register login p).goTo p (.inserted (s.clients (login p).userHash))) := by
  have hslot := h.inv.ledger.pending p (by omega) (by omega)
  have hp : p ∈ s.holders :=
    mem_holders.mpr ((h.inv.ledger.out_iff p).mpr (.inl hslot))
  refine ⟨hinv, h.slots, ?_⟩
  have huser : ∀ u ∈ ((s.register login p).goTo p
      (.inserted (s.clients (login p).userHash))).users, u = (login p).userHash ∨ u ∈ s.users := by
    intro u hu
    simp only [State.users, Set.mem_ofPred_eq, State.goTo_clients, State.register_clients,
      Function.update_apply] at hu
    split at hu
    · rename_i heq
      exact .inl heq
    · exact .inr hu
  cases hprev : s.clients (login p).userHash with
  | some e =>
    rw [hprev] at huser
    refine (Set.encard_le_encard fun u hu => ?_).trans h.entries
    obtain rfl | hold := huser u hu
    · change (s.clients (login p).userHash).isSome = true
      rw [hprev]
      rfl
    · exact hold
  | none =>
    rw [hprev] at huser
    have hcover : ((s.register login p).goTo p (.inserted none)).users ⊆
        ↑(s.holders.image fun p => (login p).userHash) ∪ leavers s := by
      intro u hu
      obtain rfl | hold := huser u hu
      · exact .inl (Finset.mem_coe.mpr (Finset.mem_image.mpr ⟨p, hp, rfl⟩))
      · obtain ⟨e, he⟩ := Option.isSome_iff_exists.mp hold
        obtain ⟨heu, hlo, hhi⟩ := h.inv.owners.entry u e he
        by_cases hret : e.session ∈ s.returned
        · exact .inr ⟨e, he, hret⟩
        · have hres := h.inv.ledger.stage_reserved e.session (by omega) (by omega)
          exact .inl (Finset.mem_coe.mpr
            (Finset.mem_image.mpr ⟨e.session, mem_holders.mpr ⟨hres, hret⟩, heu⟩))
    have hle := (Set.encard_le_encard hcover).trans (Set.encard_union_le _ _)
    rw [Set.encard_coe_eq_coe_finsetCard] at hle
    obtain hnone | hroom := hc hprev
    · rw [hnone, Set.encard_empty, add_zero] at hle
      exact hle.trans (Nat.cast_le.mpr h.slots)
    · have hcard : (s.holders.image fun p => (login p).userHash).card ≤ s.held := by
        rw [← card_holders h.inv.ledger]
        exact Finset.card_image_le
      rw [add_comm] at hroom
      exact hle.trans ((add_le_add_left (Nat.cast_le.mpr hcard) _).trans hroom)

theorem setIpv6_users (s : State) (p : Session) (a : Option Ipv6) :
    (s.setIpv6 login p a).users = s.users := by
  ext u
  have hmap := congrArg Option.isSome (State.setIpv6_session login s p a u)
  rw [Option.isSome_map, Option.isSome_map] at hmap
  change ((s.setIpv6 login p a).clients u).isSome = true ↔ (s.clients u).isSome = true
  rw [hmap]

/-- A step in room keeps the users within the limit. -/
theorem within_step (h : Within cfg login s) (hpos : 0 < cfg.maxClients) {e : Event}
    (hc : InRoom cfg login s e) (hstep : step cfg login s e = some t) : Within cfg login t := by
  have hinv := inv_step h.inv hstep
  have hreturn : ∀ q (u : State), u.reserved = s.reserved → u.returned = q :: s.returned →
      u.holders ⊆ s.holders := by
    intro q u hreserved hreturned r hr
    rw [mem_holders, hreserved, hreturned, List.mem_cons, not_or] at hr
    exact mem_holders.mpr ⟨hr.1, hr.2.2⟩
  cases moved_of_step hstep with
  | quiet e p phase => exact h.of_subset hinv (Finset.Subset.refl _) (Set.Subset.refl _)
  | reserve p online hp hroom => exact within_reserve h hpos hinv hp hroom hc
  | refuse p => exact h.of_subset hinv (hreturn p _ rfl rfl) (Set.Subset.refl _)
  | lookAgain p => exact h.of_subset hinv (Finset.Subset.refl _) (Set.Subset.refl _)
  | check p => exact h.of_subset hinv (Finset.Subset.refl _) (Set.Subset.refl _)
  | insert p online hp =>
    exact within_insert h (by rw [State.stage, hp, Phase.stage]) hinv hc
  | takeReplaced p prev => exact h.of_subset hinv (Finset.Subset.refl _) (Set.Subset.refl _)
  | takeOwn p => exact h.of_subset hinv (Finset.Subset.refl _) (Set.Subset.refl _)
  | drop p q phase => exact h.of_subset hinv (hreturn q _ rfl rfl) (Set.Subset.refl _)
  | setIpv6 p a =>
    exact h.of_subset hinv (Finset.Subset.refl _) (setIpv6_users s p a).subset
  | remove p =>
    refine h.of_subset hinv (Finset.Subset.refl _) fun u hu => ?_
    simp only [State.users, Set.mem_ofPred_eq, State.goTo_clients, State.unregister_clients,
      Function.update_apply] at hu
    split at hu
    · cases hu
    · exact hu
  | keep p => exact h.of_subset hinv (Finset.Subset.refl _) (Set.Subset.refl _)

theorem within_init (cfg : Config) (login : Session → LoginRequest) :
    Within cfg login (init login) := by
  refine ⟨inv_init login, by simp [State.holders, init], ?_⟩
  have hnone : (init login).users = ∅ := by
    ext u
    simp [State.users, init]
  rw [hnone, Set.encard_empty]
  exact zero_le

/-- In every run the slots are given back once each, and at rest the held ones are as many as the
users; while the reservations and inserts are in room, so are the users. -/
theorem slots_account (cfg : Config) (login : Session → LoginRequest) {es : List Event}
    (hrun : exec (step cfg login) (init login) es = some s) :
    s.reserved.Nodup ∧ s.returned.Nodup ∧ s.returned ⊆ s.reserved ∧
      s.held + s.returned.length = s.reserved.length ∧
      (Rests s → s.users.encard = s.held) ∧
      (0 < cfg.maxClients → Along (step cfg login) (InRoom cfg login) (init login) es →
        s.users.encard ≤ cfg.maxClients) := by
  have hinv := inv_run hrun
  refine ⟨hinv.ledger.reserved_nodup, hinv.ledger.returned_nodup, hinv.ledger.returned_subset,
    hinv.ledger.held_eq, held_rest hinv, fun hpos hroom => ?_⟩
  exact (exec_invariant_along (fun _ _ _ hi hc ht => within_step hi hpos hc ht)
    (within_init cfg login) hroom hrun).entries

/-- Users who are told apart by a byte, from one IPv4 address each. -/
def apart (p : Session) : LoginRequest where
  userHash := Vector.replicate 16 (UInt8.ofNat p)
  peer := .v4 (UInt32.ofNat (p + 1))
  ip := .v4 (UInt32.ofNat (p + 1))
  port := 4662
  ipv6 := none

def oneClient : Config where
  maxClients := 1
  hashTakeoverFromAnyAddress := false
  ipv6SourcePrefixBits := 64
  isSharedHash _ := false

def logsIn (p : Session) : List Event :=
  [.lookUp p, .proceed p, .find p, .reserve p, .lookAgain p, .check p, .insert p, .take p, .drop p]

/-- A condition that can be computed, for runs in which no slot is given back. -/
def firstLogin (s : State) : Event → Bool
  | .reserve p => s.phase p ≠ .found true
  | _ => s.returned = []

theorem inRoom_of_firstLogin {e : Event} (h : firstLogin s e = true) : InRoom cfg login s e := by
  cases e with
  | reserve p =>
    intro hp
    simp [firstLogin, hp] at h
  | insert p =>
    intro _
    left
    have hnone : s.returned = [] := by simpa [firstLogin] using h
    ext u
    simp [leavers, hnone]
  | _ => trivial

theorem slots_account_login : ∃ s, exec (step oneClient apart) (init apart) (logsIn 0) = some s ∧
    s.returned.Nodup ∧ s.users.encard ≤ 1 := by
  have hsome : (exec (step oneClient apart) (init apart) (logsIn 0)).isSome := by decide
  obtain ⟨s, hs⟩ := Option.isSome_iff_exists.mp hsome
  have hfirst : Along (step oneClient apart) (fun s e => firstLogin s e = true) (init apart)
      (logsIn 0) := by decide
  obtain ⟨-, hnodup, -, -, -, hle⟩ := slots_account oneClient apart hs
  exact ⟨s, hs, hnodup, hle (by decide) (along_mono (fun _ _ => inRoom_of_firstLogin) hfirst)⟩

/-- The slot of a session that ends is given back before its entry goes: with a limit of one, the
next login enters beside it. -/
theorem limit_overshot : (exec (step oneClient apart) (init apart)
    (logsIn 0 ++ [.leave 0, .take 0, .drop 0] ++ logsIn 1)).map (fun s =>
      ((s.clients (apart 0).userHash).isSome, (s.clients (apart 1).userHash).isSome,
        s.phase 0, s.held)) = some (true, true, .released, 1) := by
  decide

end Ed2kServer.Server.ClientSlots
