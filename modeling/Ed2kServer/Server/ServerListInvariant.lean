import Mathlib
import Ed2kServer.Server.ServerList

namespace Ed2kServer.Server.ServerListInvariant

open Ed2kServer.Lib.Assoc Ed2kServer.Lib.Transition
open Ed2kServer.Server.ServerList Ed2kServer.Sources.Address

variable {cfg : Config} {s t : State} {a : SocketAddrV4} {list : List SocketAddrV4}

/-- What the list of servers is at all times. -/
structure Proper (cfg : Config) (list : List SocketAddrV4) : Prop where
  nodup : list.Nodup
  few : (list.filter fun a => a ∉ cfg.seeds).length ≤ SERVER_LIST_CAP
  allowed : ∀ a ∈ list, isForbidden a.1 = false ∧ a.2 ≠ 0
  notOurs : ∀ a ∈ list, cfg.thisIp = some a.1 → a ∈ cfg.seeds

/-- A list of servers as it is sent: what its count says, all verified, none twice. -/
def Sent (isVerified : SocketAddrV4 → Bool) (payload : List UInt8) : Prop :=
  ∃ (count : UInt8) (servers : List SocketAddrV4), payload = count :: servers.flatMap writeEntry ∧
    count.toNat = servers.length ∧ servers.Nodup ∧ ∀ a ∈ servers, isVerified a

/-- A server that may register. -/
def Registrable (cfg : Config) (a : SocketAddrV4) : Prop :=
  isForbidden a.1 = false ∧ a.2 ≠ 0 ∧ cfg.thisIp ≠ some a.1

/-- The server of the registration that is being handled. -/
def serverOf : Phase → Option SocketAddrV4
  | .idle => none
  | .checked server | .unlisted server => some server
  | .echoed ip p _ | .answered ip p => some (ip, p.port)

structure Inv (cfg : Config) (s : State) : Prop where
  proper : Proper cfg s.serverList
  pending : ∀ e ∈ s.pending, Registrable cfg (e.1, e.2.port)
  handled : ∀ a, serverOf s.phase = some a → Registrable cfg a

/-! ### What is sent -/

theorem sent_payloadOf {isVerified : SocketAddrV4 → Bool} (hlen : list.length ≤ 255)
    (hnodup : list.Nodup) (hver : ∀ a ∈ list, isVerified a) : Sent isVerified (payloadOf list) := by
  refine ⟨_, list, rfl, ?_, hnodup, hver⟩
  rw [UInt8.toNat_ofNat', min_eq_left hlen]
  omega

theorem sent_filter {isVerified p : SocketAddrV4 → Bool} (hnodup : list.Nodup)
    (hp : ∀ a, p a → isVerified a) : Sent isVerified (payloadOf ((list.filter p).take 255)) := by
  refine sent_payloadOf (List.length_take_le _ _)
    ((hnodup.filter p).sublist (List.take_sublist _ _)) fun a ha => hp a ?_
  exact (List.mem_filter.mp (List.mem_of_mem_take ha)).2

theorem sent_buildTcpServerList (isVerified : SocketAddrV4 → Bool) (hnodup : list.Nodup) :
    Sent isVerified (buildTcpServerList cfg isVerified list) :=
  sent_filter hnodup fun _ ha => ((Bool.and_eq_true _ _).mp ha).2

theorem sent_buildServerListRes (isVerified : SocketAddrV4 → Bool) (hnodup : list.Nodup) :
    ∃ payload, buildServerListRes cfg isVerified list =
      PROTO_EDONKEY :: OP_SERVER_LIST_RES :: payload ∧ Sent isVerified payload :=
  ⟨_, rfl, sent_filter hnodup fun _ ha => ((Bool.and_eq_true _ _).mp ha).2⟩

/-! ### The list -/

theorem Proper.filter (hp : Proper cfg list) (p : SocketAddrV4 → Bool) :
    Proper cfg (list.filter p) := by
  refine ⟨hp.nodup.filter p, ?_, fun a ha => hp.allowed a (List.mem_of_mem_filter ha),
    fun a ha => hp.notOurs a (List.mem_of_mem_filter ha)⟩
  exact (List.Sublist.length_le (List.filter_sublist.filter _)).trans hp.few

theorem length_others_le (cfg : Config) (list : List SocketAddrV4) :
    (list.filter fun a => a ∉ cfg.seeds).length ≤ list.length :=
  List.length_filter_le _ _

theorem nodup_concat (hnodup : list.Nodup) (hnew : a ∉ list) : (list ++ [a]).Nodup :=
  List.concat_eq_append ▸ hnodup.concat hnew

theorem Proper.concat (hp : Proper cfg list) (hnew : a ∉ list)
    (hroom : list.length < SERVER_LIST_CAP ∨ a ∈ cfg.seeds)
    (hok : isForbidden a.1 = false ∧ a.2 ≠ 0) (hours : cfg.thisIp = some a.1 → a ∈ cfg.seeds) :
    Proper cfg (list ++ [a]) := by
  refine ⟨nodup_concat hp.nodup hnew, ?_, ?_, ?_⟩
  · rw [List.filter_append, List.length_append]
    by_cases hseed : a ∈ cfg.seeds
    · simpa [hseed] using hp.few
    · have := length_others_le cfg list
      obtain hroom | hseed' := hroom
      · simpa [hseed] using this.trans_lt hroom
      · exact absurd hseed' hseed
  · exact List.forall_mem_append.mpr ⟨hp.allowed, List.forall_mem_singleton.mpr hok⟩
  · exact List.forall_mem_append.mpr ⟨hp.notOurs, List.forall_mem_singleton.mpr hours⟩

theorem subset_addUntilFull (list newServers : List SocketAddrV4) :
    list ⊆ addUntilFull list newServers := by
  induction newServers generalizing list with
  | nil => exact List.Subset.refl _
  | cons b newServers ih =>
    rw [addUntilFull]
    split_ifs with hfull hold
    · exact List.Subset.refl _
    · exact ih list
    · exact List.Subset.trans (List.subset_append_left list [b]) (ih _)

/-- What is taken of a list: what comes while there is room for one server more. -/
theorem mem_addUntilFull {newServers : List SocketAddrV4} (hnodup : list.Nodup) :
    a ∈ addUntilFull list newServers ↔ a ∈ list ∨ ∃ before after,
      newServers = before ++ a :: after ∧ (list ++ before).toFinset.card < SERVER_LIST_CAP := by
  have hcard : ∀ list : List SocketAddrV4, list.Nodup → ∀ before,
      list.length ≤ (list ++ before).toFinset.card := by
    intro list hnodup before
    rw [← List.toFinset_card_of_nodup hnodup]
    exact Finset.card_le_card fun x hx => by simp_all
  induction newServers generalizing list with
  | nil => simp [addUntilFull]
  | cons b newServers ih =>
    rw [addUntilFull]
    by_cases hfull : SERVER_LIST_CAP ≤ list.length
    · rw [if_pos hfull, iff_self_or]
      rintro ⟨before, after, -, hlt⟩
      exact absurd (hfull.trans (hcard list hnodup before)) (Nat.not_le_of_lt hlt)
    rw [if_neg hfull]
    have hlist : (if list.contains b then list else list ++ [b]).Nodup := by
      split_ifs with hold
      · exact hnodup
      · exact nodup_concat hnodup (by simpa using hold)
    have hsame : ∀ before, ((if list.contains b then list else list ++ [b]) ++ before).toFinset =
        (list ++ b :: before).toFinset := by
      intro before
      ext x
      split_ifs with hold
      · have hmem : b ∈ list := by simpa using hold
        simp only [List.mem_toFinset, List.mem_append, List.mem_cons]
        grind
      · simp
    refine (ih hlist).trans ?_
    constructor
    · rintro (hold | ⟨before, after, rfl, hlt⟩)
      · split_ifs at hold
        · exact .inl hold
        · obtain hold | hnew := List.mem_append.mp hold
          · exact .inl hold
          · obtain rfl := List.mem_singleton.mp hnew
            refine .inr ⟨[], newServers, rfl, ?_⟩
            rw [List.append_nil, List.toFinset_card_of_nodup hnodup]
            exact Nat.lt_of_not_le hfull
      · exact .inr ⟨b :: before, after, rfl, hsame before ▸ hlt⟩
    · rintro (hold | ⟨before, after, hsplit, hlt⟩)
      · left
        split_ifs
        · exact hold
        · exact List.mem_append_left _ hold
      · cases before with
        | nil =>
          obtain ⟨rfl, rfl⟩ := List.cons.inj hsplit
          left
          split_ifs with hold
          · simpa using hold
          · exact List.mem_append_right _ (List.mem_singleton_self _)
        | cons c before =>
          obtain ⟨rfl, rfl⟩ := List.cons.inj hsplit
          exact .inr ⟨before, after, rfl, (hsame before).symm ▸ hlt⟩

theorem Proper.addUntilFull {newServers : List SocketAddrV4} (hp : Proper cfg list)
    (hok : ∀ a ∈ newServers, isForbidden a.1 = false ∧ a.2 ≠ 0)
    (hours : ∀ a ∈ addUntilFull list newServers, cfg.thisIp = some a.1 → a ∈ cfg.seeds) :
    Proper cfg (addUntilFull list newServers) := by
  induction newServers generalizing list with
  | nil => exact hp
  | cons b newServers ih =>
    obtain ⟨hb, hok⟩ := List.forall_mem_cons.mp hok
    rw [ServerList.addUntilFull] at hours ⊢
    split_ifs at hours ⊢ with hfull hold
    · exact hp
    · exact ih hp hok hours
    · refine ih (hp.concat (by simpa using hold) (.inl (Nat.lt_of_not_le hfull)) hb fun hb' => ?_)
        hok hours
      exact hours b (subset_addUntilFull _ _
        (List.mem_append_right _ (List.mem_singleton_self _))) hb'

/-- The servers that a datagram at the UDP socket brings, if it is not dropped. -/
def offered (isKnownPeer senderIsClient : Bool) (clientIps : Ipv4 → Bool)
    (payload : List UInt8) : Option (List SocketAddrV4) :=
  if !isKnownPeer || senderIsClient then none
  else if payload = [] ∨ payload.tail.length < (payload.headD 0).toNat * 6 then none
  else
    some ((readEntries (payload.headD 0).toNat payload.tail).filter fun a =>
      a.2 != 0 && !isForbidden a.1 && !clientIps a.1)

theorem handleServerListRes_eq (isKnownPeer senderIsClient : Bool) (clientIps : Ipv4 → Bool)
    (payload : List UInt8) (list : List SocketAddrV4) :
    handleServerListRes isKnownPeer senderIsClient clientIps payload list =
      (offered isKnownPeer senderIsClient clientIps payload).elim list
        (addUntilFull (list.filter fun a => !clientIps a.1)) := by
  rw [handleServerListRes.eq_def, offered]
  cases isKnownPeer <;> cases senderIsClient <;> try rfl
  cases payload with
  | nil => rfl
  | cons count records =>
    simp only [Bool.not_true, Bool.false_eq_true, if_false, Bool.or_self, List.cons_ne_nil,
      false_or, List.tail_cons, List.headD_cons]
    split_ifs <;> rfl

theorem offered_allowed {isKnownPeer senderIsClient : Bool} {clientIps : Ipv4 → Bool}
    {payload : List UInt8} {newServers : List SocketAddrV4}
    (ho : offered isKnownPeer senderIsClient clientIps payload = some newServers) :
    ∀ a ∈ newServers, isForbidden a.1 = false ∧ a.2 ≠ 0 := by
  rw [offered] at ho
  split_ifs at ho
  intro a ha
  rw [← Option.some.inj ho] at ha
  have := (List.mem_filter.mp ha).2
  simp only [Bool.and_eq_true, bne_iff_ne, Bool.not_eq_true'] at this
  exact ⟨this.1.2, this.1.1⟩

/-- The servers of a list on the seed path that are not yet listed. -/
def fresh (cfg : Config) (blocked : Ipv4 → Bool) (list newList : List SocketAddrV4) :
    List SocketAddrV4 :=
  newList.filter fun a =>
    !isForbidden a.1 && !blocked a.1 && cfg.thisIp != some a.1 && !list.contains a

theorem mergeServerList_eq (cfg : Config) (blocked : Ipv4 → Bool)
    (list newList : List SocketAddrV4) : mergeServerList cfg blocked list newList =
      (list.filter fun a => !blocked a.1) ++ fresh cfg blocked list newList := by
  rw [mergeServerList, fresh]
  congr 1
  refine List.filter_congr fun a _ => ?_
  by_cases hb : blocked a.1
  · simp [hb]
  · have hsame : (list.filter fun a => !blocked a.1).contains a = list.contains a := by
      rw [Bool.eq_iff_iff]
      simp [hb]
    rw [hsame]

theorem parseServerListRes_port {data : List UInt8} {newList : List SocketAddrV4}
    (hparse : parseServerListRes data = some newList) : ∀ a ∈ newList, a.2 ≠ 0 := by
  rw [parseServerListRes] at hparse
  split_ifs at hparse
  intro a ha
  dsimp only at hparse
  split_ifs at hparse
  rw [← Option.some.inj hparse] at ha
  have := (List.mem_filter.mp ha).2
  simp only [Bool.and_eq_true, decide_eq_true_iff] at this
  exact fun h0 => by simp [h0] at this

/-- The seed path keeps the list proper just when it repeats none of what it adds and there is
room for all of it. -/
theorem proper_mergeServerList_iff {blocked : Ipv4 → Bool} {newList : List SocketAddrV4}
    (hp : Proper cfg list) (hport : ∀ a ∈ newList, a.2 ≠ 0) :
    Proper cfg (mergeServerList cfg blocked list newList) ↔
      (fresh cfg blocked list newList).Nodup ∧
        (((list.filter fun a => !blocked a.1) ++ fresh cfg blocked list newList).filter
          fun a => a ∉ cfg.seeds).length ≤ SERVER_LIST_CAP := by
  rw [mergeServerList_eq]
  constructor
  · intro h
    exact ⟨(List.nodup_append.mp h.nodup).2.1, h.few⟩
  · rintro ⟨hnodup, hroom⟩
    have hfresh : ∀ a ∈ fresh cfg blocked list newList, a ∈ newList ∧ isForbidden a.1 = false ∧
        cfg.thisIp ≠ some a.1 ∧ a ∉ list := by
      intro a ha
      obtain ⟨hmem, hok⟩ := List.mem_filter.mp ha
      simp only [Bool.and_eq_true, Bool.not_eq_true', bne_iff_ne] at hok
      exact ⟨hmem, hok.1.1.1, hok.1.2, by simpa using hok.2⟩
    have hold := hp.filter fun a => !blocked a.1
    refine ⟨List.nodup_append.mpr ⟨hold.nodup, hnodup, ?_⟩, hroom, ?_, ?_⟩
    · rintro a ha b hb rfl
      exact (hfresh a hb).2.2.2 (List.mem_of_mem_filter ha)
    · exact List.forall_mem_append.mpr ⟨hold.allowed, fun a ha =>
        ⟨(hfresh a ha).2.1, hport a (hfresh a ha).1⟩⟩
    · exact List.forall_mem_append.mpr ⟨hold.notOurs, fun a ha hours =>
        absurd hours (hfresh a ha).2.2.1⟩

theorem proper_addSeed_iff {isClient : Bool} (hp : Proper cfg list) (hseed : a ∈ cfg.seeds) :
    Proper cfg (addSeed isClient a list) ↔
      isClient = true ∨ a ∈ list ∨ isForbidden a.1 = false ∧ a.2 ≠ 0 := by
  rw [addSeed]
  split_ifs with hclient hold
  · simp [hclient, hp]
  · simp only [List.contains_iff_mem] at hold
    simp [hold, hp]
  · have hnew : a ∉ list := by simpa using hold
    simp only [hclient, hnew, Bool.false_eq_true, false_or]
    exact ⟨fun h => h.allowed a (List.mem_append_right _ (List.mem_singleton_self a)),
      fun hok => hp.concat hnew (.inr hseed) hok fun _ => hseed⟩

/-- What the lists that come in must be like. A list on the seed path repeats nothing that it
adds, and there is room for all of it; a list at the UDP socket has our own address only where
the list is full by then; a seed that proves to be a server has an address that one can have. -/
def Careful (cfg : Config) (s : State) : Event → Prop
  | .seedVerified isClient seed =>
    isClient = true ∨ seed ∈ s.serverList ∨ isForbidden seed.1 = false ∧ seed.2 ≠ 0
  | .seedList blocked data => ∀ newList, parseServerListRes data = some newList →
    (fresh cfg blocked s.serverList newList).Nodup ∧
      (((s.serverList.filter fun a => !blocked a.1) ++
        fresh cfg blocked s.serverList newList).filter fun a => !cfg.seeds.contains a).length ≤
          SERVER_LIST_CAP
  | .udpList isKnownPeer senderIsClient clientIps payload =>
    ∀ newServers, offered isKnownPeer senderIsClient clientIps payload = some newServers →
      ∀ before a after, newServers = before ++ a :: after → cfg.thisIp = some a.1 →
        a ∈ cfg.seeds ∨ SERVER_LIST_CAP ≤
          ((s.serverList.filter fun a => !clientIps a.1) ++ before).toFinset.card
  | _ => True

theorem proper_handleServerListRes_iff {isKnownPeer senderIsClient : Bool}
    {clientIps : Ipv4 → Bool} {payload : List UInt8} (hp : Proper cfg s.serverList) :
    Proper cfg (handleServerListRes isKnownPeer senderIsClient clientIps payload s.serverList) ↔
      Careful cfg s (.udpList isKnownPeer senderIsClient clientIps payload) := by
  rw [handleServerListRes_eq, Careful]
  cases hoffer : offered isKnownPeer senderIsClient clientIps payload with
  | none => simp [hp]
  | some newServers =>
    have hold := hp.filter fun a => !clientIps a.1
    simp only [Option.elim_some, Option.some.injEq, forall_eq']
    constructor
    · intro h before a after hsplit hours
      by_contra hcon
      push Not at hcon
      refine hcon.1 (h.notOurs a ?_ hours)
      exact (mem_addUntilFull hold.nodup).mpr (.inr ⟨before, after, hsplit, hcon.2⟩)
    · intro h
      refine hold.addUntilFull (offered_allowed hoffer) fun a ha hours => ?_
      obtain hmem | ⟨before, after, hsplit, hlt⟩ := (mem_addUntilFull hold.nodup).mp ha
      · exact hold.notOurs a hmem hours
      · exact (h before a after hsplit hours).resolve_right (Nat.not_le_of_lt hlt)

/-- The list stays proper just when a step is careful. -/
theorem proper_step_iff {e : Event} (hi : Inv cfg s) (ht : step cfg s e = some t) :
    Proper cfg t.serverList ↔ Careful cfg s e := by
  have hp := hi.proper
  cases e with
  | seedVerified isClient seed =>
    simp only [step] at ht
    split_ifs at ht with hseed
    rw [← Option.some.inj ht]
    exact proper_addSeed_iff hp hseed
  | seedList blocked data =>
    simp only [step] at ht
    cases hparse : parseServerListRes data with
    | none =>
      rw [hparse] at ht
      rw [← Option.some.inj ht]
      simp [Careful, hparse, hp]
    | some newList =>
      rw [hparse] at ht
      rw [← Option.some.inj ht, Careful, hparse]
      simp only [Option.some.injEq, forall_eq', List.contains_eq_mem, ← decide_not]
      exact proper_mergeServerList_iff hp (parseServerListRes_port hparse)
  | udpList isKnownPeer senderIsClient clientIps payload =>
    rw [← Option.some.inj ht]
    exact proper_handleServerListRes_iff hp
  | login ip =>
    refine iff_of_true ?_ trivial
    cases ip with
    | v4 ip =>
      rw [← Option.some.inj ht]
      exact hp.filter _
    | v6 ip => exact Option.some.inj ht ▸ hp
  | clean keep =>
    refine iff_of_true ?_ trivial
    rw [← Option.some.inj ht]
    exact hp.filter _
  | list =>
    refine iff_of_true ?_ trivial
    obtain ⟨ip, p, hphase, rfl⟩ := step_list ht
    obtain heq | ⟨hnew, hroom, heq⟩ := addRegistered_eq s ip p
    · rw [heq]
      exact hp
    · rw [heq]
      obtain ⟨hok, hport, hours⟩ := hi.handled (ip, p.port) (by rw [hphase, serverOf])
      exact hp.concat hnew (.inl hroom) ⟨hok, hport⟩ fun h => absurd h hours
  | tick d | connect ip | disconnect ip | see ip | forget ip | sweepPending ip =>
    refine iff_of_true ?_ trivial
    rw [← Option.some.inj ht]
    exact hp
  | register peer payload =>
    refine iff_of_true ?_ trivial
    obtain rfl | ⟨src, -, rfl⟩ := step_register ht
    · exact hp
    · obtain ⟨phase, heq, -⟩ := note_eq cfg s src payload
      rw [heq]
      exact hp
  | confirm peer port payload =>
    refine iff_of_true ?_ trivial
    obtain rfl | ⟨ip, -, rfl⟩ := step_confirm ht
    · exact hp
    · obtain heq | ⟨p, -, -, -, heq⟩ := readAnswer_eq s ip port payload
      · rw [heq]
        exact hp
      · rw [heq]
        exact hp
  | lookUp =>
    obtain ⟨server, phase, -, rfl, -⟩ := step_lookUp ht
    exact iff_of_true hp trivial
  | probe random =>
    refine iff_of_true ?_ trivial
    obtain ⟨server, -, rfl⟩ := step_probe ht
    obtain heq | ⟨-, heq⟩ := sendProbe_eq s server random
    · rw [heq]
      exact hp
    · rw [heq]
      exact hp
  | remove =>
    obtain ⟨ip, p, payload, -, rfl⟩ := step_remove ht
    exact iff_of_true hp trivial

theorem registrable_of_named {src : Ipv4} {payload : List UInt8}
    (hs : namedServer cfg src payload = some a) : Registrable cfg a := by
  obtain ⟨-, -, -, hport, -, hpub, hours⟩ := namedServer_eq_some hs
  refine ⟨?_, hport, hours⟩
  simp only [isPublishableSourceIp, Bool.and_eq_true, Bool.not_eq_true'] at hpub
  simp only [isForbidden, isPrivate, isLoopback, isUnspecified, isMulticast, isBroadcast]
  simp [hpub]

/-- What is probed and listed was named by a registration that could be taken. -/
theorem registered_step {e : Event} (hi : Inv cfg s) (ht : step cfg s e = some t) :
    (∀ e ∈ t.pending, Registrable cfg (e.1, e.2.port)) ∧
      ∀ a, serverOf t.phase = some a → Registrable cfg a := by
  have hkeep : t.pending = s.pending → t.phase = s.phase →
      (∀ e ∈ t.pending, Registrable cfg (e.1, e.2.port)) ∧
        ∀ a, serverOf t.phase = some a → Registrable cfg a := by
    intro hpending hphase
    rw [hpending, hphase]
    exact ⟨hi.pending, hi.handled⟩
  cases e with
  | register peer payload =>
    obtain rfl | ⟨src, -, rfl⟩ := step_register ht
    · exact hkeep rfl rfl
    · obtain ⟨phase, heq, rfl | ⟨server, hnamed, -, rfl⟩⟩ := note_eq cfg s src payload
      · rw [heq]
        exact ⟨hi.pending, hi.handled⟩
      · rw [heq]
        refine ⟨hi.pending, fun a ha => ?_⟩
        rw [serverOf, Option.some.injEq] at ha
        subst ha
        exact registrable_of_named hnamed
  | confirm peer port payload =>
    obtain rfl | ⟨ip, -, rfl⟩ := step_confirm ht
    · exact hkeep rfl rfl
    · obtain heq | ⟨p, hp, -, -, heq⟩ := readAnswer_eq s ip port payload
      · rw [heq]
        exact ⟨hi.pending, hi.handled⟩
      · rw [heq]
        refine ⟨hi.pending, fun a ha => ?_⟩
        rw [serverOf, Option.some.injEq] at ha
        subst ha
        exact hi.pending (ip, p) (mem_of_lookup hp)
  | lookUp =>
    obtain ⟨server, phase, hphase, rfl, rfl | ⟨-, rfl⟩⟩ := step_lookUp ht
    · exact ⟨hi.pending, nofun⟩
    · refine ⟨hi.pending, fun a ha => hi.handled a ?_⟩
      rw [hphase]
      exact ha
  | probe random =>
    obtain ⟨server, hphase, rfl⟩ := step_probe ht
    obtain heq | ⟨-, heq⟩ := sendProbe_eq s server random
    · rw [heq]
      exact ⟨hi.pending, nofun⟩
    · rw [heq]
      refine ⟨List.forall_mem_cons.mpr ⟨?_, fun e he => ?_⟩, nofun⟩
      · exact hi.handled server (by rw [hphase, serverOf])
      · exact hi.pending e (List.mem_of_mem_filter he)
  | remove =>
    obtain ⟨ip, p, payload, hphase, rfl⟩ := step_remove ht
    refine ⟨fun e he => hi.pending e (List.mem_of_mem_filter he), fun a ha => ?_⟩
    refine hi.handled a ?_
    rw [State.takeAnswer] at ha
    dsimp only at ha
    split_ifs at ha
    · simp [serverOf] at ha
    · rw [serverOf] at ha
      rw [hphase, serverOf, ha]
  | list =>
    obtain ⟨ip, p, -, rfl⟩ := step_list ht
    obtain heq | ⟨-, -, heq⟩ := addRegistered_eq s ip p
    · rw [heq]
      exact ⟨hi.pending, nofun⟩
    · rw [heq]
      exact ⟨hi.pending, nofun⟩
  | sweepPending ip =>
    rw [← Option.some.inj ht]
    exact ⟨fun e he => hi.pending e (List.mem_of_mem_filter he), hi.handled⟩
  | login ip =>
    cases ip with
    | v4 ip => exact hkeep (by rw [← Option.some.inj ht]) (by rw [← Option.some.inj ht])
    | v6 ip => exact hkeep (by rw [← Option.some.inj ht]) (by rw [← Option.some.inj ht])
  | seedVerified isClient seed =>
    simp only [step] at ht
    split_ifs at ht
    exact hkeep (by rw [← Option.some.inj ht]) (by rw [← Option.some.inj ht])
  | seedList blocked data =>
    simp only [step] at ht
    split at ht
    · exact hkeep (by rw [← Option.some.inj ht]) (by rw [← Option.some.inj ht])
    · exact hkeep (by rw [← Option.some.inj ht]) (by rw [← Option.some.inj ht])
  | tick d | connect ip | disconnect ip | see ip | forget ip | clean keep
  | udpList isKnownPeer senderIsClient clientIps payload =>
    exact hkeep (by rw [← Option.some.inj ht]) (by rw [← Option.some.inj ht])

theorem inv_init (cfg : Config) (now : Nat) : Inv cfg (init now) :=
  ⟨⟨List.nodup_nil, Nat.zero_le _, nofun, nofun⟩, nofun, nofun⟩

/-- At all times of a run the list of servers is proper, and what is sent of it is well formed
and verified, just when all the lists that came in were as they must be. -/
theorem proper_along_iff (cfg : Config) (now : Nat) (es : List Event)
    (hrun : exec (step cfg) (init now) es = some t) :
    (∀ pre, pre <+: es → ∀ s, exec (step cfg) (init now) pre = some s →
      Proper cfg s.serverList ∧ ∀ isVerified,
        Sent isVerified (buildTcpServerList cfg isVerified s.serverList) ∧
        ∃ payload, buildServerListRes cfg isVerified s.serverList =
          PROTO_EDONKEY :: OP_SERVER_LIST_RES :: payload ∧ Sent isVerified payload) ↔
      Along (step cfg) (Careful cfg) (init now) es :=
  prefix_iff_along
    (fun _ hi => ⟨hi.proper, fun isVerified => ⟨sent_buildTcpServerList isVerified hi.proper.nodup,
      sent_buildServerListRes isVerified hi.proper.nodup⟩⟩)
    (fun _ _ _ hi hc ht => ⟨(proper_step_iff hi ht).mpr hc, (registered_step hi ht).1,
      (registered_step hi ht).2⟩)
    (fun _ _ _ hi hc ht hp => hc ((proper_step_iff hi ht).mp hp.1)) (inv_init cfg now) hrun

/-- The server 8.8.8.8:4661 registers and answers. -/
theorem proper_along_registered :
    let cfg : Config := ⟨none, 4661, []⟩
    let es : List Event := [.register (.v4 0x08080808) [8, 8, 8, 8, 0x35, 0x12], .lookUp,
      .probe 7, .confirm (.v4 0x08080808) 4665 [7, 0, 0xAA, 0x55], .remove, .list]
    ∀ pre, pre <+: es → ∀ s, exec (step cfg) (init 0) pre = some s →
      Proper cfg s.serverList ∧ ∀ isVerified,
        Sent isVerified (buildTcpServerList cfg isVerified s.serverList) ∧
        ∃ payload, buildServerListRes cfg isVerified s.serverList =
          PROTO_EDONKEY :: OP_SERVER_LIST_RES :: payload ∧ Sent isVerified payload :=
  (proper_along_iff ⟨none, 4661, []⟩ 0 _ rfl).mpr
    ⟨trivial, fun _ _ => ⟨trivial, fun _ _ => ⟨trivial, fun _ _ => ⟨trivial, fun _ _ =>
      ⟨trivial, fun _ _ => ⟨trivial, fun _ _ => trivial⟩⟩⟩⟩⟩⟩

/-- A list that names 8.8.8.8:4661 twice on the seed path has it listed twice, and one that names
our own address at the UDP socket has it listed. -/
theorem repeated_and_own_listed :
    (exec (step ⟨some 0x01010101, 4661, []⟩) (init 0)
      [.seedList (fun _ => false)
        [0xE3, 0xA1, 2, 8, 8, 8, 8, 0x35, 0x12, 8, 8, 8, 8, 0x35, 0x12]]).map (·.serverList) =
        some [(0x08080808, 4661), (0x08080808, 4661)] ∧
      (exec (step ⟨some 0x01010101, 4661, []⟩) (init 0)
        [.udpList true false (fun _ => false) [1, 1, 1, 1, 1, 0x35, 0x12]]).map (·.serverList) =
        some [(0x01010101, 4661)] := by
  decide

end Ed2kServer.Server.ServerListInvariant
