import Ed2kServer.Lib.Transition
import Ed2kServer.Publish.SoftLimit

namespace Ed2kServer.Publish.AttemptLimit

open Ed2kServer.Lib.Transition Ed2kServer.Text.Chars Ed2kServer.Slab.Record
open Ed2kServer.Sources.Address Ed2kServer.Publish.Files Ed2kServer.Publish.OfferFiles
open Ed2kServer.Publish.SoftLimit

/-- The server with the open sessions and, for each user, the one that is registered. The last
batch is kept with whether the loop ended its session over the threshold. -/
structure World where
  server : Server
  sessions : Nat → Option ClientHandle
  registered : UserHash → Option Nat
  last : Option (UserHash × Bool)

inductive Event
  | login (session : Nat) (client : ClientHandle) (m : Moment)
  | offer (session : Nat) (limits : Limits) (live : ContentFilterConfig)
      (files : List (OfferedFile × Moment))
  | close (session : Nat)

def isPublisherBanned (s : Server) (user : UserHash) (m : Moment) : Bool :=
  (s.bannedPublishers user).any (fun since => m.instant - since < m.contentFilter.banTtl)

/-- A session ends; its entry goes with it unless a newer one replaced it. -/
def World.endSession (w : World) (session : Nat) (user : UserHash) : World :=
  let sessions := Function.update w.sessions session none
  if w.registered user = some session then
    { w with
      server := { w.server with csamAttempts := Function.update w.server.csamAttempts user none }
      sessions := sessions
      registered := Function.update w.registered user none }
  else { w with sessions := sessions }

variable (U : Unicode) (check : FileHash → Str → FilterResult) (isSharedHash : UserHash → Bool)

/-- A frame on a replaced session closes it instead. -/
def World.replaced (w : World) (session : Nat) (user : UserHash) : Prop :=
  w.registered user ≠ some session ∧ isSharedHash user = false

instance World.decidableReplaced (w : World) (session : Nat) (user : UserHash) :
    Decidable (w.replaced isSharedHash session user) := instDecidableAnd

/-- The batch, then the loop's check of the attempts. -/
def World.offer (w : World) (session : Nat) (client : ClientHandle) (limits : Limits)
    (live : ContentFilterConfig) (files : List (OfferedFile × Moment)) : Option World := do
  let (server, client, _, _) ← handleOfferfiles U check w.server limits client files
  let w := { w with
    server := server.updateClient client
    sessions := Function.update w.sessions session (some client) }
  if live.publisherAttemptDisconnectThreshold < client.csamAttempts then
    return { w.endSession session client.userHash with last := some (client.userHash, true) }
  else return { w with last := some (client.userHash, false) }

def step (w : World) : Event → Option World
  | .login session client m =>
    if (w.sessions session).isNone then
      if isPublisherBanned w.server client.userHash m then some w
      else
        let client := { client with csamAttempts := 0 }
        some { w with
          server := { w.server with
            csamAttempts := Function.update w.server.csamAttempts client.userHash (some 0) }
          sessions := Function.update w.sessions session (some client)
          registered := Function.update w.registered client.userHash (some session) }
    else none
  | .offer session limits live files =>
    match w.sessions session with
    | some client =>
      if w.replaced isSharedHash session client.userHash then
        some { w.endSession session client.userHash with last := none }
      else w.offer U check session client limits live files
    | none => none
  | .close session => (w.sessions session).map fun client => w.endSession session client.userHash

/-- The distinct hashes recorded for a user. -/
def recorded (s : Server) (user : UserHash) : Finset FileHash :=
  (s.csamFilesByUser user).elim ∅ (fun r => (r.files.map Prod.fst).toFinset)

def banned (s : Server) (user : UserHash) : Bool := (s.bannedPublishers user).isSome

/-- The hash of a record that counts against the publisher. -/
def countingHash (record : OfferedFile × Moment) : Option FileHash :=
  match check record.1.hash record.1.filename with
  | .block layer => if layer.countsAgainstPublisher then some record.1.hash else none
  | .allow => none

def counting (files : List (OfferedFile × Moment)) : List FileHash :=
  files.filterMap (countingHash check)

/-- More than the threshold; the count is one of 32 bits. -/
def overThreshold (t : UInt32) (hashes : Finset FileHash) : Prop :=
  t < UInt32.ofNat hashes.card

instance decidableOverThreshold (t : UInt32) (hashes : Finset FileHash) :
    Decidable (overThreshold t hashes) := UInt32.decLt t _

/-- Among the first `n` counting hashes one brings the user over the threshold. -/
def BansWithin (t : UInt32) (before : Finset FileHash) (hashes : List FileHash) (n : Nat) : Prop :=
  ∃ j, 0 < j ∧ j ≤ n ∧ j ≤ hashes.length ∧ overThreshold t (before ∪ (hashes.take j).toFinset)

/-- Where a batch of these counting hashes ends the session exactly if it leaves the user
banned. -/
def BatchInStep (t attempts : UInt32) (isBanned : Bool) (before : Finset FileHash)
    (hashes : List FileHash) : Prop :=
  if isBanned then
    t.toNat < attempts.toNat + hashes.length ∧
      ¬ BansWithin t before hashes (t.toNat - attempts.toNat)
  else
    ¬ BansWithin t before hashes (t.toNat - attempts.toNat) ∧
      (t.toNat < min (attempts.toNat + hashes.length) (2 ^ 32 - 1) →
        BansWithin t before hashes hashes.length)

def InStep (t : UInt32) (w : World) : Event → Prop
  | .offer session _ _ files => ∀ client, w.sessions session = some client →
      ¬ w.replaced isSharedHash session client.userHash →
      BatchInStep t client.csamAttempts (banned w.server client.userHash)
        (recorded w.server client.userHash) (counting check files)
  | _ => True

/-- The loop ended the session of the last batch exactly if its user is banned. -/
def Coincide (w : World) : Prop :=
  ∀ user ended, w.last = some (user, ended) → (ended = true ↔ banned w.server user = true)

/-- These settings, within the counting window from `since` and before the records expire. -/
def Moment.Within (cfg : ContentFilterConfig) (since : Nat) (m : Moment) : Prop :=
  m.contentFilter = cfg ∧ since ≤ m.instant ∧ m.instant ≤ since + cfg.countWindow ∧
    m.instant ≤ since + cfg.banTtl

def Event.Within (cfg : ContentFilterConfig) (since : Nat) : Event → Prop
  | .offer _ _ live files => live = cfg ∧ ∀ record ∈ files, Moment.Within cfg since record.2
  | _ => True

/-- What the counting records of a batch do to the hashes, the attempts and the ban. -/
def countBatch (t : UInt32) : Finset FileHash → UInt32 → List FileHash →
    Finset FileHash × UInt32 × Bool
  | before, attempts, [] => (before, attempts, false)
  | before, attempts, hash :: hashes =>
    let after := insert hash before
    if overThreshold t after then (after, saturatingSucc attempts, true)
    else countBatch t after (saturatingSucc attempts) hashes

variable {t : UInt32} {before : Finset FileHash} {attempts : UInt32} {hash : FileHash}
  {hashes : List FileHash} {n : Nat}

theorem not_bansWithin_zero : ¬ BansWithin t before hashes 0 := by
  rintro ⟨j, hpos, hle, -⟩
  omega

theorem union_take_succ (j : Nat) :
    before ∪ ((hash :: hashes).take (j + 1)).toFinset =
      insert hash before ∪ (hashes.take j).toFinset := by
  ext x
  simp

theorem bansWithin_cons : BansWithin t before (hash :: hashes) (n + 1) ↔
    overThreshold t (insert hash before) ∨ BansWithin t (insert hash before) hashes n := by
  constructor
  · rintro ⟨j, hpos, hle, hlen, hover⟩
    obtain ⟨j, rfl⟩ : ∃ i, j = i + 1 := ⟨j - 1, by omega⟩
    rw [union_take_succ] at hover
    cases j with
    | zero =>
      left
      simpa using hover
    | succ j => exact .inr ⟨j + 1, by omega, by omega, by simpa using hlen, hover⟩
  · rintro (hover | ⟨j, hpos, hle, hlen, hover⟩)
    · refine ⟨1, by omega, by omega, by simp, ?_⟩
      rw [union_take_succ]
      simpa using hover
    · refine ⟨j + 1, by omega, by omega, by simpa using hlen, ?_⟩
      rwa [union_take_succ]

theorem saturatingSucc_toNat (a : UInt32) :
    (saturatingSucc a).toNat = min (a.toNat + 1) (2 ^ 32 - 1) := by
  have ha := a.toNat_lt
  rw [saturatingSucc]
  split
  · rename_i h
    rw [h]
    decide
  · rename_i h
    have hne : a.toNat ≠ 2 ^ 32 - 1 := fun he => h (UInt32.toNat_inj.mp he)
    rw [UInt32.toNat_add]
    simp only [UInt32.reduceToNat]
    omega

theorem toNat_lt_of_over (h : overThreshold t before) : t.toNat < 2 ^ 32 - 1 := by
  have hlt := UInt32.lt_iff_toNat_lt.mp h
  have hmax := (UInt32.ofNat before.card).toNat_lt
  omega

theorem countBatch_ban : (countBatch t before attempts hashes).2.2 = true ↔
    BansWithin t before hashes hashes.length := by
  induction hashes generalizing before attempts with
  | nil => simp [countBatch, not_bansWithin_zero]
  | cons hash hashes ih =>
    rw [List.length_cons, bansWithin_cons, countBatch]
    by_cases hover : overThreshold t (insert hash before)
    · simp [hover]
    · simp [hover, ih]

/-- The attempts pass the threshold unless a ban ends the batch before. -/
theorem countBatch_attempts : t < (countBatch t before attempts hashes).2.1 ↔
    t.toNat < min (attempts.toNat + hashes.length) (2 ^ 32 - 1) ∧
      ¬ BansWithin t before hashes (t.toNat - attempts.toNat) := by
  have hmax := attempts.toNat_lt
  induction hashes generalizing before attempts with
  | nil =>
    rw [UInt32.lt_iff_toNat_lt]
    have hnone : ∀ n, ¬ BansWithin t before [] n := by
      rintro n ⟨j, hpos, -, hlen, -⟩
      simp at hlen
      omega
    simp only [countBatch, hnone, List.length_nil, not_false_eq_true, and_true]
    omega
  | cons hash hashes ih =>
    have hsucc := saturatingSucc_toNat attempts
    rw [countBatch]
    by_cases hover : overThreshold t (insert hash before)
    · have hlt := toNat_lt_of_over hover
      simp only [hover, if_true, UInt32.lt_iff_toNat_lt, hsucc, List.length_cons]
      cases hroom : t.toNat - attempts.toNat with
      | zero =>
        simp only [not_bansWithin_zero, not_false_eq_true, and_true]
        omega
      | succ room =>
        simp only [bansWithin_cons, hover, true_or, not_true_eq_false, and_false, iff_false]
        omega
    · simp only [hover, if_false]
      refine (ih (saturatingSucc attempts).toNat_lt).trans ?_
      rw [hsucc, List.length_cons]
      have hroom : t.toNat - min (attempts.toNat + 1) (2 ^ 32 - 1) =
          t.toNat - attempts.toNat - 1 := by
        have := t.toNat_lt
        omega
      rw [hroom]
      have hleft : t.toNat < min (min (attempts.toNat + 1) (2 ^ 32 - 1) + hashes.length)
          (2 ^ 32 - 1) ↔ t.toNat < min (attempts.toNat + (hashes.length + 1)) (2 ^ 32 - 1) := by
        omega
      rw [hleft]
      cases t.toNat - attempts.toNat with
      | zero => simp [not_bansWithin_zero]
      | succ room => simp [bansWithin_cons, hover]

variable {cfg : ContentFilterConfig} {since : Nat} {s : Server} {user : UserHash}
  {file : FileHash} {m : Moment}

/-- The records name each hash once and are no older than `since`. -/
def RecordsOk (since : Nat) (s : Server) : Prop :=
  ∀ user r, s.csamFilesByUser user = some r →
    since ≤ r.last ∧ (r.files.map Prod.fst).Nodup ∧ ∀ c ∈ r.files, since ≤ c.2

theorem lookup_isSome {l : List (FileHash × Nat)} :
    (l.lookup file).isSome ↔ file ∈ l.map Prod.fst := by
  rw [← not_iff_not, Bool.not_eq_true, Option.isSome_eq_false_iff, Option.isNone_iff_eq_none,
    List.lookup_eq_none_iff]
  simp only [bne_iff_ne, ne_eq, List.mem_map, not_exists, not_and]
  exact ⟨fun h p hp he => h p hp he.symm, fun h p hp he => h p hp he.symm⟩

variable (user file) in
theorem recordCsamFileForUser_spec (hok : RecordsOk since s) (hm : Moment.Within cfg since m) :
    (s.recordCsamFileForUser user file m).1.bannedPublishers = s.bannedPublishers ∧
    (∀ u, recorded (s.recordCsamFileForUser user file m).1 u =
      if u = user then insert file (recorded s user) else recorded s u) ∧
    RecordsOk since (s.recordCsamFileForUser user file m).1 ∧
    ((s.recordCsamFileForUser user file m).2 = true ↔
      overThreshold cfg.publisherAttemptDisconnectThreshold (insert file (recorded s user))) := by
  obtain ⟨rfl, hfrom, hwindow, httl⟩ := hm
  obtain ⟨r, hr, hlast, hnodup, hsince, hrec⟩ : ∃ r,
      (s.csamFilesByUser user).getD ⟨[], m.instant⟩ = r ∧ since ≤ r.last ∧
        (r.files.map Prod.fst).Nodup ∧ (∀ c ∈ r.files, since ≤ c.2) ∧
        recorded s user = (r.files.map Prod.fst).toFinset := by
    cases hu : s.csamFilesByUser user with
    | none => exact ⟨⟨[], m.instant⟩, rfl, hfrom, by simp, by simp, by simp [recorded, hu]⟩
    | some r =>
      obtain ⟨hlast, hnodup, hsince⟩ := hok user r hu
      exact ⟨r, rfl, hlast, hnodup, hsince, by simp [recorded, hu]⟩
  have hfresh : ¬ m.contentFilter.banTtl < m.instant - r.last := by omega
  obtain ⟨files, hfiles, hnodup', hsince', hset⟩ : ∃ files,
      (if (r.files.lookup file).isSome then r.files else r.files ++ [(file, m.instant)]) = files ∧
        (files.map Prod.fst).Nodup ∧ (∀ c ∈ files, since ≤ c.2) ∧
        (files.map Prod.fst).toFinset = insert file (recorded s user) := by
    refine ⟨_, rfl, ?_⟩
    split
    · rename_i hmem
      rw [lookup_isSome] at hmem
      exact ⟨hnodup, hsince, by rw [hrec, Finset.insert_eq_self.mpr (by simpa using hmem)]⟩
    · rename_i hmem
      rw [lookup_isSome] at hmem
      refine ⟨?_, fun c hc => ?_, ?_⟩
      · rw [List.map_append, List.nodup_append]
        exact ⟨hnodup, by simp, by simpa using fun a b h he => hmem (by simpa using ⟨b, he ▸ h⟩)⟩
      · obtain hc | hc := List.mem_append.mp hc
        · exact hsince c hc
        · rw [List.mem_singleton.mp hc]
          exact hfrom
      · rw [hrec]
        ext x
        simp
  have hcount : files.countP (fun c => m.instant - c.2 ≤ m.contentFilter.countWindow) =
      (insert file (recorded s user)).card := by
    rw [← hset, List.toFinset_card_of_nodup hnodup', List.length_map, List.countP_eq_length]
    intro c hc
    have := hsince' c hc
    rw [decide_eq_true_eq]
    omega
  have heq : s.recordCsamFileForUser user file m =
      ({ s with csamFilesByUser :=
          Function.update s.csamFilesByUser user (some ⟨files, m.instant⟩) },
        decide (overThreshold m.contentFilter.publisherAttemptDisconnectThreshold
          (insert file (recorded s user)))) := by
    simp only [Server.recordCsamFileForUser, hr, if_neg hfresh, hfiles, hcount,
      overThreshold]
  rw [heq]
  refine ⟨rfl, fun u => ?_, fun u r' hu => ?_, decide_eq_true_iff⟩
  · by_cases huser : u = user
    · subst huser
      rw [if_pos rfl, ← hset]
      simp [recorded]
    · simp [recorded, huser]
  · by_cases huser : u = user
    · subst huser
      simp only [Function.update_self, Option.some.injEq] at hu
      subst hu
      exact ⟨hfrom, hnodup', hsince'⟩
    · simp only [Function.update_of_ne huser] at hu
      exact hok u r' hu

variable {U check} {softLimit : Nat} {maxString : UInt32} {p q : Progress}
  {record : OfferedFile × Moment} {files : List (OfferedFile × Moment)} {stop : Bool}

/-- Banned exactly with more than the threshold recorded; the highest threshold is never passed. -/
def BansOk (t : UInt32) (s : Server) : Prop :=
  ∀ user, banned s user = true ↔
    t.toNat < 2 ^ 32 - 1 ∧ t.toNat < (recorded s user).card

/-- Two servers with the same records and bans. -/
def SameBans (s s' : Server) : Prop :=
  s'.csamFilesByUser = s.csamFilesByUser ∧ s'.bannedPublishers = s.bannedPublishers

theorem SameBans.recorded {s s' : Server} (h : SameBans s s') (user : UserHash) :
    recorded s' user = AttemptLimit.recorded s user := by
  rw [AttemptLimit.recorded, h.1, AttemptLimit.recorded]

theorem SameBans.banned {s s' : Server} (h : SameBans s s') (user : UserHash) :
    banned s' user = AttemptLimit.banned s user := by
  rw [AttemptLimit.banned, h.2, AttemptLimit.banned]

theorem SameBans.recordsOk {s s' : Server} (h : SameBans s s') (hok : RecordsOk since s) :
    RecordsOk since s' := by
  intro user r hr
  exact hok user r (h.1 ▸ hr)

theorem SameBans.bansOk {s s' : Server} (h : SameBans s s') (hok : BansOk t s) : BansOk t s' := by
  intro user
  rw [h.banned, h.recorded]
  exact hok user

/-- A record that does not count changes neither the attempts nor what is recorded. -/
theorem offerRecord_clean (h : offerRecord U check softLimit maxString p record.1 record.2 =
      some (q, stop)) (hclean : countingHash check record = none) :
    stop = false ∧ q.client = p.client ∧ SameBans p.server q.server := by
  rw [countingHash] at hclean
  rw [offerRecord] at h
  cases hc : check record.1.hash record.1.filename with
  | block layer =>
    simp only [hc] at h hclean
    split at hclean
    · cases hclean
    · rename_i hlayer
      rw [blockRecord, if_neg hlayer] at h
      obtain ⟨rfl, rfl⟩ := Prod.mk.inj (Option.some.inj h)
      exact ⟨rfl, rfl, rfl, rfl⟩
  | allow =>
    simp only [hc] at h
    obtain ⟨refused, -, h⟩ := Option.bind_eq_some_iff.mp h
    cases refused with
    | true =>
      obtain ⟨rfl, rfl⟩ := Prod.mk.inj (Option.some.inj h)
      exact ⟨rfl, rfl, rfl, rfl⟩
    | false =>
      obtain ⟨p', hp', h⟩ := Option.bind_eq_some_iff.mp h
      obtain ⟨rfl, rfl⟩ := Prod.mk.inj (Option.some.inj h)
      obtain ⟨files, -, hp'⟩ := Option.bind_eq_some_iff.mp hp'
      obtain ⟨stored, -, hp'⟩ := Option.bind_eq_some_iff.mp hp'
      obtain rfl := Option.some.inj hp'
      exact ⟨rfl, rfl, rfl, rfl⟩

/-- One that counts is an attempt and a recorded hash, and ends the batch with a ban when the
hashes are over the threshold. -/
theorem offerRecord_counting {file : FileHash} (hok : RecordsOk since p.server)
    (hm : Moment.Within cfg since record.2)
    (h : offerRecord U check softLimit maxString p record.1 record.2 = some (q, stop))
    (hcounts : countingHash check record = some file) :
    (stop = true ↔ overThreshold cfg.publisherAttemptDisconnectThreshold
      (insert file (recorded p.server p.client.userHash))) ∧
    q.client.userHash = p.client.userHash ∧
    q.client.csamAttempts = saturatingSucc p.client.csamAttempts ∧
    RecordsOk since q.server ∧
    (∀ u, recorded q.server u = if u = p.client.userHash
      then insert file (recorded p.server u) else recorded p.server u) ∧
    ∀ u, banned q.server u = (banned p.server u || (u = p.client.userHash && stop)) := by
  rw [countingHash] at hcounts
  cases hc : check record.1.hash record.1.filename with
  | allow =>
    simp only [hc] at hcounts
    cases hcounts
  | block layer =>
    simp only [hc] at hcounts
    split at hcounts
    · rename_i hlayer
      obtain rfl := Option.some.inj hcounts
      simp only [offerRecord, hc, blockRecord, if_pos hlayer] at h
      obtain ⟨hbans, hrec, hrecords, hover⟩ :=
        recordCsamFileForUser_spec p.client.userHash record.1.hash hok hm
      have hrec' : ∀ u, recorded (p.server.recordCsamFileForUser p.client.userHash
          record.1.hash record.2).1 u = if u = p.client.userHash
            then insert record.1.hash (recorded p.server u) else recorded p.server u := by
        intro u
        rw [hrec u]
        split
        · rename_i hu
          rw [hu]
        · rfl
      split at h
      · rename_i hban
        obtain ⟨rfl, rfl⟩ := Prod.mk.inj (Option.some.inj h)
        refine ⟨⟨fun _ => hover.mp hban, fun _ => rfl⟩, rfl, rfl, hrecords, hrec', fun u => ?_⟩
        by_cases hu : u = p.client.userHash <;>
          simp [banned, Server.banPublisher, Server.updateClient, hu, hbans]
      · rename_i hban
        obtain ⟨rfl, rfl⟩ := Prod.mk.inj (Option.some.inj h)
        refine ⟨⟨fun hf => absurd hf Bool.false_ne_true, fun hf => absurd (hover.mpr hf) hban⟩,
          rfl, rfl, hrecords, hrec', fun u => ?_⟩
        simp [banned, hbans]
    · cases hcounts

theorem bansOk_insert {s s' : Server} {file : FileHash} {ban : Bool} (hok : BansOk t s)
    (hover : ban = true ↔ overThreshold t (insert file (recorded s user)))
    (hrec : ∀ u, recorded s' u = if u = user then insert file (recorded s u) else recorded s u)
    (hban : ∀ u, banned s' u = (banned s u || (u = user && ban))) : BansOk t s' := by
  intro u
  rw [hban u, hrec u]
  by_cases hu : u = user
  · subst hu
    have hle : (recorded s u).card ≤ (insert file (recorded s u)).card :=
      Finset.card_le_card (Finset.subset_insert file _)
    have hsucc := Finset.card_insert_le file (recorded s u)
    have hold := hok u
    rw [overThreshold, UInt32.lt_iff_toNat_lt, UInt32.toNat_ofNat'] at hover
    have hmod := Nat.mod_le (insert file (recorded s u)).card (2 ^ 32)
    have htmax := t.toNat_lt
    simp only [decide_true, Bool.true_and, Bool.or_eq_true, hold, hover, if_true]
    by_cases hfew : (insert file (recorded s u)).card < 2 ^ 32
    · rw [Nat.mod_eq_of_lt hfew]
      omega
    · have := Nat.mod_lt (insert file (recorded s u)).card (show 0 < 2 ^ 32 by decide)
      omega
  · simp only [hu, decide_false, Bool.false_and, Bool.or_false, if_false]
    exact hok u

/-- The records of a batch do what its counting hashes say. -/
theorem offerRecords_counting (hok : RecordsOk since p.server)
    (hbans : BansOk cfg.publisherAttemptDisconnectThreshold p.server)
    (hm : ∀ record ∈ files, Moment.Within cfg since record.2)
    (h : offerRecords U check softLimit maxString p files = some q) :
    RecordsOk since q.server ∧ BansOk cfg.publisherAttemptDisconnectThreshold q.server ∧
    q.client.userHash = p.client.userHash ∧
    (recorded q.server p.client.userHash, q.client.csamAttempts,
        banned q.server p.client.userHash) =
      let (after, attempts, ban) := countBatch cfg.publisherAttemptDisconnectThreshold
        (recorded p.server p.client.userHash) p.client.csamAttempts (counting check files)
      (after, attempts, banned p.server p.client.userHash || ban) := by
  induction files generalizing p with
  | nil =>
    obtain rfl := Option.some.inj h
    exact ⟨hok, hbans, rfl, by simp [counting, countBatch]⟩
  | cons record rest ih =>
    obtain ⟨⟨p', stop⟩, hrec, h⟩ := Option.bind_eq_some_iff.mp h
    obtain ⟨hm₁, hrest⟩ := List.forall_mem_cons.mp hm
    cases hc : countingHash check record with
    | none =>
      obtain ⟨rfl, hclient, hsame⟩ := offerRecord_clean hrec hc
      have hnext := ih (hsame.recordsOk hok) (hsame.bansOk hbans) hrest h
      rw [hclient, hsame.recorded, hsame.banned] at hnext
      have hskip : counting check (record :: rest) = counting check rest := by
        rw [counting, List.filterMap_cons_none hc, counting]
      rwa [hskip]
    | some file =>
      obtain ⟨hstop, huser, hattempts, hrecords, hrecorded, hbanned⟩ :=
        offerRecord_counting hok hm₁ hrec hc
      have hbans' := bansOk_insert hbans hstop hrecorded hbanned
      have hcons : counting check (record :: rest) = file :: counting check rest := by
        rw [counting, List.filterMap_cons_some hc, counting]
      rw [hcons, countBatch]
      cases stop with
      | true =>
        obtain rfl := Option.some.inj h
        rw [if_pos (hstop.mp rfl)]
        refine ⟨hrecords, hbans', huser, ?_⟩
        rw [hattempts, hbanned, hrecorded]
        simp
      | false =>
        rw [if_neg (fun hover => Bool.false_ne_true (hstop.mpr hover))]
        have hnext := ih hrecords hbans' hrest h
        rw [huser, hattempts, hrecorded, if_pos rfl, hbanned] at hnext
        simpa using hnext

variable {isSharedHash : UserHash → Bool} {w w' : World} {e : Event}

structure Inv (cfg : ContentFilterConfig) (since : Nat) (w : World) : Prop where
  records : RecordsOk since w.server
  bans : BansOk cfg.publisherAttemptDisconnectThreshold w.server

theorem endSession_sameBans (w : World) (session : Nat) (user : UserHash) :
    SameBans w.server (w.endSession session user).server := by
  rw [World.endSession]
  split <;> exact ⟨rfl, rfl⟩

theorem endSession_last (w : World) (session : Nat) (user : UserHash) :
    (w.endSession session user).last = w.last := by
  rw [World.endSession]
  split <;> rfl

theorem Inv.congr (hi : Inv cfg since w) (h : SameBans w.server w'.server) : Inv cfg since w' :=
  ⟨h.recordsOk hi.records, h.bansOk hi.bans⟩

theorem Coincide.congr (hc : Coincide w) (h : SameBans w.server w'.server)
    (hlast : w'.last = w.last) : Coincide w' := by
  intro user ended hl
  rw [h.banned]
  exact hc user ended (hlast ▸ hl)

/-- Passing the threshold and being banned at the end of a batch coincide where it is in step. -/
theorem batchInStep_iff {isBanned : Bool}
    (hbanned : isBanned = true → t.toNat < 2 ^ 32 - 1) :
    (t < (countBatch t before attempts hashes).2.1 ↔
        (isBanned || (countBatch t before attempts hashes).2.2) = true) ↔
      BatchInStep t attempts isBanned before hashes := by
  rw [countBatch_attempts, Bool.or_eq_true, countBatch_ban, BatchInStep]
  have hmore : BansWithin t before hashes (t.toNat - attempts.toNat) →
      BansWithin t before hashes hashes.length :=
    fun ⟨j, hpos, _, hlen, hover⟩ => ⟨j, hpos, hlen, hlen, hover⟩
  cases isBanned with
  | true =>
    have hmax := hbanned rfl
    simp only [true_or, iff_true, if_true]
    have hleft : t.toNat < min (attempts.toNat + hashes.length) (2 ^ 32 - 1) ↔
        t.toNat < attempts.toNat + hashes.length := by omega
    rw [hleft]
  | false =>
    have hpast : BansWithin t before hashes hashes.length →
        ¬ BansWithin t before hashes (t.toNat - attempts.toNat) →
        t.toNat < min (attempts.toNat + hashes.length) (2 ^ 32 - 1) := by
      rintro ⟨j, hpos, hle, hlen, hover⟩ hnone
      have hlt := toNat_lt_of_over hover
      have hj : ¬ j ≤ t.toNat - attempts.toNat := fun hj => hnone ⟨j, hpos, hj, hlen, hover⟩
      omega
    simp only [Bool.false_eq_true, false_or, if_false]
    tauto

theorem offer_spec {session : Nat} {client : ClientHandle} {limits : Limits}
    (hi : Inv cfg since w) (hm : ∀ record ∈ files, Moment.Within cfg since record.2)
    (h : w.offer U check session client limits cfg files = some w') :
    Inv cfg since w' ∧ (Coincide w' ↔ BatchInStep cfg.publisherAttemptDisconnectThreshold
      client.csamAttempts (banned w.server client.userHash) (recorded w.server client.userHash)
      (counting check files)) := by
  obtain ⟨⟨server, client', accepted, blocked⟩, hbatch, h⟩ := Option.bind_eq_some_iff.mp h
  obtain ⟨q, hq, hout⟩ := Option.bind_eq_some_iff.mp hbatch
  obtain ⟨hrecords, hbans, huser, hcount⟩ :=
    offerRecords_counting (p := start w.server limits client) hi.records hi.bans hm hq
  simp only [Option.pure_def, Option.some.injEq, Prod.mk.injEq] at hout
  obtain ⟨rfl, rfl, -, -⟩ := hout
  have hattempts : q.client.csamAttempts =
      (countBatch cfg.publisherAttemptDisconnectThreshold (recorded w.server client.userHash)
        client.csamAttempts (counting check files)).2.1 := congrArg (fun x => x.2.1) hcount
  have hbanned : banned q.server client.userHash = (banned w.server client.userHash ||
      (countBatch cfg.publisherAttemptDisconnectThreshold (recorded w.server client.userHash)
        client.csamAttempts (counting check files)).2.2) := congrArg (fun x => x.2.2) hcount
  have hend : ∀ ended, w'.last = some (q.client.userHash, ended) →
      SameBans q.server w'.server → (ended = true ↔
        cfg.publisherAttemptDisconnectThreshold < q.client.csamAttempts) →
      Inv cfg since w' ∧ (Coincide w' ↔ BatchInStep cfg.publisherAttemptDisconnectThreshold
        client.csamAttempts (banned w.server client.userHash)
        (recorded w.server client.userHash) (counting check files)) := by
    intro ended hlast hsame hended
    refine ⟨⟨hsame.recordsOk hrecords, hsame.bansOk hbans⟩, ?_⟩
    rw [← batchInStep_iff (fun hb => ((hi.bans client.userHash).mp hb).1), ← hattempts,
      ← hbanned, ← hended, ← hsame.banned]
    have huser' : q.client.userHash = client.userHash := huser
    rw [huser'] at hlast
    refine ⟨fun hc => hc _ _ hlast, fun hc u b hl => ?_⟩
    rw [hlast] at hl
    obtain ⟨rfl, rfl⟩ := Prod.mk.inj (Option.some.inj hl)
    exact hc
  dsimp only at h
  split at h
  · rename_i hover
    obtain rfl := Option.some.inj h
    exact hend true rfl (endSession_sameBans _ _ _) (by simpa using hover)
  · rename_i hover
    obtain rfl := Option.some.inj h
    exact hend false rfl ⟨rfl, rfl⟩ (by simpa using hover)

/-- A step keeps the records, and the coincidence exactly where it is in step. -/
theorem step_spec (hi : Inv cfg since w) (he : e.Within cfg since)
    (h : step U check isSharedHash w e = some w') :
    Inv cfg since w' ∧ (Coincide w → (Coincide w' ↔
      InStep check isSharedHash cfg.publisherAttemptDisconnectThreshold w e)) := by
  cases e with
  | login session client m =>
    simp only [step] at h
    split at h
    · split at h <;> obtain rfl := Option.some.inj h
      · exact ⟨hi, fun hc => iff_of_true hc trivial⟩
      · exact ⟨hi.congr ⟨rfl, rfl⟩, fun hc => iff_of_true (hc.congr ⟨rfl, rfl⟩ rfl) trivial⟩
    · cases h
  | close session =>
    obtain ⟨client, -, rfl⟩ := Option.map_eq_some_iff.mp h
    have hsame := endSession_sameBans w session client.userHash
    refine ⟨hi.congr hsame, fun hc => iff_of_true (hc.congr hsame ?_) trivial⟩
    exact endSession_last w session client.userHash
  | offer session limits live files =>
    obtain ⟨rfl, hm⟩ := he
    simp only [step] at h
    split at h
    · rename_i client hclient
      split at h
      · rename_i hreplaced
        obtain rfl := Option.some.inj h
        have hsame := endSession_sameBans w session client.userHash
        refine ⟨hi.congr hsame, fun _ => iff_of_true (fun u ended hl => by cases hl) ?_⟩
        intro client' hclient' hnot
        obtain rfl := Option.some.inj (hclient.symm.trans hclient')
        exact absurd hreplaced hnot
      · rename_i hnot
        obtain ⟨hinv, hiff⟩ := offer_spec hi hm h
        refine ⟨hinv, fun _ => hiff.trans ⟨fun hb client' hclient' _ => ?_, fun hb => ?_⟩⟩
        · obtain rfl := Option.some.inj (hclient.symm.trans hclient')
          exact hb
        · exact hb client hclient hnot
    · cases h

/-- No session is open yet. -/
def opening (s : Server) : World := ⟨s, fun _ => none, fun _ => none, none⟩

variable (cfg since) in
/-- Over every run within the counting window: the loop ends the session of each batch exactly if
its user is then banned, if and only if every batch is in step; a user is banned exactly with more
than the threshold of distinct hashes recorded. -/
theorem disconnect_iff_inStep {s : Server} (hrecords : ∀ user, s.csamFilesByUser user = none)
    (hbans : ∀ user, s.bannedPublishers user = none) {es : List Event}
    (hwithin : ∀ e ∈ es, e.Within cfg since)
    (hrun : exec (step U check isSharedHash) (opening s) es = some w) :
    ((∀ pre, pre <+: es → ∀ v, exec (step U check isSharedHash) (opening s) pre = some v →
        Coincide v) ↔
      Along (step U check isSharedHash)
        (InStep check isSharedHash cfg.publisherAttemptDisconnectThreshold) (opening s) es) ∧
    BansOk cfg.publisherAttemptDisconnectThreshold w.server := by
  have hstart : Inv cfg since (opening s) ∧ Coincide (opening s) := by
    refine ⟨⟨fun u r hr => ?_, fun u => ?_⟩, fun u ended hl => by cases hl⟩
    · cases (hrecords u).symm.trans hr
    · simp [banned, recorded, opening, hrecords u, hbans u]
  have hkeep : ∀ v e v', Inv cfg since v → e.Within cfg since →
      step U check isSharedHash v e = some v' → Inv cfg since v' :=
    fun v e v' hv he hstep => (step_spec hv he hstep).1
  have hinv : Inv cfg since w :=
    exec_invariant_along hkeep hstart.1 (along_of_forall _ hwithin) hrun
  have hco : ∀ v, Inv cfg since v ∧ Coincide v → Coincide v := fun v hv => hv.2
  refine ⟨prefix_iff_along_of hco (fun v e v' he hv hc hstep => ?_)
    (fun v e v' he hv hc hstep => ?_) hwithin hstart hrun, hinv.bans⟩
  · obtain ⟨hnext, hiff⟩ := step_spec hv.1 he hstep
    exact ⟨hnext, (hiff hv.2).mpr hc⟩
  · exact fun hco => hc (((step_spec hv.1 he hstep).2 hv.2).mp hco)

def aUser : UserHash := Vector.replicate 16 7

def blockAll : FileHash → Str → FilterResult := fun _ _ => .block .l1Jargon

def threeTolerated : ContentFilterConfig := ⟨3, 86400, 86400⟩

/-- A record of a file that the filter blocks. -/
def blockedRecord (n : UInt8) : OfferedFile × Moment :=
  (⟨Vector.replicate 16 n, 0, 0, ['a'], 5, ⟨none, none, none⟩⟩, ⟨0, 0, threeTolerated⟩)

def loginAs (session : Nat) : Event :=
  .login session ⟨aUser, .v4 0x01020304, 4662, none, 0, false⟩ ⟨0, 0, threeTolerated⟩

def offers (session : Nat) (numbers : List UInt8) : Event :=
  .offer session ⟨0, 0⟩ threeTolerated (numbers.map blockedRecord)

def run (es : List Event) : Option World :=
  exec (step basicLatin blockAll fun _ => false) (opening noFiles) es

/-- Whether the last batch's session was ended, and whether the user is banned. -/
def outcome (w : World) : Option Bool × Bool := (w.last.map Prod.snd, banned w.server aUser)

theorem disconnect_fourFiles : ∃ w, run [loginAs 0, offers 0 [1, 2, 3, 4]] = some w ∧
    BansOk 3 w.server := by
  have hsome : (run [loginAs 0, offers 0 [1, 2, 3, 4]]).isSome := by decide
  obtain ⟨w, hw⟩ := Option.isSome_iff_exists.mp hsome
  refine ⟨w, hw, (disconnect_iff_inStep threeTolerated 0 (fun _ => rfl) (fun _ => rfl)
    (fun e he => ?_) hw).2⟩
  obtain rfl | rfl : e = loginAs 0 ∨ e = offers 0 [1, 2, 3, 4] := by simpa using he
  · trivial
  · refine ⟨rfl, fun record hr => ?_⟩
    obtain ⟨n, -, rfl⟩ := List.mem_map.mp hr
    exact ⟨rfl, Nat.le_refl 0, Nat.zero_le _, Nat.zero_le _⟩

/-- One blocked file offered four times ends the session without a ban; four files over two
sessions ban the user and leave the second session open. -/
theorem disconnect_without_ban :
    (run [loginAs 0, offers 0 [1, 1], offers 0 [1, 1]]).map outcome = some (some true, false) ∧
    (run [loginAs 0, offers 0 [1, 2, 3], .close 0, loginAs 1, offers 1 [4]]).map outcome =
      some (some false, true) := by
  constructor <;> decide

end Ed2kServer.Publish.AttemptLimit
