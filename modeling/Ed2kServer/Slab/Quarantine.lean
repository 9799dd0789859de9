import Ed2kServer.Lib.Transition
import Ed2kServer.Slab.FreeQueue
import Ed2kServer.Slab.StoreSpec

namespace Ed2kServer.Slab.Quarantine

open Ed2kServer.Lib.Transition
open Ed2kServer.Slab.Record Ed2kServer.Slab.Shard Ed2kServer.Slab.Invariant
open Ed2kServer.Slab.ShardSpec Ed2kServer.Slab.FreeQueue Ed2kServer.Slab.Store
open Ed2kServer.Slab.StoreSpec

/-- The clock, in whole seconds since the slab was made. -/
def nowSecs (elapsed : Nat) : UInt32 := UInt32.ofNat (min elapsed (2 ^ 32 - 1))

inductive Call
  | getOrInsert (hash : FileHash) (size : UInt64) (name : Str) (firstSource : Source)
  | insertSourceless (hash : FileHash) (size : UInt64) (name : Str)
  | tombstone (id : FileId)
  | tombstoneIfSourceless (id : FileId)

structure State where
  slab : FileSlab
  elapsed : Nat
  /-- The threads inside a call that have read the clock, and the reading of each. -/
  calls : Nat → Option (UInt32 × Call)
  /-- Every slot tombstoned so far with the stamp pushed to `free`, the latest first. -/
  freed : List (FileId × UInt32)

def State.new (quarantine : UInt32) : State := ⟨.new quarantine, 0, fun _ => none, []⟩

/-- A call enters by reading the clock and does the rest of its work under the write lock. -/
inductive Event
  | tick
  | enter (thread : Nat) (call : Call)
  | locked (thread : Nat)

/-- What a call does under the lock, with the log of freed slots. -/
def perform (s : State) (now : UInt32) : Call → Option (FileSlab × List (FileId × UInt32))
  | .getOrInsert hash size name source =>
    (s.slab.getOrInsert now hash size name source).map (fun p => (p.1, s.freed))
  | .insertSourceless hash size name =>
    (s.slab.insertSourceless now hash size name).map (fun p => (p.1, s.freed))
  | .tombstone id =>
    (s.slab.tombstone now id).map (fun p => (p.1, if p.2 then (id, now) :: s.freed else s.freed))
  | .tombstoneIfSourceless id =>
    (s.slab.tombstoneIfSourceless now id).map
      (fun p => (p.1, if p.2.isSome then (id, now) :: s.freed else s.freed))

def step (s : State) : Event → Option State
  | .tick => some { s with elapsed := s.elapsed + 1 }
  | .enter thread call =>
    match s.calls thread with
    | none =>
      some { s with calls := Function.update s.calls thread (some (nowSecs s.elapsed, call)) }
    | some _ => none
  | .locked thread =>
    match s.calls thread with
    | none => none
    | some (now, call) =>
      (perform s now call).map (fun p =>
        { s with slab := p.1, freed := p.2, calls := Function.update s.calls thread none })

def State.clock (s : State) : Nat := (nowSecs s.elapsed).toNat

/-- While the quarantine of a freed slot lasts on the clock, no record has been put into it, so
the old id of the slot resolves to nothing. -/
def Quarantined (s : State) : Prop :=
  ∀ id freedAt, (id, freedAt) ∈ s.freed →
    s.clock < freedAt.toNat + s.slab.quarantineSecs.toNat → s.slab.get id = none

/-- The clock reading is older than the stamp of the oldest dead slot, which makes the age of the
slot wrap past the quarantine before the quarantine is over. -/
def ReadTooEarly (s : State) (no : Fin SLAB_SHARDS) (now : UInt32) : Prop :=
  ∃ i freedAt rest, (s.slab.shards no).free = (i, freedAt) :: rest ∧ now < freedAt ∧
    s.slab.quarantineSecs ≤ now - freedAt ∧
    s.clock < freedAt.toNat + s.slab.quarantineSecs.toNat

def Call.inserts : Call → Option FileHash
  | .getOrInsert hash _ _ _ | .insertSourceless hash _ _ => some hash
  | .tombstone _ | .tombstoneIfSourceless _ => none

/-- The step does not insert an unknown hash on a clock reading taken too early. -/
def InOrder (s : State) : Event → Prop
  | .tick | .enter _ _ => True
  | .locked thread => ∀ now call hash, s.calls thread = some (now, call) →
    call.inserts = some hash → s.slab.idOf hash = some none →
    ¬ ReadTooEarly s (shardOfHash hash) now

theorem clock_le_succ (elapsed : Nat) :
    (nowSecs elapsed).toNat ≤ (nowSecs (elapsed + 1)).toNat := by
  simp only [nowSecs, UInt32.toNat_ofNat']
  omega

theorem get_eq_none {s : FileSlab} {id : FileId} :
    s.get id = none ↔ ¬ Alive (s.shards (idShard id)) (idIndex id) := by
  simp only [Option.eq_none_iff_forall_ne_some, ne_eq, get_eq_some, Alive, not_exists]

/-- Either the quarantine of a freed slot is over or the slot still waits in the queue. -/
structure Inv (s : State) : Prop where
  queue : ∀ no, Queue (s.slab.shards no)
  reading : ∀ thread now call, s.calls thread = some (now, call) → now.toNat ≤ s.clock
  logged : ∀ no i freedAt, (i, freedAt) ∈ (s.slab.shards no).free →
    i.toNat < 2 ^ 26 ∧ (makeId no i, freedAt) ∈ s.freed
  kept : ∀ id freedAt, (id, freedAt) ∈ s.freed →
    freedAt.toNat + s.slab.quarantineSecs.toNat ≤ s.clock ∨
      (idIndex id, freedAt) ∈ (s.slab.shards (idShard id)).free

theorem inv_new (quarantine : UInt32) : Inv (.new quarantine) where
  queue _ := queue_new
  reading _ _ _ h := by cases h
  logged _ _ _ h := by cases h
  kept _ _ h := by cases h

theorem quarantined_of_inv {s : State} (h : Inv s) : Quarantined s := by
  intro id freedAt hmem hclock
  have hfree := (h.kept id freedAt hmem).resolve_left (Nat.not_le.mpr hclock)
  exact get_eq_none.mpr ((h.queue _).dead _ (List.mem_map_of_mem hfree))

/-- What an insertion does to the shard of its hash. -/
theorem searchOrInsert_cases {s t : FileSlab} {now : UInt32} {r : FileRecord} {id : FileId}
    {new : Bool} (h : s.searchOrInsert now r = some (t, id, new)) :
    (s.idOf r.hash ≠ some none ∧ t = s) ∨
      (s.idOf r.hash = some none ∧ ∃ sh i,
        (s.shards (shardOfHash r.hash)).insertRecord r now s.quarantineSecs = some (sh, i) ∧
        t = { s with shards := Function.update s.shards (shardOfHash r.hash) sh
                     live := s.live + 1 }) := by
  obtain ⟨found, hf, h⟩ := Option.bind_eq_some_iff.mp h
  cases found with
  | some i =>
    cases h
    exact Or.inl ⟨by simp [FileSlab.idOf, hf], rfl⟩
  | none =>
    obtain ⟨⟨sh, i⟩, hi, h⟩ := Option.bind_eq_some_iff.mp h
    cases h
    exact Or.inr ⟨by simp [FileSlab.idOf, hf], sh, i, hi, rfl⟩

theorem tombstoneWhere_cases {s t : FileSlab} {now : UInt32} {id : FileId}
    {cond : FileRecord → Bool} {name : Option Str}
    (h : s.tombstoneWhere now id cond = some (t, name)) :
    (name = none ∧ t = s) ∨ (name.isSome = true ∧ ∃ sh,
      (s.shards (idShard id)).tombstone now (idIndex id) cond = some (sh, name) ∧
      t = { s with shards := Function.update s.shards (idShard id) sh, live := s.live - 1 }) := by
  obtain ⟨⟨sh, o⟩, ht, h⟩ := Option.bind_eq_some_iff.mp h
  cases o with
  | none =>
    cases h
    exact Or.inl ⟨rfl, rfl⟩
  | some o =>
    cases h
    exact Or.inr ⟨rfl, sh, ht, rfl⟩

/-- The effect of a call under the lock: none, a record inserted, or a slot freed. -/
inductive Effect (s : State) (now : UInt32) (call : Call) (slab : FileSlab)
    (freed : List (FileId × UInt32)) : Prop
  | none (known : ∀ hash, call.inserts = some hash → s.slab.idOf hash ≠ some none)
    (slab : slab = s.slab) (freed : freed = s.freed)
  | inserted (r : FileRecord) (i : UInt32) (sh : SlabShard) (h : call.inserts = some r.hash)
    (alive : r.alive = true) (unknown : s.slab.idOf r.hash = some none)
    (run : (s.slab.shards (shardOfHash r.hash)).insertRecord r now s.slab.quarantineSecs =
      some (sh, i))
    (slab : slab = { s.slab with
      shards := Function.update s.slab.shards (shardOfHash r.hash) sh
      live := s.slab.live + 1 })
    (freed : freed = s.freed)
  | freed (id : FileId) (cond : FileRecord → Bool) (name : Option Str) (sh : SlabShard)
    (h : call.inserts = .none) (some : name.isSome = true)
    (run : (s.slab.shards (idShard id)).tombstone now (idIndex id) cond = .some (sh, name))
    (slab : slab = { s.slab with
      shards := Function.update s.slab.shards (idShard id) sh
      live := s.slab.live - 1 })
    (freed : freed = (id, now) :: s.freed)

theorem perform_effect {s : State} {now : UInt32} {call : Call} {slab : FileSlab}
    {freed : List (FileId × UInt32)} (h : perform s now call = some (slab, freed)) :
    Effect s now call slab freed := by
  have hins : ∀ (r : FileRecord) (id : FileId) (new : Bool), call.inserts = some r.hash →
      r.alive = true → s.slab.searchOrInsert now r = some (slab, id, new) → freed = s.freed →
      Effect s now call slab freed := by
    intro r id new hc ha hrun hf
    rcases searchOrInsert_cases hrun with ⟨hk, hs⟩ | ⟨hu, sh, i, hrun, hs⟩
    · exact .none (fun hash hh => by rw [hc] at hh; cases hh; exact hk) hs hf
    · exact .inserted r i sh hc ha hu hrun hs hf
  have htomb : ∀ (id : FileId) (cond : FileRecord → Bool) (name : Option Str),
      call.inserts = none → s.slab.tombstoneWhere now id cond = some (slab, name) →
      freed = (if name.isSome then (id, now) :: s.freed else s.freed) →
      Effect s now call slab freed := by
    intro id cond name hc hrun hf
    rcases tombstoneWhere_cases hrun with ⟨rfl, hs⟩ | ⟨hn, sh, hrun, hs⟩
    · exact .none (fun hash hh => by rw [hc] at hh; cases hh) hs hf
    · rw [if_pos hn] at hf
      exact .freed id cond name sh hc hn hrun hs hf
  cases call with
  | getOrInsert hash size name source =>
    obtain ⟨⟨t, id, new⟩, hrun, he⟩ := Option.map_eq_some_iff.mp h
    cases he
    exact hins (.new hash size name [source]) id new rfl rfl hrun rfl
  | insertSourceless hash size name =>
    obtain ⟨⟨t, id⟩, hcall, he⟩ := Option.map_eq_some_iff.mp h
    obtain ⟨⟨t, id, new⟩, hrun, hp⟩ := Option.map_eq_some_iff.mp hcall
    cases hp
    cases he
    exact hins (.new hash size name []) id new rfl rfl hrun rfl
  | tombstone id =>
    obtain ⟨⟨t, gone⟩, hcall, he⟩ := Option.map_eq_some_iff.mp h
    obtain ⟨⟨t, name⟩, hrun, hp⟩ := Option.map_eq_some_iff.mp hcall
    cases hp
    cases he
    exact htomb id (fun _ => true) name rfl hrun rfl
  | tombstoneIfSourceless id =>
    obtain ⟨⟨t, name⟩, hrun, he⟩ := Option.map_eq_some_iff.mp h
    cases he
    exact htomb id (·.sources.isEmpty) name rfl hrun rfl

/-- An insertion in order leaves every slot whose quarantine lasts in the queue. -/
theorem inv_inserted {s : State} (h : Inv s) {now : UInt32} {r : FileRecord} {i : UInt32}
    {sh : SlabShard} (ha : r.alive = true) (hnow : now.toNat ≤ s.clock)
    (hc : ¬ ReadTooEarly s (shardOfHash r.hash) now)
    (hrun : (s.slab.shards (shardOfHash r.hash)).insertRecord r now s.slab.quarantineSecs =
      some (sh, i)) :
    Inv { s with slab := { s.slab with
      shards := Function.update s.slab.shards (shardOfHash r.hash) sh
      live := s.slab.live + 1 } } := by
  obtain ⟨hq, htaken⟩ := insertRecord_taken (h.queue _) ha hrun
  have hsub : ∀ e, e ∈ sh.free → e ∈ (s.slab.shards (shardOfHash r.hash)).free := by
    intro e he
    cases htaken with
    | oldest k freedAt rest hf age free alive =>
      rw [hf]
      rw [free] at he
      exact List.mem_cons_of_mem _ he
    | fresh young free alive => rwa [free] at he
  refine ⟨fun no => ?_, h.reading, fun no k f hf => ?_, fun id f hf => ?_⟩
  · by_cases hno : no = shardOfHash r.hash
    · subst hno
      simpa using hq
    · simpa [hno] using h.queue no
  · by_cases hno : no = shardOfHash r.hash
    · subst hno
      simp only [Function.update_self] at hf
      exact h.logged _ k f (hsub _ hf)
    · simp only [Function.update_of_ne hno] at hf
      exact h.logged no k f hf
  · rcases h.kept id f hf with hover | hwaits
    · exact Or.inl hover
    · by_cases hno : idShard id = shardOfHash r.hash
      · simp only [hno, Function.update_self]
        rw [hno] at hwaits
        cases htaken with
        | oldest k freedAt rest hfree age free alive =>
          rw [hfree, List.mem_cons] at hwaits
          rcases hwaits with he | hrest
          · cases he
            refine Or.inl (Nat.not_lt.mp (fun hlt => ?_))
            refine hc ⟨_, f, rest, hfree, ?_, age, hlt⟩
            rw [UInt32.lt_iff_toNat_lt]
            refine Nat.not_le.mp (fun hle => ?_)
            have hsub : (now - f).toNat = now.toNat - f.toNat :=
              UInt32.toNat_sub_of_le _ _ (UInt32.le_iff_toNat_le.mpr hle)
            have hage := UInt32.le_iff_toNat_le.mp age
            change s.clock < f.toNat + s.slab.quarantineSecs.toNat at hlt
            omega
          · exact Or.inr (by rwa [free])
        | fresh young free alive => exact Or.inr (by rwa [free])
      · exact Or.inr (by simpa [hno] using hwaits)

/-- Tombstoning queues the slot under the stamp that is logged. -/
theorem inv_freed {s : State} (h : Inv s) {now : UInt32} {id : FileId}
    {cond : FileRecord → Bool} {name : Option Str} {sh : SlabShard} (hn : name.isSome = true)
    (hrun : (s.slab.shards (idShard id)).tombstone now (idIndex id) cond = some (sh, name)) :
    Inv { s with
      slab := { s.slab with
        shards := Function.update s.slab.shards (idShard id) sh
        live := s.slab.live - 1 }
      freed := (id, now) :: s.freed } := by
  obtain ⟨hq, hout⟩ := tombstone_queue (h.queue _) hrun
  obtain ⟨-, -, hfree, -⟩ := hout.resolve_left (fun ho => by rw [ho.1] at hn; cases hn)
  refine ⟨fun no => ?_, h.reading, fun no k f hf => ?_, fun id' f hf => ?_⟩
  · by_cases hno : no = idShard id
    · subst hno
      simpa using hq
    · simpa [hno] using h.queue no
  · by_cases hno : no = idShard id
    · subst hno
      simp only [Function.update_self, hfree, List.mem_append, List.mem_singleton] at hf
      rcases hf with hf | he
      · obtain ⟨hk, hmem⟩ := h.logged _ k f hf
        exact ⟨hk, List.mem_cons_of_mem _ hmem⟩
      · cases he
        refine ⟨?_, by simp [makeId_idShard_idIndex]⟩
        rw [idIndex_toNat]
        exact Nat.mod_lt _ (by decide)
    · simp only [Function.update_of_ne hno] at hf
      obtain ⟨hk, hmem⟩ := h.logged no k f hf
      exact ⟨hk, List.mem_cons_of_mem _ hmem⟩
  · rcases List.mem_cons.mp hf with he | hf
    · cases he
      exact Or.inr (by simp [hfree])
    · rcases h.kept id' f hf with hover | hwaits
      · exact Or.inl hover
      · refine Or.inr ?_
        by_cases hno : idShard id' = idShard id
        · rw [hno] at hwaits
          simp [hno, hfree, hwaits]
        · simpa [hno] using hwaits

theorem inv_idle {s : State} (h : Inv s) (thread : Nat) :
    Inv { s with calls := Function.update s.calls thread none } := by
  refine ⟨h.queue, fun th now call hc => ?_, h.logged, h.kept⟩
  by_cases hth : th = thread
  · subst hth
    simp at hc
  · exact h.reading th now call (by simpa [hth] using hc)

theorem inv_step {s : State} {e : Event} {t : State} (h : Inv s) (hc : InOrder s e)
    (hstep : step s e = some t) : Inv t := by
  cases e with
  | tick =>
    cases hstep
    have hclock := clock_le_succ s.elapsed
    exact ⟨h.queue, fun th now call hth => Nat.le_trans (h.reading th now call hth) hclock,
      h.logged, fun id f hf => (h.kept id f hf).imp_left (fun hle => Nat.le_trans hle hclock)⟩
  | enter thread call =>
    rw [step] at hstep
    split at hstep
    · cases hstep
      refine ⟨h.queue, fun th now c hth => ?_, h.logged, h.kept⟩
      by_cases hthread : th = thread
      · subst hthread
        simp only [Function.update_self, Option.some.injEq, Prod.mk.injEq] at hth
        rw [← hth.1]
        exact Nat.le_refl _
      · exact h.reading th now c (by simpa [hthread] using hth)
    · cases hstep
  | locked thread =>
    rw [step] at hstep
    split at hstep
    · cases hstep
    · rename_i now call hcall
      obtain ⟨⟨slab, freed⟩, hp, rfl⟩ := Option.map_eq_some_iff.mp hstep
      refine inv_idle (s := { s with slab := slab, freed := freed }) ?_ thread
      cases perform_effect hp with
      | none known hslab hfreed =>
        subst hslab hfreed
        exact h
      | inserted r i sh hi ha unknown run hslab hfreed =>
        subst hslab hfreed
        exact inv_inserted h ha (h.reading _ _ _ hcall) (hc now call r.hash hcall hi unknown) run
      | freed id cond name sh hi hn run hslab hfreed =>
        subst hslab hfreed
        exact inv_freed h hn run

/-- An insertion on a reading taken too early puts its record into the oldest dead slot. -/
theorem not_quarantined_step {s : State} {e : Event} {t : State} (h : Inv s)
    (hc : ¬ InOrder s e) (hstep : step s e = some t) : ¬ Quarantined t := by
  cases e with
  | tick => exact absurd trivial hc
  | enter thread call => exact absurd trivial hc
  | locked thread =>
    simp only [InOrder, not_forall, not_not] at hc
    obtain ⟨now, call, hash, hcall, hi, hunknown, k, freedAt, rest, hfree, hlt, hage, hclock⟩ := hc
    rw [step, hcall] at hstep
    obtain ⟨⟨slab, freed⟩, hp, rfl⟩ := Option.map_eq_some_iff.mp hstep
    cases perform_effect hp with
    | none known hslab hfreed => exact absurd hunknown (known hash hi)
    | freed id cond name sh hnone hn run hslab hfreed =>
      rw [hi] at hnone
      cases hnone
    | inserted r i sh hr ha unknown run hslab hfreed =>
      subst hslab hfreed
      obtain rfl : hash = r.hash := Option.some.inj (hi.symm.trans hr)
      obtain ⟨hk, hmem⟩ := h.logged (shardOfHash r.hash) k freedAt (by simp [hfree])
      intro hq
      have hnone := get_eq_none.mp (hq (makeId (shardOfHash r.hash) k) freedAt hmem hclock)
      simp only [idShard_makeId, idIndex_makeId _ hk, Function.update_self] at hnone
      obtain ⟨-, htaken⟩ := insertRecord_taken (h.queue _) ha run
      cases htaken with
      | oldest j f rest' hf age free alive =>
        rw [hfree] at hf
        cases hf
        exact hnone ((alive k).mpr (Or.inl rfl))
      | fresh young free alive => exact young ⟨k, freedAt, rest, hfree, hage⟩

/-- In the states of a run the quarantine of every freed slot is respected exactly when the run
makes no insertion on a clock reading taken too early. -/
theorem quarantined_iff_inOrder {quarantine : UInt32} {es : List Event} {u : State}
    (hrun : exec step (.new quarantine) es = some u) :
    (∀ pre, pre <+: es → ∀ t, exec step (.new quarantine) pre = some t → Quarantined t) ↔
      Along step InOrder (.new quarantine) es :=
  prefix_iff_along (fun _ => quarantined_of_inv) (fun _ _ _ => inv_step)
    (fun _ _ _ => not_quarantined_step) (inv_new quarantine) hrun

def firstHash : FileHash := .replicate 16 0

def secondHash : FileHash := .replicate 16 64

/-- Thread 1 reads the clock, then thread 2 tombstones at a later second and thread 1 goes on. -/
def overtaken : List Event :=
  [.enter 0 (.insertSourceless firstHash 7 []), .locked 0,
    .enter 1 (.insertSourceless secondHash 9 []), .tick,
    .enter 2 (.tombstone 0), .locked 2, .locked 1]

theorem overtaken_quarantined_iff :
    ∃ u, exec step (.new SLOT_QUARANTINE_SECS) overtaken = some u ∧
      ((∀ pre, pre <+: overtaken → ∀ t,
        exec step (.new SLOT_QUARANTINE_SECS) pre = some t → Quarantined t) ↔
        Along step InOrder (.new SLOT_QUARANTINE_SECS) overtaken) := by
  have hsome : (exec step (.new SLOT_QUARANTINE_SECS) overtaken).isSome = true := by
    decide
  obtain ⟨u, hu⟩ := Option.isSome_iff_exists.mp hsome
  exact ⟨u, hu, quarantined_iff_inOrder hu⟩

/-- The id of a file freed in this very second resolves to another file. -/
theorem overtaken_reuses_slot :
    (exec step (.new SLOT_QUARANTINE_SECS) (overtaken.take 2)).map (·.slab.hashOf 0) =
        some (some firstHash) ∧
      ∃ u, exec step (.new SLOT_QUARANTINE_SECS) overtaken = some u ∧
        (0, 1) ∈ u.freed ∧ u.clock < 1 + 60 ∧ u.slab.hashOf 0 = some secondHash ∧
        ¬ Quarantined u := by
  refine ⟨by decide, ?_⟩
  have hmap : (exec step (.new SLOT_QUARANTINE_SECS) overtaken).map
      (fun u => (u.freed, u.clock, u.slab.quarantineSecs, u.slab.hashOf 0)) =
        some ([(0, 1)], 1, 60, some secondHash) := by decide
  obtain ⟨u, hu, he⟩ := Option.map_eq_some_iff.mp hmap
  simp only [Prod.mk.injEq] at he
  obtain ⟨hfreed, hclock, hq, hhash⟩ := he
  refine ⟨u, hu, by simp [hfreed], by omega, hhash, fun hquar => ?_⟩
  have hnone := hquar 0 1 (by simp [hfreed]) (by rw [hclock, hq]; decide)
  rw [FileSlab.hashOf, hnone] at hhash
  cases hhash

end Ed2kServer.Slab.Quarantine
