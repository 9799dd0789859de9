import Ed2kServer.Server.LugdunumNatt

namespace Ed2kServer.Server.ForeignLimits

open Ed2kServer.Admission.Bucket Ed2kServer.Server.LugdunumNatt Ed2kServer.Slab.Record
open Ed2kServer.Sources.Address

variable {h : History} {ip : Ipv4} {start till now : Nat} {src : ForeignSource} {id : UInt32}

/-- A source that was just made, where there is none. -/
def sourceOf (s : State) (ip : Ipv4) : ForeignSource := (s.foreignSources ip).getD (.new s.now)

/-- What a request does to a source, and whether it passes as a request of it. -/
theorem step_source (h : History) (v : View) (r : Request) (ip : Ipv4) :
    (step h (.request v r)).state.foreignSources ip = h.state.foreignSources ip ∧
        (recordOf h.state v r).passed ip = false ∨
      (step h (.request v r)).state.foreignSources ip =
          some ((sourceOf h.state ip).check r.targetId h.state.now).2 ∧
        (recordOf h.state v r).passed ip =
          ((sourceOf h.state ip).check r.targetId h.state.now).1.isNone := by
  simp only [step, Record.passed, recordOf]
  obtain ⟨hkeep, hfail⟩ | ⟨ip', checked, hip, rfl, hsources, hpass⟩ :=
    handleForeign_sources v h.state r
  · exact .inl ⟨congrFun hkeep ip, by rw [hfail, Bool.and_false]⟩
  · by_cases heq : ip' = ip
    · subst heq
      refine .inr ⟨by rw [hsources, Function.update_self, sourceOf], ?_⟩
      simp only [hpass, hip, BEq.rfl, Bool.true_and, sourceOf]
    · refine .inl ⟨by rw [hsources, Function.update_of_ne (Ne.symm heq)], ?_⟩
      simp [hip, heq]

/-! ### Requests in any time -/

/-- What the source can still be charged until a time. -/
def left (s : State) (ip : Ipv4) (till : Nat) : Nat := (sourceOf s ip).bucket.worth till

structure Sound (s : State) (ip : Ipv4) : Prop where
  sized : ∀ src, s.foreignSources ip = some src → TokenBucket.Sized 1 10 src.bucket
  bucket_le : ∀ src, s.foreignSources ip = some src → src.bucket.last ≤ src.last
  last_le : ∀ src, s.foreignSources ip = some src → src.last ≤ s.now

/-- The requests of the source that passed from a time until another. -/
def passes (log : List Record) (ip : Ipv4) (start till : Nat) : Nat :=
  log.countP fun e => e.passed ip && decide (start ≤ e.time) && decide (e.time ≤ till)

/-- Who has begun in the time can go on for no more than the burst and what time brings. -/
structure Allowed (ip : Ipv4) (start till : Nat) (h : History) : Prop where
  sound : Sound h.state ip
  count_le : passes h.log ip start till * 1000000 ≤ 10 * 1000000 + (till - start + 999) / 1000
  left_le : h.state.now ≤ till → passes h.log ip start till = 0 ∨
    passes h.log ip start till * 1000000 + left h.state ip till ≤
      10 * 1000000 + (till - start + 999) / 1000

theorem sourceOf_sound (hs : Sound h.state ip) :
    TokenBucket.Sized 1 10 (sourceOf h.state ip).bucket ∧
      (sourceOf h.state ip).bucket.last ≤ h.state.now := by
  rw [sourceOf]
  cases hsrc : h.state.foreignSources ip with
  | none => exact ⟨TokenBucket.sized_new _ _ _, le_refl _⟩
  | some src => exact ⟨hs.sized src hsrc, (hs.bucket_le src hsrc).trans (hs.last_le src hsrc)⟩

/-- A checked source is sound again. -/
theorem Sound.check (hs : Sound h.state ip) (id : UInt32) {s : State}
    (hnow : s.now = h.state.now)
    (hsrc : s.foreignSources ip = some ((sourceOf h.state ip).check id h.state.now).2) :
    Sound s ip := by
  obtain ⟨hsized, hlast⟩ := sourceOf_sound hs
  constructor <;> intro src hsrc'
  all_goals
    rw [hsrc, Option.some.injEq] at hsrc'
    subst hsrc'
  · rw [ForeignSource.check_bucket]
    exact hsized.take 1 h.state.now
  · rw [ForeignSource.check_bucket, ForeignSource.check_last, TokenBucket.take_last]
    exact TokenBucket.refill_last_le hlast
  · rw [ForeignSource.check_last, hnow]

theorem Sound.mono (hs : Sound h.state ip) {s : State} (hnow : h.state.now ≤ s.now)
    (hsrc : ∀ src, s.foreignSources ip = some src → h.state.foreignSources ip = some src) :
    Sound s ip :=
  ⟨fun src hsrc' => hs.sized src (hsrc src hsrc'),
    fun src hsrc' => hs.bucket_le src (hsrc src hsrc'),
    fun src hsrc' => (hs.last_le src (hsrc src hsrc')).trans hnow⟩

/-- A request is paid for, whether or not it passes. -/
theorem check_worth (id : UInt32) (hnow : now ≤ till) :
    (src.check id now).2.bucket.worth till +
        (if (src.check id now).1.isNone then 1000000 else 0) ≤ src.bucket.worth till := by
  rw [ForeignSource.check_bucket]
  split_ifs with hpass
  · have htake := ForeignSource.take_of_check (Option.isNone_iff_eq_none.mp hpass)
    have ht : src.bucket.take 1 now = (true, (src.bucket.take 1 now).2) := Prod.ext htake rfl
    simpa using TokenBucket.take_worth hnow ht
  · cases htake : src.bucket.take 1 now with
    | mk taken bucket =>
      cases taken with
      | true => exact (Nat.le_add_right _ _).trans (TokenBucket.take_worth hnow htake)
      | false =>
        rw [TokenBucket.take_eq_false htake]
        exact TokenBucket.refill_worth src.bucket hnow

/-- The first request from a time on finds no more than the burst, and what time brings. -/
theorem check_worth_first (hsized : TokenBucket.Sized 1 10 src.bucket) (id : UInt32)
    (hstart : start ≤ now) (hnow : now ≤ till) (hpass : (src.check id now).1 = none) :
    (src.check id now).2.bucket.worth till + 1000000 ≤
      10 * 1000000 + (till - start + 999) / 1000 := by
  have htake := ForeignSource.take_of_check hpass
  have ht : src.bucket.take 1 now = (true, (src.bucket.take 1 now).2) := Prod.ext htake rfl
  obtain ⟨hle, heq⟩ := TokenBucket.take_eq_true ht
  have hfirst := TokenBucket.worth_of_refill hsized hstart hnow
  rw [ForeignSource.check_bucket, heq]
  simp only [TokenBucket.worth] at hfirst ⊢
  omega

/-- Forgetting an idle source mints nothing. -/
theorem worth_of_idle (hs : Sound h.state ip) (hsrc : h.state.foreignSources ip = some src)
    (hidle : src.idle h.state.now = true) (hnow : h.state.now ≤ till) :
    (TokenBucket.new 1 10 h.state.now).worth till ≤ src.bucket.worth till := by
  have hrate := (hs.sized src hsrc).rate_eq
  have hlast := hs.bucket_le src hsrc
  rw [ForeignSource.idle, decide_eq_true_iff, FOREIGN_TARGET_WINDOW, second] at hidle
  rw [TokenBucket.worth_new, TokenBucket.worth, hrate]
  omega

theorem passes_cons (e : Record) (log : List Record) : passes (e :: log) ip start till =
    passes log ip start till + if e.passed ip ∧ start ≤ e.time ∧ e.time ≤ till then 1 else 0 := by
  simp only [passes, List.countP_cons, Bool.and_eq_true, decide_eq_true_iff, and_assoc]

theorem Allowed.request (ha : Allowed ip start till h) (v : View) (r : Request) :
    Allowed ip start till (step h (.request v r)) := by
  have hnow : (step h (.request v r)).state.now = h.state.now := handleForeign_now v h.state r
  have hlog : (step h (.request v r)).log = recordOf h.state v r :: h.log := rfl
  have htime : (recordOf h.state v r).time = h.state.now := rfl
  obtain ⟨hkeep, hpass⟩ | ⟨hsrc, hpass⟩ := step_source h v r ip
  · have hcount : passes (step h (.request v r)).log ip start till =
        passes h.log ip start till := by
      rw [hlog, passes_cons, hpass]
      simp
    have hleft : left (step h (.request v r)).state ip till = left h.state ip till := by
      rw [left, left, sourceOf, sourceOf, hkeep, hnow]
    refine ⟨ha.sound.mono hnow.ge fun src hsrc => hkeep ▸ hsrc, ?_, ?_⟩
    · rw [hcount]
      exact ha.count_le
    · rw [hcount, hnow, hleft]
      exact ha.left_le
  · have hleft : left (step h (.request v r)).state ip till =
        ((sourceOf h.state ip).check r.targetId h.state.now).2.bucket.worth till := by
      rw [left, sourceOf, hsrc, Option.getD_some]
    have hsound := ha.sound.check r.targetId hnow hsrc
    by_cases hin : (recordOf h.state v r).passed ip ∧ start ≤ h.state.now ∧ h.state.now ≤ till
    · have hcount : passes (step h (.request v r)).log ip start till =
          passes h.log ip start till + 1 := by
        rw [hlog, passes_cons, htime, if_pos hin]
      obtain ⟨hpassed, hstart, htill⟩ := hin
      rw [hpass, Option.isNone_iff_eq_none] at hpassed
      have hpaid := @check_worth _ _ (sourceOf h.state ip) r.targetId htill
      rw [hpassed, Option.isNone_none, if_pos rfl] at hpaid
      have hfirst := check_worth_first (sourceOf_sound ha.sound).1 r.targetId hstart htill hpassed
      have hbound : passes (step h (.request v r)).log ip start till * 1000000 +
          left (step h (.request v r)).state ip till ≤
            10 * 1000000 + (till - start + 999) / 1000 := by
        rw [hcount, hleft, Nat.succ_mul, Nat.add_assoc, Nat.add_comm 1000000]
        obtain hzero | hold := ha.left_le htill
        · simp only [hzero, Nat.zero_mul, Nat.zero_add]
          exact hfirst
        · exact (Nat.add_le_add_left hpaid _).trans hold
      exact ⟨hsound, (Nat.le_add_right _ _).trans hbound, fun _ => .inr hbound⟩
    · have hcount : passes (step h (.request v r)).log ip start till =
          passes h.log ip start till := by
        rw [hlog, passes_cons, htime, if_neg hin, Nat.add_zero]
      refine ⟨hsound, ?_, ?_⟩
      · rw [hcount]
        exact ha.count_le
      · rw [hcount, hnow, hleft]
        intro htill
        have hpaid := @check_worth _ _ (sourceOf h.state ip) r.targetId htill
        have hold := ha.left_le htill
        simp only [left] at hold
        omega

/-- What neither adds a request nor worth keeps the bound. -/
theorem Allowed.mono (ha : Allowed ip start till h) {s : State} (hs : Sound s ip)
    (hnow : h.state.now ≤ s.now)
    (hleft : s.now ≤ till → left s ip till ≤ left h.state ip till) :
    Allowed ip start till ⟨s, h.log⟩ := by
  refine ⟨hs, ha.count_le, fun htill => ?_⟩
  obtain hzero | hbound := ha.left_le (hnow.trans htill)
  · exact .inl hzero
  · exact .inr ((Nat.add_le_add_left (hleft htill) _).trans hbound)

theorem Allowed.tick (ha : Allowed ip start till h) (d : Nat) :
    Allowed ip start till (step h (.tick d)) := by
  refine ha.mono (ha.sound.mono (Nat.le_add_right _ d) fun _ hsrc => hsrc)
    (Nat.le_add_right _ d) fun htill => ?_
  rw [left, left, sourceOf, sourceOf]
  cases h.state.foreignSources ip with
  | some src => exact le_refl _
  | none =>
    simp only [Option.getD_none, ForeignSource.new, TokenBucket.worth_new]
    omega

theorem Allowed.sweepSource (ha : Allowed ip start till h) (ip' : Ipv4) :
    Allowed ip start till (step h (.sweepSource ip')) := by
  by_cases heq : ip' = ip
  · subst heq
    cases hsrc : h.state.foreignSources ip' with
    | none =>
      refine ha.mono (ha.sound.mono (le_refl _) fun src => ?_) (le_refl _) fun _ => ?_
      · simp [hsrc]
      · simp [left, sourceOf, hsrc]
    | some src =>
      by_cases hidle : src.idle h.state.now = true
      · refine ha.mono (ha.sound.mono (le_refl _) fun src => ?_) (le_refl _) fun htill => ?_
        · simp [hsrc, Option.filter, hidle]
        · have hworth := worth_of_idle ha.sound hsrc hidle htill
          simpa [left, sourceOf, hsrc, Option.filter, hidle, ForeignSource.new] using hworth
      · refine ha.mono (ha.sound.mono (le_refl _) fun src => ?_) (le_refl _) fun _ => ?_
        · simp [hsrc, Option.filter, hidle]
        · simp [left, sourceOf, hsrc, Option.filter, hidle]
  · refine ha.mono (ha.sound.mono (le_refl _) fun src => ?_) (le_refl _) fun _ => ?_
    · simp [Function.update_of_ne (Ne.symm heq)]
    · simp [left, sourceOf, Function.update_of_ne (Ne.symm heq)]

theorem Allowed.step (ha : Allowed ip start till h) (e : Event) :
    Allowed ip start till (step h e) := by
  cases e with
  | tick d => exact ha.tick d
  | request v r => exact ha.request v r
  | sweepSource ip' => exact ha.sweepSource ip'
  | sweepWakes target =>
    exact ha.mono (ha.sound.mono (le_refl _) fun _ hsrc => hsrc) (le_refl _) fun _ => le_refl _

theorem Allowed.begin (ip : Ipv4) (start till now : Nat) :
    Allowed ip start till (LugdunumNatt.start now) := by
  have hzero : passes (LugdunumNatt.start now).log ip start till = 0 := rfl
  refine ⟨⟨nofun, nofun, nofun⟩, ?_, fun _ => .inl hzero⟩
  rw [hzero, Nat.zero_mul]
  exact Nat.zero_le _

/-- From one address no more requests pass in a time than the burst and its seconds. -/
theorem passes_run (ip : Ipv4) (start till now : Nat) (es : List Event) :
    passes (es.foldl step (LugdunumNatt.start now)).log ip start till * 1000000 ≤
      10 * 1000000 + (till - start + 999) / 1000 :=
  (List.foldlRecOn es step (Allowed.begin ip start till now) fun _ ha e _ => ha.step e).count_le

/-! ### Targets in ten minutes -/

theorem length_others_lt {targets : List (UInt32 × Nat)} (hid : id ∈ targets.map Prod.fst) :
    (targets.filter fun t => t.1 != id).length < targets.length := by
  rw [List.length_filter_lt_length_iff_exists]
  obtain ⟨t, ht, rfl⟩ := List.mem_map.mp hid
  exact ⟨t, ht, by simp⟩

theorem check_targets_length (hlen : src.targets.length ≤ FOREIGN_MAX_TARGETS) (id : UInt32)
    (now : Nat) : (src.check id now).2.targets.length ≤ FOREIGN_MAX_TARGETS := by
  have hfresh : (src.targets.filter fun t => decide (now - t.2 < FOREIGN_TARGET_WINDOW)).length ≤
      FOREIGN_MAX_TARGETS := (List.length_filter_le _ _).trans hlen
  simp only [ForeignSource.check]
  split_ifs with htaken hmany
  · exact hlen
  · exact hfresh
  · rw [List.length_cons]
    by_cases hid : id ∈ (src.targets.filter fun t =>
        decide (now - t.2 < FOREIGN_TARGET_WINDOW)).map Prod.fst
    · exact (length_others_lt hid).trans_le hfresh
    · have hroom : ¬ FOREIGN_MAX_TARGETS ≤ _ := fun hle => hmany ⟨hid, hle⟩
      exact (List.length_filter_le _ _).trans_lt (Nat.lt_of_not_le hroom)

theorem check_targets_le (hle : ∀ t ∈ src.targets, t.2 ≤ now) (id : UInt32) :
    ∀ t ∈ (src.check id now).2.targets, t.2 ≤ now := by
  intro t ht
  simp only [ForeignSource.check] at ht
  split_ifs at ht with htaken hmany
  · exact hle t ht
  · exact hle t (List.mem_of_mem_filter ht)
  · obtain rfl | ht := List.mem_cons.mp ht
    · exact le_refl _
    · exact hle t (List.mem_of_mem_filter (List.mem_of_mem_filter ht))

/-- A target that was named less than ten minutes ago is still remembered. -/
theorem check_keeps {t : UInt32 × Nat} (ht : t ∈ src.targets) (hle : t.2 ≤ now)
    (hfresh : now - t.2 < FOREIGN_TARGET_WINDOW) (id : UInt32) :
    ∃ t' ∈ (src.check id now).2.targets, t'.1 = t.1 ∧ t.2 ≤ t'.2 := by
  have hmem : t ∈ src.targets.filter fun t => decide (now - t.2 < FOREIGN_TARGET_WINDOW) :=
    List.mem_filter.mpr ⟨ht, decide_eq_true hfresh⟩
  simp only [ForeignSource.check]
  split_ifs with htaken hmany
  · exact ⟨t, ht, rfl, le_refl _⟩
  · exact ⟨t, hmem, rfl, le_refl _⟩
  · by_cases hid : t.1 = id
    · exact ⟨(id, now), List.mem_cons_self, hid.symm, hle⟩
    · exact ⟨t, List.mem_cons_of_mem _ (List.mem_filter.mpr ⟨hmem, by simp [hid]⟩), rfl, le_refl _⟩

theorem check_notes (hpass : (src.check id now).1 = none) :
    (id, now) ∈ (src.check id now).2.targets := by
  simp only [ForeignSource.check] at hpass ⊢
  split_ifs at hpass ⊢ with htaken hmany
  exact List.mem_cons_self

/-- The targets that the source named in requests that passed in the ten minutes. -/
def namedIds (log : List Record) (ip : Ipv4) (start : Nat) : Finset UInt32 :=
  ((log.filter fun e => e.passed ip && decide (start ≤ e.time) &&
    decide (e.time < start + FOREIGN_TARGET_WINDOW)).map (·.request.targetId)).toFinset

theorem mem_namedIds {log : List Record} : id ∈ namedIds log ip start ↔
    ∃ e ∈ log, e.passed ip ∧ start ≤ e.time ∧ e.time < start + FOREIGN_TARGET_WINDOW ∧
      e.request.targetId = id := by
  simp only [namedIds, List.mem_toFinset, List.mem_map, List.mem_filter, Bool.and_eq_true,
    decide_eq_true_iff]
  grind

structure Remembered (ip : Ipv4) (start : Nat) (h : History) : Prop where
  few : ∀ src, h.state.foreignSources ip = some src → src.targets.length ≤ FOREIGN_MAX_TARGETS
  last_le : ∀ src, h.state.foreignSources ip = some src → src.last ≤ h.state.now
  named_le : ∀ src, h.state.foreignSources ip = some src → ∀ t ∈ src.targets, t.2 ≤ src.last
  time_le : ∀ e ∈ h.log, e.time ≤ h.state.now
  kept : h.state.now < start + FOREIGN_TARGET_WINDOW → ∀ e ∈ h.log, e.passed ip →
    start ≤ e.time → ∃ src, h.state.foreignSources ip = some src ∧
      ∃ t ∈ src.targets, t.1 = e.request.targetId ∧ start ≤ t.2
  card_le : (namedIds h.log ip start).card ≤ FOREIGN_MAX_TARGETS

/-- While the ten minutes last, all the targets named in them are remembered. -/
theorem card_namedIds_le {h : History}
    (few : ∀ src, h.state.foreignSources ip = some src →
      src.targets.length ≤ FOREIGN_MAX_TARGETS)
    (kept : ∀ e ∈ h.log, e.passed ip → start ≤ e.time →
      ∃ src, h.state.foreignSources ip = some src ∧
        ∃ t ∈ src.targets, t.1 = e.request.targetId ∧ start ≤ t.2) :
    (namedIds h.log ip start).card ≤ FOREIGN_MAX_TARGETS := by
  cases hsrc : h.state.foreignSources ip with
  | none =>
    have hempty : namedIds h.log ip start = ∅ := by
      refine Finset.eq_empty_of_forall_notMem fun id hid => ?_
      obtain ⟨e, he, hpass, hstart, -, -⟩ := mem_namedIds.mp hid
      obtain ⟨src, hsome, -⟩ := kept e he hpass hstart
      rw [hsrc] at hsome
      cases hsome
    rw [hempty]
    exact Nat.zero_le _
  | some src =>
    have hsub : namedIds h.log ip start ⊆ (src.targets.map Prod.fst).toFinset := by
      intro id hid
      obtain ⟨e, he, hpass, hstart, -, rfl⟩ := mem_namedIds.mp hid
      obtain ⟨src', hsome, t, ht, hid, -⟩ := kept e he hpass hstart
      rw [hsrc, Option.some.injEq] at hsome
      subst hsome
      exact List.mem_toFinset.mpr (List.mem_map.mpr ⟨t, ht, hid⟩)
    calc (namedIds h.log ip start).card ≤ (src.targets.map Prod.fst).toFinset.card :=
          Finset.card_le_card hsub
      _ ≤ (src.targets.map Prod.fst).length := List.toFinset_card_le _
      _ = src.targets.length := List.length_map _
      _ ≤ FOREIGN_MAX_TARGETS := few src hsrc

theorem namedIds_cons_of_not {e : Record} {log : List Record}
    (he : ¬ (e.passed ip ∧ start ≤ e.time ∧ e.time < start + FOREIGN_TARGET_WINDOW)) :
    namedIds (e :: log) ip start = namedIds log ip start := by
  ext id
  simp only [mem_namedIds, List.mem_cons]
  grind

theorem Remembered.request (hr : Remembered ip start h) (v : View) (r : Request) :
    Remembered ip start (step h (.request v r)) := by
  have hnow : (step h (.request v r)).state.now = h.state.now := handleForeign_now v h.state r
  have hlog : (step h (.request v r)).log = recordOf h.state v r :: h.log := rfl
  have htime : (recordOf h.state v r).time = h.state.now := rfl
  have htimes : ∀ e ∈ (step h (.request v r)).log, e.time ≤ (step h (.request v r)).state.now := by
    rw [hnow, hlog]
    exact List.forall_mem_cons.mpr ⟨le_refl _, hr.time_le⟩
  obtain ⟨hkeep, hpass⟩ | ⟨hsrc, hpass⟩ := step_source h v r ip
  · have hids : namedIds (step h (.request v r)).log ip start = namedIds h.log ip start := by
      rw [hlog, namedIds_cons_of_not (by simp [hpass])]
    refine ⟨hkeep ▸ hr.few, ?_, hkeep ▸ hr.named_le, htimes, fun hlt e he hp => ?_, ?_⟩
    · rw [hkeep, hnow]
      exact hr.last_le
    · rw [hkeep]
      rw [hnow] at hlt
      obtain rfl | he := List.mem_cons.mp he
      · rw [hpass] at hp
        cases hp
      · exact hr.kept hlt e he hp
    · rw [hids]
      exact hr.card_le
  · have hfew : (sourceOf h.state ip).targets.length ≤ FOREIGN_MAX_TARGETS ∧
        ∀ t ∈ (sourceOf h.state ip).targets, t.2 ≤ h.state.now := by
      rw [sourceOf]
      cases hold : h.state.foreignSources ip with
      | none => exact ⟨Nat.zero_le _, nofun⟩
      | some src =>
        exact ⟨hr.few src hold, fun t ht => (hr.named_le src hold t ht).trans (hr.last_le src hold)⟩
    have hsome : ∀ src, (step h (.request v r)).state.foreignSources ip = some src →
        src = ((sourceOf h.state ip).check r.targetId h.state.now).2 := by
      intro src heq
      rw [hsrc] at heq
      exact (Option.some.inj heq).symm
    have hfew' : ∀ src, (step h (.request v r)).state.foreignSources ip = some src →
        src.targets.length ≤ FOREIGN_MAX_TARGETS := by
      intro src heq
      rw [hsome src heq]
      exact check_targets_length hfew.1 _ _
    have hkept : h.state.now < start + FOREIGN_TARGET_WINDOW →
        ∀ e ∈ (step h (.request v r)).log, e.passed ip → start ≤ e.time →
          ∃ src, (step h (.request v r)).state.foreignSources ip = some src ∧
            ∃ t ∈ src.targets, t.1 = e.request.targetId ∧ start ≤ t.2 := by
      intro hlt e he hp hstart
      refine ⟨_, hsrc, ?_⟩
      obtain rfl | he := List.mem_cons.mp he
      · rw [hpass, Option.isNone_iff_eq_none] at hp
        exact ⟨_, check_notes hp, rfl, hstart⟩
      · obtain ⟨src, hold, t, ht, hid, hle⟩ := hr.kept hlt e he hp hstart
        have heq : sourceOf h.state ip = src := by rw [sourceOf, hold, Option.getD_some]
        have hpast := hfew.2 t (heq ▸ ht)
        obtain ⟨t', ht', hid', hle'⟩ := check_keeps (heq ▸ ht) hpast (by omega) r.targetId
        exact ⟨t', ht', hid'.trans hid, hle.trans hle'⟩
    refine ⟨hfew', ?_, ?_, htimes, fun hlt => hkept (hnow ▸ hlt), ?_⟩
    · intro src heq
      rw [hsome src heq, ForeignSource.check_last, hnow]
    · intro src heq
      rw [hsome src heq, ForeignSource.check_last]
      exact check_targets_le hfew.2 _
    · by_cases hlt : h.state.now < start + FOREIGN_TARGET_WINDOW
      · exact card_namedIds_le hfew' (hkept hlt)
      · rw [hlog, namedIds_cons_of_not fun hin => hlt (htime ▸ hin.2.2)]
        exact hr.card_le

theorem Remembered.step (hr : Remembered ip start h) (e : Event) :
    Remembered ip start (step h e) := by
  cases e with
  | tick d =>
    exact ⟨hr.few, fun src hsrc => (hr.last_le src hsrc).trans (Nat.le_add_right _ _), hr.named_le,
      fun e he => (hr.time_le e he).trans (Nat.le_add_right _ _),
      fun hlt => hr.kept ((Nat.le_add_right _ _).trans_lt hlt), hr.card_le⟩
  | request v r => exact hr.request v r
  | sweepSource ip' =>
    have hkeep : ∀ src, (LugdunumNatt.step h (.sweepSource ip')).state.foreignSources ip =
        some src → h.state.foreignSources ip = some src := by
      intro src hsrc
      by_cases heq : ip = ip'
      · subst heq
        simp only [LugdunumNatt.step, Function.update_self, Option.filter_eq_some_iff] at hsrc
        exact hsrc.1
      · simpa [LugdunumNatt.step, Function.update_of_ne heq] using hsrc
    refine ⟨fun src hsrc => hr.few src (hkeep src hsrc),
      fun src hsrc => hr.last_le src (hkeep src hsrc),
      fun src hsrc => hr.named_le src (hkeep src hsrc), hr.time_le, ?_, hr.card_le⟩
    intro hlt e he hp hstart
    obtain ⟨src, hsrc, t, ht, hid, hle⟩ := hr.kept hlt e he hp hstart
    refine ⟨src, ?_, t, ht, hid, hle⟩
    -- a source that named a target in the ten minutes is not idle in them
    have hidle : src.idle h.state.now = false := by
      have hnamed := hr.named_le src hsrc t ht
      have hlast := hr.last_le src hsrc
      rw [ForeignSource.idle, decide_eq_false_iff_not]
      have hlt' : h.state.now < start + FOREIGN_TARGET_WINDOW := hlt
      omega
    by_cases heq : ip = ip'
    · subst heq
      simp [LugdunumNatt.step, hsrc, Option.filter, hidle]
    · simpa [LugdunumNatt.step, Function.update_of_ne heq] using hsrc
  | sweepWakes target =>
    exact ⟨hr.few, hr.last_le, hr.named_le, hr.time_le, hr.kept, hr.card_le⟩

theorem Remembered.begin (ip : Ipv4) (start now : Nat) :
    Remembered ip start (LugdunumNatt.start now) := by
  have hsrc : ∀ src, (LugdunumNatt.start now).state.foreignSources ip ≠ some src := nofun
  have hlog : ∀ e, e ∉ (LugdunumNatt.start now).log := fun _ => List.not_mem_nil
  refine ⟨fun src h => absurd h (hsrc src), fun src h => absurd h (hsrc src),
    fun src h => absurd h (hsrc src), fun e he => absurd he (hlog e),
    fun _ e he => absurd he (hlog e), ?_⟩
  simp [namedIds, LugdunumNatt.start]

/-- From one address no more targets are named in ten minutes than it may. -/
theorem namedIds_run (ip : Ipv4) (start now : Nat) (es : List Event) :
    (namedIds (es.foldl step (LugdunumNatt.start now)).log ip start).card ≤
      FOREIGN_MAX_TARGETS :=
  (List.foldlRecOn es step (Remembered.begin ip start now) fun _ hr e _ => hr.step e).card_le

/-! ### Wake-ups in a minute -/

/-- The times that the client was woken in the minute. -/
def wakeUps (log : List Record) (target : UserHash) (start : Nat) : Nat :=
  log.countP fun e => e.woke target && decide (start ≤ e.time) &&
    decide (e.time < start + FOREIGN_WAKE_WINDOW)

/-- Forgetting what is a minute old forgets nothing of a minute that lasts. -/
theorem countP_expired {wakes : List Nat} (hlt : now < start + FOREIGN_WAKE_WINDOW) :
    (wakes.dropWhile fun t => decide (FOREIGN_WAKE_WINDOW ≤ now - t)).countP
      (fun t => decide (start ≤ t)) = wakes.countP fun t => decide (start ≤ t) := by
  induction wakes with
  | nil => rfl
  | cons t wakes ih =>
    rw [List.dropWhile_cons]
    split_ifs with hold
    · have hbefore : ¬ start ≤ t := by
        have hpos : 0 < FOREIGN_WAKE_WINDOW := by decide
        rw [decide_eq_true_iff] at hold
        omega
      rw [ih, List.countP_cons_of_neg (by simpa using hbefore)]
    · rfl

theorem noteWake_length {wakes : List Nat} (hlen : wakes.length ≤ FOREIGN_WAKES_PER_MIN)
    (now : Nat) : (noteWake wakes now).2.length ≤ FOREIGN_WAKES_PER_MIN := by
  rw [noteWake]
  split_ifs with hfull
  · exact (List.dropWhile_sublist _).length_le.trans hlen
  · rw [List.length_append]
    exact Nat.lt_of_not_le hfull

theorem noteWake_countP (wakes : List Nat) (hlt : now < start + FOREIGN_WAKE_WINDOW) :
    (noteWake wakes now).2.countP (fun t => decide (start ≤ t)) =
      wakes.countP (fun t => decide (start ≤ t)) +
        if (noteWake wakes now).1 ∧ start ≤ now then 1 else 0 := by
  rw [noteWake]
  split
  · simpa using countP_expired hlt
  · simp only [List.countP_append, countP_expired hlt]
    simp [List.countP_singleton]

theorem noteWake_sorted {wakes : List Nat} (hsorted : wakes.Pairwise (· ≤ ·))
    (hle : ∀ t ∈ wakes, t ≤ now) : (noteWake wakes now).2.Pairwise (· ≤ ·) ∧
      ∀ t ∈ (noteWake wakes now).2, t ≤ now := by
  have hsub := List.dropWhile_sublist (l := wakes)
    fun t => decide (FOREIGN_WAKE_WINDOW ≤ now - t)
  rw [noteWake]
  split_ifs with hfull
  · exact ⟨hsorted.sublist hsub, fun t ht => hle t (hsub.mem ht)⟩
  · refine ⟨List.pairwise_append.mpr ⟨hsorted.sublist hsub, List.pairwise_singleton _ _, ?_⟩, ?_⟩
    · intro t ht u hu
      rw [List.mem_singleton.mp hu]
      exact hle t (hsub.mem ht)
    · intro t ht
      obtain ht | ht := List.mem_append.mp ht
      · exact hle t (hsub.mem ht)
      · exact (List.mem_singleton.mp ht).le

structure Counted (target : UserHash) (start : Nat) (h : History) : Prop where
  few : ∀ wakes, h.state.foreignWakes target = some wakes → wakes.length ≤ FOREIGN_WAKES_PER_MIN
  sorted : ∀ wakes, h.state.foreignWakes target = some wakes → wakes.Pairwise (· ≤ ·)
  wake_le : ∀ wakes, h.state.foreignWakes target = some wakes → ∀ t ∈ wakes, t ≤ h.state.now
  kept : h.state.now < start + FOREIGN_WAKE_WINDOW → wakeUps h.log target start ≤
    ((h.state.foreignWakes target).getD []).countP fun t => decide (start ≤ t)
  count_le : wakeUps h.log target start ≤ FOREIGN_WAKES_PER_MIN

theorem wakeUps_cons (e : Record) (log : List Record) (target : UserHash) (start : Nat) :
    wakeUps (e :: log) target start = wakeUps log target start +
      if e.woke target ∧ start ≤ e.time ∧ e.time < start + FOREIGN_WAKE_WINDOW then 1 else 0 := by
  simp only [wakeUps, List.countP_cons, Bool.and_eq_true, decide_eq_true_iff, and_assoc]

theorem wakesOf_facts {target : UserHash} (hc : Counted target start h) :
    ((h.state.foreignWakes target).getD []).length ≤ FOREIGN_WAKES_PER_MIN ∧
      ((h.state.foreignWakes target).getD []).Pairwise (· ≤ ·) ∧
      ∀ t ∈ (h.state.foreignWakes target).getD [], t ≤ h.state.now := by
  cases hwakes : h.state.foreignWakes target with
  | none => exact ⟨Nat.zero_le _, List.Pairwise.nil, nofun⟩
  | some wakes => exact ⟨hc.few wakes hwakes, hc.sorted wakes hwakes, hc.wake_le wakes hwakes⟩

/-- What a request does to the wake-ups of a client, and whether it is one. -/
theorem step_wakes (h : History) (v : View) (r : Request) (target : UserHash) :
    (step h (.request v r)).state.foreignWakes target = h.state.foreignWakes target ∧
        (recordOf h.state v r).woke target = false ∨
      (step h (.request v r)).state.foreignWakes target =
          some (noteWake ((h.state.foreignWakes target).getD []) h.state.now).2 ∧
        (recordOf h.state v r).woke target =
          (noteWake ((h.state.foreignWakes target).getD []) h.state.now).1 := by
  simp only [step, Record.woke, recordOf]
  obtain ⟨hkeep, hfail⟩ | ⟨found, noted, hfound, rfl, hwakes, hok⟩ :=
    handleForeign_wakes v h.state r
  · exact .inl ⟨congrFun hkeep target, by rw [hfail, Bool.and_false]⟩
  · by_cases heq : found.userHash = target
    · subst heq
      refine .inr ⟨by rw [hwakes, Function.update_self], ?_⟩
      simp only [hok, hfound, Option.any_some, BEq.rfl, Bool.true_and]
    · refine .inl ⟨by rw [hwakes, Function.update_of_ne (Ne.symm heq)], ?_⟩
      simp [hfound, heq]

theorem Counted.request {target : UserHash} (hc : Counted target start h) (v : View)
    (r : Request) : Counted target start (step h (.request v r)) := by
  have hnow : (step h (.request v r)).state.now = h.state.now := handleForeign_now v h.state r
  have hlog : (step h (.request v r)).log = recordOf h.state v r :: h.log := rfl
  have htime : (recordOf h.state v r).time = h.state.now := rfl
  obtain ⟨hkeep, hwoke⟩ | ⟨hwakes, hwoke⟩ := step_wakes h v r target
  · have hcount : wakeUps (step h (.request v r)).log target start =
        wakeUps h.log target start := by
      rw [hlog, wakeUps_cons, hwoke]
      simp
    refine ⟨hkeep ▸ hc.few, hkeep ▸ hc.sorted, ?_, ?_, ?_⟩
    · rw [hkeep, hnow]
      exact hc.wake_le
    · rw [hnow, hcount, hkeep]
      exact hc.kept
    · rw [hcount]
      exact hc.count_le
  · obtain ⟨hlen, hsorted, hle⟩ := wakesOf_facts hc
    have hnoted := noteWake_sorted hsorted hle
    have hfew := noteWake_length hlen h.state.now
    have hkept : h.state.now < start + FOREIGN_WAKE_WINDOW →
        wakeUps (step h (.request v r)).log target start ≤
          (noteWake ((h.state.foreignWakes target).getD []) h.state.now).2.countP
            fun t => decide (start ≤ t) := by
      intro hlt
      rw [hlog, wakeUps_cons, hwoke, htime, noteWake_countP _ hlt]
      simpa [hlt] using hc.kept hlt
    refine ⟨?_, ?_, ?_, ?_, ?_⟩
    · intro wakes heq
      rw [hwakes, Option.some.injEq] at heq
      exact heq ▸ hfew
    · intro wakes heq
      rw [hwakes, Option.some.injEq] at heq
      exact heq ▸ hnoted.1
    · intro wakes heq
      rw [hwakes, Option.some.injEq] at heq
      rw [hnow]
      exact heq ▸ hnoted.2
    · rw [hnow, hwakes]
      exact hkept
    · by_cases hlt : h.state.now < start + FOREIGN_WAKE_WINDOW
      · exact (hkept hlt).trans (List.countP_le_length.trans hfew)
      · rw [hlog, wakeUps_cons, htime, if_neg fun hin => hlt hin.2.2]
        exact hc.count_le

theorem countP_of_last_old {wakes : List Nat} (hsorted : wakes.Pairwise (· ≤ ·))
    (hlt : now < start + FOREIGN_WAKE_WINDOW)
    (hlast : ¬ wakes.getLast?.any fun t => decide (now - t < FOREIGN_WAKE_WINDOW)) :
    wakes.countP (fun t => decide (start ≤ t)) = 0 := by
  rw [List.countP_eq_zero]
  intro t ht
  have hne : wakes ≠ [] := List.ne_nil_of_mem ht
  have hle : t ≤ wakes.getLast hne := hsorted.rel_getLast ht
  simp only [List.getLast?_eq_getLast_of_ne_nil hne, Option.any_some, decide_eq_true_iff] at hlast
  have hpos : 0 < FOREIGN_WAKE_WINDOW := by decide
  rw [decide_eq_true_iff]
  omega

theorem Counted.step {target : UserHash} (hc : Counted target start h) (e : Event) :
    Counted target start (step h e) := by
  cases e with
  | tick d =>
    exact ⟨hc.few, hc.sorted, fun wakes hw t ht => (hc.wake_le wakes hw t ht).trans
      (Nat.le_add_right _ _), fun hlt => hc.kept ((Nat.le_add_right _ _).trans_lt hlt),
      hc.count_le⟩
  | request v r => exact hc.request v r
  | sweepSource ip => exact ⟨hc.few, hc.sorted, hc.wake_le, hc.kept, hc.count_le⟩
  | sweepWakes target' =>
    by_cases heq : target = target'
    · subst heq
      have hkeep : ∀ wakes, (LugdunumNatt.step h (.sweepWakes target)).state.foreignWakes target =
          some wakes → h.state.foreignWakes target = some wakes := by
        intro wakes hw
        simp only [LugdunumNatt.step, Function.update_self, Option.filter_eq_some_iff] at hw
        exact hw.1
      refine ⟨fun wakes hw => hc.few wakes (hkeep wakes hw),
        fun wakes hw => hc.sorted wakes (hkeep wakes hw),
        fun wakes hw => hc.wake_le wakes (hkeep wakes hw), fun hlt => ?_, hc.count_le⟩
      refine (hc.kept hlt).trans ?_
      simp only [LugdunumNatt.step, Function.update_self]
      cases hwakes : h.state.foreignWakes target with
      | none => exact le_refl _
      | some wakes =>
        by_cases hlast :
            wakes.getLast?.any fun t => decide (h.state.now - t < FOREIGN_WAKE_WINDOW)
        · simp [Option.filter, hlast]
        · have hzero := countP_of_last_old (hc.sorted wakes hwakes) hlt hlast
          simp [hzero]
    · have hkeep : (LugdunumNatt.step h (.sweepWakes target')).state.foreignWakes target =
          h.state.foreignWakes target := Function.update_of_ne heq _ _
      exact ⟨hkeep ▸ hc.few, hkeep ▸ hc.sorted, hkeep ▸ hc.wake_le, hkeep ▸ hc.kept, hc.count_le⟩

theorem Counted.begin (target : UserHash) (start now : Nat) :
    Counted target start (LugdunumNatt.start now) := by
  have hwakes : ∀ wakes, (LugdunumNatt.start now).state.foreignWakes target ≠ some wakes := nofun
  exact ⟨fun wakes h => absurd h (hwakes wakes), fun wakes h => absurd h (hwakes wakes),
    fun wakes h => absurd h (hwakes wakes), fun _ => Nat.zero_le _, Nat.zero_le _⟩

/-- A client is woken no more often in a minute than it may. -/
theorem wakeUps_run (target : UserHash) (start now : Nat) (es : List Event) :
    wakeUps (es.foldl step (LugdunumNatt.start now)).log target start ≤ FOREIGN_WAKES_PER_MIN :=
  (List.foldlRecOn es step (Counted.begin target start now) fun _ hc e _ => hc.step e).count_le

/-- From one address at most ten requests and one a second more pass the source check in any time
of whole seconds, and those of any ten minutes name at most sixty targets; a client is woken at
most six times in any minute; and a request that is refused sends nothing and leaves no one to
wait. -/
theorem foreign_limits (now : Nat) (es : List Event) :
    let log := (es.foldl step (LugdunumNatt.start now)).log
    (∀ ip start seconds, passes log ip start (start + seconds * second) ≤ 10 + seconds) ∧
      (∀ ip start, (namedIds log ip start).card ≤ FOREIGN_MAX_TARGETS) ∧
      (∀ target start, wakeUps log target start ≤ FOREIGN_WAKES_PER_MIN) ∧
      ∀ s v r e, (handleForeign v s r).1 = .error e →
        (handleNatCallback v s r).1 = [] ∧ (handleNatCallback v s r).2.1 = none ∧
          (handleNatCallback v s r).2.2.keepaliveWaiters = s.keepaliveWaiters := by
  refine ⟨fun ip start seconds => ?_, fun ip start => namedIds_run ip start now es,
    fun target start => wakeUps_run target start now es, fun s v r e he => ?_⟩
  · have hpasses := passes_run ip start (start + seconds * second) now es
    have htime : (start + seconds * second - start + 999) / 1000 = seconds * 1000000 := by
      rw [second]
      omega
    rw [htime, ← Nat.add_mul] at hpasses
    exact Nat.le_of_mul_le_mul_right hpasses (by decide)
  · rw [handleNatCallback_error he]
    exact ⟨rfl, rfl, handleForeign_waiters he⟩

end Ed2kServer.Server.ForeignLimits
