import Ed2kServer.Filter.Check
import Ed2kServer.Lib.Transition

namespace Ed2kServer.Filter.VerdictCache

open Ed2kServer.Lib.SlotReads Ed2kServer.Lib.Transition Ed2kServer.Text.Chars
open Ed2kServer.Slab.Record Ed2kServer.Filter.Check

/-- Most verdicts kept. -/
def VERDICT_CACHE_MAX : Nat := 131072

/-- The lists with the verdicts cached for the served files; names are compared by their keyed
hashes. -/
structure ContentFilter (NameKey : Type) where
  lists : Lists
  generation : UInt64
  verdicts : FileHash → Option (UInt64 × NameKey × Bool)
  verdictCount : Nat

/-- Which of its three steps a publish has done. -/
inductive PublishPhase
  | stored
  | bumped
  | cleared
  deriving DecidableEq

inductive CallPhase
  | looking (generation : UInt64)
  | checking (generation : UInt64) (rest : Reading Slot.Value FilterResult)
  | returned (withheld : Bool)

/-- A call of `is_withheld`. -/
structure Call where
  fileHash : FileHash
  filename : Str
  phase : CallPhase

structure World (NameKey : Type) where
  filter : ContentFilter NameKey
  publishes : Nat → Option PublishPhase
  calls : Nat → Option Call

inductive Event
  | store (publish : Nat) (slot : Slot) (value : slot.Value)
  | bump (publish : Nat)
  | clear (publish : Nat)
  | readGeneration (call : Nat) (fileHash : FileHash) (filename : Str)
  | lookUp (call : Nat)
  | load (call : Nat)
  | insert (call : Nat)

variable {NameKey : Type}

namespace ContentFilter

def store (f : ContentFilter NameKey) (slot : Slot) (value : slot.Value) :
    ContentFilter NameKey :=
  { f with lists := Function.update f.lists slot value }

def clear (f : ContentFilter NameKey) : ContentFilter NameKey :=
  { f with verdicts := fun _ => none, verdictCount := 0 }

/-- The cached verdict, if it is of this generation and this name. -/
def lookUp [DecidableEq NameKey] (f : ContentFilter NameKey) (fileHash : FileHash)
    (generation : UInt64) (key : NameKey) : Option Bool :=
  match f.verdicts fileHash with
  | some (g, n, withheld) => if g = generation ∧ n = key then some withheld else none
  | none => none

def insert (f : ContentFilter NameKey) (fileHash : FileHash) (generation : UInt64)
    (key : NameKey) (withheld : Bool) : ContentFilter NameKey :=
  let room := if VERDICT_CACHE_MAX ≤ f.verdictCount then f.clear else f
  { room with
    verdicts := Function.update room.verdicts fileHash (some (generation, key, withheld))
    verdictCount :=
      if (room.verdicts fileHash).isNone then room.verdictCount + 1 else room.verdictCount }

end ContentFilter

/-- `is_withheld` asks only whether the check allows the file. -/
def withheld (result : FilterResult) : Bool := result != .allow

def World.setCall (w : World NameKey) (call : Nat) (c : Call) : World NameKey :=
  { w with calls := Function.update w.calls call (some c) }

def World.setPublish (w : World NameKey) (publish : Nat) (p : PublishPhase) : World NameKey :=
  { w with publishes := Function.update w.publishes publish (some p) }

variable [DecidableEq NameKey] (hashOne : Str → NameKey) (M : Matchers) (U : Unicode)

/-- One step of one of the threads. -/
def step (w : World NameKey) : Event → Option (World NameKey)
  | .store p slot value =>
    if w.publishes p = none then
      some { w.setPublish p .stored with filter := w.filter.store slot value }
    else none
  | .bump p =>
    if w.publishes p = some .stored then
      some { w.setPublish p .bumped with
        filter := { w.filter with generation := w.filter.generation + 1 } }
    else none
  | .clear p =>
    if w.publishes p = some .bumped then
      some { w.setPublish p .cleared with filter := w.filter.clear }
    else none
  | .readGeneration c fileHash filename =>
    if (w.calls c).isNone then
      some (w.setCall c ⟨fileHash, filename, .looking w.filter.generation⟩)
    else none
  | .lookUp c =>
    match w.calls c with
    | some ⟨fileHash, filename, .looking g⟩ =>
      match w.filter.lookUp fileHash g (hashOne filename) with
      | some verdict => some (w.setCall c ⟨fileHash, filename, .returned verdict⟩)
      | none =>
        some (w.setCall c ⟨fileHash, filename, .checking g (checkInner M U fileHash filename true)⟩)
    | _ => none
  | .load c =>
    match w.calls c with
    | some ⟨fileHash, filename, .checking g (.load slot next)⟩ =>
      some (w.setCall c ⟨fileHash, filename, .checking g (next (w.filter.lists slot))⟩)
    | _ => none
  | .insert c =>
    match w.calls c with
    | some ⟨fileHash, filename, .checking g (.done result)⟩ =>
      some { w.setCall c ⟨fileHash, filename, .returned (withheld result)⟩ with
        filter := w.filter.insert fileHash g (hashOne filename) (withheld result) }
    | _ => none

/-- No publish and no call has begun, and nothing is cached. -/
def start (lists : Lists) (generation : UInt64) : World NameKey :=
  ⟨⟨lists, generation, fun _ => none, 0⟩, fun _ => none, fun _ => none⟩

def Event.isBump : Event → Bool
  | .bump _ => true
  | _ => false

def bumps (es : List Event) : Nat := es.countP Event.isBump

/-- The publish has moved the generation. -/
def World.published (w : World NameKey) (publish : Nat) : Prop :=
  w.publishes publish = some .bumped ∨ w.publishes publish = some .cleared

variable {hashOne M U} {w t : World NameKey} {e : Event}

theorem step_generation (h : step hashOne M U w e = some t) :
    t.filter.generation = w.filter.generation + if e.isBump then 1 else 0 := by
  cases e <;> simp only [step] at h
  case insert =>
    split at h
    · obtain rfl := Option.some.inj h
      simp only [ContentFilter.insert, Event.isBump]
      split <;> simp [ContentFilter.clear]
    · cases h
  all_goals
    split at h
    all_goals first
      | (obtain rfl := Option.some.inj h
         simp [Event.isBump, World.setCall, ContentFilter.store, ContentFilter.clear])
      | (split at h <;> (obtain rfl := Option.some.inj h; simp [Event.isBump, World.setCall]))
      | cases h

/-- A cached verdict was there, or is the one a call has just computed. -/
theorem step_verdicts (h : step hashOne M U w e = some t) {fileHash : FileHash}
    {entry : UInt64 × NameKey × Bool} (he : t.filter.verdicts fileHash = some entry) :
    w.filter.verdicts fileHash = some entry ∨ ∃ c filename g result, e = .insert c ∧
      w.calls c = some ⟨fileHash, filename, .checking g (.done result)⟩ ∧
      entry = (g, hashOne filename, withheld result) := by
  cases e <;> simp only [step] at h
  case insert c =>
    split at h
    · rename_i fileHash' filename g result hc
      obtain rfl := Option.some.inj h
      simp only [ContentFilter.insert, Function.update_apply] at he
      split at he
      · rename_i heq
        subst heq
        exact .inr ⟨c, filename, g, result, rfl, hc, (Option.some.inj he).symm⟩
      · split at he
        · cases he
        · exact .inl he
    · cases h
  case clear =>
    split at h
    · obtain rfl := Option.some.inj h
      cases he
    · cases h
  all_goals
    left
    split at h
    all_goals first
      | (obtain rfl := Option.some.inj h; exact he)
      | (split at h <;> (obtain rfl := Option.some.inj h; exact he))
      | cases h

/-- A call was there unchanged, has begun, or has taken its next step. -/
theorem step_calls (h : step hashOne M U w e = some t) {c : Nat} {call : Call}
    (hc : t.calls c = some call) :
    w.calls c = some call ∨
    (e = .readGeneration c call.fileHash call.filename ∧ w.calls c = none ∧
      call.phase = .looking w.filter.generation) ∨
    ∃ phase, w.calls c = some ⟨call.fileHash, call.filename, phase⟩ ∧
      ((∃ g verdict, phase = .looking g ∧ call.phase = .returned verdict ∧
        w.filter.lookUp call.fileHash g (hashOne call.filename) = some verdict) ∨
      (∃ g, phase = .looking g ∧
        call.phase = .checking g (checkInner M U call.fileHash call.filename true)) ∨
      (∃ g slot next, phase = .checking g (.load slot next) ∧
        call.phase = .checking g (next (w.filter.lists slot))) ∨
      ∃ g result, phase = .checking g (.done result) ∧
        call.phase = .returned (withheld result)) := by
  have hset : ∀ {d new}, (w.setCall d new).calls c = some call →
      w.calls c = some call ∨ d = c ∧ new = call := by
    intro d new hd
    by_cases hdc : c = d
    · subst hdc
      simp only [World.setCall, Function.update_self] at hd
      exact .inr ⟨rfl, Option.some.inj hd⟩
    · simp only [World.setCall, Function.update_of_ne hdc] at hd
      exact .inl hd
  cases e <;> simp only [step] at h
  case readGeneration d fileHash filename =>
    split at h
    · rename_i hnone
      obtain rfl := Option.some.inj h
      obtain hold | ⟨rfl, rfl⟩ := hset hc
      · exact .inl hold
      · exact .inr (.inl ⟨rfl, Option.isNone_iff_eq_none.mp hnone, rfl⟩)
    · cases h
  case lookUp d =>
    split at h
    · rename_i fileHash filename g hd
      split at h
      · rename_i verdict hverdict
        obtain rfl := Option.some.inj h
        obtain hold | ⟨rfl, rfl⟩ := hset hc
        · exact .inl hold
        · exact .inr (.inr ⟨_, hd, .inl ⟨g, verdict, rfl, rfl, hverdict⟩⟩)
      · obtain rfl := Option.some.inj h
        obtain hold | ⟨rfl, rfl⟩ := hset hc
        · exact .inl hold
        · exact .inr (.inr ⟨_, hd, .inr (.inl ⟨g, rfl, rfl⟩)⟩)
    · cases h
  case load d =>
    split at h
    · rename_i fileHash filename g slot next hd
      obtain rfl := Option.some.inj h
      obtain hold | ⟨rfl, rfl⟩ := hset hc
      · exact .inl hold
      · exact .inr (.inr ⟨_, hd, .inr (.inr (.inl ⟨g, slot, next, rfl, rfl⟩))⟩)
    · cases h
  case insert d =>
    split at h
    · rename_i fileHash filename g result hd
      obtain rfl := Option.some.inj h
      obtain hold | ⟨rfl, rfl⟩ := hset hc
      · exact .inl hold
      · exact .inr (.inr ⟨_, hd, .inr (.inr (.inr ⟨g, result, rfl, rfl⟩))⟩)
    · cases h
  all_goals
    split at h
    · obtain rfl := Option.some.inj h
      exact .inl hc
    · cases h

theorem lookUp_eq_some {f : ContentFilter NameKey} {fileHash : FileHash} {g : UInt64}
    {key : NameKey} {verdict : Bool} (h : f.lookUp fileHash g key = some verdict) :
    f.verdicts fileHash = some (g, key, verdict) := by
  rw [ContentFilter.lookUp] at h
  split at h
  · rename_i g' n v hv
    split at h
    · rename_i heq
      rw [hv, heq.1, heq.2, Option.some.inj h]
    · cases h
  · cases h

variable (hashOne M U) in
/-- The list was current at some moment after the run `a` and up to the run `b`. -/
def Current (w₀ : World NameKey) (a b : List Event) (slot : Slot) (value : slot.Value) : Prop :=
  ∃ m t, a <+: m ∧ m <+: b ∧ exec (step hashOne M U) w₀ m = some t ∧ t.filter.lists slot = value

variable (hashOne M U) in
/-- The verdict of the check under lists that were each current between the runs. -/
def Verdict (w₀ : World NameKey) (a b : List Event) (fileHash : FileHash) (filename : Str)
    (verdict : Bool) : Prop :=
  ∃ lists : Lists, (∀ slot, Current hashOne M U w₀ a b slot (lists slot)) ∧
    verdict = withheld (check M U lists fileHash filename)

variable (hashOne M U) in
def PhaseOk (w₀ : World NameKey) (pre es : List Event) (call : Call) : Prop :=
  match call.phase with
  | .looking g => g = w₀.filter.generation + UInt64.ofNat (bumps pre)
  | .checking g rest => g = w₀.filter.generation + UInt64.ofNat (bumps pre) ∧
      Loaded (Current hashOne M U w₀ pre es) (checkInner M U call.fileHash call.filename true) rest
  | .returned verdict => ∃ a b, a <+: b ∧ b <+: es ∧ bumps a = bumps pre ∧
      Verdict hashOne M U w₀ a b call.fileHash call.filename verdict

variable (hashOne M U) in
/-- What holds after the run `es`. -/
structure Inv (w₀ : World NameKey) (es : List Event) (w : World NameKey) : Prop where
  generation : w.filter.generation = w₀.filter.generation + UInt64.ofNat (bumps es)
  cached : ∀ {fileHash g key verdict}, w.filter.verdicts fileHash = some (g, key, verdict) →
    ∃ a b filename, a <+: b ∧ b <+: es ∧
      g = w₀.filter.generation + UInt64.ofNat (bumps a) ∧ key = hashOne filename ∧
      Verdict hashOne M U w₀ a b fileHash filename verdict
  calls : ∀ {c call}, w.calls c = some call → ∃ pre post,
    es = pre ++ .readGeneration c call.fileHash call.filename :: post ∧
      PhaseOk hashOne M U w₀ pre es call

variable {w₀ : World NameKey} {a b es fs : List Event}

theorem bumps_le (h : a <+: b) : bumps a ≤ bumps b := h.sublist.countP_le

theorem bumps_concat (es : List Event) (e : Event) :
    bumps (es ++ [e]) = bumps es + if e.isBump then 1 else 0 := by
  simp [bumps, List.countP_append, List.countP_singleton]

theorem Current.mono {slot : Slot} {value : slot.Value}
    (h : Current hashOne M U w₀ a b slot value) (hb : b <+: es) :
    Current hashOne M U w₀ a es slot value := by
  obtain ⟨m, t, ham, hmb, hrun, ht⟩ := h
  exact ⟨m, t, ham, hmb.trans hb, hrun, ht⟩

theorem current_end (ha : a <+: es) (hrun : exec (step hashOne M U) w₀ es = some w) (slot : Slot) :
    Current hashOne M U w₀ a es slot (w.filter.lists slot) :=
  ⟨es, w, ha, List.prefix_rfl, hrun, rfl⟩

/-- A check done gives the verdict of lists that were current since the generation was read. -/
theorem verdict_of_loaded (ha : a <+: es) (hrun : exec (step hashOne M U) w₀ es = some w)
    {fileHash : FileHash} {filename : Str} {result : FilterResult}
    (h : Loaded (Current hashOne M U w₀ a es) (checkInner M U fileHash filename true)
      (.done result)) :
    Verdict hashOne M U w₀ a es fileHash filename (withheld result) := by
  obtain ⟨lists, hlists, hrun⟩ :=
    checkInner_loaded (fun slot => ⟨_, current_end ha hrun slot⟩) h
  exact ⟨lists, hlists, by rw [check, hrun]⟩

theorem PhaseOk.mono {call : Call} (h : PhaseOk hashOne M U w₀ a es call) (hes : es <+: fs) :
    PhaseOk hashOne M U w₀ a fs call := by
  obtain ⟨fileHash, filename, phase⟩ := call
  cases phase with
  | looking g => exact h
  | checking g rest => exact ⟨h.1, h.2.mono fun slot v hv => hv.mono hes⟩
  | returned verdict =>
    obtain ⟨b, c, hbc, hc, hbumps, hv⟩ := h
    exact ⟨b, c, hbc, hc.trans hes, hbumps, hv⟩

theorem ofNat_bumps_inj {g : UInt64} {m n : Nat} (hm : m < 2 ^ 64) (hn : n < 2 ^ 64)
    (h : g + UInt64.ofNat m = g + UInt64.ofNat n) : m = n := by
  have h := congrArg UInt64.toNat (add_left_cancel h)
  rwa [UInt64.toNat_ofNat_of_lt' hm, UInt64.toNat_ofNat_of_lt' hn] at h

theorem inv_start (lists : Lists) (g : UInt64) :
    Inv hashOne M U (start lists g) [] (start lists g) where
  generation := by simp [bumps]
  cached h := by cases h
  calls h := by cases h

theorem inv_step (hinj : Function.Injective hashOne) (hi : Inv hashOne M U w₀ es w)
    (hrun : exec (step hashOne M U) w₀ es = some w) (h : step hashOne M U w e = some t)
    (hbumps : bumps es < 2 ^ 64) : Inv hashOne M U w₀ (es ++ [e]) t where
  generation := by
    rw [step_generation h, hi.generation, bumps_concat]
    split <;> simp [add_assoc]
  cached hc := by
    have hes : es <+: es ++ [e] := List.prefix_append es [e]
    obtain hold | ⟨c, filename, g, result, -, hcall, hentry⟩ := step_verdicts h hc
    · obtain ⟨a, b, filename, hab, hb, hg, hkey, hv⟩ := hi.cached hold
      exact ⟨a, b, filename, hab, hb.trans hes, hg, hkey, hv⟩
    · cases hentry
      obtain ⟨pre, post, hsplit, hg, hloaded⟩ := hi.calls hcall
      have hpre : pre <+: es := ⟨_, hsplit.symm⟩
      exact ⟨pre, es, filename, hpre, hes, hg, rfl, verdict_of_loaded hpre hrun hloaded⟩
  calls := by
    intro c call hc
    have hes : es <+: es ++ [e] := List.prefix_append es [e]
    obtain hold | ⟨rfl, -, hphase⟩ | ⟨phase, hold, hstep⟩ := step_calls h hc
    · obtain ⟨pre, post, hsplit, hok⟩ := hi.calls hold
      exact ⟨pre, post ++ [e], by rw [hsplit]; simp, hok.mono hes⟩
    · refine ⟨es, [], rfl, ?_⟩
      rw [PhaseOk, hphase]
      exact hi.generation
    · obtain ⟨pre, post, hsplit, hok⟩ := hi.calls hold
      have hpre : pre <+: es := ⟨_, hsplit.symm⟩
      refine ⟨pre, post ++ [e], by rw [hsplit]; simp, ?_⟩
      obtain ⟨g, verdict, rfl, hphase, hlook⟩ | ⟨g, rfl, hphase⟩ |
        ⟨g, slot, next, rfl, hphase⟩ | ⟨g, result, rfl, hphase⟩ := hstep
      · obtain ⟨a, b, filename, hab, hb, hg, hkey, hv⟩ := hi.cached (lookUp_eq_some hlook)
        rw [← hinj hkey] at hv
        have hsame : bumps a = bumps pre :=
          ofNat_bumps_inj ((bumps_le (hab.trans hb)).trans_lt hbumps)
            ((bumps_le hpre).trans_lt hbumps) (hg.symm.trans hok)
        rw [PhaseOk, hphase]
        exact ⟨a, b, hab, hb.trans hes, hsame, hv⟩
      · rw [PhaseOk, hphase]
        exact ⟨hok, .refl _⟩
      · rw [PhaseOk, hphase]
        refine ⟨hok.1, .load (hok.2.mono fun slot v hv => hv.mono hes) ?_⟩
        exact (current_end hpre hrun slot).mono hes
      · rw [PhaseOk, hphase]
        exact ⟨pre, es, hpre, hes, rfl, verdict_of_loaded hpre hrun hok.2⟩

theorem inv_run (hinj : Function.Injective hashOne) {lists : Lists} {g : UInt64}
    (hrun : exec (step hashOne M U) (start lists g) es = some w) (hbumps : bumps es < 2 ^ 64) :
    Inv hashOne M U (start lists g) es w := by
  induction es using List.reverseRecOn generalizing w with
  | nil =>
    cases hrun
    exact inv_start lists g
  | append_singleton es e ih =>
    obtain ⟨v, hv, hstep⟩ := exec_concat_eq_some.mp hrun
    have hlt : bumps es < 2 ^ 64 := by
      rw [bumps_concat] at hbumps
      omega
    exact inv_step hinj (ih hv hlt) hv hstep hlt

/-- Matchers that find nothing, as on a name that no list knows. -/
def quiet : Matchers := ⟨fun _ _ => none, fun _ _ => none, fun _ _ _ => none⟩

/-- What a call that is over was about and what it returned. -/
def answer (w : World Str) (c : Nat) : Option (FileHash × Str × Bool) :=
  match w.calls c with
  | some ⟨fileHash, filename, .returned verdict⟩ => some (fileHash, filename, verdict)
  | _ => none

end Ed2kServer.Filter.VerdictCache
