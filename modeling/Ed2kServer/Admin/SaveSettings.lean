import Ed2kServer.Admin.ConfigCheck
import Ed2kServer.Lib.Transition

namespace Ed2kServer.Admin.SaveSettings

open Ed2kServer.Admin.ConfigCheck Ed2kServer.Lib.Transition

variable {Rest : Type}

/-- What the requests meet. -/
structure Setup (Rest : Type) where
  configPath : Str
  /-- `toml::from_str`. -/
  parse : Str → Option (Config Rest)
  /-- What each request sends. -/
  content : Nat → Str
  /-- The bytes of the config file as it was, and of a temp file that was left behind. -/
  original : List UInt8
  stale : List UInt8

inductive Answer
  | pathNotSet
  | parseError
  | invalid (e : ConfigError)
  | writeFailed
  | renameFailed
  | saved (restartNeeded : List String)
  deriving DecidableEq

def Answer.ok : Answer → Bool
  | .saved _ => true
  | _ => false

/-- The next step of a request that was accepted. -/
inductive SaveStep
  | remove
  | create
  | write
  | copyPermissions
  | sync
  | rename
  | store
  deriving DecidableEq

inductive Phase (Rest : Type)
  | arriving
  | saving (next : SaveStep) (newCfg : Config Rest) (restartNeeded : List String)
  | answered (a : Answer)
  deriving DecidableEq

/-- A file, by who made it. -/
inductive File
  | original
  | stale
  | madeBy (r : Nat)
  deriving DecidableEq

structure State (Rest : Type) where
  phase : Nat → Phase Rest
  /-- The bytes a request has written to the file it made. -/
  written : Nat → Nat
  config : File
  tmp : Option File
  live : Config Rest
  /-- The request that stored `live`. -/
  storedBy : Option Nat

def init (live : Config Rest) (tmp : Option File) : State Rest where
  phase := fun _ => .arriving
  written := fun _ => 0
  config := .original
  tmp := tmp
  live := live
  storedBy := none

namespace State

def goto (s : State Rest) (r : Nat) (p : Phase Rest) : State Rest :=
  { s with phase := Function.update s.phase r p }

/-- A step that the request is about to take. -/
def take (s : State Rest) (r : Nat) (next : SaveStep)
    (go : Config Rest → List String → Option (State Rest)) : Option (State Rest) :=
  match s.phase r with
  | .saving at_ newCfg restart => if at_ = next then go newCfg restart else none
  | _ => none

end State

/-- Steps on files can fail. -/
inductive Action
  | check (r : Nat)
  | remove (r : Nat) (ok : Bool)
  | create (r : Nat) (ok : Bool)
  | write (r n : Nat)
  | writeFails (r : Nat)
  | copyPermissions (r : Nat) (ok : Bool)
  | sync (r : Nat) (ok : Bool)
  | rename (r : Nat) (ok : Bool)
  | store (r : Nat)
  deriving DecidableEq

variable (S : Setup Rest)

/-- Parse and validate, and load the settings in force. -/
def checked (live : Config Rest) (r : Nat) : Phase Rest :=
  if S.configPath = [] then .answered .pathNotSet
  else
    match S.parse (S.content r) with
    | none => .answered .parseError
    | some newCfg =>
      match newCfg.validate with
      | .error e => .answered (.invalid e)
      | .ok _ => .saving .remove newCfg (live.restartNeeded newCfg)

def size (r : Nat) : Nat := (utf8 (S.content r)).length

def step (s : State Rest) : Action → Option (State Rest)
  | .check r =>
    match s.phase r with
    | .arriving => some (s.goto r (checked S s.live r))
    | _ => none
  | .remove r ok =>
    s.take r .remove fun newCfg restart =>
      some { s.goto r (.saving .create newCfg restart) with tmp := if ok then none else s.tmp }
  | .create r ok =>
    s.take r .create fun newCfg restart =>
      if !ok then some (s.goto r (.answered .writeFailed))
      else if s.tmp = none then
        some { s.goto r (.saving .write newCfg restart) with tmp := some (.madeBy r) }
      else none
  | .write r n =>
    s.take r .write fun newCfg restart =>
      if s.written r + n ≤ size S r then
        let next := if s.written r + n = size S r then .copyPermissions else .write
        some { s.goto r (.saving next newCfg restart) with
          written := Function.update s.written r (s.written r + n) }
      else none
  | .writeFails r => s.take r .write fun _ _ => some (s.goto r (.answered .writeFailed))
  | .copyPermissions r ok =>
    s.take r .copyPermissions fun newCfg restart =>
      some (s.goto r (if ok then .saving .sync newCfg restart else .answered .writeFailed))
  | .sync r ok =>
    s.take r .sync fun newCfg restart =>
      some (s.goto r (if ok then .saving .rename newCfg restart else .answered .writeFailed))
  | .rename r ok =>
    s.take r .rename fun newCfg restart =>
      if !ok then some (s.goto r (.answered .renameFailed))
      else
        match s.tmp with
        | some file =>
          some { s.goto r (.saving .store newCfg restart) with config := file, tmp := none }
        | none => none
  | .store r =>
    s.take r .store fun newCfg restart =>
      some { s.goto r (.answered (.saved restart)) with live := newCfg, storedBy := some r }

/-- What the config file holds. -/
def fileBytes (s : State Rest) : List UInt8 :=
  match s.config with
  | .original => S.original
  | .stale => S.stale
  | .madeBy r => (utf8 (S.content r)).take (s.written r)

/-- The request parsed and validated. -/
def Accepted (r : Nat) (newCfg : Config Rest) : Prop :=
  S.parse (S.content r) = some newCfg ∧ newCfg.validate = .ok ()

def Quiet (s : State Rest) : Prop :=
  ∀ r, s.phase r = .arriving ∨ ∃ a, s.phase r = .answered a

structure AllOrNothing (s : State Rest) : Prop where
  complete : fileBytes S s = S.original ∨
    ∃ r newCfg, Accepted S r newCfg ∧ fileBytes S s = utf8 (S.content r)
  refused : ∀ r a, s.phase r = .answered a → a.ok = false →
    s.config ≠ .madeBy r ∧ s.storedBy ≠ some r
  inForce : Quiet s → (∃ r a, s.phase r = .answered a ∧ a.ok = true) →
    ∃ r, fileBytes S s = utf8 (S.content r) ∧ S.parse (S.content r) = some s.live

/-- The request has renamed its file and not stored its settings. -/
def Phase.storing : Phase Rest → Bool
  | .saving .store _ _ => true
  | _ => false

/-- A request renames no file but its own, and stores its settings before the request whose file
stands there stores its own. -/
def apart (s : State Rest) : Action → Bool
  | .rename r true => s.tmp.all (· == .madeBy r)
  | .store r =>
    match s.config with
    | .madeBy q => q == r || (s.phase q).storing
    | _ => true
  | _ => true

/-- The request has renamed its file. -/
def Phase.renamed : Phase Rest → Bool
  | .saving .store _ _ => true
  | .answered (.saved _) => true
  | _ => false

structure Inv (s : State Rest) : Prop where
  accepted : ∀ r next newCfg restart, s.phase r = .saving next newCfg restart →
    Accepted S r newCfg
  whole : ∀ r next newCfg restart, s.phase r = .saving next newCfg restart →
    next ∈ [SaveStep.copyPermissions, .sync, .rename] → s.written r = size S r
  config_ne_stale : s.config ≠ .stale
  owner : ∀ q, s.config = .madeBy q → s.written q = size S q ∧ (s.phase q).renamed = true ∧
    ∃ newCfg, Accepted S q newCfg ∧
      (∀ a, s.phase q = .answered a → s.live = newCfg)
  stored : ∀ r, s.storedBy = some r → ∃ restart, s.phase r = .answered (.saved restart)
  renamed : ∀ r, (s.phase r).renamed = true → s.config ≠ .original

variable {S} {s t : State Rest} {q r : Nat} {p : Phase Rest}

theorem State.goto_self : (s.goto r p).phase r = p := Function.update_self _ _ _

theorem State.goto_of_ne (h : q ≠ r) : (s.goto r p).phase q = s.phase q :=
  Function.update_of_ne h _ _

theorem State.take_eq_some {next : SaveStep}
    {go : Config Rest → List String → Option (State Rest)} :
    s.take r next go = some t ↔
      ∃ newCfg restart, s.phase r = .saving next newCfg restart ∧ go newCfg restart = some t := by
  rw [State.take]
  cases s.phase r with
  | arriving => simp
  | answered a => simp
  | saving at_ newCfg restart =>
    by_cases h : at_ = next
    · simp [h]
    · simp [h]

/-- A step that neither renames nor stores. -/
theorem Inv.keep (h : Inv S s) (hold : (s.phase r).renamed = false)
    (hnew : p.renamed = false) (hphase : t.phase = Function.update s.phase r p)
    (hconfig : t.config = s.config) (hlive : t.live = s.live) (hstored : t.storedBy = s.storedBy)
    (hwritten : ∀ q, q ≠ r → t.written q = s.written q)
    (haccepted : ∀ next newCfg restart, p = .saving next newCfg restart → Accepted S r newCfg)
    (hwhole : ∀ next newCfg restart, p = .saving next newCfg restart →
      next ∈ [SaveStep.copyPermissions, .sync, .rename] → t.written r = size S r) : Inv S t := by
  have hsame : ∀ q, q ≠ r → t.phase q = s.phase q := by
    intro q hq
    rw [hphase, Function.update_of_ne hq]
  have hat : t.phase r = p := by rw [hphase, Function.update_self]
  have hother : ∀ q, (s.phase q).renamed = true → q ≠ r := by
    rintro q hq rfl
    rw [hold] at hq
    cases hq
  refine ⟨?_, ?_, ?_, ?_, ?_, ?_⟩
  · intro q next newCfg restart hq
    by_cases hr : q = r
    · rw [hr] at hq ⊢
      exact haccepted _ _ _ (hat ▸ hq)
    · exact h.accepted q _ _ _ (hsame q hr ▸ hq)
  · intro q next newCfg restart hq hnext
    by_cases hr : q = r
    · rw [hr] at hq ⊢
      exact hwhole _ _ _ (hat ▸ hq) hnext
    · rw [hwritten q hr]
      exact h.whole q _ _ _ (hsame q hr ▸ hq) hnext
  · rw [hconfig]
    exact h.config_ne_stale
  · intro q hq
    obtain ⟨hlen, hren, newCfg, hacc, hforce⟩ := h.owner q (hconfig ▸ hq)
    have hr := hother q hren
    rw [hwritten q hr, hsame q hr, hlive]
    exact ⟨hlen, hren, newCfg, hacc, hforce⟩
  · intro q hq
    obtain ⟨restart, hsaved⟩ := h.stored q (hstored ▸ hq)
    exact ⟨restart, by rw [hsame q (hother q (by rw [hsaved]; rfl)), hsaved]⟩
  · intro q hq
    rw [hconfig]
    by_cases hr : q = r
    · rw [hr, hat, hnew] at hq
      cases hq
    · exact h.renamed q (hsame q hr ▸ hq)

theorem checked_spec (live : Config Rest) (r : Nat) : (checked S live r).renamed = false ∧
    ∀ next newCfg restart, checked S live r = .saving next newCfg restart →
      next = .remove ∧ Accepted S r newCfg := by
  rw [checked]
  split_ifs
  · exact ⟨rfl, fun _ _ _ h => by cases h⟩
  · split
    · exact ⟨rfl, fun _ _ _ h => by cases h⟩
    · rename_i newCfg hparse
      split
      · exact ⟨rfl, fun _ _ _ h => by cases h⟩
      · rename_i hvalid
        refine ⟨rfl, fun _ _ _ h => ?_⟩
        cases h
        exact ⟨rfl, hparse, hvalid⟩

/-- A step of a request that was accepted, to one before the rename or to a refusal. -/
theorem Inv.advance {at_ : SaveStep} {newCfg : Config Rest}
    {restart : List String} (h : Inv S s) (hphase : s.phase r = .saving at_ newCfg restart)
    (hat : at_ ≠ .store) (hp : (∃ a, p = .answered a ∧ a.ok = false) ∨
      ∃ next, p = .saving next newCfg restart ∧ next ≠ .store ∧
        (next ∈ [SaveStep.copyPermissions, .sync, .rename] → t.written r = size S r))
    (hgoto : t.phase = Function.update s.phase r p) (hconfig : t.config = s.config)
    (hlive : t.live = s.live) (hstored : t.storedBy = s.storedBy)
    (hwritten : ∀ q, q ≠ r → t.written q = s.written q) : Inv S t := by
  have hold : (s.phase r).renamed = false := by
    rw [hphase]
    cases at_ with
    | store => exact absurd rfl hat
    | _ => rfl
  obtain ⟨a, rfl, ha⟩ | ⟨next, rfl, hnext, hwhole⟩ := hp
  · refine h.keep hold ?_ hgoto hconfig hlive hstored hwritten (fun _ _ _ h => by cases h)
      (fun _ _ _ h => by cases h)
    cases a with
    | saved restart => cases ha
    | _ => rfl
  · refine h.keep hold ?_ hgoto hconfig hlive hstored hwritten ?_ ?_
    · cases next with
      | store => exact absurd rfl hnext
      | _ => rfl
    · intro next' newCfg' restart' heq
      cases heq
      exact h.accepted r _ _ _ hphase
    · intro next' newCfg' restart' heq hmem
      cases heq
      exact hwhole hmem

theorem Inv.rename {newCfg : Config Rest} {restart : List String} (h : Inv S s)
    (hphase : s.phase r = .saving .rename newCfg restart) :
    Inv S { s.goto r (.saving .store newCfg restart) with config := .madeBy r, tmp := none } := by
  have hsize : s.written r = size S r := h.whole r _ _ _ hphase (by decide)
  refine ⟨?_, ?_, by simp, ?_, ?_, by simp⟩
  · intro q next newCfg' restart' hq
    by_cases hr : q = r
    · subst hr
      cases State.goto_self.symm.trans hq
      exact h.accepted _ _ _ _ hphase
    · exact h.accepted q _ _ _ ((State.goto_of_ne hr).symm.trans hq)
  · intro q next newCfg' restart' hq hnext
    by_cases hr : q = r
    · rw [hr]
      exact hsize
    · exact h.whole q _ _ _ ((State.goto_of_ne hr).symm.trans hq) hnext
  · intro q hq
    obtain rfl := File.madeBy.inj hq
    refine ⟨hsize, congrArg Phase.renamed State.goto_self, newCfg, h.accepted r _ _ _ hphase,
      fun a ha => ?_⟩
    cases State.goto_self.symm.trans ha
  · intro q hq
    obtain ⟨restart', hsaved⟩ := h.stored q hq
    have hr : q ≠ r := by
      rintro rfl
      cases hphase.symm.trans hsaved
    exact ⟨restart', (State.goto_of_ne hr).trans hsaved⟩

theorem Inv.store {newCfg : Config Rest} {restart : List String} (h : Inv S s)
    (hphase : s.phase r = .saving .store newCfg restart) (hapart : apart s (.store r) = true) :
    Inv S { s.goto r (.answered (.saved restart)) with live := newCfg, storedBy := some r } := by
  have hren : ∀ q, ((s.goto r (.answered (.saved restart))).phase q).renamed =
      (s.phase q).renamed := by
    intro q
    by_cases hr : q = r
    · rw [hr, State.goto_self, hphase]
      rfl
    · rw [State.goto_of_ne hr]
  refine ⟨?_, ?_, h.config_ne_stale, ?_, ?_, fun q hq => h.renamed q (hren q ▸ hq)⟩
  · intro q next newCfg' restart' hq
    by_cases hr : q = r
    · subst hr
      cases State.goto_self.symm.trans hq
    · exact h.accepted q _ _ _ ((State.goto_of_ne hr).symm.trans hq)
  · intro q next newCfg' restart' hq hnext
    by_cases hr : q = r
    · subst hr
      cases State.goto_self.symm.trans hq
    · exact h.whole q _ _ _ ((State.goto_of_ne hr).symm.trans hq) hnext
  · intro q hq
    obtain ⟨hlen, hrenamed, cfg, hacc, -⟩ := h.owner q hq
    refine ⟨hlen, (hren q).trans hrenamed, cfg, hacc, fun a ha => ?_⟩
    by_cases hr : q = r
    · subst hr
      exact Option.some.inj ((h.accepted _ _ _ _ hphase).1.symm.trans hacc.1)
    · have hq' : s.config = .madeBy q := hq
      rw [apart, hq', Bool.or_eq_true, beq_iff_eq] at hapart
      have hstoring := hapart.resolve_left hr
      rw [(State.goto_of_ne hr).symm.trans ha] at hstoring
      cases hstoring
  · intro q hq
    obtain rfl := Option.some.inj hq
    exact ⟨restart, State.goto_self⟩

theorem inv_step {a : Action} (h : Inv S s) (hapart : apart s a = true)
    (hstep : step S s a = some t) : Inv S t := by
  cases a with
  | check r =>
    rw [step] at hstep
    split at hstep
    · rename_i hphase
      obtain rfl := Option.some.inj hstep
      obtain ⟨hren, hsaving⟩ := checked_spec (S := S) s.live r
      refine h.keep (by rw [hphase]; rfl) hren rfl rfl rfl rfl (fun _ _ => rfl) ?_ ?_
      · exact fun next newCfg restart heq => (hsaving next newCfg restart heq).2
      · intro next newCfg restart heq hmem
        rw [(hsaving next newCfg restart heq).1] at hmem
        exact absurd hmem (by decide)
    · cases hstep
  | remove r ok =>
    obtain ⟨newCfg, restart, hphase, hgo⟩ := State.take_eq_some.mp hstep
    obtain rfl := Option.some.inj hgo
    exact h.advance hphase (by decide) (Or.inr ⟨.create, rfl, by decide, by simp⟩) rfl rfl rfl rfl
      fun _ _ => rfl
  | create r ok =>
    obtain ⟨newCfg, restart, hphase, hgo⟩ := State.take_eq_some.mp hstep
    split_ifs at hgo
    · obtain rfl := Option.some.inj hgo
      exact h.advance hphase (by decide) (Or.inl ⟨_, rfl, rfl⟩) rfl rfl rfl rfl fun _ _ => rfl
    · obtain rfl := Option.some.inj hgo
      exact h.advance hphase (by decide) (Or.inr ⟨.write, rfl, by decide, by simp⟩) rfl rfl rfl
        rfl fun _ _ => rfl
  | write r n =>
    obtain ⟨newCfg, restart, hphase, hgo⟩ := State.take_eq_some.mp hstep
    split_ifs at hgo with hle hdone
    · obtain rfl := Option.some.inj hgo
      have hsize := (Function.update_self r (s.written r + n) s.written).trans hdone
      exact h.advance hphase (by decide)
        (Or.inr ⟨.copyPermissions, rfl, by decide, fun _ => hsize⟩) rfl rfl rfl rfl
        fun q hq => Function.update_of_ne hq _ _
    · obtain rfl := Option.some.inj hgo
      exact h.advance hphase (by decide) (Or.inr ⟨.write, rfl, by decide, by simp⟩) rfl rfl rfl rfl
        fun q hq => Function.update_of_ne hq _ _
  | writeFails r =>
    obtain ⟨newCfg, restart, hphase, hgo⟩ := State.take_eq_some.mp hstep
    obtain rfl := Option.some.inj hgo
    exact h.advance hphase (by decide) (Or.inl ⟨_, rfl, rfl⟩) rfl rfl rfl rfl fun _ _ => rfl
  | copyPermissions r ok =>
    obtain ⟨newCfg, restart, hphase, hgo⟩ := State.take_eq_some.mp hstep
    obtain rfl := Option.some.inj hgo
    have hsize := h.whole r _ _ _ hphase (by decide)
    refine h.advance hphase (by decide) ?_ rfl rfl rfl rfl fun _ _ => rfl
    cases ok with
    | false => exact Or.inl ⟨_, rfl, rfl⟩
    | true => exact Or.inr ⟨.sync, rfl, by decide, fun _ => hsize⟩
  | sync r ok =>
    obtain ⟨newCfg, restart, hphase, hgo⟩ := State.take_eq_some.mp hstep
    obtain rfl := Option.some.inj hgo
    have hsize := h.whole r _ _ _ hphase (by decide)
    refine h.advance hphase (by decide) ?_ rfl rfl rfl rfl fun _ _ => rfl
    cases ok with
    | false => exact Or.inl ⟨_, rfl, rfl⟩
    | true => exact Or.inr ⟨.rename, rfl, by decide, fun _ => hsize⟩
  | rename r ok =>
    obtain ⟨newCfg, restart, hphase, hgo⟩ := State.take_eq_some.mp hstep
    cases ok with
    | false =>
      obtain rfl := Option.some.inj hgo
      exact h.advance hphase (by decide) (Or.inl ⟨_, rfl, rfl⟩) rfl rfl rfl rfl fun _ _ => rfl
    | true =>
      rw [if_neg (by decide)] at hgo
      split at hgo
      · rename_i file htmp
        obtain rfl := Option.some.inj hgo
        rw [apart, htmp, Option.all_some, beq_iff_eq] at hapart
        rw [hapart]
        exact h.rename hphase
      · cases hgo
  | store r =>
    obtain ⟨newCfg, restart, hphase, hgo⟩ := State.take_eq_some.mp hstep
    obtain rfl := Option.some.inj hgo
    exact h.store hphase hapart

theorem inv_init (live : Config Rest) (tmp : Option File) : Inv S (init live tmp) :=
  ⟨fun _ _ _ _ h => (by cases h), fun _ _ _ _ h => (by cases h), by simp [init],
    fun _ h => (by cases h), fun _ h => (by cases h), fun _ h => (by cases h)⟩

theorem Inv.allOrNothing (h : Inv S s) : AllOrNothing S s := by
  have hbytes : ∀ q, s.config = .madeBy q → fileBytes S s = utf8 (S.content q) := by
    intro q hq
    rw [fileBytes, hq]
    exact List.take_of_length_le (h.owner q hq).1.ge
  refine ⟨?_, ?_, ?_⟩
  · cases hconfig : s.config with
    | original => exact Or.inl (by rw [fileBytes, hconfig])
    | stale => exact absurd hconfig h.config_ne_stale
    | madeBy q =>
      obtain ⟨-, -, newCfg, hacc, -⟩ := h.owner q hconfig
      exact Or.inr ⟨q, newCfg, hacc, hbytes q hconfig⟩
  · intro r a ha hok
    constructor
    · intro hconfig
      have hren := (h.owner r hconfig).2.1
      rw [ha] at hren
      cases a with
      | saved restart => cases hok
      | _ => cases hren
    · intro hstored
      obtain ⟨restart, hsaved⟩ := h.stored r hstored
      obtain rfl := Phase.answered.inj (hsaved.symm.trans ha)
      cases hok
  · rintro hquiet ⟨r, a, ha, hok⟩
    have hren : (s.phase r).renamed = true := by
      rw [ha]
      cases a with
      | saved restart => rfl
      | _ => cases hok
    cases hconfig : s.config with
    | original => exact absurd hconfig (h.renamed r hren)
    | stale => exact absurd hconfig h.config_ne_stale
    | madeBy q =>
      obtain ⟨-, hrenq, newCfg, hacc, hforce⟩ := h.owner q hconfig
      obtain harr | ⟨a', ha'⟩ := hquiet q
      · rw [harr] at hrenq
        cases hrenq
      · exact ⟨q, hbytes q hconfig, by rw [hforce a' ha', hacc.1]⟩

/-- Requests that keep apart leave the file and the settings in force all or nothing. -/
theorem saved_all_or_nothing {live : Config Rest} {tmp : Option File} {run : List Action}
    (hapart : Along (step S) (fun s a => apart s a = true) (init live tmp) run)
    (hrun : exec (step S) (init live tmp) run = some s) : AllOrNothing S s :=
  (exec_invariant_along (fun _ _ _ h hc ht => inv_step h hc ht) (inv_init live tmp) hapart
    hrun).allOrNothing

variable (S r) in
/-- The steps of a request that goes well, up to the rename. -/
def untilRename : List Action :=
  [.check r, .remove r true, .create r true, .write r (size S r), .copyPermissions r true,
    .sync r true]

theorem checked_accepted {newCfg : Config Rest} (hpath : S.configPath ≠ [])
    (hacc : Accepted S r newCfg) (live : Config Rest) :
    checked S live r = .saving .remove newCfg (live.restartNeeded newCfg) := by
  rw [checked, if_neg hpath, hacc.1]
  simp only [hacc.2]

/-- A request that nothing comes between has its file ready. -/
theorem exec_ready {newCfg : Config Rest} (hpath : S.configPath ≠ [])
    (hacc : Accepted S r newCfg) (hphase : s.phase r = .arriving) (hnew : s.written r = 0) :
    exec (step S) s (untilRename S r) =
      some ⟨Function.update s.phase r (.saving .rename newCfg (s.live.restartNeeded newCfg)),
        Function.update s.written r (size S r), s.config, some (.madeBy r), s.live,
        s.storedBy⟩ := by
  have hcheck := checked_accepted hpath hacc s.live
  simp [untilRename, exec_cons, step, hphase, hcheck, State.goto, State.take, hnew]

/-- And then it is saved. -/
theorem exec_saved {newCfg : Config Rest} (hpath : S.configPath ≠ [])
    (hacc : Accepted S r newCfg) (hphase : s.phase r = .arriving) (hnew : s.written r = 0) :
    exec (step S) s (untilRename S r ++ [.rename r true, .store r]) =
      some ⟨Function.update s.phase r (.answered (.saved (s.live.restartNeeded newCfg))),
        Function.update s.written r (size S r), .madeBy r, none, newCfg, some r⟩ := by
  rw [exec_append, exec_ready hpath hacc hphase hnew]
  simp [exec_cons, step, State.goto, State.take]

theorem apart_saved {newCfg : Config Rest} (hpath : S.configPath ≠ [])
    (hacc : Accepted S r newCfg) (hphase : s.phase r = .arriving) (hnew : s.written r = 0) :
    Along (step S) (fun s a => apart s a = true) s
      (untilRename S r ++ [.rename r true, .store r]) := by
  refine along_append.mpr ⟨⟨rfl, fun _ _ => ⟨rfl, fun _ _ => ⟨rfl, fun _ _ => ⟨rfl, fun _ _ =>
    ⟨rfl, fun _ _ => ⟨rfl, fun _ _ => trivial⟩⟩⟩⟩⟩⟩, fun t ht => ?_⟩
  rw [exec_ready hpath hacc hphase hnew] at ht
  obtain rfl := Option.some.inj ht
  refine ⟨by simp [apart], fun t ht => ⟨?_, fun _ _ => trivial⟩⟩
  simp only [step, State.take, Function.update_self, State.goto] at ht
  obtain rfl := Option.some.inj ht
  simp [apart]

def defaultAdmission : AdmissionConfig where
  maxOpenTcpConnections := none
  maxPendingLogins := 32768
  maxPendingLoginsPerSource := 32
  maxProbeJobs := none
  maxRetryTasks := 1024
  sessionRelayPerSecond := 10
  sessionRelayBurst := 200
  maxSearchJobs := 8
  maxQueuedTcpSearches := 512
  tcpSearchWaitMs := 2000
  maxQueuedUdpSearches := 128
  udpSearchWaitMs := 500
  maxRateStateEntries := 524288
  ipv6SourcePrefixBits := 64
  udpGlobalCreditsPerSecond := 200000
  udpGlobalBurstCredits := 400000
  udpSourceCreditsPerSecond := 60
  udpSourceBurstCredits := 1000
  udpRateEnforce := false
  readinessWindowSecs := 30

@[irreducible] def smallText : Str :=
  ("[server]\nname = \"t\"\ndesc = \"t\"\nthis_ip = \"\"\n\n[network]\ntcp_port = 6262\n\n" ++
    "[limits]\nmax_clients = 1\nsoft_limit_files = 1\nhard_limit_files = 1\n" ++
    "ping_delay_seconds = 1\n\n[content_filter]\nhash_banlist = []\nhash_filter = []\n").toList

/-- What the small text says, with the defaults. -/
def smallConfig : Config Unit where
  name := "t".toList
  thisIp := []
  isPublic := false
  hashBanlist := []
  tcpPort := 6262
  maxDecompressedFrameSize := 8000000
  maxClients := 1
  maxSearchResults := 200
  searchRankScan := 20000
  admission := defaultAdmission
  admin := ⟨false, 8080, "127.0.0.1".toList, [], "off".toList, [], [], [], [], []⟩
  rest := ()

/-- Every request sends the text that is there already. -/
def smallSetup : Setup Unit where
  configPath := "config.toml".toList
  parse := fun text => if text = smallText then some smallConfig else none
  content := fun _ => smallText
  original := utf8 smallText
  stale := []

def oneSave (r : Nat) : List Action := untilRename smallSetup r

theorem smallText_ne_nil : smallText ≠ [] := by
  unfold smallText
  intro h
  have hbytes := congrArg String.utf8ByteSize (String.toList_eq_nil_iff.mp h)
  rw [String.utf8ByteSize_append] at hbytes
  have hlast := Nat.eq_zero_of_add_eq_zero_left hbytes
  rw [String.utf8ByteSize_eq_zero_iff] at hlast
  exact absurd hlast (by decide)

theorem accepted_small (r : Nat) : Accepted smallSetup r smallConfig :=
  ⟨if_pos rfl, by decide⟩

theorem two_saves_in_turn : ∃ s, exec (step smallSetup) (init smallConfig none)
    (oneSave 0 ++ [.rename 0 true, .store 0] ++ oneSave 1 ++ [.rename 1 true, .store 1]) = some s ∧
      AllOrNothing smallSetup s := by
  have hpath : smallSetup.configPath ≠ [] := by decide
  have hfirst := exec_saved (s := init smallConfig none) hpath (accepted_small 0) rfl rfl
  have hapart := apart_saved (s := init smallConfig none) hpath (accepted_small 0) rfl rfl
  have hrun := exec_append (step smallSetup) (init smallConfig none)
    (untilRename smallSetup 0 ++ [.rename 0 true, .store 0])
    (untilRename smallSetup 1 ++ [.rename 1 true, .store 1])
  rw [hfirst, Option.bind_some, exec_saved hpath (accepted_small 1) rfl rfl] at hrun
  rw [List.append_assoc _ (oneSave 1)]
  refine ⟨_, hrun, saved_all_or_nothing (along_append.mpr ⟨hapart, fun t ht => ?_⟩) hrun⟩
  rw [hfirst] at ht
  obtain rfl := Option.some.inj ht
  exact apart_saved hpath (accepted_small 1) rfl rfl

/-- The second request has made its file anew when the first one renames. -/
theorem empty_file_renamed : ∃ s, exec (step smallSetup) (init smallConfig none)
    (oneSave 0 ++ [.check 1, .remove 1 true, .create 1 true, .rename 0 true]) = some s ∧
      fileBytes smallSetup s = [] ∧ ¬ AllOrNothing smallSetup s := by
  have hpath : smallSetup.configPath ≠ [] := by decide
  have hready := exec_ready (s := init smallConfig none) hpath (accepted_small 0) rfl rfl
  have hrest : (exec (step smallSetup) (init smallConfig none) (oneSave 0 ++ [.check 1,
      .remove 1 true, .create 1 true, .rename 0 true])).map (fun s => (s.config, s.written 1)) =
      some (.madeBy 1, 0) := by
    have hcheck := checked_accepted hpath (accepted_small 1)
    rw [oneSave, exec_append, hready]
    simp [exec_cons, step, State.goto, State.take, hcheck, init]
  obtain ⟨s, hs, hstate⟩ := Option.map_eq_some_iff.mp hrest
  obtain ⟨hconfig, hwritten⟩ := Prod.mk.inj hstate
  have hbytes : fileBytes smallSetup s = [] := by
    simp only [fileBytes, hconfig, hwritten, List.take_zero]
  have horiginal : smallSetup.original = utf8 smallText := rfl
  have hcontent : smallSetup.content = fun _ => smallText := rfl
  have hne : utf8 smallText ≠ [] := by
    rw [Ne, utf8, List.flatMap_eq_nil_iff]
    intro hall
    obtain ⟨c, rest, hrest⟩ := List.exists_cons_of_ne_nil smallText_ne_nil
    have hlen := congrArg List.length (hall c (by rw [hrest]; exact List.mem_cons_self))
    rw [String.length_utf8EncodeChar] at hlen
    exact absurd hlen c.utf8Size_pos.ne'
  refine ⟨s, hs, hbytes, fun h => ?_⟩
  obtain hcomplete | ⟨r, newCfg, -, hcomplete⟩ := h.complete
  · rw [hbytes, horiginal] at hcomplete
    exact hne hcomplete.symm
  · rw [hbytes, hcontent] at hcomplete
    exact hne hcomplete.symm

end Ed2kServer.Admin.SaveSettings
