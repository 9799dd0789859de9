import Ed2kServer.Lib.Transition
import Ed2kServer.Updates.Fetch

namespace Ed2kServer.Updates.Run

open Ed2kServer.Lib.Transition Ed2kServer.Slab.Record Ed2kServer.Filter.Loaders
open Ed2kServer.Updates.Validate Ed2kServer.Updates.Install Ed2kServer.Updates.Fetch

def filename : Target → Str
  | .csamJargon => "csam_jargon.txt".toList
  | .csamTermsExtra => "csam_terms_extra.txt".toList
  | .layer2Terms => "layer2_terms.txt".toList
  | .guardingP2p => "guarding.p2p".toList
  | .ipToCountry => "ip-to-country.csv".toList
  | .hashBanlist => "hash_banlist.txt".toList
  | .hashFilter => "hash_filter.txt".toList
  | .whitelistHashes => "whitelist_hashes.txt".toList
  | .geoipMmdb => "ipinfo_lite.mmdb".toList

/-- The files of a target in the destination directory. -/
inductive Slot
  | file
  | backup (n : Nat)
  | temp
  deriving DecidableEq

def Slot.isBackup : Slot → Bool
  | .backup _ => true
  | _ => false

def name (t : Target) : Slot → Str
  | .file => filename t
  | .backup n => filename t ++ '.' :: Nat.toDigits 10 n
  | .temp => '.' :: (filename t ++ ".tmp".toList)

abbrev Disk : Type := Str → Option (List UInt8)

/-- The operations of a run on the disk. -/
inductive Action
  | removeOldest (n : Nat)
  | shift (n : Nat)
  | copy
  | createDir
  | create
  | write (bytes : List UInt8)
  | sync
  | rename
  deriving DecidableEq

/-- The oldest is dropped, the others are shifted down and the file is copied. -/
def rotateBackups (keep : Nat) (present : Bool) : List Action :=
  if keep = 0 ∨ present = false then []
  else .removeOldest keep :: ((List.range' 1 (keep - 1)).reverse.map .shift ++ [.copy])

def installAtomic (bytes : List UInt8) : List Action :=
  [.createDir, .create, .write bytes, .sync, .rename]

/-- How an operation ends; a failed copy or write may have got as far as to leave something. -/
inductive Outcome
  | done
  | failed (left : Option (List UInt8))
  deriving DecidableEq

def put (d : Disk) (t : Target) (slot : Slot) (b : Option (List UInt8)) : Disk :=
  Function.update d (name t slot) b

def putLeft (d : Disk) (t : Target) (slot : Slot) (left : Option (List UInt8)) : Disk :=
  if left.isSome then put d t slot left else d

/-- The disk after an operation, and whether the run goes on. Failures to remove and to shift are
ignored. -/
def perform (t : Target) (d : Disk) : Action → Outcome → Disk × Bool
  | .removeOldest n, .done => (put d t (.backup n) none, true)
  | .removeOldest _, .failed _ => (d, true)
  | .shift n, .done =>
    match d (name t (.backup n)) with
    | some b => (put (put d t (.backup n) none) t (.backup (n + 1)) (some b), true)
    | none => (d, true)
  | .shift _, .failed _ => (d, true)
  | .copy, .done =>
    match d (name t .file) with
    | some b => (put d t (.backup 1) (some b), true)
    | none => (d, false)
  | .copy, .failed left => (putLeft d t (.backup 1) left, false)
  | .createDir, .done => (d, true)
  | .create, .done => (put d t .temp (some []), true)
  | .write bytes, .done => (put d t .temp (some bytes), true)
  | .write _, .failed left => (putLeft d t .temp left, false)
  | .sync, .done => (d, true)
  | .rename, .done =>
    match d (name t .temp) with
    | some b => (put (put d t .temp none) t .file (some b), true)
    | none => (d, false)
  | _, .failed _ => (d, false)

/-- A run with what it has still to do. -/
structure Process where
  target : Target
  keep : Nat
  todo : List Action

/-- The directory and the runs, with the contents that renames have replaced, the latest first. -/
structure State where
  disk : Disk
  runs : List Process
  replaced : List (Target × List UInt8)

variable {F : Type}

inductive Event (F : Type)
  /-- A run is started, its answers come and it reads the file. -/
  | start (req : UpdateRequest F) (answers : Answers) (stamp : Str) (readable : Bool)
  | act (i : Nat) (o : Outcome)
  /-- The server dies in the middle of what it does. -/
  | crash

variable [LinearOrder F] [Zero F] (W : World F)

def begin (s : State) (req : UpdateRequest F) (answers : Answers) (stamp : Str) (readable : Bool) :
    State :=
  let file := s.disk (name req.target .file)
  match prepare W req answers stamp (if readable then file else none) with
  | .ok bytes =>
    let keep := req.backups.toNat
    let todo := rotateBackups keep file.isSome ++ installAtomic bytes
    { s with runs := s.runs ++ [⟨req.target, keep, todo⟩] }
  | .error _ => s

/-- What a rename replaces. -/
def replacedBy (s : State) (t : Target) (a : Action) (go : Bool) : List (Target × List UInt8) :=
  if a = .rename ∧ go = true then (s.disk (name t .file)).toList.map fun b => (t, b) else []

def act (s : State) (i : Nat) (o : Outcome) : Option State :=
  match s.runs[i]? with
  | some ⟨t, keep, a :: todo⟩ =>
    let (disk, go) := perform t s.disk a o
    some ⟨disk, s.runs.set i ⟨t, keep, if go then todo else []⟩,
      replacedBy s t a go ++ s.replaced⟩
  | _ => none

def step (s : State) : Event F → Option State
  | .start req answers stamp readable => some (begin W s req answers stamp readable)
  | .act i o => act s i o
  | .crash => some { s with runs := [] }

/-- A run of the target is under way. -/
def Busy (s : State) (t : Target) : Prop := ∃ p ∈ s.runs, p.target = t ∧ p.todo ≠ []

theorem Busy.mono {s u : State} {t : Target} (hruns : ∀ p ∈ s.runs, p.target = t → p ∈ u.runs)
    (h : Busy s t) : Busy u t := by
  obtain ⟨p, hp, ht, hne⟩ := h
  exact ⟨p, hruns p hp ht, ht, hne⟩

theorem not_busy {s : State} {t : Target} (h : ∀ p ∈ s.runs, p.todo = []) : ¬ Busy s t := by
  rintro ⟨p, hp, -, hne⟩
  exact hne (h p hp)

/-- A run is started only when the last one of its target has ended. -/
def Apart (s : State) : Event F → Prop
  | .start req _ _ _ => ¬ Busy s req.target
  | _ => True

section Names

theorem filename_injective {t u : Target} (h : filename t = filename u) : t = u := by
  revert h
  cases t <;> cases u <;> decide

theorem backup_last (t : Target) (n : Nat) :
    (name t (.backup n)).getLast?.any Char.isDigit = true := by
  have hne : Nat.toDigits 10 n ≠ [] := Nat.toDigits_ne_nil
  have hlast : (name t (.backup n)).getLast? = some ((Nat.toDigits 10 n).getLast hne) := by
    rw [name, List.getLast?_append, List.getLast?_cons, List.getLast?_eq_some_getLast hne]
    rfl
  rw [hlast]
  exact Nat.isDigit_of_mem_toDigits (by decide) (by decide) (List.getLast_mem hne)

/-- What follows the last dot is determined. -/
theorem split_dot {s s' x x' : Str} (hx : '.' ∉ x) (hx' : '.' ∉ x')
    (h : s ++ '.' :: x = s' ++ '.' :: x') : s = s' ∧ x = x' := by
  have htake : ∀ s x : Str, '.' ∉ x →
      (s ++ '.' :: x).reverse.takeWhile (· ≠ '.') = x.reverse := by
    intro s x hx
    have hall : ∀ c ∈ x.reverse, decide (c ≠ '.') = true := by
      intro c hc
      exact decide_eq_true fun he => hx (he ▸ List.mem_reverse.mp hc)
    rw [List.reverse_append, List.reverse_cons, List.append_assoc,
      List.takeWhile_append_of_pos hall]
    simp
  have hrev : x.reverse = x'.reverse := by rw [← htake s x hx, ← htake s' x' hx', h]
  obtain rfl := List.reverse_inj.mp hrev
  exact ⟨List.append_cancel_right h, rfl⟩

theorem name_dot (t : Target) (a : Slot) :
    (name t a).head?.any (· = '.') = decide (a = .temp) := by
  cases a with
  | file => cases t <;> decide
  | backup n => cases t <;> rfl
  | temp => rfl

theorem name_digit (t : Target) (a : Slot) :
    (name t a).getLast?.any Char.isDigit = a.isBackup := by
  cases a with
  | file => cases t <;> decide
  | backup n => exact backup_last t n
  | temp => cases t <;> decide

/-- No two files of the directory have one name. -/
theorem name_injective {t u : Target} {a b : Slot} (h : name t a = name u b) : t = u ∧ a = b := by
  have hdot : decide (a = .temp) = decide (b = .temp) := by rw [← name_dot t, h, name_dot]
  have hdigit : a.isBackup = b.isBackup := by rw [← name_digit t, h, name_digit]
  have hdigits : ∀ n, '.' ∉ Nat.toDigits 10 n := fun n hn =>
    absurd (Nat.isDigit_of_mem_toDigits (by decide) (by decide) hn) (by decide)
  cases a with
  | file =>
    cases b with
    | file => exact ⟨filename_injective h, rfl⟩
    | backup n => cases hdigit
    | temp => cases hdot
  | backup n =>
    cases b with
    | file => cases hdigit
    | backup m =>
      obtain ⟨hfile, hn⟩ := split_dot (hdigits n) (hdigits m) h
      have hn : n = m := by
        rw [← Nat.ofDigitChars_ten_toDigits (n := n), hn, Nat.ofDigitChars_ten_toDigits]
      exact ⟨filename_injective hfile, congrArg Slot.backup hn⟩
    | temp => cases hdot
  | temp =>
    cases b with
    | file => cases hdot
    | backup m => cases hdot
    | temp => exact ⟨filename_injective (List.append_cancel_right (List.cons.inj h).2), rfl⟩

end Names

section Operations

variable {t u : Target} {d : Disk} {a : Action} {o : Outcome} {b : List UInt8}

@[simp] theorem put_same (d : Disk) (t : Target) (slot : Slot) (b : Option (List UInt8)) :
    put d t slot b (name t slot) = b := Function.update_self _ _ _

theorem put_other {slot slot' : Slot} {b : Option (List UInt8)} (h : t ≠ u ∨ slot ≠ slot') :
    put d t slot b (name u slot') = d (name u slot') := by
  refine Function.update_of_ne (fun he => ?_) _ _
  obtain ⟨rfl, rfl⟩ := name_injective he
  exact h.elim (fun h => h rfl) fun h => h rfl

theorem putLeft_other {slot slot' : Slot} {left : Option (List UInt8)} (h : t ≠ u ∨ slot ≠ slot') :
    putLeft d t slot left (name u slot') = d (name u slot') := by
  rw [putLeft]
  split
  · exact put_other h
  · rfl

/-- The files of its target that an operation writes. -/
def Action.slots : Action → List Slot
  | .removeOldest n => [.backup n]
  | .shift n => [.backup n, .backup (n + 1)]
  | .copy => [.backup 1]
  | .createDir | .sync => []
  | .create | .write _ => [.temp]
  | .rename => [.temp, .file]

/-- An operation reaches no other file. -/
theorem perform_frame {slot : Slot} (h : t ≠ u ∨ slot ∉ a.slots) (o : Outcome) :
    (perform t d a o).1 (name u slot) = d (name u slot) := by
  have hne : ∀ slot' ∈ a.slots, t ≠ u ∨ slot' ≠ slot := fun slot' hm =>
    h.imp_right fun hn he => hn (he ▸ hm)
  cases a with
  | removeOldest n =>
    have hn := hne _ List.mem_cons_self
    cases o with
    | done => exact put_other hn
    | failed left => rfl
  | shift n =>
    have hn := hne _ List.mem_cons_self
    have hsucc := hne _ (List.mem_cons_of_mem _ List.mem_cons_self)
    cases o with
    | done =>
      rw [perform]
      split
      · exact (put_other hsucc).trans (put_other hn)
      · rfl
    | failed left => rfl
  | copy =>
    have hn := hne _ List.mem_cons_self
    cases o with
    | done =>
      rw [perform]
      split
      · exact put_other hn
      · rfl
    | failed left => exact putLeft_other hn
  | createDir | sync => cases o <;> rfl
  | create =>
    cases o with
    | done => exact put_other (hne _ List.mem_cons_self)
    | failed left => rfl
  | write bytes =>
    cases o with
    | done => exact put_other (hne _ List.mem_cons_self)
    | failed left => exact putLeft_other (hne _ List.mem_cons_self)
  | rename =>
    have htemp := hne _ List.mem_cons_self
    have hfile := hne _ (List.mem_cons_of_mem _ List.mem_cons_self)
    cases o with
    | done =>
      rw [perform]
      split
      · exact (put_other hfile).trans (put_other htemp)
      · rfl
    | failed left => rfl

/-- A rename that goes through puts what was written in the place of the file. -/
theorem perform_rename (h : (perform t d .rename o).2 = true) :
    ∃ b, d (name t .temp) = some b ∧ (perform t d .rename o).1 (name t .file) = some b := by
  cases o with
  | failed left => cases h
  | done =>
    rw [perform] at h ⊢
    split at h
    · rename_i b hb
      exact ⟨b, hb, put_same _ _ _ _⟩
    · cases h

theorem perform_rename_stop (h : (perform t d .rename o).2 = false) :
    (perform t d .rename o).1 = d := by
  cases o with
  | failed left => rfl
  | done =>
    rw [perform] at h ⊢
    split at h
    · cases h
    · rfl

theorem perform_copy (h : (perform t d .copy o).2 = true) :
    (perform t d .copy o).1 (name t (.backup 1)) = d (name t .file) := by
  cases o with
  | failed left => cases h
  | done =>
    rw [perform] at h ⊢
    split at h
    · rename_i b hb
      rw [hb]
      exact put_same _ _ _ _
    · cases h

theorem perform_write (h : (perform t d (.write b) o).2 = true) :
    (perform t d (.write b) o).1 (name t .temp) = some b := by
  cases o with
  | failed left => cases h
  | done => exact put_same _ _ _ _

end Operations

section Slots

variable {A : Type} {l : List A} {i j : Nat} {x y : A}

theorem get_of_set (h : (l.set i x)[j]? = some y) : i = j ∧ x = y ∨ i ≠ j ∧ l[j]? = some y := by
  rw [List.getElem?_set] at h
  split_ifs at h with hij
  · exact .inl ⟨hij, Option.some.inj h⟩
  · exact .inr ⟨hij, h⟩

theorem get_of_concat (h : (l ++ [x])[j]? = some y) : l[j]? = some y ∨ j = l.length ∧ x = y := by
  rw [List.getElem?_append] at h
  split_ifs at h with hj
  · exact .inl h
  · obtain ⟨hz, hy⟩ := List.getElem?_eq_some_iff.mp h
    rw [List.length_singleton, Nat.lt_one_iff] at hz
    simp only [hz, List.getElem_cons_zero] at hy
    exact .inr ⟨by omega, hy⟩

end Slots

section Guards

variable {S E : Type} {step : S → E → Option S} {C D : S → E → Prop} {s : S} {es : List E}

theorem along_and (hC : Along step C s es) (hD : Along step D s es) :
    Along step (fun s e => C s e ∧ D s e) s es := by
  induction es generalizing s with
  | nil => trivial
  | cons e es ih => exact ⟨⟨hC.1, hD.1⟩, fun t ht => ih (hC.2 t ht) (hD.2 t ht)⟩

end Guards

section Invariant

variable {P : Target → List UInt8 → Prop} {Q : List UInt8 → Prop} {temp : Option (List UInt8)}
  {t : Target} {d d' : Disk} {a : Action} {todo : List Action} {o : Outcome} {b : List UInt8}
  {s u : State} {p : Process}

/-- What is left of a run that installs `Q` bytes, with what its temporary file must hold. -/
inductive Stage (Q : List UInt8 → Prop) (temp : Option (List UInt8)) : List Action → Prop
  | ended : Stage Q temp []
  | rename {b : List UInt8} : temp = some b → Q b → Stage Q temp [.rename]
  | sync {b : List UInt8} : temp = some b → Q b → Stage Q temp [.sync, .rename]
  | write {b : List UInt8} : Q b → Stage Q temp [.write b, .sync, .rename]
  | create {b : List UInt8} : Q b → Stage Q temp [.create, .write b, .sync, .rename]
  | createDir {b : List UInt8} : Q b → Stage Q temp (installAtomic b)
  | copy {b : List UInt8} : Q b → Stage Q temp (.copy :: installAtomic b)
  | rotate {a : Action} {todo : List Action} : .file ∉ a.slots → .temp ∉ a.slots →
      .copy ∈ todo → Stage Q temp todo → Stage Q temp (a :: todo)

theorem stage_plan (keep : Nat) (present : Bool) (hb : Q b) :
    Stage Q temp (rotateBackups keep present ++ installAtomic b) := by
  rw [rotateBackups]
  split
  · exact .createDir hb
  · have hshift : ∀ ns : List Nat,
        Stage Q temp (ns.map .shift ++ .copy :: installAtomic b) := by
      intro ns
      induction ns with
      | nil => exact .copy hb
      | cons n ns ih => exact .rotate (by simp [Action.slots]) (by simp [Action.slots]) (by simp) ih
    rw [List.cons_append, List.append_assoc]
    exact .rotate (by simp [Action.slots]) (by simp [Action.slots]) (by simp) (hshift _)

theorem copy_mem_rotate {keep : Nat} {present : Bool} (hkeep : keep ≠ 0)
    (hpresent : present = true) : .copy ∈ rotateBackups keep present := by
  rw [rotateBackups, if_neg (by simp [hkeep, hpresent])]
  simp

theorem stage_next (h : Stage Q (d (name t .temp)) (a :: todo))
    (hgo : (perform t d a o).2 = true) :
    Stage Q ((perform t d a o).1 (name t .temp)) todo := by
  cases h with
  | rename htemp hb => exact .ended
  | sync htemp hb =>
    rw [perform_frame (.inr (by simp [Action.slots]))]
    exact .rename htemp hb
  | write hb =>
    rw [perform_write hgo]
    exact .sync rfl hb
  | create hb => exact .write hb
  | createDir hb => exact .create hb
  | copy hb => exact .createDir hb
  | rotate hfile htemp hcopy h =>
    rw [perform_frame (.inr htemp)]
    exact h

/-- The file is only ever changed by the last operation of a run. -/
theorem file_cases (h : Stage Q (d (name t .temp)) (a :: todo)) (o : Outcome) :
    (perform t d a o).1 (name t .file) = d (name t .file) ∨
      a = .rename ∧ todo = [] ∧ (perform t d a o).2 = true ∧
        ∃ b, (perform t d a o).1 (name t .file) = some b ∧ Q b := by
  by_cases ha : .file ∈ a.slots
  · obtain rfl : a = .rename := by cases a <;> simp [Action.slots] at ha ⊢
    cases hgo : (perform t d .rename o).2 with
    | false => exact .inl (by rw [perform_rename_stop hgo])
    | true =>
      obtain ⟨b, htemp, hfile⟩ := perform_rename hgo
      cases h with
      | rename htemp' hq =>
        obtain rfl := Option.some.inj (htemp.symm.trans htemp')
        exact .inr ⟨rfl, rfl, rfl, b, hfile, hq⟩
      | rotate hnot => exact absurd ha hnot
  · exact .inl (perform_frame (.inr ha) o)

/-- A run in order: once the file is copied, the first backup is that copy. -/
structure RunInv (P : Target → List UInt8 → Prop) (d : Disk) (p : Process) : Prop where
  stage : Stage (P p.target) (d (name p.target .temp)) p.todo
  saved : p.todo ≠ [] → .copy ∉ p.todo → p.keep ≠ 0 → d (name p.target .file) = none ∨
    d (name p.target (.backup 1)) = d (name p.target .file)

theorem runInv_ended (h : p.todo = []) : RunInv P d p :=
  ⟨h ▸ .ended, fun hne => absurd h hne⟩

theorem runInv_frame (h : RunInv P d p)
    (hd : ∀ slot, d' (name p.target slot) = d (name p.target slot)) : RunInv P d' p := by
  refine ⟨?_, ?_⟩
  · rw [hd]
    exact h.stage
  · rw [hd, hd]
    exact h.saved

theorem runInv_next {keep : Nat} (h : RunInv P d ⟨t, keep, a :: todo⟩) (o : Outcome) :
    RunInv P (perform t d a o).1 ⟨t, keep, if (perform t d a o).2 then todo else []⟩ := by
  cases hgo : (perform t d a o).2 with
  | false => exact runInv_ended rfl
  | true =>
    refine ⟨stage_next h.stage hgo, fun hne hcopy hkeep => ?_⟩
    simp only [if_true] at hne hcopy
    have hframe : .file ∉ a.slots → .backup 1 ∉ a.slots → a ≠ .copy →
        (perform t d a o).1 (name t .file) = none ∨
          (perform t d a o).1 (name t (.backup 1)) = (perform t d a o).1 (name t .file) := by
      intro hfile hbackup ha
      rw [perform_frame (.inr hfile), perform_frame (.inr hbackup)]
      exact h.saved (List.cons_ne_nil _ _) (fun hm => (List.mem_cons.mp hm).elim
        (fun he => ha he.symm) hcopy) hkeep
    cases h.stage with
    | rename htemp hb => exact absurd rfl hne
    | sync | write | create | createDir =>
      exact hframe (by simp [Action.slots]) (by simp [Action.slots]) (by simp)
    | copy hb =>
      right
      rw [perform_copy hgo, perform_frame (.inr (by simp [Action.slots]))]
    | rotate hfile htemp hin hstage => exact absurd hin hcopy

/-- The files are `P`, the runs are in order, and no two of one target are under way. -/
structure Inv (P : Target → List UInt8 → Prop) (s : State) : Prop where
  files : ∀ t b, s.disk (name t .file) = some b → P t b
  runs : ∀ (i : Nat) p, s.runs[i]? = some p → RunInv P s.disk p
  apart : ∀ (i j : Nat) p q, s.runs[i]? = some p → s.runs[j]? = some q → i ≠ j → p.todo ≠ [] →
    q.todo ≠ [] → p.target ≠ q.target

theorem inv_idle (hidle : s.runs = [])
    (h : ∀ t b, s.disk (name t .file) = some b → P t b) : Inv P s := by
  refine ⟨h, ?_, ?_⟩
  · intro i p hp
    rw [hidle] at hp
    cases hp
  · intro i j p q hp
    rw [hidle] at hp
    cases hp

/-- An operation of a run, with the run it belongs to. -/
theorem act_cases {i : Nat} (h : act s i o = some u) :
    ∃ t keep a todo, s.runs[i]? = some ⟨t, keep, a :: todo⟩ ∧
      u = ⟨(perform t s.disk a o).1,
        s.runs.set i ⟨t, keep, if (perform t s.disk a o).2 then todo else []⟩,
        replacedBy s t a (perform t s.disk a o).2 ++ s.replaced⟩ := by
  rw [act] at h
  split at h
  · rename_i t keep a todo hp
    exact ⟨t, keep, a, todo, hp, (Option.some.inj h).symm⟩
  · cases h

/-- After an operation of a run, no other run of its target is under way. -/
theorem own_todo {i k : Nat} {todo' : List Action} (hs : Inv P s)
    (hi : s.runs[i]? = some ⟨t, k, a :: todo⟩) (hp : p ∈ s.runs.set i ⟨t, k, todo'⟩)
    (ht : p.target = t) (hne : p.todo ≠ []) : p.todo = todo' := by
  obtain ⟨j, hj⟩ := List.getElem?_of_mem hp
  obtain ⟨-, rfl⟩ | ⟨hij, hj⟩ := get_of_set hj
  · rfl
  · exact absurd ht.symm (hs.apart i j _ p hi hj hij (List.cons_ne_nil _ _) hne)

/-- An operation leaves the runs of other targets. -/
theorem mem_set_other {i k : Nat} {t' : Target} {todo' : List Action} (ht : t' ≠ t)
    (hi : s.runs[i]? = some ⟨t', k, a :: todo⟩) (htarget : p.target = t) :
    p ∈ s.runs.set i ⟨t', k, todo'⟩ ↔ p ∈ s.runs := by
  constructor
  · intro hp
    obtain ⟨j, hj⟩ := List.getElem?_of_mem hp
    obtain ⟨-, rfl⟩ | ⟨-, hj⟩ := get_of_set hj
    · exact absurd htarget ht
    · exact List.mem_of_getElem? hj
  · intro hp
    obtain ⟨j, hj⟩ := List.getElem?_of_mem hp
    have hij : i ≠ j := by
      rintro rfl
      obtain rfl := Option.some.inj (hi.symm.trans hj)
      exact ht htarget
    exact List.mem_of_getElem? ((List.getElem?_set_ne hij).trans hj)

theorem inv_act {i : Nat} (hs : Inv P s) (h : act s i o = some u) : Inv P u := by
  obtain ⟨t, keep, a, todo, hp, rfl⟩ := act_cases h
  have hrun := hs.runs i _ hp
  refine ⟨?_, ?_, ?_⟩
  · intro t' b hb
    replace hb : (perform t s.disk a o).1 (name t' .file) = some b := hb
    by_cases ht : t = t'
    · subst ht
      obtain hsame | ⟨-, -, -, b', hb', hq⟩ := file_cases hrun.stage o
      · rw [hsame] at hb
        exact hs.files t b hb
      · rw [hb'] at hb
        obtain rfl := Option.some.inj hb
        exact hq
    · rw [perform_frame (.inl ht)] at hb
      exact hs.files t' b hb
  · intro j q hq
    obtain ⟨rfl, rfl⟩ | ⟨hij, hq⟩ := get_of_set hq
    · exact runInv_next hrun o
    · by_cases hended : q.todo = []
      · exact runInv_ended hended
      · have hne := hs.apart i j _ q hp hq hij (List.cons_ne_nil _ _) hended
        exact runInv_frame (hs.runs j q hq) fun slot => perform_frame (.inl hne) o
  · intro j k q r hq hr hjk hqb hrb
    obtain ⟨rfl, rfl⟩ | ⟨-, hq⟩ := get_of_set hq
    · obtain ⟨rfl, rfl⟩ | ⟨-, hr⟩ := get_of_set hr
      · exact absurd rfl hjk
      · exact hs.apart i k ⟨t, keep, a :: todo⟩ r hp hr hjk (List.cons_ne_nil _ _) hrb
    · obtain ⟨rfl, rfl⟩ | ⟨-, hr⟩ := get_of_set hr
      · exact hs.apart j i q ⟨t, keep, a :: todo⟩ hq hp hjk hqb (List.cons_ne_nil _ _)
      · exact hs.apart j k q r hq hr hjk hqb hrb

variable {F : Type} [LinearOrder F] [Zero F] {W : World F}

theorem inv_begin {req : UpdateRequest F} {answers : Answers} {stamp : Str} {readable : Bool}
    (hs : Inv P s) (hidle : ¬ Busy s req.target)
    (hP : ∀ old bytes, (∀ b, old = some b → P req.target b) →
      prepare W req answers stamp old = .ok bytes → P req.target bytes) :
    Inv P (begin W s req answers stamp readable) := by
  rw [begin]
  split
  · rename_i bytes hbytes
    have hold : ∀ b, (if readable = true then s.disk (name req.target .file) else none) = some b →
        P req.target b := by
      intro b hb
      split at hb
      · exact hs.files _ b hb
      · cases hb
    have hnew := hP _ bytes hold hbytes
    refine ⟨hs.files, ?_, ?_⟩
    · intro i p hp
      obtain hp | ⟨-, rfl⟩ := get_of_concat hp
      · exact hs.runs i p hp
      · refine ⟨stage_plan _ _ hnew, fun _ hcopy hkeep => .inl ?_⟩
        rw [← Option.not_isSome_iff_eq_none]
        exact fun hsome => hcopy (List.mem_append_left _ (copy_mem_rotate hkeep hsome))
    · intro i j p q hp hq hij hpb hqb
      obtain hp | ⟨hi, rfl⟩ := get_of_concat hp
      · obtain hq | ⟨hj, rfl⟩ := get_of_concat hq
        · exact hs.apart i j p q hp hq hij hpb hqb
        · exact fun he => hidle ⟨p, List.mem_of_getElem? hp, he, hpb⟩
      · obtain hq | ⟨hj, rfl⟩ := get_of_concat hq
        · exact fun he => hidle ⟨q, List.mem_of_getElem? hq, he.symm, hqb⟩
        · exact absurd (hi.trans hj.symm) hij
  · exact hs

/-- A step keeps the invariant of files where a run makes them of files that have it. -/
theorem inv_step {G : Event F → Prop} {e : Event F}
    (hP : ∀ req answers stamp readable old bytes, G (.start req answers stamp readable) →
      (∀ b, old = some b → P req.target b) → prepare W req answers stamp old = .ok bytes →
      P req.target bytes)
    (hs : Inv P s) (he : G e) (hapart : Apart s e) (h : step W s e = some u) : Inv P u := by
  cases e with
  | start req answers stamp readable =>
    obtain rfl := Option.some.inj h
    exact inv_begin hs hapart fun old bytes => hP req answers stamp readable old bytes he
  | act i o => exact inv_act hs h
  | crash =>
    obtain rfl := Option.some.inj h
    exact inv_idle rfl hs.files

theorem inv_run {G : Event F → Prop} {es : List (Event F)}
    (hP : ∀ req answers stamp readable old bytes, G (.start req answers stamp readable) →
      (∀ b, old = some b → P req.target b) → prepare W req answers stamp old = .ok bytes →
      P req.target bytes)
    (hs : Inv P s) (hG : ∀ e ∈ es, G e) (hapart : Along (step W) Apart s es)
    (hrun : exec (step W) s es = some u) : Inv P u :=
  exec_invariant_along (fun _ _ _ hi hc ht => inv_step hP hi hc.1 hc.2 ht) hs
    (along_and (along_of_forall s hG) hapart) hrun

theorem begin_disk (s : State) (req : UpdateRequest F) (answers : Answers) (stamp : Str)
    (readable : Bool) : (begin W s req answers stamp readable).disk = s.disk := by
  rw [begin]
  split <;> rfl

/-- A file that is there stays there. -/
theorem present_step {t : Target} {e : Event F} (h : step W s e = some u)
    (hs : (s.disk (name t .file)).isSome = true) : (u.disk (name t .file)).isSome = true := by
  cases e with
  | start req answers stamp readable =>
    obtain rfl := Option.some.inj h
    rwa [begin_disk]
  | crash =>
    obtain rfl := Option.some.inj h
    exact hs
  | act i o =>
    obtain ⟨t', keep, a, todo, -, rfl⟩ := act_cases h
    change ((perform t' s.disk a o).1 (name t .file)).isSome = true
    by_cases ht : t' ≠ t ∨ .file ∉ a.slots
    · rwa [perform_frame ht]
    · obtain ⟨rfl, ha⟩ : t' = t ∧ .file ∈ a.slots := by
        simpa only [not_or, not_not] using ht
      obtain rfl : a = .rename := by cases a <;> simp [Action.slots] at ha ⊢
      cases hgo : (perform t' s.disk .rename o).2 with
      | false => rwa [perform_rename_stop hgo]
      | true =>
        obtain ⟨b, -, hb⟩ := perform_rename hgo
        rw [hb]
        rfl

end Invariant

section Sample

/-- The key, the signature and the message of a published test of Ed25519. -/
def sampleKey : Str := "3d4017c3e843895a92b70aa74d1b7ebc9c982ccf2ec4968cc0cd55f12af4660c".toList

def sampleSignature : List UInt8 :=
  [0x92, 0xa0, 0x09, 0xa9, 0xf0, 0xd4, 0xca, 0xb8, 0x72, 0x0e, 0x82, 0x0b, 0x5f, 0x64, 0x25, 0x40,
    0xa2, 0xb2, 0x7b, 0x54, 0x16, 0x50, 0x3f, 0x8f, 0xb3, 0x76, 0x22, 0x23, 0xeb, 0xdb, 0x69, 0xda,
    0x08, 0x5a, 0xc1, 0xe4, 0x3e, 0x15, 0x99, 0x6e, 0x45, 0x8f, 0x36, 0x13, 0xd0, 0xf1, 0x1d, 0x8c,
    0x38, 0x7b, 0x2e, 0xae, 0xb4, 0x30, 0x2a, 0xee, 0xb0, 0x0d, 0x29, 0x16, 0x12, 0xbb, 0x0c, 0x00]

def sampleMessage : List UInt8 := [0x72]

def sampleEd25519 : Ed25519 where
  isKey key := hexDecode sampleKey = some key
  verifies key bytes sig :=
    hexDecode sampleKey = some key && bytes = sampleMessage && sig = sampleSignature

def sampleWorld : World ℚ := ⟨noReaders, rationals, sampleEd25519, fun _ => .error []⟩

def sampleRequest : UpdateRequest ℚ :=
  ⟨.csamJargon, .replace, ['u'], sampleKey, true, 3, 1000, 0⟩

def sampleAnswers : Answers :=
  ⟨.ok (some 1) sampleMessage false, .ok (some 64) sampleSignature false⟩

def oldTerms : List UInt8 := [0x61]

def sampleStart : State := ⟨put (fun _ => none) .csamJargon .file (some oldTerms), [], []⟩

/-- A run is started and does so many operations. -/
def sampleRun (n : Nat) : List (Event ℚ) :=
  .start sampleRequest sampleAnswers [] true :: List.replicate n (.act 0 .done)

theorem sample_renamed : ((exec (step sampleWorld) sampleStart (sampleRun 9)).map fun u =>
    (u.disk (name .csamJargon .file), u.runs.all (·.todo = []))) =
      some (some sampleMessage, true) := by
  decide +kernel

theorem sample_synced : ((exec (step sampleWorld) sampleStart (sampleRun 8)).map fun u =>
    u.disk (name .csamJargon .file)) = some (some oldTerms) := by
  decide +kernel

theorem acts_along {C : State → Event ℚ → Prop} (hact : ∀ s, C s (.act 0 .done)) (n : Nat)
    (s : State) : Along (step sampleWorld) C s (List.replicate n (.act 0 .done)) := by
  induction n generalizing s with
  | zero => trivial
  | succ n ih => exact ⟨hact s, fun t _ => ih t⟩

theorem sample_along {C : State → Event ℚ → Prop}
    (hstart : C sampleStart (.start sampleRequest sampleAnswers [] true))
    (hact : ∀ s, C s (.act 0 .done)) (n : Nat) :
    Along (step sampleWorld) C sampleStart (sampleRun n) :=
  ⟨hstart, fun t _ => acts_along hact n t⟩

theorem sample_idle (t : Target) : ¬ Busy sampleStart t :=
  not_busy fun _ hp => absurd hp List.not_mem_nil

theorem sample_apart (n : Nat) : Along (step sampleWorld) Apart sampleStart (sampleRun n) :=
  sample_along (sample_idle _) (fun _ => trivial) n

theorem sample_valid {t : Target} {b : List UInt8} (h : sampleStart.disk (name t .file) = some b) :
    ∃ n, validate noReaders t b = .ok n := by
  replace h : put (fun _ => none) .csamJargon .file (some oldTerms) (name t .file) = some b := h
  by_cases ht : Target.csamJargon = t
  · subst ht
    rw [put_same] at h
    obtain rfl := Option.some.inj h
    exact ⟨1, by decide⟩
  · rw [put_other (.inl ht)] at h
    cases h

end Sample

section Results

variable {F : Type} [LinearOrder F] [Zero F] {W : World F} {s u : State} {es : List (Event F)}

/-- However the runs of different targets interleave, whatever operations fail and wherever the
server dies: a list that was there is there, and where the lists were valid they are valid. -/
theorem files_valid (hidle : s.runs = [])
    (hvalid : ∀ t b, s.disk (name t .file) = some b → ∃ n, validate W.readers t b = .ok n)
    (hapart : Along (step W) Apart s es) (hrun : exec (step W) s es = some u) :
    ∀ t, ((s.disk (name t .file)).isSome = true → (u.disk (name t .file)).isSome = true) ∧
      ∀ b, u.disk (name t .file) = some b → ∃ n, validate W.readers t b = .ok n := by
  intro t
  refine ⟨fun h => exec_invariant (fun _ _ _ h ht => present_step ht h) h hrun, ?_⟩
  refine (inv_run (G := fun _ => True) ?_ (inv_idle hidle hvalid) (fun _ _ => trivial) hapart
    hrun).files t
  exact fun req answers stamp readable old bytes _ _ h => (prepared h).valid

theorem files_valid_sample : ∃ u, exec (step sampleWorld) sampleStart (sampleRun 9) = some u ∧
    u.disk (name .csamJargon .file) = some sampleMessage ∧
      ∃ n, validate noReaders .csamJargon sampleMessage = .ok n := by
  obtain ⟨u, hu, h⟩ := Option.map_eq_some_iff.mp sample_renamed
  have hfile : u.disk (name .csamJargon .file) = some sampleMessage := congrArg Prod.fst h
  exact ⟨u, hu, hfile,
    (files_valid rfl (fun _ _ => sample_valid) (sample_apart 9) hu .csamJargon).2 _ hfile⟩

/-- Two runs of one list, of which the second has just created the file that the first renames. -/
def overlappingRuns : List (Event ℚ) :=
  .start sampleRequest sampleAnswers [] true :: .start sampleRequest sampleAnswers [] true ::
    (List.replicate 8 (.act 0 .done) ++ List.replicate 6 (.act 1 .done) ++ [.act 0 .done])

/-- Runs of one list that overlap may install nothing at all. -/
theorem overlap_empties : (exec (step sampleWorld) sampleStart overlappingRuns).map (fun u =>
    (u.disk (name .csamJargon .file)).map (validate noReaders .csamJargon)) =
      some (some (.error .noTerms)) := by
  decide +kernel

/-- The bytes come from the start and from signed files alone. -/
inductive Trusted (W : World F) (key : Str) (start : Disk) (t : Target) : List UInt8 → Prop
  | start {b : List UInt8} : start (name t .file) = some b → Trusted W key start t b
  | made {url stamp : Str} {mode : Mode} {old : Option (List UInt8)}
      {fetched content bytes : List UInt8} : Signed W.ed25519 key fetched →
      extract W url fetched = .ok content → (∀ b, old = some b → Trusted W key start t b) →
      finalBytes mode stamp old content = some bytes → Trusted W key start t bytes

/-- The request asks for a signature under the key. -/
def Signing (key : Str) : Event F → Prop
  | .start req _ _ _ => req.requireSignature = true ∧ req.publicKeyHex = key
  | _ => True

/-- While every run asks for a signature under one key, nothing gets into the lists but what was
there at the start and what is made of files signed under the key. -/
theorem files_trusted {key : Str} (hidle : s.runs = []) (hsigning : ∀ e ∈ es, Signing key e)
    (hapart : Along (step W) Apart s es) (hrun : exec (step W) s es = some u) {t : Target}
    {b : List UInt8} (hb : u.disk (name t .file) = some b) : Trusted W key s.disk t b := by
  refine (inv_run (P := Trusted W key s.disk) ?_ (inv_idle hidle fun t b => .start) hsigning
    hapart hrun).files t b hb
  intro req answers stamp readable old bytes hG hold h
  obtain ⟨fetched, content, -, hsigned, hcontent, hfinal⟩ := (prepared h).source
  exact .made (hG.2 ▸ hsigned hG.1) hcontent hold hfinal

theorem files_trusted_sample :
    Trusted sampleWorld sampleKey sampleStart.disk .csamJargon sampleMessage := by
  obtain ⟨u, hu, h⟩ := Option.map_eq_some_iff.mp sample_renamed
  refine files_trusted rfl (fun e he => ?_) (sample_apart 9) hu (congrArg Prod.fst h)
  obtain rfl | he := List.mem_cons.mp he
  · exact ⟨rfl, rfl⟩
  · obtain rfl := List.eq_of_mem_replicate he
    trivial

/-- A list is only changed by the last operation of a run of its own, and where that keeps backups
the first of them is then what the list was. -/
theorem replaced_saved (hidle : s.runs = []) (hapart : Along (step W) Apart s es)
    (hrun : exec (step W) s es = some u) {e : Event F} {v : State} (hstep : step W u e = some v)
    {t : Target} {b : List UInt8} (hb : u.disk (name t .file) = some b)
    (hne : v.disk (name t .file) ≠ some b) :
    ∃ i o keep, e = .act i o ∧ u.runs[i]? = some ⟨t, keep, [.rename]⟩ ∧
      (keep ≠ 0 → v.disk (name t (.backup 1)) = some b) := by
  have hu : Inv (fun _ _ => True) u := inv_run (G := fun _ => True)
    (fun _ _ _ _ _ _ _ _ _ => trivial) (inv_idle hidle fun _ _ _ => trivial)
    (fun _ _ => trivial) hapart hrun
  cases e with
  | start req answers stamp readable =>
    obtain rfl := Option.some.inj hstep
    rw [begin_disk] at hne
    exact absurd hb hne
  | crash =>
    obtain rfl := Option.some.inj hstep
    exact absurd hb hne
  | act i o =>
    obtain ⟨t', keep, a, todo, hp, rfl⟩ := act_cases hstep
    replace hne : (perform t' u.disk a o).1 (name t .file) ≠ some b := hne
    have ht : t' = t := by
      by_contra ht
      rw [perform_frame (.inl ht)] at hne
      exact hne hb
    subst ht
    have hinv := hu.runs i _ hp
    obtain hsame | ⟨rfl, rfl, -, -⟩ := file_cases hinv.stage o
    · rw [hsame] at hne
      exact absurd hb hne
    · refine ⟨i, o, keep, rfl, hp, fun hkeep => ?_⟩
      have hsaved := hinv.saved (List.cons_ne_nil _ _) (by simp) hkeep
      rw [hb] at hsaved
      exact (perform_frame (.inr (by simp [Action.slots])) o).trans (hsaved.resolve_left (by simp))

theorem replaced_saved_sample : ∃ u v, exec (step sampleWorld) sampleStart (sampleRun 8) = some u ∧
    step sampleWorld u (.act 0 .done) = some v ∧
      ∃ i o keep, (.act 0 .done : Event ℚ) = .act i o ∧
        u.runs[i]? = some ⟨.csamJargon, keep, [.rename]⟩ ∧
          (keep ≠ 0 → v.disk (name .csamJargon (.backup 1)) = some oldTerms) := by
  obtain ⟨v, hv, h⟩ := Option.map_eq_some_iff.mp sample_renamed
  obtain ⟨u, hu, hold⟩ := Option.map_eq_some_iff.mp sample_synced
  have hstep : step sampleWorld u (.act 0 .done) = some v := by
    obtain ⟨u', hu', hstep⟩ := exec_concat_eq_some.mp (show exec (step sampleWorld) sampleStart
      (sampleRun 8 ++ [.act 0 .done]) = some v from hv)
    rwa [Option.some.inj (hu.symm.trans hu')]
  refine ⟨u, v, hu, hstep, replaced_saved rfl (sample_apart 8) hu hstep hold ?_⟩
  rw [show v.disk (name .csamJargon .file) = some sampleMessage from congrArg Prod.fst h]
  decide

end Results

end Ed2kServer.Updates.Run
