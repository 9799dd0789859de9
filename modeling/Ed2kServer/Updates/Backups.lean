import Ed2kServer.Updates.Run

namespace Ed2kServer.Updates.Backups

open Ed2kServer.Lib.Transition Ed2kServer.Updates.Validate Ed2kServer.Updates.Fetch
open Ed2kServer.Updates.Run

/-- The backups of a file, the first of them at zero. -/
def backups (d : Disk) (t : Target) (j : Nat) : Option (List UInt8) := d (name t (.backup (j + 1)))

/-- What renames have replaced of one file, the latest first. -/
def replacedOf (t : Target) (log : List (Target × List UInt8)) : List (List UInt8) :=
  log.filterMap fun entry => if entry.1 = t then some entry.2 else none

def shifts (n : Nat) : List Action := (List.range' 1 n).reverse.map .shift

variable {F : Type}

/-- The runs of the target go through one after the other, and keep so many backups. -/
def Steady (keep : Nat) (t : Target) (s : State) : Event F → Prop
  | .start req _ _ _ => req.target = t → req.backups.toNat = keep
  | .act i o => ∀ p, s.runs[i]? = some p → p.target = t → o = .done
  | .crash => ¬ Busy s t

section Rotation

variable {keep : Nat} {held : List (List UInt8)} {file : Option (List UInt8)}
  {B : Nat → Option (List UInt8)} {Q : List UInt8 → Prop} {t : Target} {d : Disk} {a : Action}
  {todo : List Action}

theorem shifts_succ (n : Nat) : shifts (n + 1) = .shift (n + 1) :: shifts n := by
  rw [shifts, shifts, List.range'_1_concat, List.reverse_append, Nat.add_comm]
  rfl

/-- How far a run has brought the backups, which held `held` before it. -/
inductive Rotation (keep : Nat) (held : List (List UInt8)) (file : Option (List UInt8))
    (B : Nat → Option (List UInt8)) (todo : List Action) : Prop
  | full {b : List UInt8} :
      todo = .removeOldest keep :: (shifts (keep - 1) ++ .copy :: installAtomic b) → 0 < keep →
      file.isSome = true → (∀ j < keep, B j = held[j]?) → Rotation keep held file B todo
  | moved (n : Nat) {b : List UInt8} : todo = shifts n ++ .copy :: installAtomic b → n < keep →
      file.isSome = true → (∀ j < n, B j = held[j]?) → B n = none →
      (∀ j, n ≤ j → j + 1 < keep → B (j + 1) = held[j]?) → Rotation keep held file B todo
  | kept : (∀ a ∈ todo, ∀ n, .backup n ∉ a.slots) →
      (∀ j < keep, B j = (file.toList ++ held)[j]?) → Rotation keep held file B todo

theorem rotation_begin (b : List UInt8) (hB : ∀ j < keep, B j = held[j]?) :
    Rotation keep held file B (rotateBackups keep file.isSome ++ installAtomic b) := by
  rw [rotateBackups]
  split
  · rename_i h
    refine .kept (by simp [installAtomic, Action.slots]) fun j hj => ?_
    obtain h | h := h
    · omega
    · have hnone : file = none := Option.not_isSome_iff_eq_none.mp (Bool.eq_false_iff.mp h)
      rw [hnone]
      exact hB j hj
  · rename_i h
    obtain ⟨hkeep, hfile⟩ := not_or.mp h
    refine .full (b := b) ?_ (Nat.pos_of_ne_zero hkeep) (Bool.eq_true_of_not_eq_false hfile) hB
    rw [List.cons_append, List.append_assoc]
    rfl

theorem backups_put_same (d : Disk) (t : Target) (n : Nat) (b : Option (List UInt8)) :
    backups (put d t (.backup (n + 1)) b) t n = b := put_same _ _ _ _

theorem backups_put_other {n j : Nat} {b : Option (List UInt8)} (h : n ≠ j + 1) :
    backups (put d t (.backup n) b) t j = backups d t j :=
  put_other (.inr fun he => h (Slot.backup.inj he))

theorem rotation_remove (hkeep : 0 < keep) (hfile : (d (name t .file)).isSome = true)
    (hB : ∀ j < keep, backups d t j = held[j]?) (b : List UInt8) :
    Rotation keep held ((perform t d (.removeOldest keep) .done).1 (name t .file))
      (backups (perform t d (.removeOldest keep) .done).1 t)
      (shifts (keep - 1) ++ .copy :: installAtomic b) := by
  have hpred : keep = keep - 1 + 1 := by omega
  refine .moved (keep - 1) rfl (by omega) ?_ ?_ ?_ ?_
  · rwa [perform_frame (.inr (by simp [Action.slots]))]
  · intro j hj
    exact (backups_put_other (by omega)).trans (hB j (by omega))
  · rw [perform]
    conv_lhs => rw [hpred]
    exact backups_put_same d t (keep - 1) none
  · omega

theorem rotation_shift {n : Nat} (hn : n + 1 < keep) (hfile : (d (name t .file)).isSome = true)
    (hlow : ∀ j < n + 1, backups d t j = held[j]?) (hfree : backups d t (n + 1) = none)
    (hhigh : ∀ j, n + 1 ≤ j → j + 1 < keep → backups d t (j + 1) = held[j]?) (b : List UInt8) :
    (perform t d (.shift (n + 1)) .done).2 = true ∧
      Rotation keep held ((perform t d (.shift (n + 1)) .done).1 (name t .file))
        (backups (perform t d (.shift (n + 1)) .done).1 t)
        (shifts n ++ .copy :: installAtomic b) := by
  have hfile' : ((perform t d (.shift (n + 1)) .done).1 (name t .file)).isSome = true := by
    rwa [perform_frame (.inr (by simp [Action.slots]))]
  have hn' : d (name t (.backup (n + 1))) = held[n]? := hlow n (by omega)
  cases hb : held[n]? with
  | none =>
    rw [hb] at hn'
    have hsame : perform t d (.shift (n + 1)) .done = (d, true) := by rw [perform, hn']
    rw [hsame]
    refine ⟨rfl, .moved n rfl (by omega) hfile (fun j hj => hlow j (by omega)) hn' ?_⟩
    intro j hj hlt
    obtain rfl | hne := Nat.eq_or_lt_of_le hj
    · rw [hfree, hb]
    · exact hhigh j hne hlt
  | some c =>
    rw [hb] at hn'
    have hmove : perform t d (.shift (n + 1)) .done =
        (put (put d t (.backup (n + 1)) none) t (.backup (n + 2)) (some c), true) := by
      rw [perform, hn']
    rw [hmove] at hfile' ⊢
    have hother : ∀ j, j ≠ n → j ≠ n + 1 →
        backups (put (put d t (.backup (n + 1)) none) t (.backup (n + 2)) (some c)) t j =
          backups d t j := fun j h h' =>
      (backups_put_other (by omega)).trans (backups_put_other (by omega))
    refine ⟨rfl, .moved n rfl (by omega) hfile' ?_ ?_ ?_⟩
    · intro j hj
      rw [hother j (by omega) (by omega)]
      exact hlow j (by omega)
    · exact (backups_put_other (by omega)).trans (backups_put_same _ _ _ _)
    · intro j hj hlt
      obtain rfl | hne := Nat.eq_or_lt_of_le hj
      · rw [backups_put_same, hb]
      · rw [hother (j + 1) (by omega) (by omega)]
        exact hhigh j hne hlt

theorem rotation_copy (hfile : (d (name t .file)).isSome = true)
    (hhigh : ∀ j, j + 1 < keep → backups d t (j + 1) = held[j]?) (b : List UInt8) :
    (perform t d .copy .done).2 = true ∧
      Rotation keep held ((perform t d .copy .done).1 (name t .file))
        (backups (perform t d .copy .done).1 t) (installAtomic b) := by
  obtain ⟨c, hc⟩ := Option.isSome_iff_exists.mp hfile
  have hcopy : perform t d .copy .done = (put d t (.backup 1) (some c), true) := by
    rw [perform, hc]
  rw [hcopy]
  refine ⟨rfl, .kept (by simp [installAtomic, Action.slots]) fun j hj => ?_⟩
  simp only [put_other (.inr (show Slot.backup 1 ≠ .file by simp)), hc]
  cases j with
  | zero => exact backups_put_same d t 0 _
  | succ j =>
    rw [backups_put_other (by omega)]
    exact hhigh j hj

/-- An operation that goes through brings the backups on; after the last they are full again, with
what it replaced in front. -/
theorem rotation_step
    (h : Rotation keep held (d (name t .file)) (backups d t) (a :: todo))
    (hstage : Stage Q (d (name t .temp)) (a :: todo)) :
    (perform t d a .done).2 = true ∧
      (a = .rename ∧ todo = [] ∧
          (∀ j < keep, backups (perform t d a .done).1 t j =
            ((d (name t .file)).toList ++ held)[j]?) ∨
        a ≠ .rename ∧ todo ≠ [] ∧
          Rotation keep held ((perform t d a .done).1 (name t .file))
            (backups (perform t d a .done).1 t) todo) := by
  cases h with
  | full htodo hkeep hfile hB =>
    obtain ⟨rfl, rfl⟩ := List.cons.inj htodo
    exact ⟨rfl, .inr ⟨by simp, by simp, rotation_remove hkeep hfile hB _⟩⟩
  | moved n htodo hn hfile hlow hfree hhigh =>
    cases n with
    | zero =>
      obtain ⟨rfl, rfl⟩ := List.cons.inj htodo
      obtain ⟨hgo, hnext⟩ := rotation_copy hfile (fun j => hhigh j (Nat.zero_le j)) _
      exact ⟨hgo, .inr ⟨by simp, by simp [installAtomic], hnext⟩⟩
    | succ n =>
      rw [shifts_succ] at htodo
      obtain ⟨rfl, rfl⟩ := List.cons.inj htodo
      obtain ⟨hgo, hnext⟩ := rotation_shift hn hfile hlow hfree hhigh _
      exact ⟨hgo, .inr ⟨by simp, by simp, hnext⟩⟩
  | kept hslots hB =>
    obtain ⟨hhead, htail⟩ := List.forall_mem_cons.mp hslots
    have hframe : ∀ j, backups (perform t d a .done).1 t j = backups d t j := fun j =>
      perform_frame (.inr (hhead _)) _
    have hstep : .file ∉ a.slots → Rotation keep held ((perform t d a .done).1 (name t .file))
        (backups (perform t d a .done).1 t) todo := by
      intro hfile
      refine .kept htail fun j hj => ?_
      rw [hframe, perform_frame (.inr hfile)]
      exact hB j hj
    cases hstage with
    | rename htemp hb =>
      refine ⟨by rw [perform, htemp], .inl ⟨rfl, rfl, fun j hj => ?_⟩⟩
      rw [hframe]
      exact hB j hj
    | sync | write | create | createDir =>
      exact ⟨rfl, .inr ⟨by simp, by simp, hstep (by simp [Action.slots])⟩⟩
    | copy hb => exact absurd (List.mem_singleton.mpr rfl) (hhead 1)
    | rotate hfile htemp hin h => exact absurd (List.mem_singleton.mpr rfl) (htail _ hin 1)

end Rotation

section Results

variable [LinearOrder F] [Zero F] {W : World F} {keep : Nat} {t : Target}
  {held : List (List UInt8)} {s u : State} {es : List (Event F)} {o : Outcome}

/-- Between the runs of a file its backups are the latest contents it had. -/
structure Kept (keep : Nat) (t : Target) (held : List (List UInt8)) (s : State) : Prop where
  inv : Inv (fun _ _ => True) s
  busy : ∀ p ∈ s.runs, p.target = t → p.todo ≠ [] →
    Rotation keep (replacedOf t s.replaced ++ held) (s.disk (name t .file)) (backups s.disk t)
      p.todo
  idle : ¬ Busy s t → ∀ j < keep, backups s.disk t j = (replacedOf t s.replaced ++ held)[j]?

theorem replacedOf_append (t : Target) (log log' : List (Target × List UInt8)) :
    replacedOf t (log ++ log') = replacedOf t log ++ replacedOf t log' := List.filterMap_append

theorem replacedBy_other {t' : Target} (ht : t' ≠ t) (a : Action) (go : Bool) :
    replacedOf t (replacedBy s t' a go) = [] := by
  rw [replacedBy]
  split
  · cases s.disk (name t' .file) with
    | none => rfl
    | some b => simp [replacedOf, ht]
  · rfl

theorem replacedBy_rename : replacedOf t (replacedBy s t .rename true) =
    (s.disk (name t .file)).toList := by
  rw [replacedBy, if_pos ⟨rfl, rfl⟩]
  cases s.disk (name t .file) with
  | none => rfl
  | some b => simp [replacedOf]

theorem replacedBy_not_rename {a : Action} (ha : a ≠ .rename) (go : Bool) :
    replacedBy s t a go = [] := if_neg fun h => ha h.1

/-- A run of the file takes a step. -/
theorem kept_own {i k : Nat} {a : Action} {todo : List Action} (hs : Kept keep t held s)
    (hi : s.runs[i]? = some ⟨t, k, a :: todo⟩) (hu : Inv (fun _ _ => True) u)
    (hdisk : u.disk = (perform t s.disk a .done).1)
    (hruns : u.runs = s.runs.set i ⟨t, k, if (perform t s.disk a .done).2 then todo else []⟩)
    (hlog : u.replaced = replacedBy s t a (perform t s.disk a .done).2 ++ s.replaced) :
    Kept keep t held u := by
  have hrot := hs.busy _ (List.mem_of_getElem? hi) rfl (List.cons_ne_nil _ _)
  obtain ⟨hgo, hnext⟩ := rotation_step hrot (hs.inv.runs i _ hi).stage
  have hlt : i < s.runs.length := (List.getElem?_eq_some_iff.mp hi).1
  rw [hgo, if_pos rfl] at hruns
  rw [hgo] at hlog
  have hother : ∀ p ∈ u.runs, p.target = t → p.todo ≠ [] → p.todo = todo := fun p hp =>
    own_todo hs.inv hi (hruns ▸ hp)
  obtain ⟨rfl, rfl, hfull⟩ | ⟨ha, hne, hnext⟩ := hnext
  · refine ⟨hu, fun p hp ht hne => absurd (hother p hp ht hne) hne, fun _ j hj => ?_⟩
    rw [hlog, replacedOf_append, replacedBy_rename, List.append_assoc, hdisk]
    exact hfull j hj
  · refine ⟨hu, fun p hp ht hp' => ?_, fun hidle => ?_⟩
    · rw [hother p hp ht hp', hlog, replacedBy_not_rename ha, hdisk]
      exact hnext
    · have hmem : ⟨t, k, todo⟩ ∈ u.runs := hruns ▸ List.mem_set hlt _
      exact absurd ⟨_, hmem, rfl, hne⟩ hidle

/-- A run of another file takes a step. -/
theorem kept_other {i k : Nat} {t' : Target} {a : Action} {todo todo' : List Action} {go : Bool}
    (ht : t' ≠ t) (hs : Kept keep t held s) (hi : s.runs[i]? = some ⟨t', k, a :: todo⟩)
    (hu : Inv (fun _ _ => True) u) (hdisk : u.disk = (perform t' s.disk a o).1)
    (hruns : u.runs = s.runs.set i ⟨t', k, todo'⟩)
    (hlog : u.replaced = replacedBy s t' a go ++ s.replaced) : Kept keep t held u := by
  have hframe : ∀ slot, u.disk (name t slot) = s.disk (name t slot) := fun slot =>
    hdisk ▸ perform_frame (.inl ht) o
  have hbackups : backups u.disk t = backups s.disk t := funext fun j => hframe _
  have hsame : replacedOf t u.replaced = replacedOf t s.replaced := by
    rw [hlog, replacedOf_append, replacedBy_other ht, List.nil_append]
  have hmem : ∀ p, p.target = t → (p ∈ u.runs ↔ p ∈ s.runs) := fun p htarget => by
    rw [hruns]
    exact mem_set_other ht hi htarget
  refine ⟨hu, fun p hp htarget hne => ?_, fun hidle => ?_⟩
  · rw [hframe, hbackups, hsame]
    exact hs.busy p ((hmem p htarget).mp hp) htarget hne
  · rw [hbackups, hsame]
    exact hs.idle (mt (Busy.mono fun p hp htarget => (hmem p htarget).mpr hp) hidle)

theorem kept_begin {req : UpdateRequest F} {answers : Answers} {stamp : Str} {readable : Bool}
    (hs : Kept keep t held s) (hidle : ¬ Busy s req.target)
    (hkeep : req.target = t → req.backups.toNat = keep) :
    Kept keep t held (begin W s req answers stamp readable) := by
  have hinv : Inv (fun _ _ => True) (begin W s req answers stamp readable) :=
    inv_begin hs.inv hidle fun _ _ _ _ => trivial
  rw [begin] at hinv ⊢
  split at hinv
  · rename_i bytes hbytes
    refine ⟨hinv, fun p hp htarget hne => ?_, fun hnot => ?_⟩
    · obtain hp | hp := List.mem_append.mp hp
      · exact hs.busy p hp htarget hne
      · obtain rfl := List.mem_singleton.mp hp
        obtain rfl : req.target = t := htarget
        rw [← hkeep rfl]
        exact rotation_begin bytes (hkeep rfl ▸ hs.idle hidle)
    · exact hs.idle (mt (Busy.mono fun p hp _ => List.mem_append_left _ hp) hnot)
  · exact hs

theorem kept_step {e : Event F} (hs : Kept keep t held s) (he : Apart s e ∧ Steady keep t s e)
    (h : step W s e = some u) : Kept keep t held u := by
  obtain ⟨hapart, hsteady⟩ := he
  cases e with
  | start req answers stamp readable =>
    obtain rfl := Option.some.inj h
    exact kept_begin hs hapart hsteady
  | crash =>
    obtain rfl := Option.some.inj h
    refine ⟨inv_idle rfl hs.inv.files, fun p hp => ?_, fun _ => hs.idle hsteady⟩
    cases hp
  | act i o =>
    have hinv := inv_act hs.inv h
    obtain ⟨t', k, a, todo, hi, rfl⟩ := act_cases h
    by_cases ht : t' = t
    · subst ht
      obtain rfl := hsteady _ hi rfl
      exact kept_own hs hi hinv rfl rfl rfl
    · exact kept_other ht hs hi hinv rfl rfl rfl

/-- While the runs of a list go through and keep so many backups, these are between its runs the
latest contents of the list, as far as they go: the first what the last install replaced. Failures
of other lists and crashes between its runs do not matter. -/
theorem backups_history (hidle : s.runs = [])
    (hheld : ∀ j < keep, backups s.disk t j = (replacedOf t s.replaced ++ held)[j]?)
    (hsteady : Along (step W) (fun s e => Apart s e ∧ Steady keep t s e) s es)
    (hrun : exec (step W) s es = some u) (hended : ¬ Busy u t) :
    ∀ j < keep, backups u.disk t j = (replacedOf t u.replaced ++ held)[j]? := by
  have hs : Kept keep t held s := by
    refine ⟨inv_idle hidle fun _ _ _ => trivial, fun p hp => ?_, fun _ => hheld⟩
    rw [hidle] at hp
    cases hp
  exact (exec_invariant_along (fun _ _ _ hi he h => kept_step hi he h) hs hsteady hrun).idle hended

theorem backups_history_sample : ∃ u, exec (step sampleWorld) sampleStart (sampleRun 9) = some u ∧
    ∀ j < 3, backups u.disk .csamJargon j = (replacedOf .csamJargon u.replaced ++ [])[j]? := by
  obtain ⟨u, hu, h⟩ := Option.map_eq_some_iff.mp sample_renamed
  have hended : ∀ p ∈ u.runs, p.todo = [] := by
    simpa using congrArg Prod.snd h
  have hsteady : Along (step sampleWorld) (fun s e => Apart s e ∧ Steady 3 .csamJargon s e)
      sampleStart (sampleRun 9) :=
    sample_along ⟨sample_idle _, fun _ => rfl⟩ (fun _ => ⟨trivial, fun _ _ _ => rfl⟩) 9
  have hnone : ∀ j, backups sampleStart.disk .csamJargon j = none := by
    intro j
    have hne : Slot.file ≠ .backup (j + 1) := by simp
    exact (put_other (.inr hne) :
      put _ .csamJargon .file (some oldTerms) (name .csamJargon (.backup (j + 1))) = _)
  exact ⟨u, hu, backups_history rfl (fun j _ => hnone j) hsteady hu (not_busy hended)⟩

end Results

end Ed2kServer.Updates.Backups
