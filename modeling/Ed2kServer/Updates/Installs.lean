import Ed2kServer.Updates.Run

namespace Ed2kServer.Updates.Installs

open Ed2kServer.Lib.Transition Ed2kServer.Slab.Record Ed2kServer.Updates.Validate
open Ed2kServer.Updates.Fetch Ed2kServer.Updates.Run

variable {F : Type}

/-- Nothing of the target fails, and no further run of it is started. -/
def Unhindered (t : Target) (s : State) : Event F → Prop
  | .start req _ _ _ => req.target ≠ t
  | .act i o => ∀ p, s.runs[i]? = some p → p.target = t → o = .done
  | .crash => ¬ Busy s t

/-- The target's file is the bytes, or a run is under way that makes it so. -/
structure Installing (t : Target) (bytes : List UInt8) (s : State) : Prop where
  inv : Inv (fun _ _ => True) s
  stage : ∀ p ∈ s.runs, p.target = t → p.todo ≠ [] →
    Stage (· = bytes) (s.disk (name t .temp)) p.todo
  present : ∀ p ∈ s.runs, p.target = t → .copy ∈ p.todo → (s.disk (name t .file)).isSome = true
  idle : ¬ Busy s t → s.disk (name t .file) = some bytes

section Steps

variable {Q : List UInt8 → Prop} {t : Target} {d : Disk} {a : Action} {todo : List Action}
  {bytes : List UInt8} {s u : State} {o : Outcome}

/-- An operation that does not fail lets its run go on. -/
theorem goes_on (h : Stage Q (d (name t .temp)) (a :: todo))
    (hpresent : .copy ∈ a :: todo → (d (name t .file)).isSome = true) :
    (perform t d a .done).2 = true := by
  have hcopy : .copy ∈ a :: todo → (perform t d .copy .done).2 = true := by
    intro hin
    obtain ⟨c, hc⟩ := Option.isSome_iff_exists.mp (hpresent hin)
    rw [perform, hc]
  cases h with
  | rename htemp hb => rw [perform, htemp]
  | sync | write | create | createDir => rfl
  | copy hb => exact hcopy List.mem_cons_self
  | rotate hfile htemp hin h =>
    cases a with
    | removeOldest | createDir | sync => rfl
    | shift n =>
      rw [perform]
      split <;> rfl
    | copy => exact hcopy List.mem_cons_self
    | create | write | rename => exact absurd List.mem_cons_self htemp

/-- A run of the target takes a step. -/
theorem installing_own {i k : Nat} (hs : Installing t bytes s)
    (hi : s.runs[i]? = some ⟨t, k, a :: todo⟩) (hu : Inv (fun _ _ => True) u)
    (hdisk : u.disk = (perform t s.disk a .done).1)
    (hruns : u.runs = s.runs.set i ⟨t, k, if (perform t s.disk a .done).2 then todo else []⟩) :
    Installing t bytes u := by
  have hmem := List.mem_of_getElem? hi
  have hstage := hs.stage _ hmem rfl (List.cons_ne_nil _ _)
  have hgo := goes_on hstage (hs.present _ hmem rfl)
  rw [hgo, if_pos rfl] at hruns
  have hnext : ∀ p ∈ u.runs, p.target = t → p.todo ≠ [] → p.todo = todo := fun p hp =>
    own_todo hs.inv hi (hruns ▸ hp)
  refine ⟨hu, fun p hp ht hne => ?_, fun p hp ht hin => ?_, fun hidle => ?_⟩
  · rw [hnext p hp ht hne, hdisk]
    exact stage_next hstage hgo
  · have hin' : .copy ∈ todo := hnext p hp ht (List.ne_nil_of_mem hin) ▸ hin
    obtain hsame | ⟨-, hnil, -⟩ := file_cases hstage .done
    · rw [hdisk, hsame]
      exact hs.present _ hmem rfl (List.mem_cons_of_mem _ hin')
    · rw [hnil] at hin'
      cases hin'
  · have hnil : todo = [] := by
      by_contra hne
      have hlt : i < s.runs.length := (List.getElem?_eq_some_iff.mp hi).1
      have hown : ⟨t, k, todo⟩ ∈ u.runs := hruns ▸ List.mem_set hlt _
      exact hidle ⟨_, hown, rfl, hne⟩
    subst hnil
    cases hstage with
    | rename htemp hb =>
      obtain ⟨b, hb', hfile⟩ := perform_rename hgo
      rw [htemp] at hb'
      rw [hdisk, hfile, ← hb', hb]
    | rotate hfile htemp hin h => cases hin

/-- A run of another target takes a step. -/
theorem installing_other {i k : Nat} {t' : Target} {todo' : List Action} (ht : t' ≠ t)
    (hs : Installing t bytes s) (hi : s.runs[i]? = some ⟨t', k, a :: todo⟩)
    (hu : Inv (fun _ _ => True) u) (hdisk : u.disk = (perform t' s.disk a o).1)
    (hruns : u.runs = s.runs.set i ⟨t', k, todo'⟩) : Installing t bytes u := by
  have hframe : ∀ slot, u.disk (name t slot) = s.disk (name t slot) := fun slot =>
    hdisk ▸ perform_frame (.inl ht) o
  have hmem : ∀ p, p.target = t → (p ∈ u.runs ↔ p ∈ s.runs) := fun p htarget => by
    rw [hruns]
    exact mem_set_other ht hi htarget
  refine ⟨hu, fun p hp htarget hne => ?_, fun p hp htarget hin => ?_, fun hidle => ?_⟩
  · rw [hframe]
    exact hs.stage p ((hmem p htarget).mp hp) htarget hne
  · rw [hframe]
    exact hs.present p ((hmem p htarget).mp hp) htarget hin
  · rw [hframe]
    exact hs.idle (mt (Busy.mono fun p hp htarget => (hmem p htarget).mpr hp) hidle)

end Steps

section Results

variable [LinearOrder F] [Zero F] {W : World F} {t : Target} {bytes : List UInt8} {s u v : State}
  {req : UpdateRequest F} {answers : Answers} {stamp : Str} {readable : Bool}
  {pre es : List (Event F)}

/-- The runs after a start are the runs before it, and perhaps one of its target. -/
theorem mem_begin {p : Process} (ht : req.target ≠ t) (htarget : p.target = t) :
    p ∈ (begin W s req answers stamp readable).runs ↔ p ∈ s.runs := by
  rw [begin]
  split
  · rw [List.mem_append, List.mem_singleton]
    refine or_iff_left fun he => ?_
    subst he
    exact ht htarget
  · rfl

theorem installing_begin (hs : Inv (fun _ _ => True) s) (hidle : ¬ Busy s req.target)
    (hprepare : prepare W req answers stamp
      (if readable then s.disk (name req.target .file) else none) = .ok bytes) :
    Installing req.target bytes (begin W s req answers stamp readable) := by
  have hinv : Inv (fun _ _ => True) (begin W s req answers stamp readable) :=
    inv_begin hs hidle fun _ _ _ _ => trivial
  rw [begin, hprepare] at hinv ⊢
  have hnew : ∀ p ∈ s.runs ++ [⟨req.target, req.backups.toNat, rotateBackups req.backups.toNat
      (s.disk (name req.target .file)).isSome ++ installAtomic bytes⟩], p.target = req.target →
      p.todo ≠ [] → p.todo = rotateBackups req.backups.toNat
        (s.disk (name req.target .file)).isSome ++ installAtomic bytes := by
    intro p hp htarget hne
    obtain hp | hp := List.mem_append.mp hp
    · exact absurd ⟨p, hp, htarget, hne⟩ hidle
    · rw [List.mem_singleton.mp hp]
  refine ⟨hinv, fun p hp htarget hne => ?_, fun p hp htarget hin => ?_, fun hnot => ?_⟩
  · rw [hnew p hp htarget hne]
    exact stage_plan _ _ rfl
  · rw [hnew p hp htarget (List.ne_nil_of_mem hin), rotateBackups] at hin
    split at hin
    · simp [installAtomic] at hin
    · rename_i hkeep
      exact Bool.eq_true_of_not_eq_false (not_or.mp hkeep).2
  · exact absurd ⟨_, List.mem_append_right _ List.mem_cons_self, rfl, by simp [installAtomic]⟩ hnot

theorem installing_step {e : Event F} (hs : Installing t bytes s)
    (he : Apart s e ∧ Unhindered t s e) (h : step W s e = some u) : Installing t bytes u := by
  obtain ⟨hapart, hfree⟩ := he
  cases e with
  | start req answers stamp readable =>
    obtain rfl := Option.some.inj h
    have hinv : Inv (fun _ _ => True) (begin W s req answers stamp readable) :=
      inv_begin hs.inv hapart fun _ _ _ _ => trivial
    refine ⟨hinv, fun p hp htarget hne => ?_, fun p hp htarget hin => ?_, fun hidle => ?_⟩
    · rw [begin_disk]
      exact hs.stage p ((mem_begin hfree htarget).mp hp) htarget hne
    · rw [begin_disk]
      exact hs.present p ((mem_begin hfree htarget).mp hp) htarget hin
    · rw [begin_disk]
      exact hs.idle (mt (Busy.mono fun p hp htarget => (mem_begin hfree htarget).mpr hp) hidle)
  | crash =>
    obtain rfl := Option.some.inj h
    refine ⟨inv_idle rfl hs.inv.files, fun p hp => ?_, fun p hp => ?_, fun _ => hs.idle hfree⟩
    · cases hp
    · cases hp
  | act i o =>
    have hinv := inv_act hs.inv h
    obtain ⟨t', k, a, todo, hi, rfl⟩ := act_cases h
    by_cases ht : t' = t
    · subst ht
      obtain rfl := hfree _ hi rfl
      exact installing_own hs hi hinv rfl rfl
    · exact installing_other ht hs hi hinv rfl rfl

/-- A run of which nothing fails has, when it ends, made its list exactly the bytes it prepared,
whatever happened before and whatever the runs of other lists do and fail in. -/
theorem run_installs (hidle : s.runs = []) (hpre : exec (step W) s pre = some v)
    (hprepare : prepare W req answers stamp
      (if readable then v.disk (name req.target .file) else none) = .ok bytes)
    (hapart : Along (step W) Apart s (pre ++ .start req answers stamp readable :: es))
    (hfree : Along (step W) (Unhindered req.target) (begin W v req answers stamp readable) es)
    (hrun : exec (step W) (begin W v req answers stamp readable) es = some u)
    (hended : ¬ Busy u req.target) : u.disk (name req.target .file) = some bytes := by
  obtain ⟨hbefore, hafter⟩ := along_append.mp hapart
  obtain ⟨hstart, hrest⟩ := hafter v hpre
  have hv : Inv (fun _ _ => True) v := inv_run (fun _ _ _ _ _ _ _ _ _ => trivial)
    (inv_idle hidle fun _ _ _ => trivial) (fun _ _ => trivial) hbefore hpre
  exact (exec_invariant_along (fun _ _ _ hi he h => installing_step hi he h)
    (installing_begin hv hstart hprepare) (along_and (hrest _ rfl) hfree) hrun).idle hended

theorem run_installs_sample : ∃ u, exec (step sampleWorld)
    (begin sampleWorld sampleStart sampleRequest sampleAnswers [] true)
      (List.replicate 9 (.act 0 .done)) = some u ∧
    u.disk (name .csamJargon .file) = some sampleMessage := by
  obtain ⟨u, hu, h⟩ := Option.map_eq_some_iff.mp sample_renamed
  have hended : ∀ p ∈ u.runs, p.todo = [] := by
    simpa using congrArg Prod.snd h
  have hprepare : prepare sampleWorld sampleRequest sampleAnswers []
      (sampleStart.disk (name .csamJargon .file)) = .ok sampleMessage := by
    decide +kernel
  refine ⟨u, hu, run_installs rfl (exec_nil _ _) hprepare (sample_apart 9)
    (acts_along (fun _ _ _ _ => rfl) 9 _) hu (not_busy hended)⟩

end Results

end Ed2kServer.Updates.Installs
