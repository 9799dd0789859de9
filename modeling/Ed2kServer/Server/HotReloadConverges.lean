import Ed2kServer.Lib.History
import Ed2kServer.Server.HotReload

namespace Ed2kServer.Server.HotReloadConverges

open Ed2kServer.Filter.Loaders Ed2kServer.Lib.History Ed2kServer.Lib.Transition
open Ed2kServer.Server.HotReload Ed2kServer.Slab.Record

variable {C L : Type}

theorem prefix_concat {seen files : List (File C)} {f : File C} (h : seen <+: files)
    (hf : files[seen.length]? = some f) : seen ++ [f] <+: files := by
  obtain ⟨rest, rfl⟩ := h
  rw [List.getElem?_append_right (le_refl _), Nat.sub_self] at hf
  cases rest with
  | nil => cases hf
  | cons g rest =>
    obtain rfl : g = f := Option.some.inj hf
    exact ⟨rest, by simp⟩

theorem prefix_whole {seen files : List (File C)} (h : seen <+: files)
    (hn : files[seen.length]? = none) : seen = files :=
  h.eq_of_length_le (List.getElem?_eq_none_iff.mp hn)

variable (load : List C → Option L)

/-- No file was edited since it was read for the list in force; where the files do not parse, this
is the last good one, unless a reload is under way. -/
structure UpToDate (s : State C L) : Prop where
  parsed : loaded load s.files ≠ none → s.asOf = s.files
  rejected : loaded load s.files = none → s.force = s.good ∨ s.reload ≠ none

/-- The remembered time, or the one that is about to be, is that of the files as they are. -/
def Settled (s : State C L) : Prop :=
  match s.watcher with
  | .waiting | .checking _ => s.noted = s.files
  | .applied seen => seen = s.files
  | _ => False

/-- What a step must find for no edit to be missed. -/
def Safe (s : State C L) : Event C → Prop
  | .watch =>
    match s.watcher with
    | .starting seen => seen = s.files → UpToDate load s
    | .checking seen =>
      seen = s.files → maxMtime seen = s.lastMtime → seen = s.noted ∨ UpToDate load s
    | .reading _ read =>
      read = s.files → loaded load read = none → s.force = s.good ∨ s.reload ≠ none
    | _ => True
  | .reload =>
    ∀ read, s.reload = some read → s.files.length ≤ read.length → Settled s →
      UpToDate load { s.apply load read with reload := none }
  | _ => True

/-- What the watcher has read in its state. -/
def seen : Watcher C → List (File C)
  | .starting seen | .checking seen | .reading seen _ | .applied seen => seen
  | _ => []

/-- What holds of the files that a tick has looked at, as no file is edited from its beginning. -/
def Looked (s : State C L) : Watcher C → Prop
  | .loading _ | .starting _ => False
  | .waiting => s.noted = s.files
  | .checking seen => seen <+: s.files
  | .reading seen _ | .applied seen => seen = s.files

/-- The account of what was read when. -/
structure Sound (s : State C L) : Prop where
  edits : ∀ f ∈ s.files, f.edit ≤ s.edits
  noted : ∀ f ∈ s.noted, f.edit ≤ s.edits
  seen : ∀ f ∈ seen s.watcher, f.edit ≤ s.edits
  kept : s.watcher.isLoading = false → ∀ l, loaded load s.asOf = some l → s.force = l
  settled : Settled s → UpToDate load s
  reading : ∀ seen read, s.watcher = .reading seen read → seen = s.files → read <+: s.files
  ticked : s.ticks ≠ 0 → Looked s s.watcher
  calm : s.calm = true → s.reload = none

/-- The list in force after a later tick without an edit. -/
def Converged (s : State C L) : Prop :=
  s.watcher = .waiting → 2 ≤ s.ticks → s.calm = true →
    s.force = (loaded load s.files).getD s.good

variable {load} {s t : State C L}

theorem Sound.converged (h : Sound load s) : Converged load s := by
  intro hw ht hc
  have hnoted : s.noted = s.files := by
    have hl := h.ticked (by omega)
    rw [hw] at hl
    exact hl
  have hup := h.settled (by rw [Settled, hw]; exact hnoted)
  cases hl : loaded load s.files with
  | none => exact (hup.rejected hl).resolve_right fun hr => hr (h.calm hc)
  | some l =>
    have has := hup.parsed (by rw [hl]; exact nofun)
    exact h.kept (by rw [hw]; rfl) l (by rw [has, hl])

theorem sound_init (files : List (C × Nat)) (builtIn : L) : Sound load (init files builtIn) := by
  constructor
  case edits =>
    intro f hf
    obtain ⟨g, -, rfl⟩ := List.mem_map.mp hf
    exact le_refl 0
  case noted => exact fun f hf => nomatch hf
  case seen => exact fun f hf => nomatch hf
  case kept => exact fun hw => nomatch hw
  case settled => exact fun h => h.elim
  case reading => exact fun _ _ hw => nomatch hw
  case ticked => exact fun ht => absurd rfl ht
  case calm => exact fun hc => nomatch hc

/-- Files that were looked at before are not the files with an edit since. -/
theorem ne_edited {files old : List (File C)} {edits i : Nat} {content : C} {mtime : Nat}
    (hold : ∀ f ∈ old, f.edit ≤ edits) (hi : i < files.length) :
    old ≠ files.set i ⟨content, mtime, edits + 1⟩ := by
  intro he
  have hmem : (⟨content, mtime, edits + 1⟩ : File C) ∈ old := he ▸ List.mem_set hi _
  exact absurd (hold _ hmem) (by simp)

theorem sound_edit (h : Sound load s) {i : Nat} {content : C} {mtime : Nat}
    (ht : step load s (.edit i content mtime) = some t) : Sound load t := by
  obtain ⟨f, hf, ht⟩ := Option.bind_eq_some_iff.mp ht
  have hi : i < s.files.length := (List.getElem?_eq_some_iff.mp hf).1
  split at ht
  · cases ht
  cases ht
  constructor
  case edits =>
    intro g hg
    obtain hg | rfl := List.mem_or_eq_of_mem_set hg
    · exact Nat.le_succ_of_le (h.edits g hg)
    · exact le_refl _
  case noted => exact fun g hg => Nat.le_succ_of_le (h.noted g hg)
  case seen => exact fun g hg => Nat.le_succ_of_le (h.seen g hg)
  case kept => exact h.kept
  case settled =>
    intro hs
    rw [Settled] at hs
    split at hs
    · exact absurd hs (ne_edited h.noted hi)
    · exact absurd hs (ne_edited h.noted hi)
    · rename_i old hw
      have hw : s.watcher = .applied old := hw
      exact absurd hs (ne_edited (by have hb := h.seen; rwa [hw] at hb) hi)
    · exact hs.elim
  case reading =>
    intro old read hw hs
    have hw : s.watcher = .reading old read := hw
    exact absurd hs (ne_edited (by have hb := h.seen; rwa [hw] at hb) hi)
  case ticked => exact fun ht => absurd rfl ht
  case calm => exact h.calm

theorem noteRead_eq (load : List C → Option L) (s : State C L) (read : List (File C)) :
    ∃ good, s.noteRead load read = { s with good } := by
  rw [State.noteRead]
  split
  · exact ⟨_, rfl⟩
  · exact ⟨s.good, rfl⟩

/-- What the list in force is after a load. -/
theorem kept_apply {read : List (File C)} (l : L) (hl : loaded load read = some l) :
    (s.apply load read).force = l := by
  rw [State.apply, hl]
  rfl

theorem sound_reload (h : Sound load s) {read : List (File C)} (hr : s.reload = some read)
    (hc : Safe load s .reload) : Sound load (reload load s read) := by
  rw [reload]
  split
  · obtain ⟨good, he⟩ := noteRead_eq load s (read ++ [‹File C›])
    rw [he]
    constructor
    case edits => exact h.edits
    case noted => exact h.noted
    case seen => exact h.seen
    case kept => exact h.kept
    case settled =>
      intro hs
      exact ⟨(h.settled hs).parsed, fun _ => Or.inr nofun⟩
    case reading => exact h.reading
    case ticked => exact h.ticked
    case calm =>
      intro hcalm
      rw [h.calm hcalm] at hr
      cases hr
  · rename_i hn
    constructor
    case edits => exact h.edits
    case noted => exact h.noted
    case seen => exact h.seen
    case kept => exact fun _ => kept_apply
    case settled => exact fun hs => hc read hr (List.getElem?_eq_none_iff.mp hn) hs
    case reading => exact h.reading
    case ticked => exact h.ticked
    case calm => exact fun _ => rfl

theorem sound_loading (h : Sound load s) {read : List (File C)} (hw : s.watcher = .loading read) :
    Sound load (watch load s (.loading read)) := by
  have hticks : s.ticks = 0 := by
    by_contra hne
    have hl := h.ticked hne
    rw [hw] at hl
    exact hl
  rw [watch]
  split
  · obtain ⟨good, he⟩ := noteRead_eq load s (read ++ [‹File C›])
    rw [he]
    constructor
    case edits => exact h.edits
    case noted => exact h.noted
    case seen => exact fun f hf => nomatch hf
    case kept => exact fun hl => nomatch hl
    case settled => exact fun hs => hs.elim
    case reading => exact fun _ _ hw => nomatch hw
    case ticked => exact fun ht => absurd hticks ht
    case calm => exact h.calm
  · constructor
    case edits => exact h.edits
    case noted => exact h.noted
    case seen => exact fun f hf => nomatch hf
    case kept => exact fun _ => kept_apply
    case settled => exact fun hs => hs.elim
    case reading => exact fun _ _ hw => nomatch hw
    case ticked => exact fun ht => absurd hticks ht
    case calm => exact h.calm

theorem seen_concat {old : List (File C)} {f : File C} (h : Sound load s)
    (hold : ∀ g ∈ old, g.edit ≤ s.edits) (hf : s.files[old.length]? = some f) (g : File C)
    (hg : g ∈ old ++ [f]) : g.edit ≤ s.edits := by
  obtain hg | hg := List.mem_append.mp hg
  · exact hold g hg
  · rw [List.mem_singleton.mp hg]
    exact h.edits f (List.mem_of_getElem? hf)

theorem sound_starting (h : Sound load s) {old : List (File C)} (hw : s.watcher = .starting old)
    (hc : old = s.files → UpToDate load s) : Sound load (watch load s (.starting old)) := by
  have hseen : ∀ f ∈ old, f.edit ≤ s.edits := by
    have hb := h.seen
    rwa [hw] at hb
  have hkept := h.kept (by rw [hw]; rfl)
  have hticks : s.ticks = 0 := by
    by_contra hne
    have hl := h.ticked hne
    rw [hw] at hl
    exact hl
  rw [watch]
  split
  · rename_i f hf
    constructor
    case edits => exact h.edits
    case noted => exact h.noted
    case seen => exact fun g hg => seen_concat h hseen hf g hg
    case kept => exact fun _ => hkept
    case settled => exact fun hs => hs.elim
    case reading => exact fun _ _ hw => nomatch hw
    case ticked => exact fun ht => absurd hticks ht
    case calm => exact h.calm
  · constructor
    case edits => exact h.edits
    case noted => exact hseen
    case seen => exact fun f hf => nomatch hf
    case kept => exact fun _ => hkept
    case settled =>
      intro hs
      obtain ⟨hp, hr⟩ := hc hs
      exact ⟨hp, hr⟩
    case reading => exact fun _ _ hw => nomatch hw
    case ticked => exact fun ht => absurd hticks ht
    case calm => exact h.calm

theorem sound_waiting (h : Sound load s) (hw : s.watcher = .waiting) :
    Sound load (watch load s .waiting) := by
  constructor
  case edits => exact h.edits
  case noted => exact h.noted
  case seen => exact fun f hf => nomatch hf
  case kept => exact fun _ => h.kept (by rw [hw]; rfl)
  case settled =>
    intro hs
    obtain ⟨hp, hr⟩ := h.settled (by rw [Settled, hw]; exact hs)
    exact ⟨hp, hr⟩
  case reading => exact fun _ _ hw => nomatch hw
  case ticked => exact fun _ => List.nil_prefix
  case calm => exact fun hc => Option.isNone_iff_eq_none.mp hc

theorem sound_checking (h : Sound load s) {old : List (File C)} (hw : s.watcher = .checking old)
    (hc : old = s.files → maxMtime old = s.lastMtime → old = s.noted ∨ UpToDate load s) :
    Sound load (watch load s (.checking old)) := by
  have hseen : ∀ f ∈ old, f.edit ≤ s.edits := by
    have hb := h.seen
    rwa [hw] at hb
  have hkept := h.kept (by rw [hw]; rfl)
  have hsettled : s.noted = s.files → UpToDate load s := fun hs =>
    h.settled (by rw [Settled, hw]; exact hs)
  have hlooked : s.ticks ≠ 0 → old <+: s.files := fun ht => by
    have hl := h.ticked ht
    rwa [hw] at hl
  rw [watch]
  split
  · rename_i f hf
    constructor
    case edits => exact h.edits
    case noted => exact h.noted
    case seen => exact fun g hg => seen_concat h hseen hf g hg
    case kept => exact fun _ => hkept
    case settled =>
      intro hs
      obtain ⟨hp, hr⟩ := hsettled hs
      exact ⟨hp, hr⟩
    case reading => exact fun _ _ hw => nomatch hw
    case ticked => exact fun ht => prefix_concat (hlooked ht) hf
    case calm => exact h.calm
  · rename_i hn
    split
    · rename_i hm
      constructor
      case edits => exact h.edits
      case noted => exact hseen
      case seen => exact fun f hf => nomatch hf
      case kept => exact fun _ => hkept
      case settled =>
        intro hs
        have hs : old = s.files := hs
        obtain ⟨hp, hr⟩ := (hc hs hm).elim (fun he => hsettled (he ▸ hs)) id
        exact ⟨hp, hr⟩
      case reading => exact fun _ _ hw => nomatch hw
      case ticked => exact fun ht => prefix_whole (hlooked ht) hn
      case calm => exact h.calm
    · constructor
      case edits => exact h.edits
      case noted => exact h.noted
      case seen => exact hseen
      case kept => exact fun _ => hkept
      case settled => exact fun hs => hs.elim
      case reading =>
        rintro seen read hw -
        cases hw
        exact List.nil_prefix
      case ticked => exact fun ht => prefix_whole (hlooked ht) hn
      case calm => exact h.calm

theorem sound_reading (h : Sound load s) {old read : List (File C)}
    (hw : s.watcher = .reading old read)
    (hc : read = s.files → loaded load read = none → s.force = s.good ∨ s.reload ≠ none) :
    Sound load (watch load s (.reading old read)) := by
  have hseen : ∀ f ∈ old, f.edit ≤ s.edits := by
    have hb := h.seen
    rwa [hw] at hb
  have hlooked : s.ticks ≠ 0 → old = s.files := fun ht => by
    have hl := h.ticked ht
    rwa [hw] at hl
  rw [watch]
  split
  · rename_i f hf
    obtain ⟨good, he⟩ := noteRead_eq load s (read ++ [f])
    rw [he]
    constructor
    case edits => exact h.edits
    case noted => exact h.noted
    case seen => exact hseen
    case kept => exact fun _ => h.kept (by rw [hw]; rfl)
    case settled => exact fun hs => hs.elim
    case reading =>
      intro old' read' hw' hs
      cases hw'
      exact prefix_concat (h.reading old read hw hs) hf
    case ticked => exact hlooked
    case calm => exact h.calm
  · rename_i hn
    constructor
    case edits => exact h.edits
    case noted => exact h.noted
    case seen => exact hseen
    case kept => exact fun _ => kept_apply
    case settled =>
      intro hs
      have hread : read = s.files := prefix_whole (h.reading old read hw hs) hn
      refine ⟨fun _ => hread, fun hl => ?_⟩
      have hl : loaded load s.files = none := hl
      have hforce : (s.apply load read).force = s.force := by
        rw [State.apply, hread, hl]
        rfl
      exact (hc hread (hread ▸ hl)).imp (fun hf => hforce.trans hf) id
    case reading => exact fun _ _ hw => nomatch hw
    case ticked => exact hlooked
    case calm => exact h.calm

theorem sound_applied (h : Sound load s) {old : List (File C)} (hw : s.watcher = .applied old) :
    Sound load (watch load s (.applied old)) := by
  have hseen : ∀ f ∈ old, f.edit ≤ s.edits := by
    have hb := h.seen
    rwa [hw] at hb
  constructor
  case edits => exact h.edits
  case noted => exact hseen
  case seen => exact fun f hf => nomatch hf
  case kept => exact fun _ => h.kept (by rw [hw]; rfl)
  case settled =>
    intro hs
    obtain ⟨hp, hr⟩ := h.settled (by rw [Settled, hw]; exact hs)
    exact ⟨hp, hr⟩
  case reading => exact fun _ _ hw => nomatch hw
  case ticked =>
    intro ht
    have hl := h.ticked ht
    rwa [hw] at hl
  case calm => exact h.calm

theorem sound_step (h : Sound load s) {e : Event C} (hc : Safe load s e)
    (ht : step load s e = some t) : Sound load t := by
  cases e with
  | edit i content mtime => exact sound_edit h ht
  | watch =>
    cases ht
    rw [Safe] at hc
    cases hw : s.watcher with
    | loading read => exact sound_loading h hw
    | starting old => exact sound_starting h hw (by rwa [hw] at hc)
    | waiting => exact sound_waiting h hw
    | checking old => exact sound_checking h hw (by rwa [hw] at hc)
    | reading old read => exact sound_reading h hw (by rwa [hw] at hc)
    | applied old => exact sound_applied h hw
  | beginReload =>
    rw [step] at ht
    split at ht <;> cases ht
    constructor
    case edits => exact h.edits
    case noted => exact h.noted
    case seen => exact h.seen
    case kept => exact h.kept
    case settled => exact fun hs => ⟨(h.settled hs).parsed, fun _ => Or.inr nofun⟩
    case reading => exact h.reading
    case ticked => exact h.ticked
    case calm => exact fun hc => nomatch hc
  | reload =>
    obtain ⟨read, hr, rfl⟩ := Option.map_eq_some_iff.mp ht
    exact sound_reload h hr hc

theorem hotReload_converges {files : List (C × Nat)} {builtIn : L} {es : List (Event C)}
    (hc : Along (step load) (Safe load) (init files builtIn) es)
    (hrun : exec (step load) (init files builtIn) es = some s) : Converged load s :=
  (exec_invariant_along (fun _ _ _ h hc ht => sound_step h hc ht) (sound_init files builtIn) hc
    hrun).converged

section Lists

variable {T : Type}

theorem hashLists_converged {s : State (List UInt8) (List FileHash)}
    (h : Converged loadHashLists s) (hw : s.watcher = .waiting) (ht : 2 ≤ s.ticks)
    (hc : s.calm = true) : s.force = s.files.flatMap (loadHashFile ·.content) := by
  rw [h hw ht hc, loaded, loadHashLists, List.flatMap_map]
  rfl

theorem terms_converged {s : State (List UInt8) (List Str)} (h : Converged loadTerms s)
    (hw : s.watcher = .waiting) (ht : 2 ≤ s.ticks) (hc : s.calm = true) :
    s.force = s.files.flatMap (loadTermsFile ·.content) := by
  rw [h hw ht hc, loaded, loadTerms, List.flatMap_map]
  rfl

theorem layer2Terms_converged {parse : List UInt8 → Option T} {s : State (List UInt8) T}
    {f : File (List UInt8)} (hf : s.files = [f]) (h : Converged (loadLayer2Terms parse) s)
    (hw : s.watcher = .waiting) (ht : 2 ≤ s.ticks) (hc : s.calm = true) :
    s.force = (parse f.content).getD s.good := by
  rw [h hw ht hc, loaded, loadLayer2Terms, hf]
  rfl

end Lists

section Sample

/-- Steps at which nothing can be missed. -/
def plain [DecidableEq C] [DecidableEq L] (load : List C → Option L) (s : State C L) :
    Event C → Bool
  | .watch =>
    match s.watcher with
    | .starting _ => loaded load s.files ≠ none ∧ s.asOf = s.files
    | .checking seen => seen = s.files → maxMtime seen = s.lastMtime → seen = s.noted
    | .reading _ read => loaded load read ≠ none
    | _ => true
  | .reload => false
  | _ => true

theorem safe_of_plain [DecidableEq C] [DecidableEq L] {e : Event C}
    (h : plain load s e = true) : Safe load s e := by
  cases e with
  | edit i content mtime => trivial
  | beginReload => trivial
  | reload => cases h
  | watch =>
    rw [plain] at h
    rw [Safe]
    cases hw : s.watcher with
    | loading read => trivial
    | waiting => trivial
    | applied old => trivial
    | starting old =>
      rw [hw] at h
      obtain ⟨hl, has⟩ := of_decide_eq_true h
      exact fun _ => ⟨fun _ => has, fun hn => absurd hn hl⟩
    | checking old =>
      rw [hw] at h
      exact fun he hm => Or.inl (of_decide_eq_true h he hm)
    | reading old read =>
      rw [hw] at h
      exact fun _ hn => absurd hn (of_decide_eq_true h)

instance [DecidableEq C] [DecidableEq L] : Decidable (Converged load s) :=
  inferInstanceAs (Decidable (s.watcher = .waiting → _))

def loadNumbers (contents : List (List Nat)) : Option (List Nat) := some contents.flatten

def sampleStart : State (List Nat) (List Nat) := init [([1], 10), ([2], 20)] []

def ticks (steps : Nat) : List (Event (List Nat)) := List.replicate steps .watch

/-- An edit that the second file's time does not hide is in force after a tick. -/
theorem edit_applied : ∃ t,
    exec (step loadNumbers) sampleStart (ticks 6 ++ .edit 0 [3] 30 :: ticks 12) = some t ∧
      Converged loadNumbers t ∧ t.watcher = .waiting ∧ t.ticks = 2 ∧ t.force = [3, 2] := by
  have hend : ((exec (step loadNumbers) sampleStart (ticks 6 ++ .edit 0 [3] 30 :: ticks 12)).any
      fun t => t.watcher = .waiting ∧ t.ticks = 2 ∧ t.force = [3, 2]) = true := by decide
  have hplain : Along (step loadNumbers) (fun s e => plain loadNumbers s e = true) sampleStart
      (ticks 6 ++ .edit 0 [3] 30 :: ticks 12) := by decide
  obtain ⟨t, ht, hend⟩ := (Option.any_eq_true _ _).mp hend
  exact ⟨t, ht, hotReload_converges (along_mono (fun _ _ => safe_of_plain) hplain) ht,
    of_decide_eq_true hend⟩

/-- Missed are an edit between the start-up load and the watcher's first reading of the time, one
of a file that is not the newest, and one while a reload that read before it is still to put its
list in force. -/
theorem edits_missed :
    (∃ t, exec (step loadNumbers) sampleStart (ticks 3 ++ .edit 0 [3] 30 :: ticks 11) = some t ∧
      ¬ Converged loadNumbers t) ∧
    (∃ t, exec (step loadNumbers) sampleStart (ticks 6 ++ .edit 0 [3] 15 :: ticks 8) = some t ∧
      ¬ Converged loadNumbers t) ∧
    ∃ t, exec (step loadNumbers) sampleStart (ticks 6 ++ [.beginReload, .reload, .reload,
        .edit 0 [3] 30] ++ ticks 8 ++ .reload :: ticks 4) = some t ∧
      ¬ Converged loadNumbers t := by
  have hmiss : ∀ es, ((exec (step loadNumbers) sampleStart es).any
      fun t => ¬ Converged loadNumbers t) = true →
      ∃ t, exec (step loadNumbers) sampleStart es = some t ∧ ¬ Converged loadNumbers t := by
    intro es hes
    obtain ⟨t, ht, hend⟩ := (Option.any_eq_true _ _).mp hes
    exact ⟨t, ht, of_decide_eq_true hend⟩
  exact ⟨hmiss _ (by decide), hmiss _ (by decide), hmiss _ (by decide)⟩

end Sample

end Ed2kServer.Server.HotReloadConverges
