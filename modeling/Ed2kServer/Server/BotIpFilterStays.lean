import Ed2kServer.Lib.History
import Ed2kServer.Server.BotIpFilter

namespace Ed2kServer.Server.BotIpFilterStays

open Ed2kServer.Filter.IpFilter Ed2kServer.Filter.Loaders Ed2kServer.Lib.History
open Ed2kServer.Lib.Transition Ed2kServer.Server.BotIpFilter Ed2kServer.Text.Lines
open Ed2kServer.Text.Utf8

/-- The filter file is the one that was installed and a line for each of these addresses, none of
which was covered before its line. -/
structure Appended (s : State) (added : List UInt32) (rest : Str) : Prop where
  file : s.filterFile = s.installed ++ utf8 rest
  apart : rest = [] ∨ FreshLine (fromUtf8Lossy s.installed) ∨ rest.head? = some '\n'
  lines : (rest.splitOn '\n').filter (· ≠ []) = added.map formatLine
  ranges : loadIpFilter s.filterFile = loadIpFilter s.installed ++ added.map fun a => (a, a)
  once : added.Nodup
  uncovered : ∀ a ∈ added, covered (fromUtf8Lossy s.installed) a = false

/-- Every address added is blocked after a reload, no line is lost or changed, and none is added for
an address that is covered. -/
structure Stays (s : State) : Prop where
  blocked : ∀ j, s.alone = some j → s.jobs[j]?.any (·.phase = .done) = true →
    ∀ ip ∈ s.added, isBlocked s.force ip = true
  lines : ∃ added rest, Appended s added rest

/-- A line is begun where a line can begin, in the filter file if no line covers its address. -/
def safe (s : State) : Event → Bool
  | .next j _ =>
    match s.jobs[j]?.map Job.phase with
    | some (.writing ip true .line _) =>
      decide (FreshLine (fromUtf8Lossy s.filterFile)) &&
        !covered (fromUtf8Lossy s.filterFile) ip
    | some (.recording _ .key) => decide (FreshLine (fromUtf8Lossy s.listFile))
    | _ => true
  | _ => true

section Words

variable {ip : UInt32}

theorem covered_iff (bytes : List UInt8) (ip : UInt32) :
    covered (fromUtf8Lossy bytes) ip = true ↔ Covers (loadIpFilter bytes) ip := by
  rw [loadIpFilter_eq, covered, List.any_eq_true, Covers]
  simp only [List.mem_filterMap, rangeOfEntry]
  constructor
  · rintro ⟨l, hl, h⟩
    rw [Bool.and_eq_true, Bool.not_eq_true', Option.any_eq_true] at h
    obtain ⟨hskip, r, hr, hle⟩ := h
    exact ⟨r, ⟨l, hl, by rw [hskip]; exact hr⟩, by simpa using hle⟩
  · rintro ⟨r, ⟨l, hl, h⟩, hle⟩
    refine ⟨l, hl, ?_⟩
    split at h
    · cases h
    · rename_i hskip
      rw [Bool.and_eq_true, Bool.not_eq_true', Option.any_eq_true]
      exact ⟨Bool.eq_false_of_not_eq_true hskip, r, h, by simpa using hle⟩

theorem firstWord_append {word : Str} (hne : word ≠ []) (hw : ∀ c ∈ word, isWhitespace c = false)
    {rest : Str} (hrest : ∀ c, rest.head? = some c → isWhitespace c = true) :
    firstWord (word ++ rest) = some word := by
  have hdrop : (word ++ rest).dropWhile isWhitespace = word ++ rest := by
    rw [List.dropWhile_eq_self_iff]
    intro hpos
    rw [List.getElem_append_left (List.length_pos_of_ne_nil hne),
      hw _ (List.getElem_mem _)]
    exact Bool.false_ne_true
  have htake : (word ++ rest).takeWhile (! isWhitespace ·) = word := by
    rw [List.takeWhile_append_of_pos fun c hc => by rw [hw c hc]; rfl]
    cases rest with
    | nil => simp
    | cons c rest => rw [List.takeWhile_cons_of_neg (by simp [hrest c rfl]), List.append_nil]
  rw [firstWord, hdrop, htake, if_neg hne]

theorem takeWhile_return (x : Str) :
    (x ++ ['\r']).takeWhile (! isWhitespace ·) = x.takeWhile (! isWhitespace ·) := by
  induction x with
  | nil => decide
  | cons c x ih => rw [List.cons_append, List.takeWhile_cons, List.takeWhile_cons, ih]

theorem firstWord_stripReturn (line : Str) : firstWord (stripReturn line) = firstWord line := by
  rw [stripReturn]
  split
  · rename_i hlast
    obtain ⟨front, rfl⟩ := List.getLast?_eq_some_iff.mp hlast
    have hword : ((front ++ ['\r']).dropWhile isWhitespace).takeWhile (! isWhitespace ·) =
        (front.dropWhile isWhitespace).takeWhile (! isWhitespace ·) := by
      rw [List.dropWhile_append]
      split
      · rename_i hall
        rw [List.isEmpty_iff.mp hall]
        decide
      · exact takeWhile_return _
    rw [List.dropLast_concat, firstWord, firstWord, hword]
  · rfl

/-- The line of the list is this far written. -/
def written (ip : UInt32) : Part → Str → Prop
  | .key, _ => False
  | .space, t => t = ipString ip
  | .time, t => t = ipString ip ++ [' ']
  | .newline, t => ∃ time, '\n' ∉ time ∧ t = ipString ip ++ ' ' :: time

theorem ipString_visible {c : Char} (hc : c ∈ ipString ip) : isWhitespace c = false :=
  (dotted_visible writes_decimal hc).1

theorem ipString_free : '\n' ∉ ipString ip := fun h => by
  have hws := ipString_visible h
  exact absurd hws (by decide)

theorem written_free {part : Part} {t : Str} (h : written ip part t) : t ≠ [] ∧ '\n' ∉ t := by
  have hne : ipString ip ≠ [] := dotted_ne_nil decimal ip
  cases part with
  | key => exact h.elim
  | space =>
    cases h
    exact ⟨hne, ipString_free⟩
  | time =>
    cases h
    exact ⟨by simp, by simp [ipString_free]⟩
  | newline =>
    obtain ⟨time, htime, rfl⟩ := h
    exact ⟨by simp, by simp [ipString_free, htime]⟩

/-- The address of a line that is this far written. -/
theorem address_written {part : Part} {t : Str} (h : written ip part t) :
    (firstWord t).bind parseIpv4 = some ip := by
  have hne : ipString ip ≠ [] := dotted_ne_nil decimal ip
  have hword : ∀ rest : Str, (∀ c, rest.head? = some c → isWhitespace c = true) →
      (firstWord (ipString ip ++ rest)).bind parseIpv4 = some ip := by
    intro rest hrest
    rw [firstWord_append hne (fun c hc => ipString_visible hc) hrest]
    exact parseIpv4_ipString ip
  have hspace : isWhitespace ' ' = true := by decide
  cases part with
  | key => exact h.elim
  | space =>
    cases h
    rw [← List.append_nil (ipString ip)]
    exact hword [] nofun
  | time =>
    cases h
    exact hword [' '] fun c hc => Option.some.inj hc ▸ hspace
  | newline =>
    obtain ⟨time, -, rfl⟩ := h
    exact hword _ fun c hc => Option.some.inj hc ▸ hspace

theorem recorded_newline (text : Str) : recorded (text ++ ['\n']) = recorded text :=
  filterMap_lines_newline (fun l => by rw [firstWord_stripReturn]) (by decide) text

theorem recorded_written {text : Str} {part : Part} {t : Str} (hs : FreshLine text)
    (h : written ip part t) : recorded (text ++ t) = recorded text ++ [ip] := by
  rw [recorded, filterMap_lines_fresh (fun l => by rw [firstWord_stripReturn]) (by decide) hs
    (written_free h).2, address_written h]
  rfl

end Words

section Lines

variable {s t : State} {added : List UInt32} {rest : Str} {ip : UInt32}

theorem Appended.congr (h : Appended s added rest) (hfile : t.filterFile = s.filterFile)
    (hinstalled : t.installed = s.installed) : Appended t added rest := by
  obtain ⟨file, apart, lines, ranges, once, uncovered⟩ := h
  exact ⟨by rw [hfile, hinstalled, file], by rwa [hinstalled], lines,
    by rw [hfile, hinstalled, ranges], once, by rwa [hinstalled]⟩

theorem appended_nil (hfile : s.filterFile = s.installed) : Appended s [] [] where
  file := by rw [hfile, utf8, List.flatMap_nil, List.append_nil]
  apart := Or.inl rfl
  lines := by decide
  ranges := by rw [hfile, List.map_nil, List.append_nil]
  once := List.nodup_nil
  uncovered := fun _ ha => nomatch ha

theorem Appended.newline (h : Appended s added rest) :
    Appended (s.writeFilter true ['\n']) added (rest ++ ['\n']) where
  file := by
    rw [State.writeFilter_filterFile, if_pos rfl, h.file, utf8_append, List.append_assoc]
    rfl
  apart := by
    obtain hnil | hfresh | hhead := h.apart
    · rw [hnil]
      exact Or.inr (Or.inr rfl)
    · exact Or.inr (Or.inl hfresh)
    · refine Or.inr (Or.inr ?_)
      rw [List.head?_append, hhead]
      rfl
  lines := by
    rw [List.splitOn_append_cons_self, List.filter_append, h.lines, List.splitOn_nil]
    simp
  ranges := by
    rw [State.writeFilter_filterFile, if_pos rfl, loadIpFilter_newline, h.ranges]
    rfl
  once := h.once
  uncovered := h.uncovered

/-- A line for an address that no line covers. -/
theorem Appended.line (h : Appended s added rest) (hfresh : FreshLine (fromUtf8Lossy s.filterFile))
    (hc : covered (fromUtf8Lossy s.filterFile) ip = false) :
    Appended (s.writeFilter true (formatLine ip)) (added ++ [ip]) (rest ++ formatLine ip) := by
  have hne : formatLine ip ≠ [] := by
    intro hnil
    have hline := rangeOfEntry_formatLine ip
    rw [hnil] at hline
    cases hline
  have hno : ¬ Covers (loadIpFilter s.filterFile) ip := by
    rw [← covered_iff, hc]
    exact Bool.false_ne_true
  rw [h.ranges] at hno
  have hsplit : ((rest ++ formatLine ip).splitOn '\n').filter (· ≠ []) =
      (rest.splitOn '\n').filter (· ≠ []) ++ [formatLine ip] := by
    have hone : (formatLine ip).splitOn '\n' = [formatLine ip] :=
      List.splitOn_eq_singleton (formatLine_free ip)
    by_cases hr : rest = []
    · rw [hr, List.nil_append, hone]
      simp [hne]
    · have hlast : rest.getLast? = some '\n' := by
        rw [h.file, fromUtf8Lossy_append] at hfresh
        obtain hnil | hl := hfresh
        · exact absurd (List.append_eq_nil_iff.mp hnil).2 hr
        · rwa [List.getLast?_append_of_ne_nil _ hr] at hl
      obtain ⟨front, rfl⟩ := List.getLast?_eq_some_iff.mp hlast
      rw [List.append_assoc, List.singleton_append, List.splitOn_append_cons_self,
        List.splitOn_append_cons_self, hone]
      simp [hne]
  constructor
  case file =>
    rw [State.writeFilter_filterFile, if_pos rfl, h.file, utf8_append, List.append_assoc]
    rfl
  case apart =>
    obtain hnil | hfresh' | hhead := h.apart
    · rw [h.file, hnil, utf8, List.flatMap_nil, List.append_nil] at hfresh
      exact Or.inr (Or.inl hfresh)
    · exact Or.inr (Or.inl hfresh')
    · refine Or.inr (Or.inr ?_)
      rw [List.head?_append, hhead]
      rfl
  case lines =>
    rw [hsplit, h.lines, List.map_append]
    rfl
  case ranges =>
    rw [State.writeFilter_filterFile, if_pos rfl, loadIpFilter_formatLine hfresh, h.ranges,
      List.map_append, List.append_assoc]
    rfl
  case once =>
    refine List.nodup_append.mpr ⟨h.once, List.nodup_singleton _, ?_⟩
    rintro a ha b hb rfl
    rw [List.mem_singleton.mp hb] at ha
    refine hno ⟨(ip, ip), List.mem_append_right _ (List.mem_map.mpr ⟨ip, ha, rfl⟩), ?_⟩
    exact ⟨UInt32.le_refl _, UInt32.le_refl _⟩
  case uncovered =>
    intro a ha
    obtain ha | ha := List.mem_append.mp ha
    · exact h.uncovered a ha
    · rw [List.mem_singleton.mp ha, Bool.eq_false_iff, ne_eq, covered_iff]
      rintro ⟨r, hr, hle⟩
      exact hno ⟨r, List.mem_append_left _ hr, hle⟩

end Lines

/-- The text of the list of added addresses. -/
def listText (s : State) : Str := fromUtf8Lossy s.listFile

/-- The job has begun a line of the list and is still to end it. -/
def isOpen : Phase → Bool
  | .recording _ part => part ≠ .key
  | _ => false

/-- The address of the job is in the list. -/
def isNoted : Phase → Bool
  | .recording _ part => part ≠ .key
  | .load | .swap _ | .done => true
  | _ => false

/-- The address a job is about to record. -/
def recordsOf : Phase → Option UInt32
  | .remember ip | .recording ip _ => some ip
  | _ => none

/-- The line that a job has begun is all that follows the last newline. -/
def Partly (text : Str) : Phase → Prop
  | .recording ip part => part ≠ .key →
    ∃ front t, FreshLine front ∧ text = front ++ t ∧ written ip part t
  | _ => True

/-- How far a reload has come that has the server to itself: what it is not to put back any more is
covered. -/
def Progress (s : State) : Phase → Prop
  | .reading => True
  | .check todo => ∀ a ∈ recorded (listText s), a ∈ todo ∨ Covers (loadIpFilter s.filterFile) a
  | .opening ip stage todo => stage ≠ .newline ∧
    ∀ a ∈ recorded (listText s), a = ip ∨ a ∈ todo ∨ Covers (loadIpFilter s.filterFile) a
  | .writing ip attached stage todo => attached = true ∧ ∀ a ∈ recorded (listText s),
    (a = ip ∧ stage ≠ .newline) ∨ a ∈ todo ∨ Covers (loadIpFilter s.filterFile) a
  | .load => ∀ a ∈ recorded (listText s), Covers (loadIpFilter s.filterFile) a
  | .swap ranges => ∀ a ∈ recorded (listText s), isBlocked ranges a = true
  | .done => ∀ a ∈ recorded (listText s), isBlocked s.force a = true
  | .remember _ | .recording _ _ => False

structure Alone (s : State) (j : Nat) : Prop where
  others : ∀ i job, s.jobs[i]? = some job → i ≠ j → job.phase = .done
  reload : ∃ job, s.jobs[j]? = some job ∧ job.adds = none ∧ Progress s job.phase

/-- The account of the list and of the filter file. -/
structure Sound (s : State) : Prop where
  text : utf8 (listText s) = s.listFile
  added : ∀ ip ∈ s.added, ip ∈ recorded (listText s)
  noted : ∀ (j : Nat) job ip, s.jobs[j]? = some job → job.adds = some ip →
    isNoted job.phase = true → ip ∈ recorded (listText s)
  adds : ∀ (j : Nat) job ip, s.jobs[j]? = some job → recordsOf job.phase = some ip →
    job.adds = some ip
  partly : ∀ (j : Nat) job, s.jobs[j]? = some job → Partly (listText s) job.phase
  one : ∀ (i j : Nat) a b, s.jobs[i]? = some a → s.jobs[j]? = some b → isOpen a.phase = true →
    isOpen b.phase = true → i = j
  lines : ∃ added rest, Appended s added rest
  alone : ∀ j, s.alone = some j → Alone s j

theorem Sound.stays {s : State} (h : Sound s) : Stays s := by
  refine ⟨fun j hj hdone ip hip => ?_, h.lines⟩
  obtain ⟨job, hjob, -, hprogress⟩ := (h.alone j hj).reload
  rw [hjob, Option.any_some, decide_eq_true_eq] at hdone
  rw [hdone] at hprogress
  exact hprogress ip (h.added ip hip)

section Jobs

variable {s t : State}

/-- A job without a hold on the list. -/
def plain : Phase → Bool
  | .reading | .check _ | .writing .. => true
  | _ => false

theorem Sound.of_jobs (h : Sound s) (hlist : t.listFile = s.listFile) (hadded : t.added = s.added)
    (hjobs : ∀ (j : Nat) job, t.jobs[j]? = some job →
      s.jobs[j]? = some job ∨ plain job.phase = true)
    (hlines : ∃ added rest, Appended t added rest) (halone : ∀ j, t.alone = some j → Alone t j) :
    Sound t := by
  have htext : listText t = listText s := by rw [listText, listText, hlist]
  have hplain : ∀ phase, plain phase = true →
      isOpen phase = false ∧ isNoted phase = false ∧ recordsOf phase = none ∧
        Partly (listText s) phase := by
    intro phase hp
    cases phase <;> first | exact ⟨rfl, rfl, rfl, trivial⟩ | cases hp
  constructor
  case text => rw [htext, hlist, h.text]
  case added => rw [htext, hadded]; exact h.added
  case noted =>
    intro j job ip hj ha hn
    rw [htext]
    obtain hj | hp := hjobs j job hj
    · exact h.noted j job ip hj ha hn
    · rw [(hplain _ hp).2.1] at hn
      cases hn
  case adds =>
    intro j job ip hj hr
    obtain hj | hp := hjobs j job hj
    · exact h.adds j job ip hj hr
    · rw [(hplain _ hp).2.2.1] at hr
      cases hr
  case partly =>
    intro j job hj
    rw [htext]
    obtain hj | hp := hjobs j job hj
    · exact h.partly j job hj
    · exact (hplain _ hp).2.2.2
  case one =>
    intro i j a b hi hj ha hb
    obtain hi | hp := hjobs i a hi
    · obtain hj | hp := hjobs j b hj
      · exact h.one i j a b hi hj ha hb
      · rw [(hplain _ hp).1] at hb
        cases hb
    · rw [(hplain _ hp).1] at ha
      cases ha
  case lines => exact hlines
  case alone => exact halone

theorem jobs_concat {jobs : List Job} {x job : Job} {j : Nat} (h : (jobs ++ [x])[j]? = some job) :
    jobs[j]? = some job ∨ (j = jobs.length ∧ job = x) := by
  rw [List.getElem?_append] at h
  split at h
  · exact Or.inl h
  · rename_i hj
    obtain ⟨hlt, hx⟩ := List.getElem?_eq_some_iff.mp h
    have hlen : j - jobs.length = 0 := by simpa using hlt
    simp only [hlen, List.getElem_cons_zero] at hx
    exact Or.inr ⟨by omega, hx.symm⟩

theorem sound_init (filterFile : List UInt8) (list : Str) : Sound (init filterFile list) := by
  have hone : ∀ (j : Nat) job, (init filterFile list).jobs[j]? = some job →
      job = ⟨none, .reading⟩ := by
    intro j job hj
    exact List.mem_singleton.mp (List.mem_of_getElem? hj)
  constructor
  case text => rw [listText, init, fromUtf8Lossy_utf8]
  case added => exact fun ip hip => nomatch hip
  case noted =>
    intro j job ip hj ha
    rw [hone j job hj] at ha
    cases ha
  case adds =>
    intro j job ip hj hr
    rw [hone j job hj] at hr
    cases hr
  case partly =>
    intro j job hj
    rw [hone j job hj]
    trivial
  case one =>
    intro i j a b hi hj ha
    rw [hone i a hi] at ha
    cases ha
  case lines => exact ⟨[], [], appended_nil rfl⟩
  case alone =>
    intro j hj
    cases hj
    refine ⟨fun i job hi hne => ?_, ⟨none, .reading⟩, rfl, rfl, trivial⟩
    obtain ⟨hlt, -⟩ := List.getElem?_eq_some_iff.mp hi
    exact absurd (Nat.lt_one_iff.mp hlt) hne

theorem sound_start (h : Sound s) {jobs : List Job} {force : List (UInt32 × UInt32)}
    (hjobs : jobs.all (·.phase = .done) = true)
    (hold : ∀ (j : Nat) job, jobs[j]? = some job → s.jobs[j]? = some job) :
    Sound { s with
      force
      jobs := jobs ++ [⟨none, .reading⟩]
      alone := some jobs.length } := by
  obtain ⟨added, rest, hlines⟩ := h.lines
  refine h.of_jobs rfl rfl (fun j job hj => ?_) ⟨added, rest, hlines.congr rfl rfl⟩ ?_
  · obtain hj | ⟨-, rfl⟩ := jobs_concat hj
    · exact Or.inl (hold j job hj)
    · exact Or.inr rfl
  · rintro j hj
    cases hj
    refine ⟨fun i job hi hne => ?_, ⟨none, .reading⟩, List.getElem?_concat_length, rfl, trivial⟩
    obtain hi | ⟨he, -⟩ := jobs_concat hi
    · exact of_decide_eq_true (List.all_eq_true.mp hjobs job (List.mem_of_getElem? hi))
    · exact absurd he hne

theorem detach_cases (job : Job) : detach job = job ∨ plain (detach job).phase = true := by
  rw [detach]
  split
  · exact Or.inr rfl
  · exact Or.inl rfl

end Jobs

section Move

variable {s u : State} {j : Nat} {job : Job} {phase : Phase}

/-- No other job has begun a line of the list. -/
def Quiet (s : State) (j : Nat) : Prop :=
  ∀ (i : Nat) a, s.jobs[i]? = some a → i ≠ j → isOpen a.phase = false

theorem Sound.move (h : Sound s) (hj : s.jobs[j]? = some job) (hdone : job.phase ≠ .done)
    (hjobs : u.jobs = s.jobs) (halone : u.alone = s.alone)
    (htext : utf8 (listText u) = u.listFile)
    (hrecorded : ∀ ip ∈ recorded (listText s), ip ∈ recorded (listText u))
    (hadded : ∀ ip ∈ u.added, ip ∈ recorded (listText u))
    (hnoted : ∀ ip, job.adds = some ip → isNoted phase = true → ip ∈ recorded (listText u))
    (hadds : ∀ ip, recordsOf phase = some ip → job.adds = some ip)
    (hpartly : Partly (listText u) phase)
    (hquiet : (listText u = listText s ∧ isOpen phase = false) ∨ Quiet s j)
    (hlines : ∃ added rest, Appended u added rest)
    (hprogress : job.adds = none → Progress s job.phase → Progress (u.setPhase j job phase) phase) :
    Sound (u.setPhase j job phase) := by
  have hlt : j < u.jobs.length := by
    rw [hjobs]
    exact (List.getElem?_eq_some_iff.mp hj).1
  have hcases : ∀ (i : Nat) a, (u.setPhase j job phase).jobs[i]? = some a →
      (i = j ∧ a = { job with phase }) ∨ (i ≠ j ∧ s.jobs[i]? = some a) := by
    intro i a hi
    rw [State.setPhase_jobs] at hi
    by_cases hij : i = j
    · rw [hij, List.getElem?_set_self hlt] at hi
      exact Or.inl ⟨hij, (Option.some.inj hi).symm⟩
    · rw [List.getElem?_set_ne (Ne.symm hij), hjobs] at hi
      exact Or.inr ⟨hij, hi⟩
  constructor
  case text => exact htext
  case added => exact hadded
  case noted =>
    intro i a ip hi ha hn
    obtain ⟨-, rfl⟩ | ⟨-, hi⟩ := hcases i a hi
    · exact hnoted ip ha hn
    · exact hrecorded ip (h.noted i a ip hi ha hn)
  case adds =>
    intro i a ip hi hr
    obtain ⟨-, rfl⟩ | ⟨-, hi⟩ := hcases i a hi
    · exact hadds ip hr
    · exact h.adds i a ip hi hr
  case partly =>
    intro i a hi
    obtain ⟨-, rfl⟩ | ⟨hij, hi⟩ := hcases i a hi
    · exact hpartly
    · obtain ⟨hsame, -⟩ | hq := hquiet
      · exact hsame.symm ▸ h.partly i a hi
      · have hclosed := hq i a hi hij
        cases hp : a.phase with
        | recording ip part =>
          rw [hp] at hclosed
          intro hpart
          rw [isOpen, decide_eq_false_iff_not] at hclosed
          exact absurd hpart hclosed
        | _ => trivial
  case one =>
    have hself : ∀ (i : Nat) a, s.jobs[i]? = some a → i ≠ j → isOpen a.phase = true →
        isOpen phase = true → False := by
      intro i a hi hij ha hp
      obtain ⟨-, hclosed⟩ | hq := hquiet
      · rw [hclosed] at hp
        cases hp
      · rw [hq i a hi hij] at ha
        cases ha
    intro i k a b hi hk ha hb
    obtain ⟨hij, hia⟩ | ⟨hij, hia⟩ := hcases i a hi
    · subst hia
      obtain ⟨hkj, -⟩ | ⟨hkj, hkb⟩ := hcases k b hk
      · exact hij.trans hkj.symm
      · exact (hself k b hkb hkj hb ha).elim
    · obtain ⟨-, hkb⟩ | ⟨-, hkb⟩ := hcases k b hk
      · subst hkb
        exact (hself i a hia hij ha hb).elim
      · exact h.one i k a b hia hkb ha hb
  case lines =>
    obtain ⟨added, rest, hl⟩ := hlines
    exact ⟨added, rest, hl.congr rfl rfl⟩
  case alone =>
    intro k hk
    rw [State.setPhase_alone, halone] at hk
    obtain ⟨hothers, job', hjob', hadds', hprog⟩ := h.alone k hk
    obtain rfl : j = k := by
      by_contra hne
      exact hdone (hothers j job hj hne)
    obtain rfl : job = job' := Option.some.inj (hj.symm.trans hjob')
    refine ⟨fun i a hi hij => ?_, { job with phase }, ?_, hadds', hprogress hadds' hprog⟩
    · obtain ⟨he, -⟩ | ⟨-, hi⟩ := hcases i a hi
      · exact absurd he hij
      · exact hothers i a hi hij
    · rw [State.setPhase_jobs, List.getElem?_set_self hlt]

/-- A step that leaves the list as it is and begins no line of it. -/
theorem Sound.move_same (h : Sound s) (hj : s.jobs[j]? = some job) (hdone : job.phase ≠ .done)
    (hjobs : u.jobs = s.jobs) (halone : u.alone = s.alone) (hlist : u.listFile = s.listFile)
    (hadded : ∀ ip ∈ u.added, ip ∈ recorded (listText s))
    (hnoted : ∀ ip, job.adds = some ip → isNoted phase = true → ip ∈ recorded (listText s))
    (hadds : ∀ ip, recordsOf phase = some ip → job.adds = some ip)
    (hopen : isOpen phase = false)
    (hlines : ∃ added rest, Appended u added rest)
    (hprogress : job.adds = none → Progress s job.phase → Progress (u.setPhase j job phase) phase) :
    Sound (u.setPhase j job phase) := by
  have htext : listText u = listText s := by rw [listText, listText, hlist]
  refine h.move hj hdone hjobs halone ?_ ?_ ?_ ?_ hadds ?_ (Or.inl ⟨htext, hopen⟩) hlines hprogress
  · rw [htext, hlist, h.text]
  · rw [htext]
    exact fun _ hip => hip
  · rwa [htext]
  · rwa [htext]
  · cases phase with
    | recording ip part =>
      rw [isOpen, decide_eq_false_iff_not] at hopen
      exact fun hpart => absurd hpart hopen
    | _ => trivial

/-- The next piece of a line of the list. -/
theorem Sound.move_write (h : Sound s) (hj : s.jobs[j]? = some job) {ip : UInt32}
    {part : BotIpFilter.Part} (hphase : job.phase = .recording ip part) {text : Str}
    (hrecorded : ∀ a ∈ recorded (listText s), a ∈ recorded (listText s ++ text))
    (hip : ip ∈ recorded (listText s ++ text))
    (hadds : ∀ ip', recordsOf phase = some ip' → ip' = ip)
    (hpartly : Partly (listText s ++ text) phase) (hquiet : Quiet s j) :
    Sound ((s.writeList text).setPhase j job phase) := by
  have hjob : job.adds = some ip := h.adds j job ip hj (by rw [hphase]; rfl)
  have htext : listText (s.writeList text) = listText s ++ text := fromUtf8Lossy_append _ _
  obtain ⟨added, rest, hlines⟩ := h.lines
  refine h.move hj (by rw [hphase]; exact nofun) rfl rfl ?_ ?_ ?_ ?_ ?_ ?_ (Or.inr hquiet)
    ⟨added, rest, hlines.congr rfl rfl⟩ ?_
  · rw [htext, utf8_append, h.text]
    rfl
  · rwa [htext]
  · rw [htext]
    exact fun a ha => hrecorded a (h.added a ha)
  · intro a ha hn
    rw [hjob] at ha
    rw [htext, ← Option.some.inj ha]
    exact hip
  · intro a ha
    rw [hadds a ha, hjob]
  · rwa [htext]
  · intro hnone
    rw [hjob] at hnone
    cases hnone

end Move

section Next

variable {s t : State} {j now : Nat} {job : Job}

/-- Text at the end of the filter file keeps what it covers. -/
theorem covers_append {ranges more : List (UInt32 × UInt32)} {ip : UInt32}
    (h : Covers ranges ip) : Covers (ranges ++ more) ip := by
  obtain ⟨r, hr, hle⟩ := h
  exact ⟨r, List.mem_append_left _ hr, hle⟩

theorem appended_writeFilter {added : List UInt32} {rest : Str} (h : Appended s added rest)
    (attached : Bool) : ∃ added rest, Appended (s.writeFilter attached ['\n']) added rest := by
  cases attached with
  | true => exact ⟨added, rest ++ ['\n'], h.newline⟩
  | false => exact ⟨added, rest, h.congr rfl rfl⟩

theorem Sound.writeNewline (h : Sound s) (hj : s.jobs[j]? = some job) {ip : UInt32}
    {attached : Bool} {stage : Stage} {todo : List UInt32}
    (hphase : job.phase = .writing ip attached stage todo) {phase : Phase}
    (hplain : plain phase = true)
    (hprogress : ∀ u : State, listText u = listText s →
      loadIpFilter u.filterFile = loadIpFilter s.filterFile → Progress s job.phase →
        Progress u phase) :
    Sound ((s.writeFilter attached ['\n']).setPhase j job phase) := by
  obtain ⟨added, rest, hlines⟩ := h.lines
  have hnone : isNoted phase = false ∧ recordsOf phase = none ∧ isOpen phase = false := by
    cases phase <;> first | exact ⟨rfl, rfl, rfl⟩ | cases hplain
  refine h.move_same hj (by rw [hphase]; exact nofun) rfl rfl rfl h.added ?_ ?_ hnone.2.2
    (appended_writeFilter hlines attached) fun _ hp => ?_
  · intro ip _ hn
    rw [hnone.1] at hn
    cases hn
  · intro ip hr
    rw [hnone.2.1] at hr
    cases hr
  · have hattached : attached = true := by
      rw [hphase] at hp
      exact hp.1
    refine hprogress _ rfl ?_ hp
    rw [State.setPhase_filterFile, State.writeFilter_filterFile, if_pos hattached,
      loadIpFilter_newline]

theorem Sound.writeLine (h : Sound s) (hj : s.jobs[j]? = some job) {ip : UInt32}
    {attached : Bool} {todo : List UInt32} (hphase : job.phase = .writing ip attached .line todo)
    (hc : attached = true → FreshLine (fromUtf8Lossy s.filterFile) ∧
      covered (fromUtf8Lossy s.filterFile) ip = false) :
    Sound ((s.writeFilter attached (formatLine ip)).setPhase j job
      (.writing ip attached .newline todo)) := by
  obtain ⟨added, rest, hlines⟩ := h.lines
  refine h.move_same hj (by rw [hphase]; exact nofun) rfl rfl rfl h.added (fun _ _ hn => nomatch hn)
    (fun _ hr => nomatch hr) rfl ?_ fun _ hp => ?_
  · cases attached with
    | true => exact ⟨added ++ [ip], rest ++ formatLine ip, hlines.line (hc rfl).1 (hc rfl).2⟩
    | false => exact ⟨added, rest, hlines.congr rfl rfl⟩
  · rw [hphase] at hp
    obtain ⟨hattached, hp⟩ := hp
    have hranges : loadIpFilter (s.writeFilter attached (formatLine ip)).filterFile =
        loadIpFilter s.filterFile ++ [(ip, ip)] := by
      rw [State.writeFilter_filterFile, if_pos hattached,
        loadIpFilter_formatLine (hc hattached).1]
    refine ⟨hattached, fun a ha => ?_⟩
    rw [State.setPhase_filterFile, hranges]
    obtain ⟨rfl, -⟩ | ha | ha := hp a ha
    · exact Or.inr (Or.inr ⟨(a, a), by simp, UInt32.le_refl _, UInt32.le_refl _⟩)
    · exact Or.inr (Or.inl ha)
    · exact Or.inr (Or.inr (covers_append ha))

/-- A job that is writing a line of the list is the only one. -/
theorem Sound.quiet (h : Sound s) (hj : s.jobs[j]? = some job) (ho : isOpen job.phase = true) :
    Quiet s j := by
  intro i a hi hij
  by_contra ha
  exact hij (h.one i j a job hi hj (Bool.eq_true_of_not_eq_false ha) ho)

theorem Sound.quiet_of_fresh (h : Sound s) (hf : FreshLine (listText s)) : Quiet s j := by
  intro i a hi _
  by_contra ha
  have hpartly := h.partly i a hi
  cases hp : a.phase with
  | recording ip part =>
    rw [hp] at ha hpartly
    have hpart : part ≠ .key := by simpa [isOpen] using ha
    obtain ⟨front, t, -, htext, hw⟩ := hpartly hpart
    rw [htext] at hf
    exact not_freshLine (written_free hw).1 (written_free hw).2 hf
  | _ =>
    rw [hp] at ha
    exact ha rfl

/-- The list keeps its addresses while a line of it is written on. -/
theorem recorded_extend {text front t more : Str} {ip : UInt32} {part part' : BotIpFilter.Part}
    (hf : FreshLine front) (htext : text = front ++ t) (hw : written ip part t)
    (hw' : written ip part' (t ++ more)) : recorded (text ++ more) = recorded text ∧
      ip ∈ recorded text := by
  rw [htext, List.append_assoc, recorded_written hf hw', recorded_written hf hw]
  exact ⟨rfl, by simp⟩

theorem Sound.writeOn (h : Sound s) (hj : s.jobs[j]? = some job) {ip : UInt32}
    {part part' : BotIpFilter.Part} {more : Str} (hphase : job.phase = .recording ip part)
    (hpart : part ≠ .key) (hw' : ∀ t, written ip part t → written ip part' (t ++ more)) :
    Sound ((s.writeList more).setPhase j job (.recording ip part')) := by
  have hpartly := h.partly j job hj
  rw [hphase] at hpartly
  obtain ⟨front, t, hf, htext, hw⟩ := hpartly hpart
  obtain ⟨hrecorded, hip⟩ := recorded_extend hf htext hw (hw' t hw)
  refine h.move_write hj hphase (fun a ha => hrecorded.symm ▸ ha) (hrecorded.symm ▸ hip)
    (fun a ha => (Option.some.inj ha).symm) ?_ (h.quiet hj (by rw [hphase]; simp [isOpen, hpart]))
  exact fun _ => ⟨front, t ++ more, hf, by rw [htext, List.append_assoc], hw' t hw⟩

end Next

section Run

variable {rfc3339 : Nat → Str} {s t : State} {j now : Nat} {job : Job}

theorem readToString_list (h : Sound s) : readToString s.listFile = some (listText s) := by
  rw [readToString]
  exact if_pos h.text

theorem sound_next (htime : ∀ now, '\n' ∉ rfc3339 now) (h : Sound s) (hj : s.jobs[j]? = some job)
    (hc : safe s (.next j now) = true) (ht : next rfc3339 s j now job = some t) : Sound t := by
  obtain ⟨added, rest, hlines⟩ := h.lines
  have hsame : ∃ added rest, Appended s added rest := ⟨added, rest, hlines⟩
  rw [next] at ht
  cases hphase : job.phase with
  | reading =>
    rw [hphase] at ht
    cases ht
    refine h.move_same hj (by rw [hphase]; exact nofun) rfl rfl rfl h.added
      (fun _ _ hn => nomatch hn) (fun _ hr => nomatch hr) rfl hsame fun _ _ a ha => Or.inl ?_
    rw [readToString_list h]
    exact ha
  | check todo =>
    rw [hphase] at ht
    cases todo with
    | nil =>
      cases ht
      cases hadds : job.adds with
      | none =>
        refine h.move_same hj (by rw [hphase]; exact nofun) rfl rfl rfl h.added
          (fun ip ha => by rw [hadds] at ha; cases ha) (fun _ hr => nomatch hr) rfl hsame ?_
        intro _ hp a ha
        rw [hphase] at hp
        exact (hp a ha).resolve_left List.not_mem_nil
      | some ip =>
        refine h.move_same hj (by rw [hphase]; exact nofun) rfl rfl rfl h.added
          (fun _ _ hn => nomatch hn) ?_ rfl hsame ?_
        · intro ip' hr
          rw [hadds]
          exact hr
        · intro hnone
          rw [hadds] at hnone
          cases hnone
    | cons ip todo =>
      cases ht
      split
      · rename_i hcov
        refine h.move_same hj (by rw [hphase]; exact nofun) rfl rfl rfl h.added
          (fun _ _ hn => nomatch hn) (fun _ hr => nomatch hr) rfl hsame fun _ hp a ha => ?_
        rw [hphase] at hp
        obtain hin | hin := hp a ha
        · obtain rfl | hin := List.mem_cons.mp hin
          · exact Or.inr ((covered_iff _ _).mp hcov)
          · exact Or.inl hin
        · exact Or.inr hin
      · refine h.move_same hj (by rw [hphase]; exact nofun) rfl rfl rfl h.added
          (fun _ _ hn => nomatch hn) (fun _ hr => nomatch hr) rfl hsame fun _ hp => ⟨?_, ?_⟩
        · split <;> exact nofun
        · intro a ha
          rw [hphase] at hp
          obtain hin | hin := hp a ha
          · exact (List.mem_cons.mp hin).imp id Or.inl
          · exact Or.inr (Or.inr hin)
  | opening ip stage todo =>
    rw [hphase] at ht
    cases ht
    refine h.move_same hj (by rw [hphase]; exact nofun) rfl rfl rfl h.added
      (fun _ _ hn => nomatch hn) (fun _ hr => nomatch hr) rfl hsame fun _ hp => ⟨rfl, ?_⟩
    intro a ha
    rw [hphase] at hp
    exact (hp.2 a ha).imp (fun he => ⟨he, hp.1⟩) id
  | writing ip attached stage todo =>
    rw [hphase] at ht
    cases stage with
    | sep =>
      cases ht
      refine h.writeNewline hj hphase rfl fun u hlist hranges hp => ?_
      rw [hphase] at hp
      refine ⟨hp.1, fun a ha => ?_⟩
      rw [hranges]
      exact (hp.2 a (hlist ▸ ha)).imp (fun he => ⟨he.1, nofun⟩) id
    | line =>
      cases ht
      refine h.writeLine hj hphase fun hattached => ?_
      rw [safe, hj, Option.map_some, hphase, hattached] at hc
      simpa using hc
    | newline =>
      cases ht
      refine h.writeNewline hj hphase rfl fun u hlist hranges hp a ha => ?_
      rw [hphase] at hp
      rw [hranges]
      exact (hp.2 a (hlist ▸ ha)).resolve_left fun he => he.2 rfl
  | remember ip =>
    rw [hphase] at ht
    cases ht
    have hadds : job.adds = some ip := h.adds j job ip hj (by rw [hphase]; rfl)
    have hnot : job.adds = none → False := fun hn => by rw [hadds] at hn; cases hn
    split
    · rename_i hany
      refine h.move_same hj (by rw [hphase]; exact nofun) rfl rfl rfl h.added ?_
        (fun _ hr => nomatch hr) rfl hsame fun hn => (hnot hn).elim
      intro ip' ha _
      obtain rfl : ip = ip' := Option.some.inj (hadds.symm.trans ha)
      rw [readToString_list h] at hany
      obtain ⟨l, hl, hw⟩ := List.any_eq_true.mp hany
      refine List.mem_filterMap.mpr ⟨l, hl, ?_⟩
      rw [beq_iff_eq.mp hw]
      exact parseIpv4_ipString ip
    · refine h.move_same hj (by rw [hphase]; exact nofun) rfl rfl rfl h.added
        (fun _ _ hn => nomatch hn) ?_ rfl hsame fun hn => (hnot hn).elim
      intro ip' hr
      rw [hadds]
      exact hr
  | recording ip part =>
    rw [hphase] at ht
    cases part with
    | key =>
      cases ht
      have hf : FreshLine (listText s) := by
        rw [safe, hj, Option.map_some, hphase] at hc
        exact of_decide_eq_true hc
      have hw : written ip .space (ipString ip) := rfl
      have hrec := recorded_written hf hw
      refine h.move_write hj hphase (fun a ha => ?_) ?_ (fun a ha => (Option.some.inj ha).symm)
        (fun _ => ⟨listText s, ipString ip, hf, rfl, hw⟩) (h.quiet_of_fresh hf)
      · rw [hrec]
        exact List.mem_append_left _ ha
      · rw [hrec]
        simp
    | space =>
      cases ht
      refine h.writeOn hj hphase nofun fun t hw => ?_
      rw [show t = ipString ip from hw]
      rfl
    | time =>
      cases ht
      refine h.writeOn hj hphase nofun fun t hw => ⟨rfc3339 now, htime now, ?_⟩
      rw [show t = ipString ip ++ [' '] from hw, List.append_assoc]
      rfl
    | newline =>
      cases ht
      have hip : ip ∈ recorded (listText s) :=
        h.noted j job ip hj (h.adds j job ip hj (by rw [hphase]; rfl)) (by rw [hphase]; rfl)
      refine h.move_write hj hphase (fun a ha => ?_) ?_ nofun trivial
        (h.quiet hj (by rw [hphase]; rfl))
      · rwa [recorded_newline]
      · rwa [recorded_newline]
  | load =>
    rw [hphase] at ht
    cases ht
    refine h.move_same hj (by rw [hphase]; exact nofun) rfl rfl rfl h.added
      (fun ip ha _ => h.noted j job ip hj ha (by rw [hphase]; rfl)) (fun _ hr => nomatch hr) rfl
      hsame fun _ hp a ha => ?_
    rw [hphase] at hp
    exact (isBlocked_load _ _).mpr (hp a ha)
  | swap ranges =>
    rw [hphase] at ht
    cases ht
    refine h.move_same hj (by rw [hphase]; exact nofun) rfl rfl rfl ?_
      (fun ip ha _ => h.noted j job ip hj ha (by rw [hphase]; rfl)) (fun _ hr => nomatch hr) rfl
      ⟨added, rest, hlines.congr rfl rfl⟩ fun _ hp a ha => ?_
    · intro ip hip
      obtain hip | hip := List.mem_append.mp hip
      · exact h.noted j job ip hj (Option.mem_toList.mp hip) (by rw [hphase]; rfl)
      · exact h.added ip hip
    · rw [hphase] at hp
      exact hp a ha
  | done =>
    rw [hphase] at ht
    cases ht

theorem sound_step (htime : ∀ now, '\n' ∉ rfc3339 now) (h : Sound s) {e : Event}
    (hc : safe s e = true) (ht : step rfc3339 s e = some t) : Sound t := by
  obtain ⟨added, rest, hlines⟩ := h.lines
  cases e with
  | add ip =>
    cases ht
    refine h.of_jobs rfl rfl (fun j job hj => ?_) ⟨added, rest, hlines.congr rfl rfl⟩
      fun _ hj => nomatch hj
    obtain hj | ⟨-, rfl⟩ := jobs_concat hj
    · exact Or.inl hj
    · exact Or.inr rfl
  | reload =>
    cases ht
    split
    · rename_i hall
      exact @sound_start s h s.jobs s.force hall fun _ _ hj => hj
    · refine h.of_jobs rfl rfl (fun j job hj => ?_) ⟨added, rest, hlines.congr rfl rfl⟩
        fun _ hj => nomatch hj
      obtain hj | ⟨-, rfl⟩ := jobs_concat hj
      · exact Or.inl hj
      · exact Or.inr rfl
  | next j now =>
    obtain ⟨job, hj, ht⟩ := Option.bind_eq_some_iff.mp ht
    exact sound_next htime h hj hc ht
  | replace content renamed =>
    cases ht
    refine h.of_jobs rfl rfl (fun j job hj => ?_) ⟨[], [], appended_nil rfl⟩ fun _ hj => nomatch hj
    cases renamed with
    | false => exact Or.inl hj
    | true =>
      obtain ⟨old, hold, rfl⟩ := Option.map_eq_some_iff.mp (List.getElem?_map ▸ hj)
      obtain he | hp := detach_cases old
      · exact Or.inl (he.symm ▸ hold)
      · exact Or.inr hp
  | restart =>
    cases ht
    exact @sound_start s h [] [] rfl fun _ _ hj => nomatch hj

theorem scanners_stay (htime : ∀ now, '\n' ∉ rfc3339 now) {filterFile : List UInt8} {list : Str}
    {es : List Event}
    (hc : Along (step rfc3339) (fun s e => safe s e = true) (init filterFile list) es)
    (hrun : exec (step rfc3339) (init filterFile list) es = some s) : Stays s :=
  (exec_invariant_along (fun _ _ _ h hc ht => sound_step htime h hc ht)
    (sound_init filterFile list) hc hrun).stays

end Run

/-- The lines of a filter file that was empty when it was installed. -/
theorem Stays.lines_of_empty {s : State} (h : Stays s) (hi : s.installed = []) :
    ((fromUtf8Lossy s.filterFile).splitOn '\n').filter (· ≠ []) =
        ((loadIpFilter s.filterFile).map Prod.fst).map formatLine ∧
      ((loadIpFilter s.filterFile).map Prod.fst).Nodup := by
  obtain ⟨added, rest, file, -, lines, ranges, once, -⟩ := h.lines
  have hrest : fromUtf8Lossy s.filterFile = rest := by
    rw [file, hi, List.nil_append, fromUtf8Lossy_utf8]
  have hadded : (loadIpFilter s.filterFile).map Prod.fst = added := by
    rw [ranges, hi, show loadIpFilter [] = [] from rfl, List.nil_append, List.map_map]
    exact List.map_id added
  rw [hrest, hadded]
  exact ⟨lines, once⟩

section Sample

def sampleTime (_ : Nat) : Str :=
  "1970-01-01T00:00:00Z".toList

def nexts (j n : Nat) : List Event := List.replicate n (.next j 0)

/-- An address is added, the filter file replaced and read again. -/
def replacedRun : List Event :=
  nexts 0 4 ++ .add 0x01020304 :: nexts 1 12 ++ .replace [] true :: .reload :: nexts 2 8

theorem replaced_blocked : ∃ t, exec (step sampleTime) (init [] []) replacedRun = some t ∧
    Stays t ∧ t.alone = some 2 ∧ t.added = [0x01020304] ∧ isBlocked t.force 0x01020304 = true := by
  have hend : ((exec (step sampleTime) (init [] []) replacedRun).any fun t =>
      t.alone = some 2 ∧ t.added = [0x01020304] ∧ isBlocked t.force 0x01020304 = true) = true := by
    decide +kernel
  obtain ⟨t, ht, hend⟩ := (Option.any_eq_true _ _).mp hend
  have htime : '\n' ∉ sampleTime 0 := by decide
  exact ⟨t, ht, scanners_stay (fun _ => htime) (by decide) ht, of_decide_eq_true hend⟩

/-- Two jobs begin their lines of the list at once, then the filter file is replaced. -/
def tornRecordRun : List Event :=
  nexts 0 4 ++ [.add 0x01020304, .add 0x05060708] ++ nexts 1 6 ++ nexts 2 6 ++
    [.next 1 0, .next 2 0] ++ nexts 1 5 ++ nexts 2 5 ++ .replace [] true :: .reload :: nexts 3 4

/-- Two jobs have looked at the filter file and begin their lines of it at once. -/
def tornLineRun : List Event :=
  nexts 0 4 ++ [.add 0x01020304, .add 0x05060708] ++ nexts 1 2 ++ nexts 2 2 ++
    [.next 1 0, .next 2 0] ++ nexts 1 9 ++ nexts 2 9 ++ .reload :: nexts 3 9

/-- Two jobs for one address have looked at the filter file before either writes. -/
def doubleLineRun : List Event :=
  nexts 0 4 ++ [.add 0x01020304, .add 0x01020304] ++ nexts 1 2 ++ nexts 2 2 ++ nexts 1 10 ++
    nexts 2 6 ++ .reload :: nexts 3 5

theorem not_stays_of_lines {es : List Event}
    (h : ((exec (step sampleTime) (init [] []) es).any fun t =>
      t.installed = [] ∧ t.alone = some 3 ∧
        ¬ (((fromUtf8Lossy t.filterFile).splitOn '\n').filter (· ≠ []) =
            ((loadIpFilter t.filterFile).map Prod.fst).map formatLine ∧
          ((loadIpFilter t.filterFile).map Prod.fst).Nodup)) = true) :
    ∃ t, exec (step sampleTime) (init [] []) es = some t ∧ t.alone = some 3 ∧ ¬ Stays t := by
  obtain ⟨t, ht, hend⟩ := (Option.any_eq_true _ _).mp h
  obtain ⟨hi, ha, hno⟩ := of_decide_eq_true hend
  exact ⟨t, ht, ha, fun hs => hno (hs.lines_of_empty hi)⟩

/-- An address is no longer blocked, a line of the filter file is damaged, and an address gets a
second line. -/
theorem scanners_lost :
    (∃ t, exec (step sampleTime) (init [] []) tornRecordRun = some t ∧ t.alone = some 3 ∧
      ¬ Stays t) ∧
    (∃ t, exec (step sampleTime) (init [] []) tornLineRun = some t ∧ t.alone = some 3 ∧
      ¬ Stays t) ∧
    ∃ t, exec (step sampleTime) (init [] []) doubleLineRun = some t ∧ t.alone = some 3 ∧
      ¬ Stays t := by
  refine ⟨?_, not_stays_of_lines (by decide +kernel), not_stays_of_lines (by decide +kernel)⟩
  have hend : ((exec (step sampleTime) (init [] []) tornRecordRun).any fun t =>
      t.alone = some 3 ∧ t.jobs[3]?.any (·.phase = .done) = true ∧
        0x01020304 ∈ t.added ∧ isBlocked t.force 0x01020304 = false) = true := by decide +kernel
  obtain ⟨t, ht, hend⟩ := (Option.any_eq_true _ _).mp hend
  obtain ⟨ha, hdone, hadded, hblocked⟩ := of_decide_eq_true hend
  refine ⟨t, ht, ha, fun hs => ?_⟩
  rw [hs.blocked 3 ha hdone _ hadded] at hblocked
  cases hblocked

end Sample

end Ed2kServer.Server.BotIpFilterStays
