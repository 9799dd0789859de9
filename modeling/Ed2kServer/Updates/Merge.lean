import Ed2kServer.Updates.Validate

namespace Ed2kServer.Updates.Merge

open Ed2kServer.Slab.Record Ed2kServer.Text.Lines Ed2kServer.Text.Utf8
open Ed2kServer.Filter.Loaders Ed2kServer.Updates.Validate

/-- The text after the first `n` bytes, or nothing where no character begins there. -/
def textFrom : Nat → Str → Str
  | _, [] => []
  | n, c :: s => if n = 0 then c :: s else if c.utf8Size ≤ n then textFrom (n - c.utf8Size) s else []

/-- Does an annotation follow the hash? -/
def lineHasComment (line : Str) : Bool := !(trim (textFrom 32 (trim line))).isEmpty

/-- Where a hash stands: in a line of the old file, or among the appended ones. -/
inductive Place
  | line (i : Nat)
  | appended
  deriving DecidableEq

@[ext] structure Merging where
  out : List Str
  index : FileHash → Option Place
  appended : List Str

/-- The old lines; each hash is indexed at its first. -/
def begin (out : List Str) : Merging :=
  ⟨out, fun h => (out.findIdx? (takes h)).map .line, []⟩

/-- A line of the incoming file; an appended hash has no line in `out` to look at. -/
def mergeLine (m : Merging) (line : Str) : Option Merging :=
  match hashOfLine line with
  | .hash h =>
    match m.index h with
    | some (.line i) => (m.out[i]?).map fun current =>
      if !lineHasComment current && lineHasComment line then
        { m with out := m.out.set i (trimEnd line) }
      else m
    | some .appended => none
    | none => some { m with
        index := Function.update m.index h (some .appended)
        appended := m.appended ++ [trimEnd line] }
  | _ => some m

def mergeHeader (n : Nat) (stamp : Str) : Str :=
  "# ── merged ".toList ++ (toString n).toList ++ " entries on ".toList ++ stamp ++ " ──".toList

def outputLines (m : Merging) (stamp : Str) : List Str :=
  if m.appended = [] then m.out
  else
    m.out ++ (if m.out.getLast?.any (fun last => !(trim last).isEmpty) then [[]] else []) ++
      mergeHeader m.appended.length stamp :: m.appended

/-- The union of two hash lists; `none` where it looks past the lines of the old file. -/
def mergeHashLists (old new stamp : Str) : Option Str := do
  let m ← (lines new).foldlM mergeLine (begin (lines old))
  let s := ['\n'].intercalate (outputLines m stamp)
  return if s.getLast? = some '\n' then s else s ++ ['\n']

/-- The old line of a hash as it stands in the end: a bare one takes the first annotated line of
the incoming file. -/
def finalLine (new : List Str) (h : FileHash) (line : Str) : Str :=
  if lineHasComment line then line
  else ((new.find? (fun l => takes h l && lineHasComment l)).map trimEnd).getD line

def upgrade (old new : List Str) (i : Nat) (line : Str) : Str :=
  match hashOfLine line with
  | .hash h => if old.findIdx? (takes h) = some i then finalLine new h line else line
  | _ => line

/-- A line whose hash the old file does not have. -/
def fresh (old : List Str) (line : Str) : Bool :=
  match hashOfLine line with
  | .hash h => (old.findIdx? (takes h)).isNone
  | _ => false

/-- The merge after these lines. -/
def merged (old new : List Str) : Merging where
  out := old.mapIdx (upgrade old new)
  index h := match old.findIdx? (takes h) with
    | some i => some (.line i)
    | none => if new.any (takes h) then some .appended else none
  appended := (new.filter (fresh old)).map trimEnd

/-- No hash that the old file lacks is twice in the new one. -/
def NoTwice (old new : List Str) : Prop :=
  ∀ h, old.findIdx? (takes h) = none → new.countP (takes h) ≤ 1

variable {old new : List Str} {line : Str} {h : FileHash} {i : Nat}

theorem trim_trimEnd (line : Str) : trim (trimEnd line) = trim line := by
  obtain ⟨spaces, hspaces⟩ : ∃ spaces, line = trimEnd line ++ spaces ∧ ∀ c ∈ spaces, isWhitespace c :=
    ⟨_, (trimEnd_append_rtakeWhile line).symm, fun c hc => List.mem_rtakeWhile_imp hc⟩
  obtain ⟨hline, hall⟩ := hspaces
  nth_rewrite 2 [hline]
  clear hline
  induction spaces using List.reverseRecOn with
  | nil => rw [List.append_nil]
  | append_singleton spaces c ih =>
    rw [← List.append_assoc, trim_append_space (hall c (by simp))]
    exact ih (fun d hd => hall d (by simp [hd]))

theorem hashOfLine_congr {line line' : Str} (h : trim line = trim line') :
    hashOfLine line = hashOfLine line' := by
  rw [hashOfLine, h, hashOfLine]

theorem takes_trimEnd (h : FileHash) (line : Str) : takes h (trimEnd line) = takes h line := by
  rw [takes, hashOfLine_congr (trim_trimEnd line), takes]

theorem hashOfEntry_trimEnd (line : Str) : hashOfEntry (trimEnd line) = hashOfEntry line := by
  rw [hashOfEntry, trim_trimEnd, hashOfEntry]

theorem lineHasComment_trimEnd (line : Str) :
    lineHasComment (trimEnd line) = lineHasComment line := by
  rw [lineHasComment, trim_trimEnd, lineHasComment]

theorem takes_iff : takes h line = true ↔ hashOfLine line = .hash h := by
  rw [takes, decide_eq_true_iff]

theorem merged_begin : merged old [] = begin old := by
  have hout : old.mapIdx (upgrade old []) = old := by
    apply List.ext_getElem?
    intro i
    rw [List.getElem?_mapIdx]
    cases hi : old[i]? with
    | none => rfl
    | some line =>
      simp only [Option.map_some, Option.some.injEq, upgrade]
      split
      · split <;> simp [finalLine]
      · rfl
  simp only [merged, begin, hout, List.any_nil, List.filter_nil, List.map_nil, Merging.mk.injEq,
    and_true, true_and]
  funext h
  cases old.findIdx? (takes h) <;> simp

theorem finalLine_concat (new : List Str) (h : FileHash) (line next : Str) :
    finalLine (new ++ [next]) h line =
      if !lineHasComment (finalLine new h line) && (takes h next && lineHasComment next) then
        trimEnd next
      else finalLine new h line := by
  rw [finalLine, finalLine]
  cases hline : lineHasComment line with
  | true => simp [hline]
  | false =>
    simp only [Bool.false_eq_true, if_false, List.find?_append]
    cases hfind : new.find? (fun l => takes h l && lineHasComment l) with
    | some l =>
      have hl := List.find?_some hfind
      rw [Bool.and_eq_true] at hl
      simp [lineHasComment_trimEnd, hl.2]
    | none =>
      cases hnext : (takes h next && lineHasComment next) <;> simp [hnext, hline]

theorem upgrade_of_findIdx {h : FileHash} (hi : old.findIdx? (takes h) = some i)
    (hline : takes h line = true) (new : List Str) :
    upgrade old new i line = finalLine new h line := by
  rw [upgrade, takes_iff.mp hline]
  simp only [hi, if_true]

/-- Where the next line changes an old one, and to what. -/
theorem upgrade_concat (new : List Str) (i : Nat) (line next : Str) :
    upgrade old (new ++ [next]) i line =
      if (∃ h, hashOfLine line = .hash h ∧ old.findIdx? (takes h) = some i ∧ takes h next = true) ∧
        lineHasComment (upgrade old new i line) = false ∧ lineHasComment next = true
      then trimEnd next else upgrade old new i line := by
  rw [upgrade, upgrade]
  cases hk : hashOfLine line with
  | hash h =>
    simp only [LineKind.hash.injEq, exists_eq_left']
    by_cases hi : old.findIdx? (takes h) = some i
    · simp only [hi, if_true, true_and, finalLine_concat]
      cases lineHasComment (finalLine new h line) <;> cases takes h next <;>
        cases lineHasComment next <;> rfl
    · simp only [hi, if_false, false_and]
  | comment => simp
  | junk => simp

theorem getElem?_of_findIdx (hi : old.findIdx? (takes h) = some i) :
    ∃ line, old[i]? = some line ∧ takes h line = true := by
  obtain ⟨hlt, hp, -⟩ := List.findIdx?_eq_some_iff_getElem.mp hi
  exact ⟨old[i], List.getElem?_eq_getElem hlt, hp⟩

/-- A line without a hash changes nothing. -/
theorem merged_concat_of_not_hash (hk : ∀ h, takes h line = false) (hline : fresh old line = false)
    (new : List Str) : merged old (new ++ [line]) = merged old new := by
  have hout : old.mapIdx (upgrade old (new ++ [line])) = old.mapIdx (upgrade old new) := by
    congr 1
    funext i l
    rw [upgrade_concat, if_neg]
    rintro ⟨⟨h, -, -, ht⟩, -⟩
    rw [hk h] at ht
    cases ht
  simp only [merged, hout, List.any_append, List.any_cons, List.any_nil, hk, Bool.or_false,
    List.filter_append, hline, Bool.false_eq_true, not_false_eq_true, List.filter_cons_of_neg,
    List.filter_nil, List.append_nil]

theorem out_getElem? (old new : List Str) (i : Nat) :
    (merged old new).out[i]? = (old[i]?).map (upgrade old new i) := List.getElem?_mapIdx

/-- A hash of the old file upgrades its first line there or changes nothing. -/
theorem merged_concat_of_line (hk : takes h line = true) (hi : old.findIdx? (takes h) = some i)
    (new : List Str) {current : Str} (hcurrent : (merged old new).out[i]? = some current) :
    merged old (new ++ [line]) =
      if !lineHasComment current && lineHasComment line then
        { merged old new with out := (merged old new).out.set i (trimEnd line) }
      else merged old new := by
  have honly : ∀ h', takes h' line = true → h' = h := by
    intro h' ht
    have := (takes_iff.mp hk).symm.trans (takes_iff.mp ht)
    exact (LineKind.hash.inj this).symm
  have hindex : (merged old (new ++ [line])).index = (merged old new).index := by
    funext h'
    simp only [merged]
    cases hfind : old.findIdx? (takes h') with
    | some j => rfl
    | none =>
      have hnot : takes h' line = false := by
        cases ht : takes h' line with
        | false => rfl
        | true =>
          rw [honly h' ht, hi] at hfind
          cases hfind
      simp [hnot]
  have happended : (merged old (new ++ [line])).appended = (merged old new).appended := by
    have hfresh : fresh old line = false := by
      rw [fresh, takes_iff.mp hk]
      simp [hi]
    simp [merged, hfresh]
  obtain ⟨l, hl, htakes⟩ := getElem?_of_findIdx hi
  have hcur : upgrade old new i l = current := by
    rw [out_getElem?, hl] at hcurrent
    exact Option.some.inj hcurrent
  have hout : ∀ j, (merged old (new ++ [line])).out[j]? =
      if j = i ∧ (!lineHasComment current && lineHasComment line) = true then some (trimEnd line)
      else (merged old new).out[j]? := by
    intro j
    rw [out_getElem?, out_getElem?]
    by_cases hj : j = i
    · subst hj
      rw [hl, Option.map_some, Option.map_some, upgrade_concat, hcur]
      have hsame : ∃ h', hashOfLine l = .hash h' ∧ old.findIdx? (takes h') = some j ∧
          takes h' line = true := ⟨h, takes_iff.mp htakes, hi, hk⟩
      simp only [hsame, true_and, Bool.and_eq_true, Bool.not_eq_true']
      split <;> rfl
    · rw [if_neg (fun hc => hj hc.1)]
      cases hold : old[j]? with
      | none => rfl
      | some l' =>
        rw [Option.map_some, Option.map_some, upgrade_concat, if_neg]
        rintro ⟨⟨h', -, hfirst, ht⟩, -⟩
        rw [honly h' ht, hi] at hfirst
        exact hj (Option.some.inj hfirst).symm
  have hlt : i < (merged old new).out.length := (List.getElem?_eq_some_iff.mp hcurrent).1
  cases hup : (!lineHasComment current && lineHasComment line) with
  | true =>
    rw [if_pos rfl]
    refine Merging.ext (List.ext_getElem? fun j => ?_) hindex happended
    rw [hout, hup, List.getElem?_set]
    by_cases hj : j = i
    · simp [hj, hlt]
    · simp [hj, Ne.symm hj]
  | false =>
    rw [if_neg Bool.false_ne_true]
    refine Merging.ext (List.ext_getElem? fun j => ?_) hindex happended
    rw [hout, hup]
    simp

/-- A hash the old file lacks is appended. -/
theorem merged_concat_of_fresh (hk : takes h line = true) (hi : old.findIdx? (takes h) = none)
    (new : List Str) : merged old (new ++ [line]) =
      { merged old new with
        index := Function.update (merged old new).index h (some .appended)
        appended := (merged old new).appended ++ [trimEnd line] } := by
  have honly : ∀ h', takes h' line = true → h' = h := by
    intro h' ht
    have := (takes_iff.mp hk).symm.trans (takes_iff.mp ht)
    exact (LineKind.hash.inj this).symm
  have hfresh : fresh old line = true := by
    rw [fresh, takes_iff.mp hk]
    simp [hi]
  refine Merging.ext (List.ext_getElem? fun j => ?_) (funext fun h' => ?_) ?_
  · rw [out_getElem?, out_getElem?]
    cases hold : old[j]? with
    | none => rfl
    | some l =>
      rw [Option.map_some, Option.map_some, upgrade_concat, if_neg]
      rintro ⟨⟨h', -, hfirst, ht⟩, -⟩
      rw [honly h' ht, hi] at hfirst
      cases hfirst
  · by_cases hh : h' = h
    · subst hh
      simp [merged, hi, hk]
    · have hnot : takes h' line = false := by
        cases ht : takes h' line with
        | false => rfl
        | true => exact absurd (honly h' ht) hh
      simp [merged, hh, hnot]
  · simp [merged, hfresh]

/-- One line of the incoming file: only a fresh hash that came before fails. -/
theorem mergeLine_merged {m : Merging} : mergeLine (merged old new) line = some m ↔
    (∀ h, takes h line = true → old.findIdx? (takes h) = none → new.any (takes h) = false) ∧
      m = merged old (new ++ [line]) := by
  cases hk : hashOfLine line with
  | hash h =>
    have ht : takes h line = true := takes_iff.mpr hk
    have honly : (∀ h, takes h line = true → old.findIdx? (takes h) = none →
        new.any (takes h) = false) ↔
          (old.findIdx? (takes h) = none → new.any (takes h) = false) := by
      simp [takes_iff, hk]
    rw [honly]
    simp only [mergeLine, hk]
    cases hi : old.findIdx? (takes h) with
    | some i =>
      obtain ⟨l, hl, -⟩ := getElem?_of_findIdx hi
      have hcurrent : (merged old new).out[i]? = some (upgrade old new i l) := by
        rw [out_getElem?, hl, Option.map_some]
      have hindex : (merged old new).index h = some (.line i) := by simp [merged, hi]
      rw [hindex]
      simp [hcurrent, merged_concat_of_line ht hi new hcurrent, @eq_comm _ m]
    | none =>
      cases hany : new.any (takes h) with
      | true =>
        have hindex : (merged old new).index h = some .appended := by
          simp only [merged, hi, hany, if_true]
        rw [hindex]
        simp
      | false =>
        have hindex : (merged old new).index h = none := by
          simp only [merged, hi, hany, Bool.false_eq_true, if_false]
        rw [hindex]
        simp [merged_concat_of_fresh ht hi new, @eq_comm _ m]
  | comment =>
    have hnot : ∀ h, takes h line = false := fun h => by simp [takes, hk]
    simp [mergeLine, hk, hnot, merged_concat_of_not_hash hnot (by simp [fresh, hk]), @eq_comm _ m]
  | junk =>
    have hnot : ∀ h, takes h line = false := fun h => by simp [takes, hk]
    simp [mergeLine, hk, hnot, merged_concat_of_not_hash hnot (by simp [fresh, hk]), @eq_comm _ m]

theorem noTwice_concat : NoTwice old (new ++ [line]) ↔ NoTwice old new ∧
    ∀ h, takes h line = true → old.findIdx? (takes h) = none → new.any (takes h) = false := by
  have hcount : ∀ h, (new ++ [line]).countP (takes h) =
      new.countP (takes h) + if takes h line then 1 else 0 := by
    intro h
    rw [List.countP_append, List.countP_singleton]
  have hany : ∀ h, new.any (takes h) = false ↔ new.countP (takes h) = 0 := by
    intro h
    rw [List.any_eq_false, List.countP_eq_zero]
  simp only [NoTwice, hcount, hany]
  constructor
  · intro hno
    refine ⟨fun h hi => (Nat.le_add_right _ _).trans (hno h hi), fun h ht hi => ?_⟩
    have := hno h hi
    rw [ht, if_pos rfl] at this
    omega
  · rintro ⟨hno, hlast⟩ h hi
    have h₁ := hno h hi
    cases ht : takes h line with
    | false => simpa using h₁
    | true => simp [hlast h ht hi]

/-- The merge succeeds exactly when no hash the old file lacks comes twice. -/
theorem foldlM_mergeLine {m : Merging} : new.foldlM mergeLine (begin old) = some m ↔
    NoTwice old new ∧ m = merged old new := by
  induction new using List.reverseRecOn generalizing m with
  | nil => simp [NoTwice, merged_begin, @eq_comm _ m]
  | append_singleton new line ih =>
    rw [List.foldlM_append, noTwice_concat, Option.bind_eq_bind, Option.bind_eq_some_iff]
    simp only [ih, List.foldlM_cons, List.foldlM_nil]
    constructor
    · rintro ⟨m', ⟨hno, rfl⟩, hlast⟩
      obtain ⟨hone, rfl⟩ := mergeLine_merged.mp (by simpa using hlast)
      exact ⟨⟨hno, hone⟩, rfl⟩
    · rintro ⟨⟨hno, hone⟩, rfl⟩
      refine ⟨merged old new, ⟨hno, rfl⟩, ?_⟩
      simp [mergeLine_merged.mpr ⟨hone, rfl⟩]

theorem takes_of_hashOfEntry (he : hashOfEntry line = some h) : takes h line = true :=
  takes_iff.mpr (hashOfEntry_eq_some.mp he).1

theorem takes_finalLine (ht : takes h line = true) (new : List Str) :
    takes h (finalLine new h line) = true := by
  rw [finalLine]
  split
  · exact ht
  · cases hfind : new.find? (fun l => takes h l && lineHasComment l) with
    | none => exact ht
    | some l =>
      have hl := List.find?_some hfind
      rw [Bool.and_eq_true] at hl
      rw [Option.map_some, Option.getD_some, takes_trimEnd]
      exact hl.1

theorem takes_upgrade (old new : List Str) (i : Nat) (line : Str) (h : FileHash) :
    takes h (upgrade old new i line) = takes h line := by
  rw [upgrade]
  cases hk : hashOfLine line with
  | hash h' =>
    simp only
    split
    · have hfinal := takes_iff.mp (takes_finalLine (takes_iff.mpr hk) new)
      rw [takes, takes, hfinal, hk]
    · rfl
  | comment => rfl
  | junk => rfl

theorem upgrade_of_ne (ht : takes h line = true) (hi : old.findIdx? (takes h) ≠ some i)
    (new : List Str) : upgrade old new i line = line := by
  rw [upgrade, takes_iff.mp ht]
  simp only [hi, if_false]

theorem mem_appended {line : Str} : line ∈ (merged old new).appended ↔
    ∃ l ∈ new, fresh old l = true ∧ trimEnd l = line := by
  simp only [merged, List.mem_map, List.mem_filter, and_assoc]

theorem fresh_of_takes (ht : takes h line = true) :
    fresh old line = true ↔ old.findIdx? (takes h) = none := by
  rw [fresh, takes_iff.mp ht]
  simp

/-- Which hashes the loader reads from the merged lines. -/
theorem read_merged_iff (old new : List Str) (h : FileHash) :
    ((∃ i : Nat, ((merged old new).out[i]?).bind hashOfEntry = some h) ∨
        ∃ line ∈ (merged old new).appended, hashOfEntry line = some h) ↔
      (∃ i line, old.findIdx? (takes h) = some i ∧ old[i]? = some line ∧
        (hashOfEntry (finalLine new h line) = some h ∨
          ∃ j : Nat, j ≠ i ∧ (old[j]?).bind hashOfEntry = some h)) ∨
      (old.findIdx? (takes h) = none ∧ ∃ line ∈ new, hashOfEntry line = some h) := by
  have happended : (∃ line ∈ (merged old new).appended, hashOfEntry line = some h) ↔
      old.findIdx? (takes h) = none ∧ ∃ line ∈ new, hashOfEntry line = some h := by
    constructor
    · rintro ⟨line, hline, he⟩
      obtain ⟨l, hl, hfresh, rfl⟩ := mem_appended.mp hline
      rw [hashOfEntry_trimEnd] at he
      exact ⟨(fresh_of_takes (takes_of_hashOfEntry he)).mp hfresh, l, hl, he⟩
    · rintro ⟨hnone, l, hl, he⟩
      have hfresh := (fresh_of_takes (takes_of_hashOfEntry he)).mpr hnone
      exact ⟨trimEnd l, mem_appended.mpr ⟨l, hl, hfresh, rfl⟩, by rwa [hashOfEntry_trimEnd]⟩
  rw [happended]
  refine or_congr ?_ Iff.rfl
  simp only [out_getElem?]
  constructor
  · rintro ⟨k, hk⟩
    obtain ⟨line, hline, he⟩ := Option.bind_eq_some_iff.mp hk
    obtain ⟨l, hl, rfl⟩ := Option.map_eq_some_iff.mp hline
    have ht : takes h l = true := by
      rw [← takes_upgrade old new k l h]
      exact takes_of_hashOfEntry he
    obtain ⟨i, hi⟩ : ∃ i, old.findIdx? (takes h) = some i := by
      rw [← Option.isSome_iff_exists, List.findIdx?_isSome, List.any_eq_true]
      exact ⟨l, List.mem_of_getElem? hl, ht⟩
    obtain ⟨first, hfirst, htakes⟩ := getElem?_of_findIdx hi
    refine ⟨i, first, hi, hfirst, ?_⟩
    by_cases hki : k = i
    · subst hki
      obtain rfl : l = first := Option.some.inj (hl.symm.trans hfirst)
      rw [upgrade_of_findIdx hi ht] at he
      exact .inl he
    · rw [upgrade_of_ne ht (by rw [hi]; exact fun hc => hki (Option.some.inj hc).symm)] at he
      exact .inr ⟨k, hki, by rw [hl]; exact he⟩
  · rintro ⟨i, line, hi, hline, he | ⟨j, hji, hj⟩⟩
    · have ht : takes h line = true := by
        obtain ⟨first, hfirst, htakes⟩ := getElem?_of_findIdx hi
        obtain rfl : line = first := Option.some.inj (hline.symm.trans hfirst)
        exact htakes
      exact ⟨i, by rw [hline, Option.map_some, upgrade_of_findIdx hi ht]; exact he⟩
    · obtain ⟨l, hl, he⟩ := Option.bind_eq_some_iff.mp hj
      refine ⟨j, ?_⟩
      rw [hl, Option.map_some, upgrade_of_ne (takes_of_hashOfEntry he)
        (by rw [hi]; exact fun hc => hji (Option.some.inj hc).symm)]
      exact he

theorem hashOfEntry_nil : hashOfEntry [] = none := rfl

theorem trim_mark (s : Str) : ∃ t, trim ('#' :: s) = '#' :: t := by
  rw [trim_eq_trimEnd (by simp only [List.head?_cons, Option.some.injEq]; rintro c rfl; decide),
    ← List.singleton_append, trimEnd_append]
  split
  · exact ⟨[], by decide⟩
  · exact ⟨trimEnd s, rfl⟩

/-- What begins with a visible `#` is a comment of the list files. -/
theorem hashOfEntry_comment (s : Str) : hashOfEntry ('#' :: s) = none := by
  obtain ⟨t, ht⟩ := trim_mark s
  rw [hashOfEntry, ht, if_pos (by simp [isSkipped])]

theorem takes_comment (h : FileHash) (s : Str) : takes h ('#' :: s) = false := by
  obtain ⟨t, ht⟩ := trim_mark s
  rw [takes, hashOfLine, ht, if_neg (by simp), if_pos (Or.inl ⟨t, rfl⟩)]
  rfl

theorem hashOfEntry_header (n : Nat) (stamp : Str) : hashOfEntry (mergeHeader n stamp) = none :=
  hashOfEntry_comment _

theorem outputLines_read (m : Merging) (stamp : Str) :
    (outputLines m stamp).filterMap hashOfEntry =
      m.out.filterMap hashOfEntry ++ m.appended.filterMap hashOfEntry := by
  rw [outputLines]
  split
  · rename_i hnone
    simp [hnone]
  · rw [List.filterMap_append, List.filterMap_append, List.filterMap_cons_none
      (hashOfEntry_header _ _)]
    split <;> simp [hashOfEntry_nil]

theorem trimEnd_free (hline : '\n' ∉ line) : '\n' ∉ trimEnd line :=
  fun hmem => hline (List.rdropWhile_prefix _ _ |>.mem hmem)

theorem toString_free (n : Nat) : '\n' ∉ (toString n).toList := by
  intro hmem
  rw [Nat.toString_eq_repr, Nat.toList_repr] at hmem
  have hdigit := Nat.isDigit_of_mem_toDigits (by decide : 0 < 10) (by decide : 10 ≤ 10) hmem
  cases hdigit

theorem append_free {s t : Str} (hs : '\n' ∉ s) (ht : '\n' ∉ t) : '\n' ∉ s ++ t := by
  rw [List.mem_append]
  exact not_or.mpr ⟨hs, ht⟩

theorem mergeHeader_free {stamp : Str} (hstamp : '\n' ∉ stamp) (n : Nat) :
    '\n' ∉ mergeHeader n stamp := by
  have hbefore : '\n' ∉ "# ── merged ".toList := by simp
  have hbetween : '\n' ∉ " entries on ".toList := by simp
  have hafter : '\n' ∉ " ──".toList := by simp
  have hcount := append_free hbefore (toString_free n)
  exact append_free (append_free (append_free hcount hbetween) hstamp) hafter

theorem upgrade_free (hnew : ∀ l ∈ new, '\n' ∉ l) (hline : '\n' ∉ line) (i : Nat) :
    '\n' ∉ upgrade old new i line := by
  have hfinal : ∀ h, '\n' ∉ finalLine new h line := by
    intro h
    rw [finalLine]
    split
    · exact hline
    · cases hfind : new.find? (fun l => takes h l && lineHasComment l) with
      | none => exact hline
      | some l => exact trimEnd_free (hnew l (List.mem_of_find?_eq_some hfind))
  rw [upgrade]
  split
  · split
    · exact hfinal _
    · exact hline
  · exact hline

theorem outputLines_free {stamp : Str} (hstamp : '\n' ∉ stamp) (hold : ∀ l ∈ old, '\n' ∉ l)
    (hnew : ∀ l ∈ new, '\n' ∉ l) : ∀ l ∈ outputLines (merged old new) stamp, '\n' ∉ l := by
  have hout : ∀ l ∈ (merged old new).out, '\n' ∉ l := by
    intro l hl
    obtain ⟨i, hi, rfl⟩ := List.mem_mapIdx.mp hl
    exact upgrade_free hnew (hold _ (List.getElem_mem hi)) i
  have happended : ∀ l ∈ (merged old new).appended, '\n' ∉ l := by
    intro l hl
    obtain ⟨line, hline, -, rfl⟩ := mem_appended.mp hl
    exact trimEnd_free (hnew line hline)
  intro l hl
  rw [outputLines] at hl
  split at hl
  · exact hout l hl
  · simp only [List.mem_append, List.mem_cons] at hl
    obtain (hl | hl) | rfl | hl := hl
    · exact hout l hl
    · split at hl
      · rw [List.mem_singleton.mp hl]
        exact List.not_mem_nil
      · cases hl
    · exact mergeHeader_free hstamp _
    · exact happended l hl

/-- The merge gives a file exactly when no hash that the old file lacks comes twice. -/
theorem mergeHashLists_isSome (old new stamp : Str) :
    (mergeHashLists old new stamp).isSome ↔ NoTwice (lines old) (lines new) := by
  rw [mergeHashLists]
  cases hm : (lines new).foldlM mergeLine (begin (lines old)) with
  | none =>
    have hno : ¬ NoTwice (lines old) (lines new) := by
      intro hno
      rw [foldlM_mergeLine.mpr ⟨hno, rfl⟩] at hm
      cases hm
    simp [hno]
  | some m => simp [(foldlM_mergeLine.mp hm).1]

/-- The hashes read from the merged file. -/
theorem mem_mergeHashLists {old new stamp s : Str} (hstamp : '\n' ∉ stamp)
    (hm : mergeHashLists old new stamp = some s) (h : FileHash) :
    h ∈ hashesOf s ↔
      (∃ i : Nat, ((merged (lines old) (lines new)).out[i]?).bind hashOfEntry = some h) ∨
        ∃ line ∈ (merged (lines old) (lines new)).appended, hashOfEntry line = some h := by
  have hread : hashesOf s =
      (outputLines (merged (lines old) (lines new)) stamp).filterMap hashOfEntry := by
    rw [mergeHashLists, Option.bind_eq_bind, Option.bind_eq_some_iff] at hm
    obtain ⟨m, hfold, hs⟩ := hm
    obtain ⟨-, rfl⟩ := foldlM_mergeLine.mp hfold
    obtain rfl := Option.some.inj hs
    refine filterMap_lines_joined (fun line => ?_) hashOfEntry_nil
      (outputLines_free hstamp (lines_free old) (lines_free new))
    rw [hashOfEntry, trim_trim, hashOfEntry]
  rw [hread, outputLines_read, List.mem_append, List.mem_filterMap, List.mem_filterMap]
  refine or_congr ?_ Iff.rfl
  simp only [Option.bind_eq_some_iff, List.mem_iff_getElem?]
  constructor
  · rintro ⟨line, ⟨i, hi⟩, he⟩
    exact ⟨i, line, hi, he⟩
  · rintro ⟨i, line, hi, he⟩
    exact ⟨line, ⟨i, hi⟩, he⟩

end Ed2kServer.Updates.Merge
