import Ed2kServer.Updates.Merge

namespace Ed2kServer.Updates.Install

open Ed2kServer.Slab.Record Ed2kServer.Text.Lines Ed2kServer.Text.Utf8
open Ed2kServer.Filter.Loaders Ed2kServer.Updates.Validate Ed2kServer.Updates.Merge

inductive Mode
  | replace
  | merge
  deriving DecidableEq

/-- Quotients of two numbers of entries, in the numbers of the collapse guard. -/
structure Quotients (F : Type) [LinearOrder F] [Zero F] where
  ratio : Nat → Nat → F
  ratio_zero : ∀ b, 0 < b → ratio 0 b = 0
  ratio_pos : ∀ a b, 0 < a → 0 < b → 0 < ratio a b
  exceeded : ∀ a b, 0 < b → ∃ r, ratio a b < r

inductive InstallError
  | cannotMerge
  | invalid (e : UpdateError)
  | panicked
  | collapsed (after before : Nat)
  deriving DecidableEq

variable {F : Type} [LinearOrder F] [Zero F]

/-- The collapse guard refuses these numbers of entries. -/
def collapses (Q : Quotients F) (minKeepRatio : F) (before : Option Nat) (after : Nat) : Bool :=
  0 < minKeepRatio && before.any fun b => 0 < b && Q.ratio after b < minKeepRatio

/-- What `run` makes of a fetched file: the bytes to install, with the guard's numbers. -/
def install (R : Readers) (Q : Quotients F) (target : Target) (mode : Mode) (minKeepRatio : F)
    (stamp : Str) (existing : Option (List UInt8)) (content : List UInt8) :
    Except InstallError (List UInt8) := do
  if mode = .merge ∧ ¬ target.supportsMerge then throw .cannotMerge
  let _ ← (validate R target content).mapError .invalid
  let before := existing.bind fun old => (validate R target old).toOption
  let final ← match mode with
    | .replace => .ok content
    | .merge =>
      match mergeHashLists (fromUtf8Lossy (existing.getD [])) (fromUtf8Lossy content) stamp with
      | some s => .ok (utf8 s)
      | none => .error .panicked
  let after ← (validate R target final).mapError .invalid
  if mode = .replace ∧ collapses Q minKeepRatio before after then
    throw (.collapsed after (before.getD 0))
  return final

/-- Every hash read from either list is read from the line that stands for it in the end, or from
a later line of the old list. -/
def Kept (old new : List Str) : Prop :=
  ∀ h i line, (∃ l ∈ old ++ new, hashOfEntry l = some h) → old.findIdx? (takes h) = some i →
    old[i]? = some line →
      hashOfEntry (finalLine new h line) = some h ∨
        ∃ j : Nat, j ≠ i ∧ (old[j]?).bind hashOfEntry = some h

/-- The incoming file holds no greater part of stray lines than the old one, which can be
validated. -/
def Proportionate (R : Readers) (Q : Quotients F) (upper : Char → Str) (target : Target)
    (old new : List UInt8) : Prop :=
  (validate R target old).toOption.isSome ∧
    Q.ratio (loaded R upper target new + strays upper target new)
        (loaded R upper target old + strays upper target old) ≤
      Q.ratio (loaded R upper target new) (loaded R upper target old)

variable {R : Readers} {Q : Quotients F} {upper : Char → Str} {target : Target} {r : F}
  {old new bytes : List UInt8} {stamp : Str} {n : Nat}

theorem counted_iff (hv : validate R target bytes = .ok n) :
    n = loaded R upper target bytes ↔ strays upper target bytes = 0 := by
  have heq : n = loaded R upper target bytes + strays upper target bytes := validate_eq hv
  omega

/-- The merged file holds every hash of both lists exactly when each is kept. -/
theorem merge_reads_iff {old new stamp : Str} (hstamp : '\n' ∉ stamp) :
    (∃ s, mergeHashLists old new stamp = some s ∧
      ∀ h, h ∈ hashesOf old ∨ h ∈ hashesOf new → h ∈ hashesOf s) ↔
      NoTwice (lines old) (lines new) ∧ Kept (lines old) (lines new) := by
  have hread : ∀ h, (h ∈ hashesOf old ∨ h ∈ hashesOf new) ↔
      ∃ l ∈ lines old ++ lines new, hashOfEntry l = some h := by
    intro h
    rw [← List.mem_filterMap, List.filterMap_append, List.mem_append, hashesOf, hashesOf]
  rw [← mergeHashLists_isSome old new stamp, Option.isSome_iff_exists]
  constructor
  · rintro ⟨s, hs, hall⟩
    refine ⟨⟨s, hs⟩, fun h i line hh hi hline => ?_⟩
    have hmem := hall h ((hread h).mpr hh)
    rw [mem_mergeHashLists hstamp hs, read_merged_iff] at hmem
    obtain ⟨i', line', hi', hline', hr⟩ | ⟨hnone, -⟩ := hmem
    · obtain rfl : i = i' := Option.some.inj (hi.symm.trans hi')
      obtain rfl : line = line' := Option.some.inj (hline.symm.trans hline')
      exact hr
    · rw [hi] at hnone
      cases hnone
  · rintro ⟨⟨s, hs⟩, hkept⟩
    refine ⟨s, hs, fun h hh => ?_⟩
    rw [mem_mergeHashLists hstamp hs, read_merged_iff]
    have hl := (hread h).mp hh
    cases hi : (lines old).findIdx? (takes h) with
    | some i =>
      obtain ⟨line, hline, -⟩ := getElem?_of_findIdx hi
      exact .inl ⟨i, line, rfl, hline, hkept h i line hl hi hline⟩
    | none =>
      obtain ⟨l, hmem, he⟩ := hl
      obtain hold | hnew := List.mem_append.mp hmem
      · have hnot := List.findIdx?_eq_none_iff.mp hi l hold
        rw [takes_of_hashOfEntry he] at hnot
        cases hnot
      · exact .inr ⟨rfl, l, hnew, he⟩

/-- A replacement installs the file itself, unless the guard refuses it. -/
theorem install_replace_ok (hv : validate R target new = .ok n) :
    install R Q target .replace r stamp (some old) new = .ok bytes ↔
      bytes = new ∧ collapses Q r (validate R target old).toOption n = false := by
  cases hc : collapses Q r (validate R target old).toOption n <;>
    simp [install, hv, hc, Except.mapError, bind, Except.bind, pure, Except.pure, throw,
      throwThe, MonadExceptOf.throw, @eq_comm _ bytes]

theorem Quotients.ratio_nonneg (Q : Quotients F) (a : Nat) {b : Nat} (hb : 0 < b) :
    0 ≤ Q.ratio a b := by
  obtain rfl | ha := Nat.eq_zero_or_pos a
  · rw [Q.ratio_zero b hb]
  · exact (Q.ratio_pos a b ha hb).le

/-- The guard keeps the ratio of what is loaded exactly for a proportionate file. -/
theorem replace_keeps_iff (hv : validate R target new = .ok n) :
    (∀ r, 0 < r → install R Q target .replace r stamp (some old) new = .ok new →
      0 < loaded R upper target old →
        r ≤ Q.ratio (loaded R upper target new) (loaded R upper target old)) ↔
      (0 < loaded R upper target old → Proportionate R Q upper target old new) := by
  simp only [install_replace_ok hv, true_and]
  have hn : n = loaded R upper target new + strays upper target new := validate_eq hv
  constructor
  · intro hkeeps hpos
    cases hbefore : (validate R target old).toOption with
    | none =>
      obtain ⟨r, hr⟩ := Q.exceeded (loaded R upper target new) (loaded R upper target old) hpos
      have hr0 : 0 < r := (Q.ratio_nonneg _ hpos).trans_lt hr
      have hle := hkeeps r hr0 (by simp [collapses, hbefore]) hpos
      exact absurd hle (not_le.mpr hr)
    | some b =>
      have hb : b = loaded R upper target old + strays upper target old := by
        refine validate_eq (R := R) ?_
        cases hold : validate R target old with
        | error e => simp [hold, Except.toOption] at hbefore
        | ok b' => simpa [hold, Except.toOption] using hbefore
      have hbpos : 0 < b := by omega
      refine ⟨by simp [hbefore], ?_⟩
      rw [← hn, ← hb]
      obtain hzero | hpos' := (Q.ratio_nonneg n hbpos).eq_or_lt
      · rw [← hzero]
        exact Q.ratio_nonneg _ hpos
      · exact hkeeps _ hpos' (by simp [collapses, hbefore]) hpos
  · rintro hprop r hr hpass hpos
    obtain ⟨hsome, hle⟩ := hprop hpos
    obtain ⟨b, hbefore⟩ := Option.isSome_iff_exists.mp hsome
    have hb : b = loaded R upper target old + strays upper target old := by
      refine validate_eq (R := R) ?_
      cases hold : validate R target old with
      | error e => simp [hold, Except.toOption] at hbefore
      | ok b' => simpa [hold, Except.toOption] using hbefore
    rw [← hn, ← hb] at hle
    have hbpos : 0 < b := by omega
    refine le_trans ?_ hle
    simpa [collapses, hbefore, hr, hbpos] using hpass

/-- Where the validation agrees with the loaders: on the number of entries without stray lines, in
a merge for hashes that are kept, and after a replacement for a proportionate file. -/
theorem validate_agrees_iff (R : Readers) (Q : Quotients F) (upper : Char → Str) :
    (∀ target bytes n, validate R target bytes = .ok n →
      (n = loaded R upper target bytes ↔ strays upper target bytes = 0)) ∧
    (∀ old new stamp, '\n' ∉ stamp →
      ((∃ s, mergeHashLists (fromUtf8Lossy old) (fromUtf8Lossy new) stamp = some s ∧
        ∀ h, h ∈ loadHashFile old ∨ h ∈ loadHashFile new → h ∈ loadHashFile (utf8 s)) ↔
        NoTwice (lines (fromUtf8Lossy old)) (lines (fromUtf8Lossy new)) ∧
          Kept (lines (fromUtf8Lossy old)) (lines (fromUtf8Lossy new)))) ∧
    (∀ target old new n stamp, validate R target new = .ok n →
      ((∀ r, 0 < r → install R Q target .replace r stamp (some old) new = .ok new →
        0 < loaded R upper target old →
          r ≤ Q.ratio (loaded R upper target new) (loaded R upper target old)) ↔
        (0 < loaded R upper target old → Proportionate R Q upper target old new))) := by
  refine ⟨fun target bytes n hv => counted_iff hv, fun old new stamp hstamp => ?_,
    fun target old new n stamp hv => replace_keeps_iff hv⟩
  have hload : ∀ s, loadHashFile (utf8 s) = hashesOf s := by
    intro s
    rw [loadHashFile, fromUtf8Lossy_utf8]
  simp only [hload]
  exact merge_reads_iff hstamp

/-- No vocabulary and no database can be read. -/
def noReaders : Readers := ⟨fun _ => .error [], fun _ => .error []⟩

def rationals : Quotients ℚ where
  ratio a b := a / b
  ratio_zero b _ := by simp
  ratio_pos a b ha hb := div_pos (Nat.cast_pos.mpr ha) (Nat.cast_pos.mpr hb)
  exceeded a b _ := ⟨a / b + 1, lt_add_one _⟩

/-- Thirty-two zeros and an annotation. -/
def zeros (note : List UInt8) : List UInt8 := List.replicate 32 0x30 ++ note

theorem validate_agrees_bare :
    (1 = loaded noReaders (fun c => [c]) .hashBanlist (zeros []) ↔
      strays (fun c => [c]) .hashBanlist (zeros []) = 0) ∧
    ((∃ s, mergeHashLists (fromUtf8Lossy []) (fromUtf8Lossy (zeros [])) [] = some s ∧
      ∀ h, h ∈ loadHashFile [] ∨ h ∈ loadHashFile (zeros []) → h ∈ loadHashFile (utf8 s)) ↔
      NoTwice (lines (fromUtf8Lossy [])) (lines (fromUtf8Lossy (zeros []))) ∧
        Kept (lines (fromUtf8Lossy [])) (lines (fromUtf8Lossy (zeros [])))) ∧
    ((∀ r, 0 < r → install noReaders rationals .hashBanlist .replace r [] (some (zeros []))
        (zeros []) = .ok (zeros []) →
      0 < loaded noReaders (fun c => [c]) .hashBanlist (zeros []) →
        r ≤ rationals.ratio (loaded noReaders (fun c => [c]) .hashBanlist (zeros []))
          (loaded noReaders (fun c => [c]) .hashBanlist (zeros []))) ↔
      (0 < loaded noReaders (fun c => [c]) .hashBanlist (zeros []) →
        Proportionate noReaders rationals (fun c => [c]) .hashBanlist (zeros []) (zeros []))) := by
  have hv : validate noReaders .hashBanlist (zeros []) = .ok 1 := by decide
  obtain ⟨hcount, hmerge, hreplace⟩ := validate_agrees_iff noReaders rationals (fun c => [c])
  exact ⟨hcount _ _ _ hv, hmerge _ _ _ List.not_mem_nil, hreplace _ _ _ _ _ hv⟩

/-- A hash that is annotated without a semicolon is counted and not loaded, and a merge puts it in
the place of the bare one. -/
theorem validate_counts_annotated :
    validate noReaders .hashBanlist (zeros [0x20, 0x78]) = .ok 1 ∧
      loaded noReaders (fun c => [c]) .hashBanlist (zeros [0x20, 0x78]) = 0 ∧
      loadHashFile (zeros []) = [Vector.replicate 16 0] ∧
      (mergeHashLists (fromUtf8Lossy (zeros [])) (fromUtf8Lossy (zeros [0x20, 0x78])) []).map
        (fun s => loadHashFile (utf8 s)) = some [] := by
  decide

end Ed2kServer.Updates.Install
