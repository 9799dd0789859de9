import Ed2kServer.Basic

namespace Ed2kServer.Text.Lines

/-- `char::is_whitespace`. -/
def isWhitespace (c : Char) : Bool :=
  9 ≤ c.toNat && c.toNat ≤ 13 ||
    c.toNat ∈ [0x20, 0x85, 0xA0, 0x1680, 0x2028, 0x2029, 0x202F, 0x205F, 0x3000] ||
    0x2000 ≤ c.toNat && c.toNat ≤ 0x200A

/-- `char::is_ascii_hexdigit`. -/
def isHexDigit (c : Char) : Bool :=
  c.isDigit || 'a' ≤ c && c ≤ 'f' || 'A' ≤ c && c ≤ 'F'

/-- `str::trim_end`. -/
def trimEnd (s : Str) : Str := s.rdropWhile isWhitespace

/-- `str::trim`. -/
def trim (s : Str) : Str := trimEnd (s.dropWhile isWhitespace)

/-- `str::trim_matches` of one character. -/
def trimMatches (c : Char) (s : Str) : Str := (s.dropWhile (· = c)).rdropWhile (· = c)

/-- The line end before the newline, as `str::lines` takes it off. -/
def stripReturn (line : Str) : Str :=
  if line.getLast? = some '\r' then line.dropLast else line

/-- `str::lines`: what follows the last newline is a line only if it is not empty. -/
def lines (s : Str) : List Str :=
  let parts := s.splitOn '\n'
  let last := parts.getLast?.getD []
  parts.dropLast.map stripReturn ++ if last = [] then [] else [last]

/-- What stands before and after the first place where `pat` occurs. -/
def splitFirst (pat : Str) : Str → Option (Str × Str)
  | [] => if pat = [] then some ([], []) else none
  | c :: s =>
    if pat <+: c :: s then some ([], (c :: s).drop pat.length)
    else (splitFirst pat s).map fun (before, after) => (c :: before, after)

/-- What stands before and after the last `c`. -/
def splitLast (c : Char) (s : Str) : Option (Str × Str) :=
  if c ∈ s then some ((s.rdropWhile (· ≠ c)).dropLast, s.rtakeWhile (· ≠ c)) else none

/-- `str::splitn`. -/
def splitn : Nat → Char → Str → List Str
  | 0, _, _ => []
  | 1, _, s => [s]
  | n + 2, sep, s =>
    match splitFirst [sep] s with
    | some (before, after) => before :: splitn (n + 1) sep after
    | none => [s]

/-- `str::parse` of an unsigned number up to `max`; a plus sign may stand before it. -/
def parseUnsigned (max : Nat) (s : Str) : Option Nat :=
  let digits := match s with
    | '+' :: rest => rest
    | _ => s
  if digits = [] ∨ ¬ digits.all Char.isDigit then none
  else
    let n := digits.foldl (fun n c => n * 10 + (c.toNat - '0'.toNat)) 0
    if n ≤ max then some n else none

variable {α : Type} {s t : Str}

theorem trimEnd_append_space {c : Char} (hc : isWhitespace c) (s : Str) :
    trimEnd (s ++ [c]) = trimEnd s := by
  rw [trimEnd, trimEnd, List.rdropWhile_concat_pos _ _ _ hc]

theorem trim_append_space {c : Char} (hc : isWhitespace c) (s : Str) :
    trim (s ++ [c]) = trim s := by
  rw [trim, trim, List.dropWhile_append]
  split
  · rename_i hall
    rw [List.dropWhile_cons_of_pos hc, List.isEmpty_iff.mp hall]
    rfl
  · exact trimEnd_append_space hc _

theorem trimEnd_append_rtakeWhile (s : Str) : trimEnd s ++ s.rtakeWhile isWhitespace = s :=
  List.rdropWhile_append_rtakeWhile

theorem trimEnd_append (s t : Str) :
    trimEnd (s ++ t) = if trimEnd t = [] then trimEnd s else s ++ trimEnd t := by
  simp only [trimEnd, List.rdropWhile, List.reverse_append, List.dropWhile_append,
    List.isEmpty_iff, List.reverse_eq_nil_iff]
  split <;> simp

theorem trimEnd_eq_nil_iff : trimEnd s = [] ↔ ∀ c ∈ s, isWhitespace c :=
  List.rdropWhile_eq_nil_iff

theorem head?_dropWhile {c : Char} (h : (s.dropWhile isWhitespace).head? = some c) :
    isWhitespace c = false := by
  have hnot := List.head?_dropWhile_not isWhitespace s
  rw [h] at hnot
  simpa using hnot

theorem head?_trim {c : Char} (h : (trim s).head? = some c) : isWhitespace c = false := by
  obtain ⟨rest, hrest⟩ : trim s <+: s.dropWhile isWhitespace := List.rdropWhile_prefix _ _
  refine head?_dropWhile (s := s) ?_
  rw [← hrest, List.head?_append, h]
  rfl

/-- Text that begins with something visible is only trimmed at its end. -/
theorem trim_eq_trimEnd (h : ∀ c, s.head? = some c → isWhitespace c = false) :
    trim s = trimEnd s := by
  rw [trim]
  cases s with
  | nil => rfl
  | cons c s => rw [List.dropWhile_cons_of_neg (by simp [h c rfl])]

theorem trim_trim (s : Str) : trim (trim s) = trim s := by
  rw [trim_eq_trimEnd (fun c hc => head?_trim hc), trim]
  exact List.rdropWhile_idempotent _ _

theorem trim_stripReturn (line : Str) : trim (stripReturn line) = trim line := by
  rw [stripReturn]
  split
  · rename_i hlast
    obtain ⟨before, rfl⟩ := List.getLast?_eq_some_iff.mp hlast
    rw [List.dropLast_concat, trim_append_space (by decide)]
  · rfl

/-- Reading the lines of joined lines reads the lines, where blank ones hold nothing. -/
theorem filterMap_lines_intercalate {f : Str → Option α} (hf : ∀ line, f (trim line) = f line)
    (hblank : f [] = none) {ls : List Str} (hls : ls ≠ []) (hfree : ∀ l ∈ ls, '\n' ∉ l) :
    (lines (['\n'].intercalate ls)).filterMap f = ls.filterMap f := by
  have hstrip : ∀ l, f (stripReturn l) = f l := by
    intro l
    rw [← hf, trim_stripReturn, hf]
  obtain ⟨before, last, rfl⟩ := List.eq_nil_or_concat ls |>.resolve_left hls
  rw [lines, List.splitOn_intercalate '\n' hfree hls]
  simp only [List.concat_eq_append, List.dropLast_concat, List.getLast?_concat, Option.getD_some,
    List.filterMap_append, List.filterMap_map, Function.comp_def, hstrip]
  congr 1
  split
  · rename_i hlast
    simp [hlast, hblank]
  · rfl

theorem intercalate_concat {ls : List Str} (hls : ls ≠ []) (last : Str) :
    ['\n'].intercalate (ls ++ [last]) = ['\n'].intercalate ls ++ '\n' :: last := by
  induction ls with
  | nil => exact absurd rfl hls
  | cons l ls ih =>
    cases ls with
    | nil => simp [List.intercalate_cons_of_ne_nil]
    | cons l' ls =>
      have hrest := ih (List.cons_ne_nil _ _)
      have htwo : ['\n'].intercalate (l :: l' :: ls) =
          l ++ ['\n'] ++ ['\n'].intercalate (l' :: ls) :=
        List.intercalate_cons_of_ne_nil (List.cons_ne_nil _ _)
      rw [List.cons_append, List.intercalate_cons_of_ne_nil
        (List.append_ne_nil_of_left_ne_nil (List.cons_ne_nil _ _) _), hrest, htwo]
      simp only [List.append_assoc]

theorem splitOn_free (s : Str) : ∀ l ∈ s.splitOn '\n', '\n' ∉ l := by
  induction s with
  | nil => simp
  | cons c s ih =>
    rw [List.splitOn_cons_eq_if_modifyHead]
    split
    · simpa using ih
    · rename_i hc
      cases hs : s.splitOn '\n' with
      | nil => simp
      | cons l ls =>
        rw [hs] at ih
        obtain ⟨hl, hls⟩ := List.forall_mem_cons.mp ih
        have hne : c ≠ '\n' := fun heq => hc (by simp [heq])
        rw [List.modifyHead_cons, List.forall_mem_cons]
        exact ⟨by simp [hl, hne.symm], hls⟩

theorem mem_stripReturn {c : Char} {line : Str} (h : c ∈ stripReturn line) : c ∈ line := by
  rw [stripReturn] at h
  split at h
  · exact List.mem_of_mem_dropLast h
  · exact h

/-- No line holds a newline. -/
theorem lines_free (s : Str) : ∀ l ∈ lines s, '\n' ∉ l := by
  intro l hl hmem
  obtain hl | hl := List.mem_append.mp hl
  · obtain ⟨part, hpart, rfl⟩ := List.mem_map.mp hl
    exact splitOn_free s part (List.mem_of_mem_dropLast hpart) (mem_stripReturn hmem)
  · split at hl
    · cases hl
    · rw [List.mem_singleton.mp hl, List.getLast?_eq_getLast_of_ne_nil (List.splitOn_ne_nil _ _),
        Option.getD_some] at hmem
      exact splitOn_free s _ (List.getLast_mem _) hmem

/-- Lines joined and ended by a newline are read back, where blank ones hold nothing. -/
theorem filterMap_lines_joined {f : Str → Option α} (hf : ∀ line, f (trim line) = f line)
    (hblank : f [] = none) {ls : List Str} (hfree : ∀ l ∈ ls, '\n' ∉ l) :
    (lines (if (['\n'].intercalate ls).getLast? = some '\n' then ['\n'].intercalate ls
      else ['\n'].intercalate ls ++ ['\n'])).filterMap f = ls.filterMap f := by
  by_cases hls : ls = []
  · subst hls
    have hone : lines ['\n'] = [[]] := by decide
    simp [hone, hblank]
  · split
    · exact filterMap_lines_intercalate hf hblank hls hfree
    · rw [← intercalate_concat hls [], filterMap_lines_intercalate hf hblank (by simp)]
      · simp [hblank]
      · intro l hl
        obtain hl | hl := List.mem_append.mp hl
        · exact hfree l hl
        · rw [List.mem_singleton.mp hl]
          exact List.not_mem_nil

/-- A line can begin at the end of the text. -/
def FreshLine (s : Str) : Prop := s = [] ∨ s.getLast? = some '\n'

instance : Decidable (FreshLine s) := inferInstanceAs (Decidable (_ ∨ _))

theorem freshLine_newline (s : Str) : FreshLine (s ++ ['\n']) := Or.inr List.getLast?_concat

theorem not_freshLine {s line : Str} (hne : line ≠ []) (hfree : '\n' ∉ line) :
    ¬ FreshLine (s ++ line) := by
  rintro (h | h)
  · exact hne (List.append_eq_nil_iff.mp h).2
  · rw [List.getLast?_append_of_ne_nil _ hne] at h
    exact hfree (List.mem_of_getLast? h)

section Appended

variable {f : Str → Option α} (hf : ∀ line, f (stripReturn line) = f line) (hblank : f [] = none)

include hf hblank

/-- What the lines hold is what stands between the newlines. -/
theorem filterMap_lines (s : Str) : (lines s).filterMap f = (s.splitOn '\n').filterMap f := by
  obtain ⟨before, last, hs⟩ := List.eq_nil_or_concat (s.splitOn '\n') |>.resolve_left
    (List.splitOn_ne_nil _ _)
  rw [lines, hs]
  simp only [List.concat_eq_append, List.dropLast_concat, List.getLast?_concat, Option.getD_some,
    List.filterMap_append, List.filterMap_map, Function.comp_def, hf]
  congr 1
  split
  · rename_i hlast
    simp [hlast, hblank]
  · rfl

theorem filterMap_lines_newline (s : Str) :
    (lines (s ++ ['\n'])).filterMap f = (lines s).filterMap f := by
  rw [filterMap_lines hf hblank, filterMap_lines hf hblank, List.splitOn_append_cons_self,
    List.splitOn_nil, List.filterMap_append]
  simp [hblank]

/-- A line after the last newline is read after the others. -/
theorem filterMap_lines_fresh {s line : Str} (hs : FreshLine s) (hfree : '\n' ∉ line) :
    (lines (s ++ line)).filterMap f = (lines s).filterMap f ++ (f line).toList := by
  have hline : (line.splitOn '\n').filterMap f = (f line).toList := by
    rw [List.splitOn_eq_singleton hfree]
    cases h : f line <;> simp [h]
  rw [filterMap_lines hf hblank]
  obtain rfl | hs := hs
  · rw [List.nil_append, hline]
    simp [lines]
  · obtain ⟨before, rfl⟩ := List.getLast?_eq_some_iff.mp hs
    rw [filterMap_lines_newline hf hblank, filterMap_lines hf hblank, List.append_assoc,
      List.singleton_append, List.splitOn_append_cons_self, List.filterMap_append, hline]

end Appended

/-- The first occurrence where its first character does not stand before it. -/
theorem splitFirst_append {c : Char} {pat before : Str} (hc : c ∉ before) (after : Str) :
    splitFirst (c :: pat) (before ++ (c :: pat) ++ after) = some (before, after) := by
  induction before with
  | nil =>
    rw [List.nil_append, List.cons_append, splitFirst, ← List.cons_append,
      if_pos (List.prefix_append _ _), List.drop_left]
  | cons d before ih =>
    obtain ⟨hd, hbefore⟩ := List.ne_and_not_mem_of_not_mem_cons hc
    rw [List.cons_append, List.cons_append, splitFirst, if_neg, ih hbefore]
    · rfl
    · exact fun hp => hd (List.cons_prefix_cons.mp hp).1

section Splits

variable {c : Char} {before after : Str}

theorem splitFirst_one : splitFirst [c] s = some (before, after) ↔
    s = before ++ c :: after ∧ c ∉ before := by
  constructor
  · intro h
    induction s generalizing before with
    | nil => exact absurd h (by simp [splitFirst])
    | cons d s ih =>
      rw [splitFirst] at h
      split_ifs at h with hp
      · obtain ⟨rfl, rfl⟩ := Prod.mk.inj (Option.some.inj h)
        obtain ⟨rfl, -⟩ := List.cons_prefix_cons.mp hp
        exact ⟨rfl, List.not_mem_nil⟩
      · obtain ⟨x, hx, h⟩ := Option.map_eq_some_iff.mp h
        obtain ⟨rfl, rfl⟩ := Prod.mk.inj h
        obtain ⟨rfl, hmem⟩ := ih hx
        refine ⟨rfl, List.not_mem_cons_of_ne_of_not_mem ?_ hmem⟩
        rintro rfl
        exact hp (List.cons_prefix_cons.mpr ⟨rfl, List.nil_prefix⟩)
  · rintro ⟨rfl, hc⟩
    have hsplit : splitFirst [c] (before ++ [c] ++ after) = some (before, after) :=
      splitFirst_append hc after
    rwa [List.append_assoc, List.singleton_append] at hsplit

theorem splitLast_some (h : splitLast c s = some (before, after)) :
    s = before ++ c :: after ∧ c ∉ after := by
  rw [splitLast] at h
  split_ifs at h with hc
  obtain ⟨rfl, rfl⟩ := Prod.mk.inj (Option.some.inj h)
  have hne : s.rdropWhile (· ≠ c) ≠ [] := by
    intro hnil
    have hall := List.rdropWhile_eq_nil_iff.mp hnil c hc
    simp at hall
  have hlast : (s.rdropWhile (· ≠ c)).getLast hne = c := by
    simpa using List.rdropWhile_last_not (· ≠ c) s hne
  have hbefore : (s.rdropWhile (· ≠ c)).dropLast ++ [c] = s.rdropWhile (· ≠ c) := by
    have hconcat := List.dropLast_concat_getLast hne
    rwa [hlast] at hconcat
  refine ⟨?_, fun hmem => by simpa using List.mem_rtakeWhile_imp hmem⟩
  rw [← List.singleton_append, ← List.append_assoc, hbefore, List.rdropWhile_append_rtakeWhile]

theorem splitLast_none (h : splitLast c s = none) : c ∉ s := by
  rw [splitLast] at h
  split_ifs at h with hc
  exact hc

end Splits

theorem trim_of_visible (h : ∀ c ∈ s, isWhitespace c = false) : trim s = s := by
  have hhead : ∀ c, s.head? = some c → isWhitespace c = false :=
    fun c hc => h c (List.mem_of_head? hc)
  rw [trim_eq_trimEnd hhead, trimEnd, List.rdropWhile_eq_self_iff]
  exact fun hne => by simp [h _ (List.getLast_mem hne)]

end Ed2kServer.Text.Lines
