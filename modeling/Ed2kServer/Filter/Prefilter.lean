import Ed2kServer.Filter.Jargon
import Ed2kServer.Lib.Bitset
import Mathlib.Logic.Function.Basic

namespace Ed2kServer.Filter.Prefilter

open Ed2kServer.Text.Chars Ed2kServer.Text.ByteSlices Ed2kServer.Filter.Jargon Ed2kServer.Lib

/-- What a term asks for behind a match. -/
def rightRule (term : Str) : RightRule :=
  if (splitAnchor term).2 then .notWordChar
  else if SUBSTRING_MIN_CHARS ≤ (splitAnchor term).1.length then .free
  else .notLetter

/-- `max_by_key` on the lengths: of the longest, the last. -/
def longest : List Str → Option Str
  | [] => none
  | p :: ps =>
    match longest ps with
    | none => some p
    | some q => if (utf8 q).length < (utf8 p).length then some p else some q

/-- The literal a term cannot match without. -/
def requiredLiteral (term : Str) : Option Str :=
  if (splitAnchor term).1 = [] then none
  else if !(splitAnchor term).1.contains ' ' || !isAscii (splitAnchor term).1 then
    some (splitAnchor term).1
  else longest (((splitAnchor term).1.splitOn ' ').filter fun p => !p.isEmpty)

/-- The automaton: whether it can be built, and the numbers of the patterns that it reports. -/
structure AhoCorasick where
  builds : List Str → Bool
  findOverlapping : List Str → Str → List Nat

/-- Every occurrence of every pattern is reported, and no other. -/
def AhoCorasick.Exact (A : AhoCorasick) : Prop :=
  ∀ literals hay p,
    p ∈ A.findOverlapping literals hay ↔ ∃ lit, literals[p]? = some lit ∧ lit <:+: hay

/-- The lists while the terms are gone through. -/
structure Building where
  literals : List Str := []
  byPattern : List (List UInt32) := []
  index : Str → Option Nat := fun _ => none
  always : List UInt32 := []

/-- The number of a literal; a new one is put behind the others. -/
def Building.entry (b : Building) (lit : Str) : Building × Nat :=
  match b.index lit with
  | some p => (b, p)
  | none =>
    ({ b with
        literals := b.literals ++ [lit]
        byPattern := b.byPattern ++ [[]]
        index := Function.update b.index lit (some b.literals.length) }, b.literals.length)

def Building.push (b : Building) (p : Nat) (i : UInt32) : Building :=
  { b with byPattern := b.byPattern.modify p (· ++ [i]) }

def Building.add (b : Building) (x : Str × Nat) : Building :=
  if x.1 = [] then b
  else
    match requiredLiteral x.1 with
    | some lit => (b.entry lit).1.push (b.entry lit).2 (UInt32.ofNat x.2)
    | none => { b with always := b.always ++ [UInt32.ofNat x.2] }

/-- A term list; the automaton is the list of its patterns. -/
structure TermList where
  terms : List Str
  ac : Option (List Str)
  byPattern : List (List UInt32)
  always : List UInt32

variable (A : AhoCorasick) (U : Unicode)

def building (terms : List Str) : Building := terms.zipIdx.foldl Building.add {}

def distinctLiterals (terms : List Str) : List Str := (building terms).literals

def TermList.new (terms : List Str) : TermList :=
  let b := building terms
  if b.literals = [] then ⟨terms, none, b.byPattern, b.always⟩
  else if A.builds b.literals then ⟨terms, some b.literals, b.byPattern, b.always⟩
  else ⟨terms, none, [], (List.range (UInt32.ofNat terms.length).toNat).map UInt32.ofNat⟩

/-- The numbers of the terms that have a literal in the name, as bits; `none` is a panic. -/
def TermList.candidates (l : TermList) (lowered : Str) : Option Bitset.Words := do
  let c ← Bitset.insertAll (List.replicate ((l.terms.length + 63) / 64) 0)
    (l.always.map UInt32.toNat)
  match l.ac with
  | none => return c
  | some literals =>
    (A.findOverlapping literals lowered).foldlM
      (fun c p => (l.byPattern[p]?).bind fun is => Bitset.insertAll c (is.map UInt32.toNat)) c

/-- Does the boundary-aware search find the term? -/
def searched (lowered term : Str) : Option Bool :=
  containsBounded U lowered (splitAnchor term).1 (rightRule term)

def scan (lowered : Str) (c : Bitset.Words) : List (Str × Nat) → Option (Option Str)
  | [] => some none
  | (term, i) :: rest =>
    if term = [] then scan lowered c rest
    else do
      if !(← Bitset.contains c i) then scan lowered c rest
      else if ← searched U lowered term then return some term
      else scan lowered c rest

def matchesTerms (lowered : Str) (l : TermList) : Option (Option Str) :=
  if l.terms = [] then some none
  else do
    let c ← l.candidates A lowered
    scan U lowered c l.terms.zipIdx

variable {A U} {terms pre rest : List Str} {b : Building} {lit term : Str} {n : Nat} {i : UInt32}

/-- The number of a term stands where its literal is, or in the list of those without one. -/
structure Filed (b : Building) (term : Str) (i : UInt32) : Prop where
  always : requiredLiteral term = none → i ∈ b.always
  pattern : ∀ lit, requiredLiteral term = some lit →
    ∃ (p : Nat) (is : List UInt32), b.literals[p]? = some lit ∧ b.byPattern[p]? = some is ∧ i ∈ is

/-- The lists after some of `n` terms. -/
structure Built (n : Nat) (terms : List Str) (b : Building) : Prop where
  index : ∀ lit p, b.index lit = some p → b.literals[p]? = some lit
  lengths : b.byPattern.length = b.literals.length
  always_lt : ∀ i ∈ b.always, i.toNat < n
  pattern_lt : ∀ is ∈ b.byPattern, ∀ i ∈ is, i.toNat < n
  filed : ∀ j term, terms[j]? = some term → term ≠ [] → Filed b term (UInt32.ofNat j)

theorem built_nil : Built n [] {} where
  index _ _ h := nomatch h
  lengths := rfl
  always_lt _ h := nomatch h
  pattern_lt _ h := nomatch h
  filed _ _ h := nomatch h

theorem ofNat_toNat_lt {m : Nat} (h : n < m) : (UInt32.ofNat n).toNat < m := by
  rw [UInt32.toNat_ofNat']
  exact Nat.lt_of_le_of_lt (Nat.mod_le n _) h

theorem Filed.entry (h : Filed b term i) (lit : Str) : Filed (b.entry lit).1 term i := by
  rw [Building.entry]
  cases b.index lit with
  | some p => exact h
  | none =>
    refine ⟨h.always, fun lit' hlit => ?_⟩
    obtain ⟨p, is, hp, his, hmem⟩ := h.pattern lit' hlit
    refine ⟨p, is, ?_, ?_, hmem⟩
    · exact (List.getElem?_append_left (List.getElem?_eq_some_iff.mp hp).1).trans hp
    · exact (List.getElem?_append_left (List.getElem?_eq_some_iff.mp his).1).trans his

theorem byPattern_push (b : Building) (p : Nat) (k : UInt32) (q : Nat) :
    (b.push p k).byPattern[q]? =
      (b.byPattern[q]?).map fun is => if p = q then is ++ [k] else is := by
  rw [Building.push, List.getElem?_modify]
  cases b.byPattern[q]? with
  | none => rfl
  | some is => by_cases hpq : p = q <;> simp [hpq]

theorem Filed.push (h : Filed b term i) (p : Nat) (k : UInt32) :
    Filed (b.push p k) term i := by
  refine ⟨h.always, fun lit hlit => ?_⟩
  obtain ⟨q, is, hq, his, hmem⟩ := h.pattern lit hlit
  refine ⟨q, if p = q then is ++ [k] else is, hq, by rw [byPattern_push, his]; rfl, ?_⟩
  split_ifs
  · exact List.mem_append_left _ hmem
  · exact hmem

/-- A literal has one number, and a list there. -/
theorem Built.entry (h : Built n terms b) (lit : Str) :
    Built n terms (b.entry lit).1 ∧ (b.entry lit).1.literals[(b.entry lit).2]? = some lit := by
  have hfiled := fun j term hj hne => (h.filed j term hj hne).entry lit
  rw [Building.entry] at hfiled ⊢
  cases hindex : b.index lit with
  | some p => exact ⟨h, h.index lit p hindex⟩
  | none =>
    rw [hindex] at hfiled
    have hlast : (b.literals ++ [lit])[b.literals.length]? = some lit := List.getElem?_concat_length
    refine ⟨⟨fun lit' p hp => ?_, ?_, h.always_lt, fun is his => ?_, hfiled⟩, hlast⟩
    · dsimp only at hp ⊢
      by_cases heq : lit' = lit
      · rw [heq, Function.update_self] at hp
        rw [heq, ← Option.some.inj hp, hlast]
      · rw [Function.update_of_ne heq] at hp
        have hold := h.index lit' p hp
        exact (List.getElem?_append_left (List.getElem?_eq_some_iff.mp hold).1).trans hold
    · dsimp only
      rw [List.length_append, List.length_append, h.lengths]
      rfl
    · rcases List.mem_append.mp his with his | his
      · exact h.pattern_lt is his
      · rw [List.mem_singleton.mp his]
        exact fun i hi => nomatch hi

theorem Built.push (h : Built n terms b) (hlt : i.toNat < n) (p : Nat) :
    Built n terms (b.push p i) := by
  refine ⟨h.index, ?_, h.always_lt, fun is his => ?_,
    fun j term hj hne => (h.filed j term hj hne).push p i⟩
  · rw [Building.push, List.length_modify]
    exact h.lengths
  · obtain ⟨q, hq⟩ := List.mem_iff_getElem?.mp his
    rw [byPattern_push] at hq
    obtain ⟨is, hold, rfl⟩ := Option.map_eq_some_iff.mp hq
    have hin := h.pattern_lt is (List.mem_of_getElem? hold)
    intro k hk
    split_ifs at hk
    · rcases List.mem_append.mp hk with hk | hk
      · exact hin k hk
      · rw [List.mem_singleton.mp hk]
        exact hlt
    · exact hin k hk

theorem Built.pushAlways (h : Built n terms b) (hlt : i.toNat < n) :
    Built n terms { b with always := b.always ++ [i] } := by
  refine ⟨h.index, h.lengths, fun k hk => ?_, h.pattern_lt, fun j term hj hne => ?_⟩
  · rcases List.mem_append.mp hk with hk | hk
    · exact h.always_lt k hk
    · rw [List.mem_singleton.mp hk]
      exact hlt
  · obtain ⟨halways, hpattern⟩ := h.filed j term hj hne
    exact ⟨fun hnone => List.mem_append_left _ (halways hnone), hpattern⟩

/-- One more term is gone past. -/
theorem Built.pass (h : Built n terms b) (term : Str)
    (hterm : term ≠ [] → Filed b term (UInt32.ofNat terms.length)) :
    Built n (terms ++ [term]) b := by
  refine ⟨h.index, h.lengths, h.always_lt, h.pattern_lt, fun j t hj hne => ?_⟩
  rcases Nat.lt_trichotomy j terms.length with hlt | rfl | hgt
  · rw [List.getElem?_append_left hlt] at hj
    exact h.filed j t hj hne
  · rw [List.getElem?_concat_length] at hj
    obtain rfl := Option.some.inj hj
    exact hterm hne
  · rw [List.getElem?_eq_none (by rw [List.length_append]; exact hgt)] at hj
    cases hj

theorem Built.add (h : Built n terms b) (hlt : terms.length < n) (term : Str) :
    Built n (terms ++ [term]) (b.add (term, terms.length)) := by
  have hnum := ofNat_toNat_lt hlt
  rw [Building.add]
  by_cases hne : term = []
  · rw [if_pos hne]
    exact h.pass term fun hnot => absurd hne hnot
  · rw [if_neg hne]
    cases hlit : requiredLiteral term with
    | some lit =>
      obtain ⟨hentry, hp⟩ := h.entry lit
      refine (hentry.push hnum _).pass term fun _ => ⟨fun hnone => ?_, fun lit' hlit' => ?_⟩
      · rw [hlit] at hnone
        cases hnone
      · obtain rfl := Option.some.inj (hlit.symm.trans hlit')
        obtain ⟨is, his⟩ : ∃ is, (b.entry lit).1.byPattern[(b.entry lit).2]? = some is :=
          ⟨_, List.getElem?_eq_getElem
            (by rw [hentry.lengths]; exact (List.getElem?_eq_some_iff.mp hp).1)⟩
        refine ⟨_, is ++ [UInt32.ofNat terms.length], hp, ?_, ?_⟩
        · rw [byPattern_push, his, Option.map_some, if_pos rfl]
        · exact List.mem_append_right _ List.mem_cons_self
    | none =>
      refine (h.pushAlways hnum).pass term fun _ => ⟨fun _ => ?_, fun lit hsome => ?_⟩
      · exact List.mem_append_right _ List.mem_cons_self
      · rw [hlit] at hsome
        cases hsome

theorem Built.addAll (h : Built n pre b) (rest : List Str) (hn : (pre ++ rest).length ≤ n) :
    Built n (pre ++ rest) ((rest.zipIdx pre.length).foldl Building.add b) := by
  induction rest generalizing pre b with
  | nil =>
    rw [List.append_nil]
    exact h
  | cons term rest ih =>
    have hlen : (pre ++ term :: rest).length = pre.length + 1 + rest.length := by
      rw [List.length_append, List.length_cons]
      omega
    have hnext := ih (h.add (by omega) term) (by simp at hlen hn ⊢; omega)
    rw [List.append_assoc, List.singleton_append, List.length_append] at hnext
    exact hnext

/-- The lists of all terms. -/
theorem built_all (terms : List Str) :
    Built terms.length terms (building terms) :=
  (built_nil (n := terms.length)).addAll terms (Nat.le_refl _)

/-- A term whose number is among the candidates of a name. -/
def Hit (A : AhoCorasick) (l : TermList) (lowered : Str) (i : UInt32) : Prop :=
  i ∈ l.always ∨ ∃ (literals : List Str) (p : Nat) (is : List UInt32), l.ac = some literals ∧
    p ∈ A.findOverlapping literals lowered ∧ l.byPattern[p]? = some is ∧ i ∈ is

/-- Every number that a list holds is one of a term, and every pattern has a list. -/
structure Sound (l : TermList) : Prop where
  always_lt : ∀ i ∈ l.always, i.toNat < l.terms.length
  pattern_lt : ∀ is ∈ l.byPattern, ∀ i ∈ is, i.toNat < l.terms.length
  lengths : ∀ literals, l.ac = some literals → literals.length = l.byPattern.length

theorem sound_new (A : AhoCorasick) (terms : List Str) : Sound (TermList.new A terms) := by
  have h := built_all terms
  rw [TermList.new]
  split_ifs
  · exact ⟨h.always_lt, h.pattern_lt, nofun⟩
  · refine ⟨h.always_lt, h.pattern_lt, fun literals hlit => ?_⟩
    rw [← Option.some.inj hlit]
    exact h.lengths.symm
  · refine ⟨fun i hi => ?_, fun _ his => (nomatch his), nofun⟩
    obtain ⟨j, hj, rfl⟩ := List.mem_map.mp hi
    have hle : (UInt32.ofNat terms.length).toNat ≤ terms.length := by
      rw [UInt32.toNat_ofNat']
      exact Nat.mod_le _ _
    exact ofNat_toNat_lt (Nat.lt_of_lt_of_le (List.mem_range.mp hj) hle)

theorem contains_zeros {n i : Nat} (h : i < n) :
    Bitset.contains (List.replicate ((n + 63) / 64) 0) i = some false := by
  rw [Bitset.contains, List.getElem?_replicate, if_pos (by omega), Option.map_some, UInt64.zero_and]
  rfl

/-- The bits of the reported patterns are put in one after the other. -/
theorem insert_patterns {byPattern : List (List UInt32)} {words : Bitset.Words} {ps : List Nat}
    (hps : ∀ p ∈ ps, p < byPattern.length)
    (hfits : ∀ is ∈ byPattern, ∀ i ∈ is, i.toNat / 64 < words.length) :
    ∃ words', ps.foldlM (fun c p => (byPattern[p]?).bind fun is =>
        Bitset.insertAll c (is.map UInt32.toNat)) words = some words' ∧
      words'.length = words.length ∧
      ∀ j, ∃ b : Bool, Bitset.contains words' j = (Bitset.contains words j).map (· || b) ∧
        (b = true ↔ ∃ p ∈ ps, ∃ is, byPattern[p]? = some is ∧ j ∈ is.map UInt32.toNat) := by
  induction ps generalizing words with
  | nil => exact ⟨words, rfl, rfl, fun j => ⟨false, by simp, by simp⟩⟩
  | cons p ps ih =>
    obtain ⟨hp, hrest⟩ := List.forall_mem_cons.mp hps
    obtain ⟨is, his⟩ : ∃ is, byPattern[p]? = some is := ⟨_, List.getElem?_eq_getElem hp⟩
    have hpattern : ∀ j ∈ is.map UInt32.toNat, j / 64 < words.length := by
      intro j hj
      obtain ⟨i, hi, rfl⟩ := List.mem_map.mp hj
      exact hfits is (List.mem_of_getElem? his) i hi
    obtain ⟨words₁, hins, hlen, hcontains⟩ := Bitset.contains_insertAll hpattern
    rw [← hlen] at hfits
    obtain ⟨words₂, hall, hlen₂, hcontains₂⟩ := ih hrest hfits
    refine ⟨words₂, ?_, hlen₂.trans hlen, fun j => ?_⟩
    · rw [List.foldlM_cons, his]
      exact (congrArg (· >>= _) hins).trans hall
    · obtain ⟨b, hb, hiff⟩ := hcontains₂ j
      refine ⟨decide (j ∈ is.map UInt32.toNat) || b, ?_, ?_⟩
      · rw [hb, hcontains, Option.map_map]
        exact congrArg (Option.map · _) (funext fun x => Bool.or_assoc _ _ _)
      · rw [Bool.or_eq_true, decide_eq_true_iff, hiff]
        simp [his]

/-- The candidates are the hits. -/
theorem candidates_eq (hA : A.Exact) {l : TermList} (hl : Sound l) (lowered : Str) :
    ∃ c, l.candidates A lowered = some c ∧
      ∀ j < l.terms.length, ∃ b, Bitset.contains c j = some b ∧
        (b = true ↔ ∃ i, i.toNat = j ∧ Hit A l lowered i) := by
  have hfits : ∀ j, j < l.terms.length →
      j / 64 < (List.replicate ((l.terms.length + 63) / 64) (0 : UInt64)).length := by
    intro j hj
    rw [List.length_replicate]
    omega
  have halways : ∀ j ∈ l.always.map UInt32.toNat,
      j / 64 < (List.replicate ((l.terms.length + 63) / 64) (0 : UInt64)).length := by
    intro j hj
    obtain ⟨i, hi, rfl⟩ := List.mem_map.mp hj
    exact hfits _ (hl.always_lt i hi)
  obtain ⟨c₁, hins, hlen, hcontains⟩ := Bitset.contains_insertAll halways
  rw [TermList.candidates, hins, Option.bind_eq_bind, Option.bind_some]
  cases hac : l.ac with
  | none =>
    refine ⟨c₁, rfl, fun j hj => ⟨_, by rw [hcontains, contains_zeros hj]; rfl, ?_⟩⟩
    simp [Hit, hac, and_comm]
  | some literals =>
    have hps : ∀ p ∈ A.findOverlapping literals lowered, p < l.byPattern.length := by
      intro p hp
      obtain ⟨lit, hlit, -⟩ := (hA literals lowered p).mp hp
      rw [← hl.lengths literals hac]
      exact (List.getElem?_eq_some_iff.mp hlit).1
    have hpatterns : ∀ is ∈ l.byPattern, ∀ i ∈ is, i.toNat / 64 < c₁.length := by
      intro is his i hi
      rw [hlen]
      exact hfits _ (hl.pattern_lt is his i hi)
    obtain ⟨c₂, hall, -, hcontains₂⟩ := insert_patterns hps hpatterns
    refine ⟨c₂, hall, fun j hj => ?_⟩
    obtain ⟨b, hb, hiff⟩ := hcontains₂ j
    refine ⟨_, by rw [hb, hcontains, contains_zeros hj]; rfl, ?_⟩
    rw [Bool.or_eq_true, hiff]
    simp only [Hit, hac]
    constructor
    · rintro (h | ⟨p, hp, is, his, hj⟩)
      · obtain ⟨i, hi, rfl⟩ := List.mem_map.mp (by simpa using h)
        exact ⟨i, rfl, .inl hi⟩
      · obtain ⟨i, hi, rfl⟩ := List.mem_map.mp hj
        exact ⟨i, rfl, .inr ⟨literals, p, is, rfl, hp, his, hi⟩⟩
    · rintro ⟨i, rfl, hi | ⟨_, p, is, ⟨⟩, hp, his, hi⟩⟩
      · left
        simpa using ⟨i, hi, rfl⟩
      · exact .inr ⟨p, hp, is, his, List.mem_map_of_mem hi⟩

/-- No term whose literal is in the name is left out, if its number fits. -/
theorem hit_of_literal (hA : A.Exact) {j : Nat} (hterm : terms[j]? = some term) (hne : term ≠ [])
    (hfit : terms.length < 2 ^ 32 ∨ A.builds (distinctLiterals terms) = true)
    {lowered : Str} (hlit : ∀ lit, requiredLiteral term = some lit → lit <:+: lowered) :
    Hit A (TermList.new A terms) lowered (UInt32.ofNat j) := by
  obtain ⟨halways, hpattern⟩ := (built_all terms).filed j term hterm hne
  have hj := (List.getElem?_eq_some_iff.mp hterm).1
  rw [distinctLiterals] at hfit
  rw [TermList.new]
  generalize building terms = b at halways hpattern hfit
  split_ifs with hnil hbuilds
  · cases hreq : requiredLiteral term with
    | none => exact .inl (halways hreq)
    | some lit =>
      obtain ⟨p, is, hp, -⟩ := hpattern lit hreq
      rw [hnil] at hp
      cases hp
  · cases hreq : requiredLiteral term with
    | none => exact .inl (halways hreq)
    | some lit =>
      obtain ⟨p, is, hp, his, hmem⟩ := hpattern lit hreq
      exact .inr ⟨b.literals, p, is, rfl, (hA _ _ _).mpr ⟨lit, hp, hlit lit hreq⟩, his, hmem⟩
  · have hsmall := hfit.resolve_right hbuilds
    refine .inl (List.mem_map_of_mem (List.mem_range.mpr ?_))
    rwa [UInt32.toNat_ofNat', Nat.mod_eq_of_lt hsmall]

end Ed2kServer.Filter.Prefilter
