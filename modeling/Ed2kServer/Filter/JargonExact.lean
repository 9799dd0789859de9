import Ed2kServer.Filter.JargonScan
import Ed2kServer.Text.Trim

namespace Ed2kServer.Filter.JargonExact

open Ed2kServer.Text.Chars Ed2kServer.Text.ByteSlices
open Ed2kServer.Filter.Jargon Ed2kServer.Filter.JargonScan

/-- What a text may be written as: where it is `loose`, a space as one or more separators. -/
inductive WrittenAs (loose : Bool) : Str → Str → Prop
  | nil : WrittenAs loose [] []
  | char {c : Char} {text s : Str} (hc : ¬(loose = true ∧ c = ' ')) (h : WrittenAs loose text s) :
      WrittenAs loose (c :: text) (c :: s)
  | run {run text s : Str} (hloose : loose = true) (hne : run ≠ [])
      (hrun : ∀ c ∈ run, isSep c = true) (h : WrittenAs loose text s) :
      WrittenAs loose (' ' :: text) (run ++ s)

/-- The name has the text somewhere, between neighbours that the boundary rule allows. -/
def Occurs (U : Unicode) (name text : Str) (right : RightRule) : Prop :=
  ∃ pre mid post, name = pre ++ mid ++ post ∧ WrittenAs (isAscii text) text mid ∧
    leftFree U text pre = true ∧ rightFree U text right post = true

/-- No separator right behind a space. -/
def SpacesApart (text : Str) : Prop := text.IsChain fun a b => a = ' ' → isSep b = false

/-- The texts that the search finds wherever they occur. -/
def Searchable (text : Str) : Prop :=
  flexible text = false ∨ text.head? ≠ some ' ' ∧ SpacesApart text

instance (text : Str) : Decidable (SpacesApart text) :=
  inferInstanceAs (Decidable (List.IsChain _ text))

instance (text : Str) : Decidable (Searchable text) :=
  inferInstanceAs (Decidable (_ ∨ _ ∧ SpacesApart text))

variable {U : Unicode} {loose : Bool} {text name s mid post rest : Str} {right : RightRule}

theorem writtenAs_self (loose : Bool) (text : Str) : WrittenAs loose text text := by
  induction text with
  | nil => exact .nil
  | cons c text ih =>
    by_cases hc : loose = true ∧ c = ' '
    · obtain ⟨hloose, rfl⟩ := hc
      have hrun : ∀ c ∈ [' '], isSep c = true := by
        intro c hc
        rw [List.mem_singleton.mp hc]
        rfl
      exact .run hloose (List.cons_ne_nil ' ' []) hrun ih
    · exact .char hc ih

theorem WrittenAs.length_le (h : WrittenAs loose text mid) : text.length ≤ mid.length := by
  induction h with
  | nil => exact Nat.le_refl 0
  | char _ _ ih => exact Nat.succ_le_succ ih
  | run _ hne _ _ ih =>
    have hpos := List.length_pos_iff.mpr hne
    rw [List.length_cons, List.length_append]
    omega

/-- A text that is not loose, or has no space, is written in one way. -/
theorem WrittenAs.eq (h : WrittenAs loose text mid) (htext : loose = false ∨ ' ' ∉ text) :
    mid = text := by
  induction h with
  | nil => rfl
  | char _ _ ih => rw [ih (htext.imp_right fun h => mt (List.mem_cons_of_mem _) h)]
  | run hloose =>
    rcases htext with htext | htext
    · cases hloose.symm.trans htext
    · exact absurd List.mem_cons_self htext

theorem flexible_eq_false : flexible text = false ↔ isAscii text = false ∨ ' ' ∉ text := by
  rw [flexible, Bool.and_eq_false_iff, or_comm, ← Bool.not_eq_true (text.contains ' '),
    List.contains_iff_mem]

/-- The greedy walk writes each space as a run. -/
theorem writtenAs_of_walk (h : walkChars s text = some rest) :
    ∃ mid, s = mid ++ rest ∧ WrittenAs true text mid := by
  induction text generalizing s with
  | nil =>
    obtain rfl := Option.some.inj h
    exact ⟨[], rfl, .nil⟩
  | cons t text ih =>
    rw [walkChars_cons] at h
    split_ifs at h with ht hrun
    · obtain ⟨mid, hmid, hw⟩ := ih h
      refine ⟨s.takeWhile isSep ++ mid, ?_, ?_⟩
      · rw [List.append_assoc, ← hmid, List.takeWhile_append_dropWhile]
      · rw [ht]
        exact .run rfl hrun (fun c hc => List.mem_takeWhile_imp hc) hw
    · cases s with
      | nil => cases h
      | cons c s =>
        dsimp only at h
        split_ifs at h with hc
        obtain ⟨mid, rfl, hw⟩ := ih h
        exact ⟨c :: mid, rfl, hc ▸ .char (fun hts => ht (hc ▸ hts.2)) hw⟩

theorem writtenAs_of_here (h : here text s = some rest) :
    ∃ mid, s = mid ++ rest ∧ WrittenAs (isAscii text) text mid := by
  cases htext : flexible text with
  | true =>
    have hascii : isAscii text = true := (Bool.and_eq_true _ _ ▸ htext : _ ∧ _).2
    rw [here_flexible htext] at h
    split_ifs at h
    rw [hascii]
    exact writtenAs_of_walk h
  | false =>
    rw [here_verbatim htext] at h
    split_ifs at h with hp
    obtain ⟨tail, rfl⟩ := List.isPrefixOf_iff_prefix.mp hp
    have hrest := Option.some.inj h
    rw [List.drop_left] at hrest
    exact ⟨text, by rw [hrest], writtenAs_self _ text⟩

/-- What is found occurs, whatever the text. -/
theorem occurs_of_found (h : Found U text right [] name) : Occurs U name text right := by
  obtain ⟨pre, place, rest, rfl, hplace, hleft, hright⟩ := h
  obtain ⟨mid, rfl, hw⟩ := writtenAs_of_here hplace
  exact ⟨pre, mid, rest, (List.append_assoc pre mid rest).symm, hw, hleft, hright⟩

theorem rightFree_of_space (h : text.getLast? = some ' ') (right : RightRule) (rest : Str) :
    rightFree U text right rest = true := by
  obtain ⟨front, rfl⟩ := List.getLast?_eq_some_iff.mp h
  have hbytes : (utf8 (front ++ [' '])).getLast? = some 32 := by
    rw [utf8, List.flatMap_append, List.getLast?_append]
    rfl
  rw [rightFree, hbytes, show edgeIsAsciiWord (some 32) = false by decide, Bool.and_false]
  rfl

/-- Where no separator is behind a space, the greedy walk takes what the text is written as. -/
theorem walk_of_writtenAs (h : WrittenAs true text mid) (hapart : SpacesApart text) (post : Str) :
    ∃ rest, walkChars (mid ++ post) text = some rest ∧
      (text.getLast? ≠ some ' ' → rest = post) := by
  induction h with
  | nil => exact ⟨post, rfl, fun _ => rfl⟩
  | @char c text s hc h ih =>
    obtain ⟨rest, hwalk, hlast⟩ := ih hapart.tail
    refine ⟨rest, ?_, fun hne => hlast fun heq => hne ?_⟩
    · rw [walkChars_cons, if_neg fun hcs => hc ⟨rfl, hcs⟩, List.cons_append]
      dsimp only
      rw [if_pos rfl, hwalk]
    · rw [List.getLast?_cons, heq]
      rfl
  | @run run text s _ hne hrun h ih =>
    have htake : ((run ++ s) ++ post).takeWhile isSep ≠ [] := by
      obtain ⟨c, run, rfl⟩ := List.exists_cons_of_ne_nil hne
      rw [List.cons_append, List.cons_append, List.takeWhile_cons,
        if_pos (hrun c List.mem_cons_self)]
      exact List.cons_ne_nil _ _
    have hdrop : ((run ++ s) ++ post).dropWhile isSep = (s ++ post).dropWhile isSep := by
      rw [List.append_assoc, List.dropWhile_append_of_pos hrun]
    rw [walkChars_cons, if_pos rfl, if_neg htake, hdrop]
    cases text with
    | nil =>
      cases h
      exact ⟨_, rfl, fun hlast => absurd rfl hlast⟩
    | cons t text =>
      have ht : isSep t = false := (List.isChain_cons_cons.mp hapart).1 rfl
      have hts : t ≠ ' ' := by
        rintro rfl
        cases ht
      obtain ⟨rest, hwalk, hlast⟩ := ih hapart.tail
      have hstay : (s ++ post).dropWhile isSep = s ++ post := by
        cases h with
        | char =>
          rw [List.cons_append, List.dropWhile_cons, if_neg (by rw [ht]; exact Bool.false_ne_true)]
        | run => exact absurd rfl hts
      rw [hstay]
      refine ⟨rest, hwalk, fun hlast' => hlast fun heq => hlast' ?_⟩
      rw [List.getLast?_cons, heq]
      rfl

theorem here_of_verbatim (htext : flexible text = false)
    (hw : WrittenAs (isAscii text) text mid) (post : Str) :
    here text (mid ++ post) = some post := by
  obtain rfl := hw.eq (flexible_eq_false.mp htext)
  rw [here_verbatim htext, if_pos (List.isPrefixOf_iff_prefix.mpr (List.prefix_append mid post)),
    List.drop_left]

theorem here_of_flexible (htext : flexible text = true) (hapart : SpacesApart text)
    (hw : WrittenAs (isAscii text) text mid) (hhead : mid.head? = text.head?) (post : Str) :
    ∃ rest, here text (mid ++ post) = some rest ∧ (text.getLast? ≠ some ' ' → rest = post) := by
  have hascii : isAscii text = true := (Bool.and_eq_true _ _ ▸ htext : _ ∧ _).2
  rw [hascii] at hw
  obtain ⟨rest, hwalk, hlast⟩ := walk_of_writtenAs hw hapart post
  have hfront : (mid ++ post).head? = text.head? := by
    cases mid with
    | nil =>
      cases text with
      | nil => cases htext
      | cons c text => cases hhead
    | cons c mid => exact hhead
  exact ⟨rest, by rw [here_flexible htext, if_pos hfront, hwalk], hlast⟩

theorem head?_writtenAs (hw : WrittenAs loose text mid) (hhead : text.head? ≠ some ' ') :
    mid.head? = text.head? := by
  cases hw with
  | nil => rfl
  | char => rfl
  | run => exact absurd rfl hhead

/-- In the texts with the right spaces everything that occurs is found. -/
theorem found_of_occurs (htext : Searchable text) (h : Occurs U name text right) :
    Found U text right [] name := by
  obtain ⟨pre, mid, post, rfl, hw, hleft, hright⟩ := h
  cases hflex : flexible text with
  | false =>
    exact ⟨pre, mid ++ post, post, List.append_assoc _ _ _, here_of_verbatim hflex hw post, hleft,
      hright⟩
  | true =>
    obtain ⟨hhead, hapart⟩ := htext.resolve_left (by rw [hflex]; exact Bool.true_eq_false.mp)
    obtain ⟨rest, hplace, hlast⟩ :=
      here_of_flexible hflex hapart hw (head?_writtenAs hw hhead) post
    refine ⟨pre, mid ++ post, rest, List.append_assoc _ _ _, hplace, hleft, ?_⟩
    by_cases hspace : text.getLast? = some ' '
    · exact rightFree_of_space hspace right rest
    · rw [hlast hspace]
      exact hright

theorem free_at_ends (U : Unicode) (text : Str) (right : RightRule) :
    leftFree U text [] = true ∧ rightFree U text right [] = true := by
  refine ⟨Bool.or_true _, ?_⟩
  rw [rightFree]
  cases right <;> exact Bool.or_true _

theorem walk_of_stopped {c : Char} (hc : isSep c = true)
    (hstop : ∀ d, s.head? = some d → isSep d = false) : walkChars s (c :: text) = none := by
  rw [walkChars_cons]
  cases s with
  | nil =>
    by_cases hcs : c = ' '
    · rw [if_pos hcs]
      exact if_pos rfl
    · rw [if_neg hcs]
  | cons d s =>
    have hd := hstop d rfl
    by_cases hcs : c = ' '
    · rw [if_pos hcs, List.takeWhile_cons, hd]
      exact if_pos rfl
    · rw [if_neg hcs]
      refine if_neg ?_
      rintro rfl
      cases hc.symm.trans hd

/-- The greedy run leaves no separator for a text that wants one there. -/
theorem walk_eq_none (hapart : ¬SpacesApart text) (s : Str) : walkChars s text = none := by
  induction text generalizing s with
  | nil => exact absurd List.IsChain.nil hapart
  | cons t text ih =>
    rw [walkChars_cons]
    by_cases hrest : SpacesApart text
    · cases text with
      | nil => exact absurd (List.isChain_singleton t) hapart
      | cons c text =>
        obtain ⟨rfl, hc⟩ : t = ' ' ∧ isSep c = true := by
          by_contra hnot
          refine hapart (List.isChain_cons_cons.mpr ⟨fun ht => ?_, hrest⟩)
          rw [← Bool.not_eq_true]
          exact fun hc => hnot ⟨ht, hc⟩
        rw [if_pos rfl]
        split_ifs
        · rfl
        · exact walk_of_stopped hc fun d hd => Text.Trim.head?_dropWhile hd
    · split_ifs
      · rfl
      · exact ih hrest _
      · cases s with
        | nil => rfl
        | cons c s =>
          dsimp only
          split_ifs
          · exact ih hrest s
          · rfl

theorem occurs_self (U : Unicode) (text : Str) (right : RightRule) : Occurs U text text right :=
  ⟨[], text, [], by simp, writtenAs_self _ text, (free_at_ends U text right).1,
    (free_at_ends U text right).2⟩

theorem not_found_of_not_apart (hflex : flexible text = true) (hapart : ¬SpacesApart text)
    (right : RightRule) (name : Str) : ¬Found U text right [] name := by
  rintro ⟨mid, place, rest, rfl, hplace, -⟩
  rw [here_flexible hflex, walk_eq_none hapart, ite_self] at hplace
  cases hplace

/-- A text that begins with a space is not found where another separator stands for it. -/
theorem not_found_hyphen {text : Str} (hflex : flexible (' ' :: text) = true) (right : RightRule) :
    ¬Found U (' ' :: text) right [] ('-' :: text) := by
  rintro ⟨mid, place, rest, heq, hplace, -⟩
  obtain ⟨body, rfl, hw⟩ := writtenAs_of_here hplace
  have hlen := hw.length_le
  have hwhole := congrArg List.length heq
  rw [List.length_cons, List.length_append, List.length_append] at hwhole
  rw [List.length_cons] at hlen
  have hmid : mid = [] := List.length_eq_zero_iff.mp (by omega)
  rw [hmid, List.nil_append] at heq
  have hhead : ('-' :: text).head? ≠ (' ' :: text).head? := fun h => by cases h
  rw [here_flexible hflex, ← heq, if_neg hhead] at hplace
  cases hplace

theorem occurs_hyphen {text : Str} (hflex : flexible (' ' :: text) = true) (right : RightRule) :
    Occurs U ('-' :: text) (' ' :: text) right := by
  have hascii : isAscii (' ' :: text) = true := (Bool.and_eq_true _ _ ▸ hflex : _ ∧ _).2
  have hrun : ∀ c ∈ ['-'], isSep c = true := by
    intro c hc
    rw [List.mem_singleton.mp hc]
    rfl
  refine ⟨[], ['-'] ++ text, [], by simp, ?_, (free_at_ends U _ right).1,
    (free_at_ends U _ right).2⟩
  rw [hascii]
  exact .run rfl (List.cons_ne_nil _ _) hrun (writtenAs_self true text)


theorem contains_iff_found (U : Unicode) (name text : Str) (right : RightRule) :
    containsBounded U name text right = some true ↔ Found U text right [] name := by
  obtain ⟨b, hb, hfound⟩ := containsBounded_eq (U := U) name text right
  rw [hb, Option.some.injEq, hfound]

/-- The search of a name for itself. -/
theorem found_self_iff (U : Unicode) (text : Str) (right : RightRule) :
    Found U text right [] text ↔ flexible text = false ∨ SpacesApart text := by
  obtain ⟨hleft, hright⟩ := free_at_ends U text right
  constructor
  · intro hfound
    by_contra hnot
    rw [not_or, Bool.not_eq_false] at hnot
    exact not_found_of_not_apart hnot.1 hnot.2 right text hfound
  · intro htext
    cases hflex : flexible text with
    | false =>
      have hplace := here_of_verbatim hflex (writtenAs_self _ text) []
      rw [List.append_nil] at hplace
      exact ⟨[], text, [], rfl, hplace, hleft, hright⟩
    | true =>
      have hapart := htext.resolve_left (by rw [hflex]; exact Bool.true_eq_false.mp)
      obtain ⟨rest, hplace, hlast⟩ := here_of_flexible hflex hapart (writtenAs_self _ text) rfl []
      rw [List.append_nil] at hplace
      refine ⟨[], text, rest, rfl, hplace, hleft, ?_⟩
      by_cases hspace : text.getLast? = some ' '
      · exact rightFree_of_space hspace right rest
      · rw [hlast hspace]
        exact hright

/-- The search of a name for a text ends, finds only what occurs, and finds it in every name if
the text is searchable; if it is not, a name of its characters and hyphens is missed. A name that
is the text itself is found unless the text has a separator right behind a space. -/
theorem search_exact_iff (U : Unicode) (text : Str) :
    (∀ name right, ∃ b, containsBounded U name text right = some b ∧
      (b = true → Occurs U name text right)) ∧
    ((∀ name right, containsBounded U name text right = some true ↔ Occurs U name text right) ↔
      Searchable text) ∧
    (¬Searchable text → ∃ name, (∀ c ∈ name, c ∈ text ∨ c = '-') ∧
      ∀ right, Occurs U name text right ∧ containsBounded U name text right = some false) ∧
    ∀ right, containsBounded U text text right = some true ↔
      flexible text = false ∨ SpacesApart text := by
  have htotal : ∀ name right, ¬Found U text right [] name →
      containsBounded U name text right = some false := by
    intro name right hnot
    obtain ⟨b, hb, hfound⟩ := containsBounded_eq (U := U) name text right
    cases b with
    | true => exact absurd (hfound.mp rfl) hnot
    | false => exact hb
  have hmissed : ¬Searchable text → ∃ name, (∀ c ∈ name, c ∈ text ∨ c = '-') ∧
      ∀ right, Occurs U name text right ∧ containsBounded U name text right = some false := by
    intro hnot
    rw [Searchable, not_or, Bool.not_eq_false, not_and_or, not_not] at hnot
    obtain ⟨hflex, hhead | hapart⟩ := hnot
    · obtain ⟨rest, rfl⟩ := List.head?_eq_some_iff.mp hhead
      refine ⟨'-' :: rest, fun c hc => ?_, fun right => ⟨occurs_hyphen hflex right,
        htotal _ right (not_found_hyphen hflex right)⟩⟩
      exact (List.mem_cons.mp hc).symm.imp_left (List.mem_cons_of_mem _)
    · exact ⟨text, fun c hc => .inl hc, fun right => ⟨occurs_self U text right,
        htotal _ right (not_found_of_not_apart hflex hapart right text)⟩⟩
  refine ⟨fun name right => ?_, ⟨fun hexact => ?_, fun htext name right => ?_⟩, hmissed,
    fun right => (contains_iff_found U text text right).trans (found_self_iff U text right)⟩
  · obtain ⟨b, hb, hfound⟩ := containsBounded_eq (U := U) name text right
    exact ⟨b, hb, fun h => occurs_of_found (hfound.mp h)⟩
  · by_contra hnot
    obtain ⟨name, -, hname⟩ := hmissed hnot
    obtain ⟨hoccurs, hfalse⟩ := hname .free
    rw [(hexact name .free).mpr hoccurs] at hfalse
    cases hfalse
  · rw [contains_iff_found]
    exact ⟨occurs_of_found, found_of_occurs htext⟩

/-- The space takes the hyphen with it. -/
theorem hyphen_behind_space_missed :
    containsBounded basicLatin "red -car".toList "red -car".toList .free = some false ∧
      Occurs basicLatin "red -car".toList "red -car".toList .free :=
  ⟨by decide, occurs_self basicLatin _ .free⟩

end Ed2kServer.Filter.JargonExact
