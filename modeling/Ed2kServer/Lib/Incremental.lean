import Mathlib.Data.List.Basic

namespace Ed2kServer.Lib.Incremental

variable {ε α β : Type}

/-- A decoder looks at a buffer and leaves what it did not take; `none` asks for more bytes. -/
abbrev Decoder (ε α β : Type) := List β → Except ε (Option α) × List β

/-- An answer stays the same when more arrives behind it, an item takes something, and a
decoder that asks for more takes nothing. -/
structure Prefixed (d : Decoder ε α β) : Prop where
  item_append : ∀ {buf a rest}, d buf = (.ok (some a), rest) → ∀ more,
    d (buf ++ more) = (.ok (some a), rest ++ more)
  error_append : ∀ {buf e rest}, d buf = (.error e, rest) → ∀ more,
    (d (buf ++ more)).1 = .error e
  shorter : ∀ {buf a rest}, d buf = (.ok (some a), rest) → rest.length < buf.length
  none_rest : ∀ {buf rest}, d buf = (.ok none, rest) → rest = buf

/-- What a reader has got so far; after an error it reads no more. -/
structure Progress (ε α β : Type) where
  items : List α
  error : Option ε
  buffer : List β

def drainFrom (d : Decoder ε α β) : Nat → List β → Progress ε α β
  | 0, buf => ⟨[], none, buf⟩
  | fuel + 1, buf =>
    match d buf with
    | (.ok (some a), rest) =>
      let p := drainFrom d fuel rest
      { p with items := a :: p.items }
    | (.ok none, rest) => ⟨[], none, rest⟩
    | (.error e, rest) => ⟨[], some e, rest⟩

/-- Decode until the decoder asks for more or fails. -/
def drain (d : Decoder ε α β) (buf : List β) : Progress ε α β := drainFrom d (buf.length + 1) buf

def read (d : Decoder ε α β) (p : Progress ε α β) (chunk : List β) : Progress ε α β :=
  if p.error.isSome then p
  else
    let q := drain d (p.buffer ++ chunk)
    { q with items := p.items ++ q.items }

/-- The chunks as they arrive, each decoded as far as it goes. -/
def readAll (d : Decoder ε α β) (chunks : List (List β)) : Progress ε α β :=
  chunks.foldl (read d) ⟨[], none, []⟩

variable {d : Decoder ε α β}

theorem drainFrom_eq (h : Prefixed d) {m n : Nat} {buf : List β} (hm : buf.length < m)
    (hn : buf.length < n) : drainFrom d m buf = drainFrom d n buf := by
  induction m generalizing n buf with
  | zero => cases hm
  | succ m ih =>
    obtain ⟨n, rfl⟩ : ∃ k, n = k + 1 := ⟨n - 1, by omega⟩
    rw [drainFrom, drainFrom]
    split
    · rename_i a rest hd
      have hlt := h.shorter hd
      rw [ih (by omega : rest.length < m) (by omega : rest.length < n)]
    · rfl
    · rfl

theorem drain_item (h : Prefixed d) {buf rest : List β} {a : α}
    (hd : d buf = (.ok (some a), rest)) :
    drain d buf = { drain d rest with items := a :: (drain d rest).items } := by
  have hlt := h.shorter hd
  rw [drain, drainFrom, hd, drain]
  simp only [drainFrom_eq h hlt (Nat.lt_succ_self _)]

theorem drain_none (h : Prefixed d) {buf rest : List β} (hd : d buf = (.ok none, rest)) :
    drain d buf = ⟨[], none, buf⟩ := by
  rw [drain, drainFrom, hd, h.none_rest hd]

theorem drain_error {buf rest : List β} {e : ε} (hd : d buf = (.error e, rest)) :
    drain d buf = ⟨[], some e, rest⟩ := by
  rw [drain, drainFrom, hd]

theorem drain_error_append (h : Prefixed d) {buf rest : List β} {e : ε}
    (hd : d buf = (.error e, rest)) (more : List β) :
    (drain d (buf ++ more)).items = [] ∧ (drain d (buf ++ more)).error = some e := by
  obtain ⟨rest', hmore⟩ : ∃ r, d (buf ++ more) = (.error e, r) :=
    ⟨_, Prod.ext (h.error_append hd more) rfl⟩
  rw [drain_error hmore]
  exact ⟨rfl, rfl⟩

/-- Draining a buffer, then what it left with more behind it, is draining the whole. -/
theorem drain_append (h : Prefixed d) (buf more : List β) :
    let p := drain d buf
    let q := drain d (buf ++ more)
    if p.error.isSome then q.items = p.items ∧ q.error = p.error
    else q = { drain d (p.buffer ++ more) with
      items := p.items ++ (drain d (p.buffer ++ more)).items } := by
  intro p q
  induction hn : buf.length using Nat.strongRecOn generalizing buf with
  | _ n ih =>
    cases hd : d buf with
    | mk out rest =>
      cases out with
      | error e =>
        have hp : p = ⟨[], some e, rest⟩ := drain_error hd
        rw [hp]
        exact drain_error_append h hd more
      | ok found =>
        cases found with
        | none =>
          have hp : p = ⟨[], none, buf⟩ := drain_none h hd
          rw [hp]
          rfl
        | some a =>
          have hp : p = { drain d rest with items := a :: (drain d rest).items } :=
            drain_item h hd
          have hq : q = { drain d (rest ++ more) with
              items := a :: (drain d (rest ++ more)).items } :=
            drain_item h (h.item_append hd more)
          have hrest := ih rest.length (hn ▸ h.shorter hd) rest rfl
          rw [hp, hq]
          dsimp only at hrest ⊢
          split
          · rename_i hs
            rw [if_pos hs] at hrest
            rw [hrest.1, hrest.2]
            exact ⟨rfl, rfl⟩
          · rename_i hs
            rw [if_neg hs] at hrest
            rw [hrest]
            rfl

/-- A drained buffer holds no further item. -/
theorem decode_drained (h : Prefixed d) {buf : List β} (he : (drain d buf).error = none) :
    d (drain d buf).buffer = (.ok none, (drain d buf).buffer) := by
  induction hn : buf.length using Nat.strongRecOn generalizing buf with
  | _ n ih =>
    cases hd : d buf with
    | mk out rest =>
      cases out with
      | error e =>
        rw [drain_error hd] at he
        cases he
      | ok found =>
        cases found with
        | none =>
          obtain rfl := h.none_rest hd
          rw [drain_none h hd]
          exact hd
        | some a =>
          rw [drain_item h hd] at he ⊢
          exact ih rest.length (hn ▸ h.shorter hd) he rfl

theorem foldl_read_error (chunks : List (List β)) {p : Progress ε α β}
    (hp : p.error.isSome) : chunks.foldl (read d) p = p := by
  induction chunks with
  | nil => rfl
  | cons c cs ih =>
    have hread : read d p c = p := by rw [read, if_pos hp]
    rw [List.foldl_cons, hread, ih]

/-- Reading chunks from a drained buffer gives what draining the whole gives. -/
theorem foldl_read (h : Prefixed d) (chunks : List (List β)) (items : List α) {buf : List β}
    (hb : d buf = (.ok none, buf)) :
    let p := chunks.foldl (read d) ⟨items, none, buf⟩
    let q := drain d (buf ++ chunks.flatten)
    p.items = items ++ q.items ∧ p.error = q.error ∧ (q.error = none → p.buffer = q.buffer) := by
  induction chunks generalizing items buf with
  | nil =>
    intro p q
    have hq : q = ⟨[], none, buf⟩ := by
      simp only [q, List.flatten_nil, List.append_nil]
      exact drain_none h hb
    rw [hq]
    exact ⟨(List.append_nil items).symm, rfl, fun _ => rfl⟩
  | cons c cs ih =>
    intro p q
    set r := drain d (buf ++ c) with hr
    have hread : read d ⟨items, none, buf⟩ c = { r with items := items ++ r.items } := rfl
    have happend := drain_append h (buf ++ c) cs.flatten
    simp only [← hr, List.append_assoc] at happend
    have hp : p = cs.foldl (read d) { r with items := items ++ r.items } := by
      simp only [p, List.foldl_cons, hread]
    have hq : q = drain d (buf ++ (c ++ cs.flatten)) := by
      simp only [q, List.flatten_cons]
    cases he : r.error with
    | some e =>
      rw [he] at happend
      simp only [Option.isSome_some, if_true] at happend
      rw [hq, hp, foldl_read_error cs (by simp [he]), happend.1, happend.2, he]
      exact ⟨rfl, rfl, fun hnone => by cases hnone⟩
    | none =>
      rw [he] at happend
      simp only [Option.isSome_none, Bool.false_eq_true, if_false] at happend
      have hstart := ih (items ++ r.items) (decode_drained h (he : (drain d (buf ++ c)).error = none))
      rw [← hr] at hstart
      have hp' : p = cs.foldl (read d) ⟨items ++ r.items, none, r.buffer⟩ := by
        rw [hp, he]
      rw [hp', hq, happend]
      refine ⟨?_, hstart.2.1, hstart.2.2⟩
      rw [hstart.1, List.append_assoc]

/-- What is read does not depend on where the stream was cut. -/
theorem readAll_eq (h : Prefixed d) (hnil : d [] = (.ok none, [])) (chunks : List (List β)) :
    (readAll d chunks).items = (drain d chunks.flatten).items ∧
      (readAll d chunks).error = (drain d chunks.flatten).error ∧
      ((drain d chunks.flatten).error = none →
        (readAll d chunks).buffer = (drain d chunks.flatten).buffer) :=
  foldl_read h chunks [] hnil

/-- Items written one after the other are read back, and nothing is left. -/
theorem drain_flatMap {γ : Type} (h : Prefixed d) (hnil : d [] = (.ok none, []))
    (write : γ → List β) (value : γ → α) {cs : List γ}
    (hw : ∀ c ∈ cs, d (write c) = (.ok (some (value c)), [])) :
    drain d (cs.flatMap write) = ⟨cs.map value, none, []⟩ := by
  induction cs with
  | nil => exact drain_none h hnil
  | cons c cs ih =>
    obtain ⟨hc, hcs⟩ := List.forall_mem_cons.mp hw
    have hfirst := h.item_append hc (cs.flatMap write)
    rw [List.nil_append] at hfirst
    rw [List.flatMap_cons, drain_item h hfirst, ih hcs]
    rfl

end Ed2kServer.Lib.Incremental
