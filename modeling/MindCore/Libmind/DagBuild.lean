import MindCore.Libmind.DagRead

/-!
# Writing an object

What the builder has written after some bytes is a function of these bytes: `levelsOf` gives
its levels and `doneAt` the blocks put so far. Each push keeps this, and `finish` ends with the
root of the tree over all the bytes.
-/

namespace MindCore.Dag

open List Proc

section Keeping
variable [Sha256]

def enter (l : Cid → Option Bytes) (bs : List (Codec × Bytes)) : Cid → Option Bytes :=
  bs.foldl (fun l b cid => if cid = Cid.of b.1 b.2 then some b.2 else l cid) l

theorem enter_append (l : Cid → Option Bytes) (bs cs : List (Codec × Bytes)) :
    enter l (bs ++ cs) = enter (enter l bs) cs :=
  foldl_append

variable {bs : List (Codec × Bytes)} {l : Cid → Option Bytes} {cid : Cid}

theorem enter_of_not_mem (h : cid ∉ cidsOf bs) : enter l bs cid = l cid := by
  induction bs generalizing l with
  | nil => rfl
  | cons b bs ih =>
    have hne : cid ≠ Cid.of b.1 b.2 := fun he => h (he ▸ mem_cons_self)
    refine (ih fun hm => h (mem_cons_of_mem _ hm)).trans ?_
    simp only [if_neg hne]

theorem enter_of_mem (h : cid ∈ cidsOf bs) : ∃ b ∈ bs, Cid.of b.1 b.2 = cid ∧ enter l bs cid = some b.2 := by
  induction bs generalizing l with
  | nil => cases h
  | cons b bs ih =>
    by_cases hm : cid ∈ cidsOf bs
    · obtain ⟨c, hc, hcid, hl⟩ := ih hm
      exact ⟨c, mem_cons_of_mem _ hc, hcid, hl⟩
    · rcases mem_cons.mp h with he | hm'
      · refine ⟨b, mem_cons_self, he.symm, (enter_of_not_mem hm).trans ?_⟩
        simp only [if_pos he]
      · exact absurd hm' hm

def Distinct (bs : List (Codec × Bytes)) : Prop := ∀ b ∈ bs, ∀ c ∈ bs, Cid.of b.1 b.2 = Cid.of c.1 c.2 → b = c

theorem holds_enter (h : Distinct bs) : Holds (enter l bs) bs := by
  intro b hb
  obtain ⟨c, hc, hcid, hl⟩ := enter_of_mem (l := l) (mem_map.mpr ⟨b, hb, rfl⟩)
  rw [hl, h c hc b hb hcid]

/-- A store that keeps what it is given: `look s` is what the state `s` holds. -/
structure Retains {B : Type} [Blocks B] (look : B → Cid → Option Bytes) : Prop where
  put : ∀ s c b, b.length ≤ chunk → ∃ t, (Blocks.put c b).run s = .ok (Cid.of c b) t ∧
    look t = enter (look s) [(c, b)]
  serves : ∀ l, Serves (fun s => look s = l) l

end Keeping

def whole (k : Nat) (g : Bytes) : Nat := divCeil g.length (cap k) / fanout * cap (k + 1)

section Levels
variable [Sha256]

def entryAt (k : Nat) (p : Bytes) : Entry := ⟨cidAt k p, p.length⟩

/-- The levels from height `k` up, `n` of them, once the bytes `g` are in them. -/
def levelsOf : Nat → Nat → Bytes → List (List Entry)
  | _, 0, _ => []
  | k, n + 1, g => (pieces (cap k) (g.drop (whole k g))).map (entryAt k) ::
      levelsOf (k + 1) n (g.take (whole k g))

def doneAt : Nat → Nat → Bytes → List (Codec × Bytes)
  | _, 0, _ => []
  | k, n + 1, g => (pieces (cap k) (g.drop (whole k g))).flatMap (blocksAt k) ++
      doneAt (k + 1) n (g.take (whole k g))

end Levels

section Whole
variable {k : Nat} {g p : Bytes}

theorem divCeil_of_dvd {a b : Nat} (hb : 0 < b) (h : b ∣ a) : divCeil a b * b = a := by
  obtain ⟨m, rfl⟩ := h
  have := divCeil_add_mul (a := 0) (n := m) hb
  rw [Nat.add_zero, divCeil_zero, Nat.add_zero, Nat.mul_comm m] at this
  rw [this, Nat.mul_comm]

theorem divCeil_append (hg : cap k ∣ g.length) (h0 : 0 < p.length) (hp : p.length ≤ cap k) :
    divCeil (g ++ p).length (cap k) = divCeil g.length (cap k) + 1 := by
  have hm := divCeil_of_dvd (cap_pos k) hg
  rw [length_append]
  conv_lhs => rw [← hm]
  rw [divCeil_add_mul (cap_pos k), divCeil_eq_one h0 hp]

theorem whole_eq (k : Nat) (g : Bytes) : whole k g = divCeil g.length (cap k) / fanout * fanout * cap k := by
  rw [whole, cap_succ, Nat.mul_assoc]

section
variable (hg : cap k ∣ g.length)
include hg

theorem whole_le : whole k g ≤ g.length := by
  rw [whole_eq]
  calc _ ≤ divCeil g.length (cap k) * cap k := Nat.mul_le_mul_right _ (Nat.div_mul_le_self _ _)
    _ = g.length := divCeil_of_dvd (cap_pos k) hg

theorem cap_dvd_drop_whole : cap k ∣ (g.drop (whole k g)).length := by
  rw [length_drop, whole_eq]
  exact Nat.dvd_sub hg (Nat.dvd_mul_left _ _)

theorem length_take_whole : (g.take (whole k g)).length = whole k g := by
  rw [length_take, Nat.min_eq_left (whole_le hg)]

theorem cap_dvd_take_whole : cap (k + 1) ∣ (g.take (whole k g)).length := by
  rw [length_take_whole hg]
  exact Nat.dvd_mul_left _ _

end

theorem divCeil_drop_whole (k : Nat) (g : Bytes) :
    divCeil (g.drop (whole k g)).length (cap k) = divCeil g.length (cap k) % fanout := by
  refine eq_of_forall_ge_iff fun n => ?_
  have hd := Nat.div_add_mod' (divCeil g.length (cap k)) fanout
  have h1 : divCeil g.length (cap k) % fanout ≤ n ↔
      divCeil g.length (cap k) ≤ n + divCeil g.length (cap k) / fanout * fanout := by omega
  rw [h1, divCeil_le_iff (cap_pos k), divCeil_le_iff (cap_pos k), length_drop, whole_eq, Nat.add_mul]
  omega

theorem length_le_whole (h : divCeil g.length (cap k) % fanout = 0) : g.length ≤ whole k g := by
  have hdiv := Nat.div_add_mod' (divCeil g.length (cap k)) fanout
  rw [h, Nat.add_zero] at hdiv
  rw [whole_eq, hdiv]
  exact (divCeil_le_iff (cap_pos k)).mp (Nat.le_refl _)

theorem whole_lt_length (h : divCeil g.length (cap k) % fanout ≠ 0) : whole k g < g.length := by
  have hdiv := Nat.div_add_mod' (divCeil g.length (cap k)) fanout
  rw [whole_eq]
  exact (lt_divCeil_iff (cap_pos k)).mp (by omega)

theorem divCeil_cap_succ (n k : Nat) : divCeil n (cap (k + 1)) = divCeil (divCeil n (cap k)) fanout := by
  rw [cap_succ, divCeil_divCeil (cap_pos k) (by decide)]

theorem divCeil_cap_succ_lt {n m k : Nat} (h0 : divCeil n (cap k) % fanout = 0)
    (h : divCeil n (cap k) < fanout ^ (m + 1)) : divCeil n (cap (k + 1)) < fanout ^ m := by
  rw [divCeil_cap_succ]
  obtain ⟨q, hq⟩ := Nat.dvd_of_mod_eq_zero h0
  rw [hq, Nat.pow_succ, Nat.mul_comm (fanout ^ m), Nat.mul_lt_mul_left (by decide)] at h
  have hle := (divCeil_le_iff (a := divCeil n (cap k)) (n := q) (show 0 < fanout by decide)).mpr
    (by rw [hq, Nat.mul_comm])
  omega

theorem whole_append_of_ne (hg : cap k ∣ g.length) (h0 : 0 < p.length) (hp : p.length ≤ cap k)
    (h : divCeil g.length (cap k) % fanout + 1 ≠ fanout) : whole k (g ++ p) = whole k g := by
  have hdiv : (divCeil g.length (cap k) + 1) / fanout = divCeil g.length (cap k) / fanout := by
    unfold fanout at *
    omega
  rw [whole, divCeil_append hg h0 hp, hdiv, whole]

theorem whole_append_of_eq (hg : cap k ∣ g.length) (h0 : 0 < p.length) (hp : p.length ≤ cap k)
    (h : divCeil g.length (cap k) % fanout + 1 = fanout) : (g ++ p).length ≤ whole k (g ++ p) := by
  apply length_le_whole
  rw [divCeil_append hg h0 hp]
  unfold fanout at *
  omega

end Whole

section Build
variable [Sha256] {B : Type} [Blocks B] {look : B → Cid → Option Bytes}

variable {l : Cid → Option Bytes} {s : B} {ws : List (Codec × Bytes)} {k n : Nat} {g d : Bytes}
    {b : Builder}

theorem put_ok (hr : Retains look)
    (hl : look s = enter l ws) (c : Codec) {b : Bytes} (hb : b.length ≤ chunk) :
    ∃ t, (Builder.put c b).run s = .ok (Cid.of c b) t ∧ look t = enter l (ws ++ [(c, b)]) := by
  obtain ⟨t, hput, ht⟩ := hr.put s c b hb
  refine ⟨t, ?_, ?_⟩
  · unfold Builder.put
    rw [bind_ok hput, ensure_pos rfl]
    rfl
  · rw [ht, hl, enter_append]

theorem sum_entries (k : Nat) (q : Bytes) :
    (((pieces (cap k) q).map (entryAt k)).map Entry.size).sum = q.length := by
  conv_rhs => rw [← flatten_pieces (cap_pos k) q, length_flatten]
  rw [map_map]
  rfl

theorem cid_entries (k : Nat) (q : Bytes) :
    ((pieces (cap k) q).map (entryAt k)).map Entry.cid = linksAt k q := by
  rw [map_map]
  rfl

variable {q : Bytes} {parts : List Bytes}

/-- The subtrees over `q` become one. -/
theorem wrap_ok (hr : Retains look) (hl : look s = enter l ws) (hq : q.length ≤ cap (k + 1)) :
    ∃ t, (Builder.wrap ((pieces (cap k) q).map (entryAt k))).run s = .ok (entryAt (k + 1) q) t ∧
      look t = enter l (ws ++ [(.dagCbor, blockAt (k + 1) q)]) := by
  obtain ⟨t, hput, ht⟩ := put_ok hr hl .dagCbor (length_blockAt hq)
  refine ⟨t, ?_, ht⟩
  rw [blockAt_succ] at hput
  simp only [Builder.wrap]
  rw [sum_entries, cid_entries, bind_ok hput]
  rfl

theorem mem_doneAt_succ {b : Codec × Bytes} :
    b ∈ doneAt k (n + 1) g ↔ (∃ p ∈ pieces (cap k) (g.drop (whole k g)), b ∈ blocksAt k p) ∨
      b ∈ doneAt (k + 1) n (g.take (whole k g)) := by
  rw [doneAt, mem_append, mem_flatMap]

theorem mem_blocksAt_succ {b : Codec × Bytes} : b ∈ blocksAt (k + 1) q ↔ b = (.dagCbor, blockAt (k + 1) q) ∨
      ∃ p ∈ pieces (cap k) q, b ∈ blocksAt k p := by
  rw [blocksAt, mem_cons, mem_flatMap]

/-- Adding the subtree over `p` to levels that hold `g`: they then hold `g ++ p`, and the new
nodes are the blocks put. `X` is what else was put. -/
theorem push_ok (hr : Retains look) {p : Bytes} {X : Codec × Bytes → Prop} (hg : cap k ∣ g.length)
    (h0 : 0 < p.length) (hp : p.length ≤ cap k)
    (hn : divCeil (g ++ p).length (cap k) < fanout ^ n) (hl : look s = enter l ws)
    (hws : ∀ b, b ∈ ws ↔ X b ∨ b ∈ doneAt k n g ∨ b ∈ blocksAt k p) :
    ∃ t ws', (Builder.push (entryAt k p) (levelsOf k n g)).run s = .ok (levelsOf k n (g ++ p)) t ∧
      look t = enter l ws' ∧ ∀ b, b ∈ ws' ↔ X b ∨ b ∈ doneAt k n (g ++ p) := by
  induction n generalizing k g p s ws X with
  | zero =>
    rw [divCeil_append hg h0 hp, Nat.pow_zero] at hn
    omega
  | succ n ih =>
    have hlen : ((pieces (cap k) (g.drop (whole k g))).map (entryAt k) ++ [entryAt k p]).length =
        divCeil g.length (cap k) % fanout + 1 := by
      rw [length_append, length_map, length_pieces, divCeil_drop_whole]
      rfl
    have hlo : pieces (cap k) (g.drop (whole k g) ++ p) =
        pieces (cap k) (g.drop (whole k g)) ++ [p] := by
      rw [pieces_append (cap_pos k) (cap_dvd_drop_whole hg), pieces_of_short h0 hp]
    have hentries : (pieces (cap k) (g.drop (whole k g))).map (entryAt k) ++ [entryAt k p] =
        (pieces (cap k) (g.drop (whole k g) ++ p)).map (entryAt k) := by
      rw [hlo, map_append]
      rfl
    have hsplit : g.take (whole k g) ++ (g.drop (whole k g) ++ p) = g ++ p := by
      rw [← append_assoc, take_append_drop]
    rw [levelsOf, Builder.push]
    simp only [hlen]
    by_cases hfull : divCeil g.length (cap k) % fanout + 1 = fanout
    · -- The level is full: its node goes one level up.
      have hall := whole_append_of_eq hg h0 hp hfull
      have hq : (g.drop (whole k g) ++ p).length ≤ cap (k + 1) := by
        have h := divCeil_drop_whole k g
        have h2 := divCeil_of_dvd (cap_pos k) (cap_dvd_drop_whole hg)
        rw [h, show divCeil g.length (cap k) % fanout = fanout - 1 by omega] at h2
        rw [length_append, ← h2, cap_succ]
        have : fanout * cap k = (fanout - 1) * cap k + cap k := by
          rw [← Nat.succ_mul]
          rfl
        omega
      obtain ⟨t, hwrap, ht⟩ := wrap_ok hr hl hq
      have hn' : divCeil (g.take (whole k g) ++ (g.drop (whole k g) ++ p)).length (cap (k + 1)) <
          fanout ^ n := by
        rw [hsplit]
        refine divCeil_cap_succ_lt ?_ hn
        rw [divCeil_append hg h0 hp]
        unfold fanout at *
        omega
      obtain ⟨t', ws', hpush, ht', hws'⟩ := ih (X := fun b => X b)
        (cap_dvd_take_whole hg) (by rw [length_append]; omega) hq hn' ht (by
          intro b
          rw [mem_append, hws, mem_doneAt_succ, mem_blocksAt_succ, hlo]
          simp only [mem_append, mem_singleton, exists_or, or_and_right, exists_eq_left,
            or_comm, or_left_comm])
      refine ⟨t', ws', ?_, ht', ?_⟩
      · rw [if_pos hfull, hentries, bind_ok hwrap, bind_ok hpush, hsplit, levelsOf,
          drop_of_length_le hall, take_of_length_le hall, pieces_nil]
        rfl
      · intro b
        rw [hws' b, hsplit, mem_doneAt_succ, drop_of_length_le hall,
          take_of_length_le hall, pieces_nil]
        simp
    · have hsame := whole_append_of_ne hg h0 hp hfull
      refine ⟨s, ws, ?_, hl, ?_⟩
      · rw [if_neg hfull, hentries, levelsOf, hsame, drop_append_of_le_length (whole_le hg),
          take_append_of_le_length (whole_le hg)]
        rfl
      · intro b
        rw [hws b, mem_doneAt_succ, mem_doneAt_succ, hsame,
          drop_append_of_le_length (whole_le hg), take_append_of_le_length (whole_le hg), hlo]
        simp only [mem_append, mem_singleton, exists_or, or_and_right, exists_eq_left,
          or_comm, or_left_comm]

theorem levelsOf_nil (k n : Nat) : levelsOf k n [] = List.replicate n [] := by
  induction n generalizing k with
  | zero => rfl
  | succ n ih => simp [levelsOf, ih, replicate_succ]

theorem doneAt_nil (k n : Nat) : doneAt k n [] = [] := by
  induction n generalizing k with
  | zero => rfl
  | succ n ih => simp [doneAt, ih]

/-- A builder that was given the bytes `d`, and the store it wrote to, which held `l` before. -/
def Built (look : B → Cid → Option Bytes) (l : Cid → Option Bytes) (b : Builder) (d : Bytes) (s : B) : Prop :=
  ∃ g ws, g ++ b.chunk = d ∧ chunk ∣ g.length ∧ b.chunk.length ≤ chunk ∧
    b.levels = levelsOf 0 levels g ∧ look s = enter l ws ∧ ∀ x, x ∈ ws ↔ x ∈ doneAt 0 levels g

omit [Sha256] in
theorem divCeil_le_of_u64 (h : n < 2 ^ 64) : divCeil n (cap 0) ≤ fanout ^ 7 := by
  rw [divCeil_le_iff (cap_pos 0), cap_zero, chunk, fanout]
  omega

theorem flushChunk_ok (hr : Retains look)
    (hb : Built look l b d s) (h0 : b.chunk ≠ []) (h64 : d.length < 2 ^ 64) :
    ∃ t c ws, (Builder.flushChunk b).run s = .ok c t ∧ c.chunk = [] ∧ c.total = b.total ∧
      c.levels = levelsOf 0 levels d ∧ look t = enter l ws ∧ ∀ x, x ∈ ws ↔ x ∈ doneAt 0 levels d := by
  obtain ⟨g, ws, rfl, hg, hc, hlv, hl, hws⟩ := hb
  obtain ⟨t, hput, ht⟩ := put_ok hr hl .raw hc
  have hlt : divCeil (g ++ b.chunk).length (cap 0) < fanout ^ levels := by
    have h1 := divCeil_le_of_u64 h64
    have h2 : fanout ^ 7 < fanout ^ levels := by decide
    omega
  obtain ⟨t', ws', hpush, ht', hws'⟩ := push_ok hr (X := fun _ => False)
    (show cap 0 ∣ g.length by rwa [cap_zero]) (length_pos_iff.mpr h0)
    (show b.chunk.length ≤ cap 0 by rwa [cap_zero]) hlt ht (by
      intro x
      rw [mem_append, hws x, blocksAt, false_or])
  refine ⟨t', { b with chunk := [], levels := levelsOf 0 levels (g ++ b.chunk) }, ws', ?_, rfl, rfl,
    rfl, ht', fun x => by rw [hws' x, false_or]⟩
  unfold Builder.flushChunk
  rw [bind_ok hput, hlv]
  exact bind_ok hpush

section
variable (hr : Retains look) (hb : Built look l b d s) (h0 : b.chunk = [] → d = [])
include hr hb h0

theorem fill_ok {rounds : Nat}
    {data : Bytes}
    (hrounds : data.length ≤ rounds) (h64 : (d ++ data).length < 2 ^ 64) :
    ∃ t b', (Builder.fill rounds b data).run s = .ok b' t ∧ Built look l b' (d ++ data) t ∧
      (b'.chunk = [] → d ++ data = []) ∧ b'.total = b.total := by
  induction rounds generalizing b d data s with
  | zero =>
    have hnil : data = [] := eq_nil_of_length_eq_zero (by omega)
    rw [hnil, append_nil]
    exact ⟨s, b, rfl, hb, h0, rfl⟩
  | succ rounds ih =>
    unfold Builder.fill
    split
    · rename_i hnil
      rw [hnil, append_nil]
      exact ⟨s, b, rfl, hb, h0, rfl⟩
    · rename_i hne
      have hpos := length_pos_iff.mpr hne
      rw [length_append] at h64
      -- Whatever the first step does, the chunk then has room.
      obtain ⟨t, c, hstep, hc, hroom, htotal⟩ : ∃ t c,
          (if b.chunk.length = chunk then Builder.flushChunk b else pure b).run s = .ok c t ∧
            Built look l c d t ∧ c.chunk.length < chunk ∧ c.total = b.total := by
        split
        · rename_i hfull
          have hchunk : b.chunk ≠ [] := by
            intro he
            rw [he] at hfull
            exact absurd hfull (by decide)
          obtain ⟨t, c, ws, hrun, hnil, htotal, hlv, ht, hws⟩ := flushChunk_ok hr hb hchunk (by omega)
          refine ⟨t, c, hrun, ⟨d, ws, ?_, ?_, ?_, hlv, ht, hws⟩, ?_, htotal⟩
          · rw [hnil, append_nil]
          rotate_left
          · exact hnil ▸ Nat.zero_le _
          · rw [hnil]
            decide
          obtain ⟨g, _, rfl, hg, _⟩ := hb
          rw [length_append, hfull]
          exact Nat.dvd_add hg (Nat.dvd_refl _)
        · have hle : b.chunk.length ≤ chunk := by
            obtain ⟨_, _, _, _, hle, _⟩ := hb
            exact hle
          exact ⟨s, b, rfl, hb, by omega, rfl⟩
      rw [bind_ok hstep]
      obtain ⟨g, ws, rfl, hg, _, hlv, hl, hws⟩ := hc
      have htaken : 0 < min data.length (chunk - c.chunk.length) := by omega
      generalize hk : min data.length (chunk - c.chunk.length) = taken at htaken
      have hd : (g ++ c.chunk) ++ data.take taken ++ data.drop taken = (g ++ c.chunk) ++ data := by
        rw [append_assoc, take_append_drop]
      have hlen : (c.chunk ++ data.take taken).length = c.chunk.length + taken := by
        rw [length_append, length_take]
        omega
      obtain ⟨t', b', hrun, hb', h0', htotal'⟩ := ih (s := t)
        (b := { c with chunk := c.chunk ++ data.take taken }) (d := (g ++ c.chunk) ++ data.take taken)
        ⟨g, ws, by simp, hg, by simp only [hlen]; omega, hlv, hl, hws⟩
        (fun he => by
          have := congrArg List.length he
          simp only [hlen, length_nil] at this
          omega)
        (show (data.drop taken).length ≤ rounds by rw [length_drop]; omega)
        (by rw [hd, length_append]; exact h64)
      rw [hd] at hb' h0'
      exact ⟨t', b', hrun, hb', h0', htotal'.trans htotal⟩

theorem write_ok {part : Bytes} (ht : b.total = d.length)
    (hpart : (d ++ part).length < 2 ^ 64) :
    ∃ t c, (Builder.write b part).run s = .ok c t ∧ Built look l c (d ++ part) t ∧
      (c.chunk = [] → d ++ part = []) ∧ c.total = (d ++ part).length := by
  have hsum : b.total + part.length = (d ++ part).length := by rw [ht, length_append]
  obtain ⟨t, c, hrun, hc, hc0, hct⟩ := fill_ok hr
    (b := { b with total := b.total + part.length }) hb h0 (Nat.le_refl part.length) hpart
  refine ⟨t, c, ?_, hc, hc0, hct.trans hsum⟩
  unfold Builder.write
  rw [ensure_pos (by omega), pure_bind, hrun]

theorem writeAll_ok
    (ht : b.total = d.length) (h64 : (d ++ parts.flatten).length < 2 ^ 64) :
    ∃ t b', (Builder.writeAll b parts).run s = .ok b' t ∧ Built look l b' (d ++ parts.flatten) t ∧
      (b'.chunk = [] → d ++ parts.flatten = []) ∧ b'.total = (d ++ parts.flatten).length := by
  induction parts generalizing b d s with
  | nil =>
    rw [flatten_nil, append_nil]
    exact ⟨s, b, rfl, hb, h0, ht⟩
  | cons part parts ih =>
    rw [flatten_cons, ← append_assoc] at h64 ⊢
    have hpart : (d ++ part).length < 2 ^ 64 := by
      rw [length_append] at h64
      omega
    obtain ⟨t, c, hwrite, hc, hc0, hct⟩ := write_ok hr hb h0 ht hpart
    obtain ⟨t', b', hrun', h⟩ := ih hc hc0 hct h64
    refine ⟨t', b', ?_, h⟩
    unfold Builder.writeAll
    rw [bind_ok hwrite, hrun']

/-- Bytes past what a `u64` counts are refused. -/
theorem writeAll_tooLarge
    (ht : b.total = d.length) (hd : d.length < 2 ^ 64) (h64 : 2 ^ 64 ≤ (d ++ parts.flatten).length) :
    ∃ t, (Builder.writeAll b parts).run s = .error .tooLarge t := by
  induction parts generalizing b d s with
  | nil =>
    rw [flatten_nil, append_nil] at h64
    omega
  | cons part parts ih =>
    have hsum : b.total + part.length = (d ++ part).length := by rw [ht, length_append]
    unfold Builder.writeAll
    by_cases hpart : (d ++ part).length < 2 ^ 64
    · rw [flatten_cons, ← append_assoc] at h64
      obtain ⟨t, c, hwrite, hc, hc0, hct⟩ := write_ok hr hb h0 ht hpart
      rw [bind_ok hwrite]
      exact ih hc hc0 hct hpart h64
    · have hwrite : (Builder.write b part).run s = .error .tooLarge s := by
        unfold Builder.write
        rw [ensure_neg (by omega)]
        rfl
      exact ⟨s, bind_error hwrite⟩

end

theorem levelsOf_eq_nil (hn : divCeil g.length (cap k) < fanout ^ n)
    (h : ∀ lv ∈ levelsOf k n g, lv = []) : g = [] := by
  induction n generalizing k g with
  | zero =>
    rw [Nat.pow_zero, Nat.lt_one_iff] at hn
    have := (divCeil_le_iff (cap_pos k)).mp (Nat.le_of_eq hn)
    exact eq_nil_of_length_eq_zero (by omega)
  | succ n ih =>
    rw [levelsOf] at h
    have hlo := congrArg List.length (h _ mem_cons_self)
    rw [length_map, length_pieces, divCeil_drop_whole, length_nil] at hlo
    rw [take_of_length_le (length_le_whole hlo)] at h
    exact ih (divCeil_cap_succ_lt hlo hn) fun lv hlv => h lv (mem_cons_of_mem _ hlv)

omit [Sha256] [Blocks B] in
theorem single_level (e : Entry) (n : Nat) :
    [e].length = 1 ∧ ∀ lv ∈ List.replicate n ([] : List Entry), lv = [] :=
  ⟨rfl, fun _ hlv => (mem_replicate.mp hlv).2⟩

theorem top_single (e : Entry) (n : Nat) (s : B) :
    (Builder.top (n + 1) ([e] :: List.replicate n [])).run s = .ok e s := by
  rw [Builder.top, if_neg (cons_ne_nil _ _), dif_pos (single_level e n)]
  rfl

theorem push_single (e : Entry) (n : Nat) (s : B) :
    (Builder.push e (List.replicate (n + 1) [])).run s = .ok ([e] :: List.replicate n []) s := by
  have hne : ¬[e].length = fanout := by
    rw [length_singleton]
    decide
  rw [replicate_succ, Builder.push]
  simp only [nil_append, if_neg hne, run_pure]

theorem top_root (h0 : 0 < g.length) (hle : g.length ≤ cap k) :
    (Builder.top (n + 1) (levelsOf k (n + 1) g)).run s = .ok (entryAt k g) s := by
  have hwhole : whole k g = 0 := by
    rw [whole, divCeil_eq_one h0 hle]
    exact Nat.zero_mul _
  have hlv : levelsOf k (n + 1) g = [entryAt k g] :: List.replicate n [] := by
    rw [levelsOf, hwhole, drop_zero, take_zero, levelsOf_nil, pieces_of_short h0 hle]
    rfl
  rw [hlv, top_single]

theorem mem_doneAt_root (h0 : 0 < g.length) (hle : g.length ≤ cap k)
    {b : Codec × Bytes} : b ∈ doneAt k (n + 1) g ↔ b ∈ blocksAt k g := by
  have hwhole : whole k g = 0 := by
    rw [whole, divCeil_eq_one h0 hle]
    exact Nat.zero_mul _
  rw [mem_doneAt_succ, hwhole, drop_zero, take_zero, doneAt_nil, pieces_of_short h0 hle]
  simp

theorem top_ok (hr : Retains look) (h0 : 0 < g.length) (h64 : g.length < 2 ^ 64)
    (hn : divCeil g.length (cap k) ≤ fanout ^ n) (hmin : ∀ j, j < k → cap j < g.length)
    (hl : look s = enter l ws) (hws : ∀ b, b ∈ ws ↔ b ∈ doneAt k (n + 1) g) :
    ∃ t ws', (Builder.top (n + 1) (levelsOf k (n + 1) g)).run s =
        .ok (entryAt (height g.length) g) t ∧
      look t = enter l ws' ∧ ∀ b, b ∈ ws' ↔ b ∈ blocksOf g := by
  induction n generalizing k s ws with
  | zero =>
    have hle : g.length ≤ cap k := by
      have := (divCeil_le_iff (cap_pos k)).mp hn
      rwa [Nat.pow_zero, Nat.one_mul] at this
    refine ⟨s, ws, ?_, hl, ?_⟩
    · rw [height_eq h64 hle hmin]
      exact top_root h0 hle
    · intro b
      rw [hws b, blocksOf, height_eq h64 hle hmin]
      exact mem_doneAt_root h0 hle
  | succ n ih =>
    by_cases hle : g.length ≤ cap k
    · refine ⟨s, ws, ?_, hl, ?_⟩
      · rw [height_eq h64 hle hmin]
        exact top_root h0 hle
      · intro b
        rw [hws b, blocksOf, height_eq h64 hle hmin]
        exact mem_doneAt_root h0 hle
    have hmin' : ∀ j, j < k + 1 → cap j < g.length := by
      intro j hj
      by_cases hjk : j = k
      · rw [hjk]
        omega
      · exact hmin j (by omega)
    have hup : divCeil g.length (cap (k + 1)) ≤ fanout ^ n := by
      rw [divCeil_cap_succ, divCeil_le_iff (by decide), ← Nat.pow_succ]
      exact hn
    have hup' : fanout ^ n < fanout ^ (n + 1) := Nat.pow_lt_pow_right (by decide) (Nat.lt_succ_self n)
    have hcount : 1 < divCeil g.length (cap k) := (lt_divCeil_iff (cap_pos k)).mpr (by omega)
    have hlen : ((pieces (cap k) (g.drop (whole k g))).map (entryAt k)).length =
        divCeil g.length (cap k) % fanout := by
      rw [length_map, length_pieces, divCeil_drop_whole]
    rw [levelsOf, Builder.top]
    by_cases hrest : divCeil g.length (cap k) % fanout = 0
    · -- Nothing is left at this level, and everything is above it.
      have hall := length_le_whole hrest
      have hnil : (pieces (cap k) (g.drop (whole k g))).map (entryAt k) = [] :=
        eq_nil_of_length_eq_zero (hlen.trans hrest)
      rw [if_pos hnil, take_of_length_le hall]
      apply ih hup hmin' hl
      intro b
      rw [hws b, mem_doneAt_succ, drop_of_length_le hall, take_of_length_le hall, pieces_nil]
      simp
    · have hlt := whole_lt_length hrest
      have hhi : (g.take (whole k g)).length = whole k g := by
        rw [length_take, Nat.min_eq_left (Nat.le_of_lt hlt)]
      have hlo : (g.drop (whole k g)).length ≤ cap (k + 1) := by
        rw [cap_succ, ← divCeil_le_iff (cap_pos k), divCeil_drop_whole]
        exact Nat.le_of_lt (Nat.mod_lt _ (by decide))
      have hne : (pieces (cap k) (g.drop (whole k g))).map (entryAt k) ≠ [] := by
        intro he
        rw [he, length_nil] at hlen
        omega
      have hnot : ¬(((pieces (cap k) (g.drop (whole k g))).map (entryAt k)).length = 1 ∧
          ∀ lv ∈ levelsOf (k + 1) (n + 1) (g.take (whole k g)), lv = []) := by
        rintro ⟨h1, h2⟩
        have hbound : divCeil (g.take (whole k g)).length (cap (k + 1)) < fanout ^ (n + 1) := by
          have := (divCeil_le_iff (a := (g.take (whole k g)).length) (cap_pos (k + 1))).mpr
            (Nat.le_trans (length_take_le' _ _) ((divCeil_le_iff (cap_pos (k + 1))).mp hup))
          omega
        have hzero := congrArg List.length (levelsOf_eq_nil hbound h2)
        rw [hhi, length_nil, whole, Nat.mul_eq_zero, Nat.div_eq_zero_iff] at hzero
        have := cap_pos (k + 1)
        unfold fanout at *
        omega
      obtain ⟨t, hwrap, ht⟩ := wrap_ok hr hl hlo
      obtain ⟨t', ws', hpush, ht', hws'⟩ := push_ok hr (X := fun _ => False) (n := n + 1)
        (by rw [hhi]; exact Nat.dvd_mul_left _ _)
        (by rw [length_drop]; omega) hlo
        (by rw [take_append_drop]; omega) ht (by
          intro b
          rw [mem_append, hws, mem_doneAt_succ, mem_blocksAt_succ]
          simp only [mem_singleton, false_or, or_comm, or_left_comm])
      rw [take_append_drop] at hpush hws'
      rw [if_neg hne, dif_neg hnot, bind_ok hwrap, bind_ok hpush]
      exact ih hup hmin' ht' fun b => by rw [hws' b, false_or]

omit [Blocks B] in
theorem built_new (look : B → Cid → Option Bytes) (s : B) : Built look (look s) Builder.new [] s :=
  ⟨[], [], rfl, Nat.dvd_zero _, Nat.zero_le _, (levelsOf_nil 0 levels).symm, rfl, fun x => by rw [doneAt_nil]⟩

theorem finish_ok (hr : Retains look)
    (hb : Built look l b d s) (h0 : b.chunk = [] → d = []) (ht : b.total = d.length)
    (h64 : d.length < 2 ^ 64) :
    ∃ t ws, (Builder.finish b).run s = .ok (rootOf d, d.length) t ∧ look t = enter l ws ∧
      ∀ x, x ∈ ws ↔ x ∈ blocksOf d := by
  unfold Builder.finish
  by_cases hd : d = []
  · -- The one block of an empty object is an empty chunk.
    subst hd
    obtain ⟨g, ws, hgd, -, -, hlv, hl, hws⟩ := hb
    obtain ⟨rfl, hchunk⟩ := append_eq_nil_iff.mp hgd
    rw [doneAt_nil] at hws
    obtain ⟨t, hput, ht'⟩ := put_ok hr hl .raw (b := []) (Nat.zero_le _)
    have hheight : height ([] : Bytes).length = 0 := by decide
    have hroot : rootOf [] = Cid.of .raw [] := by rw [rootOf, hheight, cidAt, codecAt, blockAt]
    have hblocks : blocksOf [] = [(.raw, [])] := by rw [blocksOf, hheight, blocksAt]
    have hflush : (Builder.flushChunk b).run s =
        .ok { b with chunk := [], levels := [⟨Cid.of .raw [], 0⟩] :: List.replicate 7 [] } t := by
      unfold Builder.flushChunk
      rw [hchunk, hlv, levelsOf_nil, bind_ok hput]
      exact bind_ok (push_single _ 7 t)
    refine ⟨t, ws ++ [(.raw, [])], ?_, ht', ?_⟩
    · rw [if_pos (.inr ht), bind_ok hflush, show levels = 7 + 1 from rfl]
      rw [bind_ok (top_single _ 7 t), run_pure, ht, hroot]
    · intro x
      rw [mem_append, hws x, hblocks]
      simp
  · have hchunk : b.chunk ≠ [] := fun he => hd (h0 he)
    obtain ⟨t, c, ws, hflush, -, htotal, hlv, hl, hws⟩ := flushChunk_ok hr hb hchunk h64
    rw [show levels = 7 + 1 from rfl] at hlv hws ⊢
    obtain ⟨t', ws', htop, hl', hws'⟩ := top_ok hr (n := 7) (length_pos_iff.mpr hd) h64
      (divCeil_le_of_u64 h64) (fun j hj => absurd hj (Nat.not_lt_zero j)) hl hws
    refine ⟨t', ws', ?_, hl', hws'⟩
    rw [if_pos (.inl hchunk), bind_ok hflush, hlv, bind_ok htop, run_pure, htotal, ht,
      entryAt, rootOf]

omit [Sha256] [Blocks B] in
theorem flatten_chunksOf (d : Bytes) : ((chunksOf d).map Prod.snd).flatten = d := by
  by_cases hd : d = []
  · subst hd
    decide
  · have h1 : 0 < divCeil d.length chunk :=
      (lt_divCeil_iff (by decide)).mpr (by rw [Nat.zero_mul]; exact length_pos_iff.mpr hd)
    rw [chunksOf, Nat.max_eq_right h1, map_map]
    exact flatten_pieces (by decide) d

/-- An object is its bytes. Whatever way they come in, and over any store that keeps what it is
given, the builder returns the root and the size that the bytes alone decide, having put exactly
the blocks of the tree over them; and from that root the readers give these bytes back. Only
more bytes than a `u64` counts are refused. -/
theorem object_is_its_bytes (hr : Retains look) (parts : List Bytes) (s : B)
    (hd : Distinct (blocksOf parts.flatten)) :
    (2 ^ 64 ≤ parts.flatten.length → ∃ t, (do
      let b ← Builder.writeAll Builder.new parts
      Builder.finish b).run s = .error .tooLarge t) ∧
    (parts.flatten.length < 2 ^ 64 → ∃ t ws, (do
        let b ← Builder.writeAll Builder.new parts
        Builder.finish b).run s = .ok (rootOf parts.flatten, parts.flatten.length) t ∧
      look t = enter (look s) ws ∧ (∀ b, b ∈ ws ↔ b ∈ blocksOf parts.flatten) ∧
      (size (rootOf parts.flatten)).run t = .ok parts.flatten.length t ∧
      (∀ offset len, (readAt (rootOf parts.flatten) offset len).run t =
        if offset ≤ parts.flatten.length then .ok ((parts.flatten.drop offset).take len) t
        else .error .tooLarge t) ∧
      (∀ each : Nat → Bytes → Proc Error B PUnit,
        (∀ o b, Proc.Keeps (fun u => look u = look t) (each o b)) →
          (eachChunk (rootOf parts.flatten) each).run t = (do
            Proc.each (fun p : Nat × Bytes => each p.1 p.2) (chunksOf parts.flatten)
            pure parts.flatten.length).run t) ∧
      ((chunksOf parts.flatten).map Prod.snd).flatten = parts.flatten ∧
      (∀ visit : Cid → Proc Error B PUnit, (∀ c, Proc.Keeps (fun u => look u = look t) (visit c)) →
        (walk (rootOf parts.flatten) visit).run t = (do
          Proc.each visit (walkOrder parts.flatten)
          pure parts.flatten.length).run t) ∧
      (∀ c, c ∈ walkOrder parts.flatten ↔ c ∈ cidsOf ws) ∧
      (complete (rootOf parts.flatten)).run t = .ok parts.flatten.length t ∧
      ∀ u, Agrees (look u) ws → (complete (rootOf parts.flatten)).run u =
        if (cidsOf ws).all fun c => (look u c).isSome then .ok parts.flatten.length u
        else .error .notFound u) := by
  have hnew := built_new look s
  refine ⟨fun hbig => ?_, fun h64 => ?_⟩
  · obtain ⟨t, ht⟩ := writeAll_tooLarge hr hnew (fun _ => rfl) rfl (by decide) hbig
    exact ⟨t, bind_error ht⟩
  · obtain ⟨t₁, b, hwrite, hb, hb0, hbt⟩ := writeAll_ok hr hnew (fun _ => rfl) rfl h64
    rw [nil_append] at hb hb0 hbt
    obtain ⟨t, ws, hfinish, hl, hws⟩ := finish_ok hr hb hb0 hbt h64
    generalize parts.flatten = d at *
    have hcids : ∀ c, c ∈ cidsOf ws ↔ c ∈ cidsOf (blocksOf d) := by
      intro c
      simp only [cidsOf, mem_map, hws]
    have hall : ∀ f : Cid → Bool, (cidsOf ws).all f = (cidsOf (blocksOf d)).all f := by
      intro f
      rw [Bool.eq_iff_iff, all_eq_true, all_eq_true]
      exact forall_congr' fun c => by rw [hcids]
    have hdis : Distinct ws := fun x hx y hy => hd x ((hws x).mp hx) y ((hws y).mp hy)
    have hh : Holds (look t) (blocksOf d) := by
      intro x hx
      rw [hl]
      exact holds_enter hdis x ((hws x).mpr hx)
    have hs := hr.serves (look t)
    have hcomplete : ∀ u, Agrees (look u) ws → (complete (rootOf d)).run u =
        if (cidsOf ws).all fun c => (look u c).isSome then .ok d.length u
        else .error .notFound u := by
      intro u hu
      rw [complete_run (hr.serves (look u)) rfl (fun x hx => hu x ((hws x).mpr hx)) h64, hall]
    refine ⟨t, ws, ?_, hl, hws, size_ok hs rfl h64 hh.block, readAt_ok hs rfl h64 hh,
      fun each he => eachChunk_run hs he rfl hh h64, flatten_chunksOf d,
      fun visit hv => walk_run hs rfl (hh.guards hv) h64,
      fun c => (mem_walkOrder h64).trans (hcids c).symm, ?_, hcomplete⟩
    · rw [bind_ok hwrite, hfinish]
    · have hheld : (cidsOf ws).all (fun c => (look t c).isSome) = true := by
        rw [hall, all_eq_true]
        intro c hc
        obtain ⟨x, hx, rfl⟩ := mem_map.mp hc
        rw [hh x hx]
        rfl
      rw [hcomplete t, if_pos hheld]
      intro x hx y hy
      rw [hh x ((hws x).mp hx), Option.some.injEq] at hy
      exact hy.symm

end Build

section Memory
variable [Sha256]

structure Memory where
  held : Cid → Option Bytes

def Memory.get (cid : Cid) (n : Nat) : Proc Error Memory Bytes := do
  let m ← MonadState.get
  let b ← orError (m.held cid) .notFound
  ensure (b.length ≤ n) .tooLarge
  return b

instance : Blocks Memory where
  put c b := do
    modify fun m => ⟨enter m.held [(c, b)]⟩
    return Cid.of c b
  get := Memory.get
  has cid := do
    let m ← MonadState.get
    return (m.held cid).isSome

theorem memory_retains : Retains Memory.held where
  put s c b _ := ⟨⟨enter s.held [(c, b)]⟩, rfl, rfl⟩
  serves l :=
    { get_some := by
        rintro s cid b rfl hb hlen
        change (Memory.get cid chunk).run s = _
        rw [Memory.get, Proc.bind_ok (Proc.run_get s), hb, Proc.orError_some, pure_bind, Proc.ensure_pos hlen]
        rfl
      get_none := by
        rintro s cid rfl hb
        refine ⟨s, ?_⟩
        change (Memory.get cid chunk).run s = _
        rw [Memory.get, Proc.bind_ok (Proc.run_get s), hb, Proc.orError_none]
        rfl
      has := by
        rintro s cid rfl
        rfl }

end Memory

@[reducible] def lengthDigest : Sha256 := ⟨fun b => ⟨Bytes.le 32 b.length, Bytes.length_le _ _⟩⟩

def wholeChunk : Bytes := replicate chunk 1

/-- A chunk and two bytes more. -/
def longer : Bytes := [wholeChunk, [2, 3]].flatten

theorem wholeChunk_length : wholeChunk.length = chunk := length_replicate ..

theorem longer_length : longer.length = chunk + 2 := by
  rw [longer, flatten_cons, length_append, wholeChunk_length]
  rfl

theorem longer_pieces : pieces (cap 0) longer = [wholeChunk, [2, 3]] := by
  have hcount : divCeil longer.length (cap 0) = 2 := by
    rw [longer_length]
    rfl
  have hcap : cap 0 = wholeChunk.length := wholeChunk_length.symm
  have hrest : ([[2, 3]] : List Bytes).flatten.length ≤ wholeChunk.length := by
    rw [← hcap]
    decide
  rw [pieces, hcount]
  change [piece (cap 0) 0 longer, piece (cap 0) 1 longer] = _
  rw [piece, piece, Nat.zero_mul, Nat.one_mul, drop_zero, longer, flatten_cons, hcap, take_left, drop_left,
    take_of_length_le hrest]
  rfl

theorem longer_blocks [Sha256] :
    blocksOf longer = [(.dagCbor, blockAt 1 longer), (.raw, wholeChunk), (.raw, [2, 3])] := by
  have hheight : height longer.length = 1 := by
    rw [longer_length]
    rfl
  rw [blocksOf, hheight, blocksAt, longer_pieces]
  rfl

attribute [local instance] lengthDigest

/-- A chunk and two bytes are two blocks under a node; a read goes over from one into the other. -/
theorem object_is_its_bytes_in_memory : ∃ t ws, (do
        let b ← Builder.writeAll Builder.new [wholeChunk, [2, 3]]
        Builder.finish b).run (⟨fun _ => none⟩ : Memory) = .ok (rootOf longer, longer.length) t ∧
      t.held = enter (fun _ => none) ws ∧
      (∀ b, b ∈ ws ↔ b ∈ [(.dagCbor, blockAt 1 longer), (.raw, wholeChunk), (.raw, [2, 3])]) ∧
      (readAt (rootOf longer) (chunk - 1) 8).run t = .ok [1, 2, 3] t := by
  have hapart : Sha256.digest wholeChunk ≠ Sha256.digest [2, 3] := by
    intro h
    have hle : Bytes.le 32 wholeChunk.length = Bytes.le 32 2 := congrArg Subtype.val h
    have hlen := congrArg Bytes.ofLe hle
    rw [wholeChunk_length, Bytes.ofLe_le _ _ (by decide), Bytes.ofLe_le _ _ (by decide)] at hlen
    exact absurd hlen (by decide)
  have hd : Distinct (blocksOf longer) := by
    rw [longer_blocks]
    intro b hb c hc he
    obtain ⟨hcodec, -, hdigest⟩ := Cid.mk.inj he
    simp only [mem_cons, not_mem_nil, or_false] at hb hc
    rcases hb with rfl | rfl | rfl <;> rcases hc with rfl | rfl | rfl
    · rfl
    · cases hcodec
    · cases hcodec
    · cases hcodec
    · rfl
    · exact absurd hdigest hapart
    · cases hcodec
    · exact absurd hdigest.symm hapart
    · rfl
  have hlt : longer.length < 2 ^ 64 := by
    rw [longer_length]
    decide
  obtain ⟨t, ws, hrun, hl, hws, -, hread, -⟩ :=
    (object_is_its_bytes memory_retains [wholeChunk, [2, 3]] ⟨fun _ => none⟩ hd).2 hlt
  have hr := hread (chunk - 1) 8
  rw [← longer] at hrun hws hr
  rw [if_pos (by rw [longer_length]; decide)] at hr
  have hbytes : (longer.drop (chunk - 1)).take 8 = [1, 2, 3] := by
    rw [longer, flatten_cons, drop_append_of_le_length (by rw [wholeChunk_length]; exact Nat.sub_le _ _),
      wholeChunk, drop_replicate, show chunk - (chunk - 1) = 1 from rfl]
    rfl
  rw [hbytes] at hr
  rw [longer_blocks] at hws
  exact ⟨t, ws, hrun, hl, hws, hr⟩

end MindCore.Dag
