import MindCore.Libmind.Dag

/-!
# The tree over a byte string

The blocks of an object as a function of its bytes: `blockAt k d` is the block of height `k`
over `d`, `blocksAt k d` it and every block under it. A store that holds these blocks reads
back as `d`.
-/

namespace MindCore.Dag

open List

theorem readLinks_links (links : List Cid) (rest : Bytes) :
    readLinks links.length (links.flatMap Sink.link ++ rest) = .ok (links, rest) := by
  induction links with
  | nil => rfl
  | cons cid links ih =>
    simp only [length_cons, readLinks, flatMap_cons, append_assoc, In.link_link,
      except_ok_bind, ih]

theorem length_link (cid : Cid) : (Sink.link cid).length = linkBytes := by
  simp [Sink.link, Sink.head, linkBytes, Cid.bytes]

theorem length_links (links : List Cid) : (links.flatMap Sink.link).length = links.length * linkBytes := by
  induction links with
  | nil => simp
  | cons cid links ih =>
    rw [flatMap_cons, length_append, length_link, ih, length_cons, Nat.add_mul]
    omega

theorem length_head_le (m : UInt8) (v : Nat) : (Sink.head m v).length ≤ 9 := by
  unfold Sink.head
  split
  · simp
  · split
    · simp
    · split
      · simp
      · split <;> simp

variable {size j i : Nat}

theorem decode_encode {links : List Cid} (hs : size < 2 ^ 64)
    (h0 : 0 < links.length) (hn : links.length ≤ fanout) :
    decode (encode size links) = .ok ⟨size, links⟩ := by
  have h64 : links.length < 2 ^ 64 := by
    unfold fanout at hn
    omega
  have hlinks : readLinks links.length (links.flatMap Sink.link) = .ok (links, []) := by
    have h := readLinks_links links []
    rwa [append_nil] at h
  have henc : encode size links = Sink.head 5 3 ++ (Sink.text keyV ++ (Sink.head 0 version ++
      (Sink.text keySize ++ (Sink.head 0 size ++ (Sink.text keyLinks ++
        (Sink.head 4 links.length ++ links.flatMap Sink.link)))))) := by
    simp only [encode, append_assoc]
  have h5 := In.expect_head (m := 5) (by decide) (v := 3) (by decide)
  have hv := In.expect_head (m := 0) (by decide) (v := version) (by decide)
  have hz := In.expect_head (m := 0) (by decide) hs
  have h4 := In.expect_head (m := 4) (by decide) h64
  have kv := In.key_text (t := keyV) (by decide)
  have ks := In.key_text (t := keySize) (by decide)
  have kl := In.key_text (t := keyLinks) (by decide)
  have hcount : links.length ≠ 0 ∧ links.length ≤ fanout := ⟨by omega, hn⟩
  have hall : True ∧ (links.flatMap Sink.link).length - ([] : Bytes).length =
      links.length * linkBytes := ⟨trivial, by rw [length_links]; rfl⟩
  rw [decode, henc]
  simp only [h5, kv, hv, ks, hz, kl, h4, hlinks, except_ok_bind, ensure_ok]
  rw [ensure_ok hcount, except_ok_bind, ensure_ok hall, except_ok_bind, ensure_ok henc]
  rfl

def cap (k : Nat) : Nat := chunk * fanout ^ k

theorem cap_pos (k : Nat) : 0 < cap k := Nat.mul_pos (by decide) (Nat.pow_pos (by decide))

theorem cap_succ (k : Nat) : cap (k + 1) = fanout * cap k := by
  unfold cap
  rw [Nat.pow_succ, Nat.mul_comm (fanout ^ k), Nat.mul_left_comm]

@[simp] theorem capacity_succ (k : Nat) : capacity (k + 1) = cap k := rfl

theorem cap_dvd {k : Nat} (h : j ≤ k) : cap j ∣ cap k := Nat.mul_dvd_mul_left _ (Nat.pow_dvd_pow _ h)

theorem span_eq : span = cap 1 := rfl

@[simp] theorem cap_zero : cap 0 = chunk := Nat.mul_one _

theorem piece_cap {k : Nat} (h : j ≤ k) (d : Bytes) (w : Nat) :
    piece (cap j) (w % cap k / cap j) (piece (cap k) (w / cap k) d) = piece (cap j) (w / cap j) d := by
  obtain ⟨n, hn⟩ := cap_dvd h
  exact piece_mod (hn.trans (Nat.mul_comm _ _)) (cap_pos j) (cap_pos k) d w

theorem div_lt_divCeil {k w n : Nat} (hw : w < n) : w / cap k < divCeil n (cap k) := by
  rw [lt_divCeil_iff (cap_pos k)]
  exact Nat.lt_of_le_of_lt (Nat.div_mul_le_self w _) hw

/-- The loop of `height` stops at the least height from `h` on, given rounds enough. -/
theorem heightFrom_spec {rounds h : Nat} (hr : size ≤ cap (h + rounds)) :
    size ≤ cap (heightFrom size rounds h (cap h)) ∧
      h ≤ heightFrom size rounds h (cap h) ∧
      heightFrom size rounds h (cap h) ≤ h + rounds ∧
      ∀ j, h ≤ j → j < heightFrom size rounds h (cap h) → cap j < size := by
  induction rounds generalizing h with
  | zero => exact ⟨hr, Nat.le_refl _, Nat.le_refl _, fun j hj hlt => by
      simp only [heightFrom] at hlt
      omega⟩
  | succ rounds ih =>
    simp only [heightFrom]
    split
    · rename_i hgt
      have hnext : cap h * fanout = cap (h + 1) := by rw [cap_succ, Nat.mul_comm]
      rw [hnext]
      obtain ⟨h1, h2, h3, h4⟩ := ih (h := h + 1) (by rwa [Nat.add_right_comm, Nat.add_assoc])
      refine ⟨h1, by omega, by omega, ?_⟩
      intro j hj hlt
      by_cases hjh : j = h
      · rw [hjh]
        exact hgt
      · exact h4 j (by omega) hlt
    · exact ⟨by omega, Nat.le_refl _, by omega, fun j hj hlt => by omega⟩

theorem u64_le_cap (h : size < 2 ^ 64) : size ≤ cap (0 + levels) := by
  have : cap (0 + levels) = 2 ^ 78 := by decide
  omega

theorem le_cap_height (h : size < 2 ^ 64) : size ≤ cap (height size) :=
  (heightFrom_spec (h := 0) (u64_le_cap h)).1

theorem cap_lt_of_lt_height (h : size < 2 ^ 64) (hj : j < height size) : cap j < size :=
  (heightFrom_spec (h := 0) (u64_le_cap h)).2.2.2 j (Nat.zero_le _) hj

theorem height_eq {k : Nat} (h : size < 2 ^ 64) (hle : size ≤ cap k)
    (hlt : ∀ j, j < k → cap j < size) : height size = k := by
  rcases Nat.lt_trichotomy (height size) k with hk | hk | hk
  · have h1 := hlt _ hk
    have h2 := le_cap_height h
    omega
  · exact hk
  · have h1 := cap_lt_of_lt_height h hk
    omega

def codecAt : Nat → Codec
  | 0 => .raw
  | _ + 1 => .dagCbor

section Blocks
variable [Sha256]

def blockAt : Nat → Bytes → Bytes
  | 0, d => d
  | k + 1, d => encode d.length ((pieces (cap k) d).map fun p => Cid.of (codecAt k) (blockAt k p))

def cidAt (k : Nat) (d : Bytes) : Cid := Cid.of (codecAt k) (blockAt k d)

def linksAt (k : Nat) (d : Bytes) : List Cid := (pieces (cap k) d).map (cidAt k)

theorem blockAt_succ (k : Nat) (d : Bytes) : blockAt (k + 1) d = encode d.length (linksAt k d) := rfl

def blocksAt : Nat → Bytes → List (Codec × Bytes)
  | 0, d => [(.raw, d)]
  | k + 1, d => (.dagCbor, blockAt (k + 1) d) :: (pieces (cap k) d).flatMap (blocksAt k)

def rootOf (d : Bytes) : Cid := cidAt (height d.length) d

def blocksOf (d : Bytes) : List (Codec × Bytes) := blocksAt (height d.length) d

def cidsOf (bs : List (Codec × Bytes)) : List Cid := bs.map fun b => Cid.of b.1 b.2

theorem codec_cidAt (k : Nat) (d : Bytes) : (cidAt k d).codec = codecAt k := rfl

theorem mem_blocksAt (k : Nat) (d : Bytes) : (codecAt k, blockAt k d) ∈ blocksAt k d := by
  cases k with
  | zero => exact mem_singleton.mpr rfl
  | succ k => exact mem_cons_self

variable {d : Bytes} {k : Nat}

theorem mem_blocksAt_piece (hi : i < divCeil d.length (cap k))
    {b : Codec × Bytes} (hb : b ∈ blocksAt k (piece (cap k) i d)) : b ∈ blocksAt (k + 1) d :=
  mem_cons_of_mem _ (mem_flatMap.mpr ⟨_, mem_pieces.mpr ⟨i, hi, rfl⟩, hb⟩)

@[simp] theorem length_linksAt (k : Nat) (d : Bytes) : (linksAt k d).length = divCeil d.length (cap k) := by
  simp [linksAt]

theorem decode_blockAt (h64 : d.length < 2 ^ 64) (h0 : 0 < d.length) (hk : d.length ≤ cap (k + 1)) :
    decode (blockAt (k + 1) d) = .ok ⟨d.length, linksAt k d⟩ := by
  rw [cap_succ] at hk
  rw [blockAt_succ]
  apply decode_encode h64
  · rw [length_linksAt, lt_divCeil_iff (cap_pos k)]
    omega
  · rw [length_linksAt, divCeil_le_iff (cap_pos k)]
    exact hk

theorem check_linksAt (k : Nat) (d : Bytes) :
    Node.check ⟨d.length, linksAt k d⟩ (k + 1) d.length = .ok ⟨⟩ := by
  refine ensure_ok ⟨rfl, length_linksAt k d, ?_⟩
  intro cid hcid
  obtain ⟨p, _, rfl⟩ := mem_map.mp hcid
  cases k with
  | zero => rfl
  | succ k => simp [cidAt, codecAt, Cid.of_codec]

theorem link_linksAt (hi : i < divCeil d.length (cap k)) :
    Node.link ⟨d.length, linksAt k d⟩ i = cidAt k (piece (cap k) i d) :=
  pieces_getD _ _ hi

theorem length_blockAt (hk : d.length ≤ cap k) : (blockAt k d).length ≤ chunk := by
  cases k with
  | zero => simpa [cap, blockAt] using hk
  | succ k =>
    have hlinks : (linksAt k d).length ≤ fanout := by
      rw [length_linksAt, divCeil_le_iff (cap_pos k), ← cap_succ]
      exact hk
    have hl := length_links (linksAt k d)
    have h5 := length_head_le 5 3
    have hv := length_head_le 0 version
    have hz := length_head_le 0 d.length
    have h4 := length_head_le 4 (linksAt k d).length
    have t1 := length_head_le 3 keyV.length
    have t2 := length_head_le 3 keySize.length
    have t3 := length_head_le 3 keyLinks.length
    have hk1 : keyV.length = 1 := rfl
    have hk2 : keySize.length = 4 := rfl
    have hk3 : keyLinks.length = 5 := rfl
    have hb : linkBytes = 41 := rfl
    rw [blockAt_succ]
    simp only [encode, Sink.text, length_append, hl, hb, fanout, chunk] at *
    omega

end Blocks

section Reading
variable [Sha256] {B : Type} [BlockSource B]

/-- In every state of `P` the store answers as the map `look`, and reading changes nothing. -/
structure Serves (P : B → Prop) (look : Cid → Option Bytes) : Prop where
  get_some : ∀ {s cid b}, P s → look cid = some b → b.length ≤ chunk →
    (BlockSource.get cid chunk).run s = .ok b s
  get_none : ∀ {s cid}, P s → look cid = none → ∃ t, (BlockSource.get cid chunk).run s = .error .notFound t
  has : ∀ {s cid}, P s → (BlockSource.has cid).run s = .ok (look cid).isSome s

def Holds (look : Cid → Option Bytes) (bs : List (Codec × Bytes)) : Prop :=
  ∀ b ∈ bs, look (Cid.of b.1 b.2) = some b.2

variable {P : B → Prop} {look : Cid → Option Bytes} {d : Bytes} {k : Nat} {s : B}

theorem Holds.block (h : Holds look (blocksAt k d)) : look (cidAt k d) = some (blockAt k d) :=
  h _ (mem_blocksAt k d)

theorem Holds.piece (h : Holds look (blocksAt (k + 1) d))
    (hi : i < divCeil d.length (cap k)) : Holds look (blocksAt k (piece (cap k) i d)) :=
  fun b hb => h b (mem_blocksAt_piece hi hb)

theorem fetch_ok (hs : Serves P look) (hp : P s) {c : Codec} {b : Bytes}
    (hb : look (Cid.of c b) = some b) (hl : b.length ≤ chunk) :
    (fetch (Cid.of c b)).run s = .ok b s := by
  unfold fetch
  rw [Proc.bind_ok (hs.get_some hp hb hl), Proc.ensure_pos (Cid.of_matches c b)]
  rfl

theorem node_ok (hs : Serves P look) (hp : P s)
    (hb : look (cidAt (k + 1) d) = some (blockAt (k + 1) d)) (h64 : d.length < 2 ^ 64) (h0 : 0 < d.length)
    (hk : d.length ≤ cap (k + 1)) :
    (node (cidAt (k + 1) d)).run s = .ok ⟨d.length, linksAt k d⟩ s := by
  unfold node
  have hf : (fetch (cidAt (k + 1) d)).run s = .ok (blockAt (k + 1) d) s :=
    fetch_ok hs hp hb (length_blockAt hk)
  rw [Proc.ensure_pos (by rfl), pure_bind, Proc.bind_ok hf, decode_blockAt h64 h0 hk]
  rfl

/-- The chunk over byte `w` of a tree: where the descent ends, and held. -/
theorem leaf_ok (hs : Serves P look) (hp : P s) {w : Nat}
    (hh : Holds look (blocksAt k d)) (h64 : d.length < 2 ^ 64) (hk : d.length ≤ cap k)
    (hw : w < d.length) :
    (leaf k (cidAt k d) d.length w).run s =
        .ok (cidAt 0 (piece chunk (w / chunk) d), (piece chunk (w / chunk) d).length, w % chunk) s ∧
      look (cidAt 0 (piece chunk (w / chunk) d)) = some (piece chunk (w / chunk) d) := by
  induction k generalizing d w with
  | zero =>
    have hc : d.length ≤ chunk := by simpa [cap] using hk
    have hdiv : w / chunk = 0 := Nat.div_eq_of_lt (by omega)
    have hpiece : piece chunk 0 d = d := by simp [piece, take_of_length_le hc]
    rw [hdiv, hpiece, Nat.mod_eq_of_lt (by omega)]
    exact ⟨rfl, hh.block⟩
  | succ k ih =>
    have hi : w / cap k < divCeil d.length (cap k) := div_lt_divCeil hw
    have hlen : min (cap k) (d.length - w / cap k * cap k) =
        (piece (cap k) (w / cap k) d).length := (length_piece _ _ _).symm
    have hmod : w % cap k % chunk = w % chunk := Nat.mod_mod_of_dvd w ⟨fanout ^ k, rfl⟩
    obtain ⟨ihrun, ihlook⟩ := ih (hh.piece hi)
      (Nat.lt_of_le_of_lt (length_piece_le _ _ _) h64) (length_piece_le_left _ _ _)
      (mod_lt_length_piece (cap_pos k) hw)
    rw [← cap_zero, piece_cap (Nat.zero_le k), cap_zero] at ihrun ihlook
    refine ⟨?_, ihlook⟩
    unfold leaf
    rw [Proc.bind_ok (node_ok hs hp hh.block h64 (by omega) hk), check_linksAt]
    rw [Proc.ofExcept_ok, pure_bind]
    simp only [capacity_succ]
    rw [link_linksAt hi, hlen, sub_div_mul, ihrun, hmod]

end Reading

end MindCore.Dag
