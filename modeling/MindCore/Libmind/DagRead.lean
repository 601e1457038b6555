import Mathlib.Tactic.Ring
import MindCore.Libmind.DagShape

/-!
# Reading an object back

Over a store that holds the blocks of `d`, every reader of `Dag` gives what `d` says. The
walk needs less: that a block its visit lets pass is held.
-/

namespace MindCore.Dag

open List Proc

section
variable [Sha256] {B : Type} [BlockSource B] {P : B → Prop} {look : Cid → Option Bytes}

variable {d : Bytes} {s : B} {visit : Cid → Proc Error B PUnit} {k w under : Nat} {c : Cid}

section
variable (hs : Serves P look) (hp : P s) (h64 : d.length < 2 ^ 64)
include hs hp h64

theorem size_ok
    (hb : look (rootOf d) = some (blockAt (height d.length) d)) :
    (size (rootOf d)).run s = .ok d.length s := by
  unfold rootOf at *
  have hle := le_cap_height h64
  cases hk : height d.length with
  | zero =>
    rw [hk] at hb hle
    have hf : (fetch (cidAt 0 d)).run s = .ok d s := fetch_ok hs hp hb (length_blockAt hle)
    change (fetch (cidAt 0 d) >>= fun data => pure data.length).run s = _
    rw [bind_ok hf]
    rfl
  | succ k =>
    have hgt := cap_lt_of_lt_height h64 (show k < height d.length by omega)
    rw [hk] at hb hle
    have hn := node_ok hs hp hb h64 (by omega) hle
    change (node (cidAt (k + 1) d) >>= fun n => do
      ensure (height n.size ≠ 0) Error.shape
      Proc.ofExcept (n.check (height n.size) n.size)
      pure n.size).run s = _
    rw [bind_ok hn]
    simp only [hk]
    rw [ensure_pos (by omega), pure_bind, check_linksAt]
    rfl

theorem readFrom_ok
    (hh : Holds look (blocksOf d)) {offset len rounds : Nat} {out : Bytes}
    (hout : out = (d.drop offset).take out.length) (hl : out.length ≤ len)
    (hr : len ≤ out.length + rounds) :
    (readFrom (rootOf d) d.length offset len rounds out).run s =
      .ok ((d.drop offset).take len) s := by
  induction rounds generalizing out with
  | zero =>
    have he : len = out.length := by omega
    rw [he, ← hout]
    rfl
  | succ rounds ih =>
    unfold readFrom
    split
    · rename_i hc
      obtain ⟨hc1, hc2⟩ := hc
      obtain ⟨hleaf, hlook⟩ := leaf_ok hs hp hh h64 (le_cap_height h64) hc2
      generalize hw : offset + out.length = w at hleaf hlook hc2 ⊢
      have hdrop := drop_eq_piece_drop (c := chunk) (by decide) d w
      have hwp := mod_lt_length_piece (c := chunk) (by decide) hc2
      have hpc := length_piece_le_left chunk (w / chunk) d
      generalize piece chunk (w / chunk) d = p at hleaf hlook hdrop hwp hpc
      have hf : (fetch (cidAt 0 p)).run s = .ok p s := fetch_ok hs hp hlook hpc
      rw [rootOf, bind_ok hleaf]
      rw [bind_ok hf, ensure_pos ⟨rfl, rfl⟩, pure_bind]
      -- What is taken of the chunk is what comes next in the object.
      have htake : out ++ (p.drop (w % chunk)).take (min (p.length - w % chunk) (len - out.length)) =
          (d.drop offset).take (out.length + min (p.length - w % chunk) (len - out.length)) := by
        rw [take_add, ← hout, drop_drop, hw, hdrop, take_append_of_le_length]
        rw [length_drop]
        omega
      have hlen : (out ++ (p.drop (w % chunk)).take
          (min (p.length - w % chunk) (len - out.length))).length =
            out.length + min (p.length - w % chunk) (len - out.length) := by
        rw [length_append, length_take, length_drop]
        omega
      exact ih (by rw [hlen]; exact htake) (by omega) (by omega)
    · have hall : out = (d.drop offset).take len := by
        by_cases hlt : out.length < len
        · have : (d.drop offset).length ≤ out.length := by
            rw [length_drop]
            omega
          rw [take_of_length_le (by omega)]
          rwa [take_of_length_le this] at hout
        · have he : len = out.length := by omega
          rw [he]
          exact hout
      rw [← hall]
      rfl

theorem readAt_ok
    (hh : Holds look (blocksOf d)) (offset len : Nat) :
    (readAt (rootOf d) offset len).run s =
      if offset ≤ d.length then .ok ((d.drop offset).take len) s else .error .tooLarge s := by
  unfold readAt
  rw [bind_ok (size_ok hs hp h64 hh.block)]
  split
  · rename_i hle
    rw [ensure_pos hle, pure_bind]
    exact readFrom_ok hs hp h64 hh rfl (Nat.zero_le _) (by simp)
  · rename_i hgt
    rw [ensure_neg hgt]
    rfl

end

/-- The nodes below the first on the way from a node of height `k + 1` over `d` down to byte `w`. -/
def pathAt : Nat → Bytes → Nat → List Cid
  | 0, _, _ => []
  | k + 1, d, w =>
    let p := piece (cap (k + 1)) (w / cap (k + 1)) d
    cidAt (k + 1) p :: pathAt k p (w % cap (k + 1))

/-- A visit that keeps `P` and lets no block of `bs` pass that is not held. -/
structure Guards (P : B → Prop) (look : Cid → Option Bytes) (visit : Cid → Proc Error B PUnit)
    (bs : List (Codec × Bytes)) : Prop where
  keeps : ∀ cid, Proc.Keeps P (visit cid)
  held : ∀ b ∈ bs, ∀ s u t, P s → (visit (Cid.of b.1 b.2)).run s = .ok u t → look (Cid.of b.1 b.2) = some b.2

omit [BlockSource B] in
theorem Holds.guards {bs : List (Codec × Bytes)}
    (h : Holds look bs) (hv : ∀ cid, Proc.Keeps P (visit cid)) : Guards P look visit bs :=
  ⟨hv, fun b hb _ _ _ _ _ => h b hb⟩

omit [BlockSource B] in
theorem Guards.piece {i : Nat}
    (h : Guards P look visit (blocksAt (k + 1) d)) (hi : i < divCeil d.length (cap k)) :
    Guards P look visit (blocksAt k (piece (cap k) i d)) :=
  ⟨h.keeps, fun b hb => h.held b (mem_blocksAt_piece hi hb)⟩

def lowestOf (p : Bytes) : Node × Nat := (⟨p.length, linksAt 0 p⟩, p.length)

theorem lowest_run (hs : Serves P look) (visit : Cid → Proc Error B PUnit) (hp : P s)
    (hg : Guards P look visit (blocksAt (k + 1) d))
    (hb : look (cidAt (k + 1) d) = some (blockAt (k + 1) d)) (h64 : d.length < 2 ^ 64)
    (hk : d.length ≤ cap (k + 1)) (hw : w < d.length) :
    (lowest visit k (cidAt (k + 1) d) d.length w).run s =
      (do
        Proc.each visit (pathAt k d w)
        pure (lowestOf (piece (cap 1) (w / cap 1) d))).run s := by
  induction k generalizing d w s with
  | zero =>
    have hdiv : w / cap 1 = 0 := Nat.div_eq_of_lt (Nat.lt_of_lt_of_le hw hk)
    have hpiece : piece (cap 1) 0 d = d := by simp [piece, take_of_length_le hk]
    unfold lowest
    rw [bind_ok (node_ok hs hp hb h64 (Nat.zero_lt_of_lt hw) hk), check_linksAt,
      ofExcept_ok, pure_bind, hdiv, hpiece]
    rfl
  | succ k ih =>
    have hi : w / cap (k + 1) < divCeil d.length (cap (k + 1)) := div_lt_divCeil hw
    have hlen : min (cap (k + 1)) (d.length - w / cap (k + 1) * cap (k + 1)) =
        (piece (cap (k + 1)) (w / cap (k + 1)) d).length := (length_piece _ _ _).symm
    have hsame := piece_cap (j := 1) (k := k + 1) (by omega) d w
    unfold lowest pathAt
    rw [bind_ok (node_ok hs hp hb h64 (Nat.zero_lt_of_lt hw) hk), check_linksAt,
      ofExcept_ok, pure_bind]
    simp only [capacity_succ]
    rw [link_linksAt hi, hlen, sub_div_mul, each_cons, bind_assoc, run_bind, run_bind]
    cases hv : (visit (cidAt (k + 1) (piece (cap (k + 1)) (w / cap (k + 1)) d))).run s with
    | error e t => rfl
    | ok u t =>
      -- The visit let the child pass, so it is held and the descent goes on below it.
      have hg' := hg.piece hi
      have hheld := hg'.held _ (mem_blocksAt (k + 1) _) s u t hp hv
      have h := ih (hg.keeps _ hp hv) hg' hheld (Nat.lt_of_le_of_lt (length_piece_le _ _ _) h64)
        (length_piece_le_left _ _ _) (mod_lt_length_piece (cap_pos _) hw)
      rw [hsame] at h
      exact h

/-- The blocks below the root of a tree of height `k + 1`, as the walk visits them: a node is
visited again for each node of height 1 below it. -/
def ordered (k : Nat) (d : Bytes) : List Cid :=
  (List.range (divCeil d.length (cap 1))).flatMap fun under =>
    pathAt k d (under * cap 1) ++ linksAt 0 (piece (cap 1) under d)

def below (d : Bytes) : List Cid :=
  match height d.length with
  | 0 => []
  | k + 1 => ordered k d

theorem below_zero (h : height d.length = 0) : below d = [] := by
  rw [below, h]

theorem below_succ (h : height d.length = k + 1) : below d = ordered k d := by
  rw [below, h]

def walkOrder (d : Bytes) : List Cid := rootOf d :: below d

omit [Sha256] in
theorem mem_range_divCeil {n : Nat} (h : under ∈ List.range (divCeil n (cap k))) : under * cap k < n :=
  (lt_divCeil_iff (cap_pos k)).mp (mem_range.mp h)

theorem walkUnder_run (hs : Serves P look) (hp : P s) (hg : Guards P look visit (blocksAt (k + 1) d))
    (hb : look (cidAt (k + 1) d) = some (blockAt (k + 1) d)) (h64 : d.length < 2 ^ 64)
    (hh : height d.length = k + 1) (hw : under * cap 1 < d.length) :
    (walkUnder visit (cidAt (k + 1) d) d.length under).run s =
      (Proc.each visit (pathAt k d (under * cap 1) ++ linksAt 0 (piece (cap 1) under d))).run s := by
  have hle := le_cap_height h64
  rw [hh] at hle
  have hlow := lowest_run hs visit hp hg hb h64 hle hw
  rw [Nat.mul_div_cancel _ (cap_pos 1)] at hlow
  rw [walkUnder, hh, span_eq, Nat.add_sub_cancel, bind_run_congr hlow, bind_pure_bind,
    each_append, lowestOf]

theorem walk_run (hs : Serves P look) (hp : P s)
    (hg : Guards P look visit (blocksOf d)) (h64 : d.length < 2 ^ 64) :
    (walk (rootOf d) visit).run s =
      (do
        Proc.each visit (walkOrder d)
        pure d.length).run s := by
  unfold walk walkOrder
  rw [each_cons, bind_assoc, run_bind, run_bind]
  cases hv : (visit (rootOf d)).run s with
  | error e t => rfl
  | ok u t =>
    have ht := hg.keeps _ hp hv
    have hb : look (rootOf d) = some (blockAt (height d.length) d) := hg.held _ (mem_blocksAt _ _) s u t hp hv
    simp only
    rw [bind_ok (size_ok hs ht h64 hb), span_eq]
    cases hk : height d.length with
    | zero =>
      have hroot : (rootOf d).codec = .raw := by rw [rootOf, hk, codec_cidAt, codecAt]
      rw [if_pos hroot, below_zero hk]
      rfl
    | succ k =>
      have hroot : rootOf d = cidAt (k + 1) d := by rw [rootOf, hk]
      have hblocks : blocksOf d = blocksAt (k + 1) d := by rw [blocksOf, hk]
      rw [hroot, hk] at hb
      rw [hblocks] at hg
      have hrun : (Proc.each (walkUnder visit (cidAt (k + 1) d) d.length)
          (List.range (divCeil d.length (cap 1)))).run t = (Proc.each visit (ordered k d)).run t :=
        each_eq_flatMap hg.keeps (fun under hunder s' hs' =>
          walkUnder_run hs hs' hg hb h64 hk (mem_range_divCeil hunder)) ht
      rw [hroot, if_neg (by rw [codec_cidAt]; simp [codecAt]), below_succ hk, bind_run_congr hrun]

/-- The chunks of an object with their offsets; an empty object has one, empty. -/
def chunksOf (d : Bytes) : List (Nat × Bytes) :=
  (List.range (max 1 (divCeil d.length chunk))).map fun i => (i * chunk, piece chunk i d)

variable {each : Nat → Bytes → Proc Error B PUnit}

theorem chunksUnder_run (hs : Serves P look) (he : ∀ o b, Proc.Keeps P (each o b)) (hp : P s)
    (hh : Holds look (blocksAt (k + 1) d)) (h64 : d.length < 2 ^ 64)
    (hk : height d.length = k + 1) (hw : under * cap 1 < d.length) :
    (chunksUnder each (cidAt (k + 1) d) d.length under).run s =
      (Proc.each (fun p : Nat × Bytes => each p.1 p.2)
        ((List.range (min fanout (divCeil d.length chunk - under * fanout))).map fun i =>
          ((under * fanout + i) * chunk, piece chunk (under * fanout + i) d))).run s := by
  have hle := le_cap_height h64
  rw [hk] at hle
  have hc1 : cap 1 = fanout * chunk := by rw [cap_succ, cap_zero]
  have hlow := lowest_run hs (fun _ => pure ⟨⟩) hp (hh.guards fun _ s a t hs h => by cases h; exact hs)
    hh.block h64 hle hw
  rw [Nat.mul_div_cancel _ (cap_pos 1), each_pure, pure_bind] at hlow
  rw [chunksUnder, hk, span_eq, Nat.add_sub_cancel, bind_ok hlow, lowestOf, linksAt, pieces,
    cap_zero, divCeil_length_piece hc1 (by decide), map_map, zipIdx_map_range, each_map,
    each_map]
  refine each_congr (fun i => he _ _) (fun i hi s' hs' => ?_) hp
  have hi' := mem_range.mp hi
  have hpiece : piece chunk i (piece (cap 1) under d) = piece chunk (under * fanout + i) d :=
    piece_piece d hc1 (by omega)
  have hoff : under * cap 1 + i * chunk = (under * fanout + i) * chunk := by
    rw [hc1, Nat.add_mul, Nat.mul_assoc]
  have hin : (under * fanout + i) * chunk < d.length := (lt_divCeil_iff (by decide)).mp (by omega)
  have hlook := (leaf_ok hs hs' hh h64 hle hin).2
  rw [Nat.mul_div_cancel _ (by decide)] at hlook
  have hf : (fetch (cidAt 0 (piece chunk (under * fanout + i) d))).run s' =
      .ok (piece chunk (under * fanout + i) d) s' :=
    fetch_ok hs hs' hlook (length_piece_le_left _ _ _)
  have hlen : (piece chunk (under * fanout + i) d).length =
      min chunk ((piece (cap 1) under d).length - i * chunk) := by
    rw [← hpiece, length_piece]
  rw [chunkOf, Function.comp, hpiece, bind_ok hf, ensure_pos ⟨rfl, hlen⟩, pure_bind, hoff]

theorem eachChunk_run (hs : Serves P look) (he : ∀ o b, Proc.Keeps P (each o b)) (hp : P s)
    (hh : Holds look (blocksOf d)) (h64 : d.length < 2 ^ 64) :
    (eachChunk (rootOf d) each).run s =
      (do
        Proc.each (fun p : Nat × Bytes => each p.1 p.2) (chunksOf d)
        pure d.length).run s := by
  have hle := le_cap_height h64
  rw [eachChunk, bind_ok (size_ok hs hp h64 hh.block), span_eq]
  cases hk : height d.length with
  | zero =>
    rw [hk, cap_zero] at hle
    have hroot : rootOf d = cidAt 0 d := by rw [rootOf, hk]
    have hblocks : blocksOf d = blocksAt 0 d := by rw [blocksOf, hk]
    rw [hblocks] at hh
    have hone : max 1 (divCeil d.length chunk) = 1 := by
      have := (divCeil_le_iff (a := d.length) (n := 1) (show 0 < chunk by decide)).mpr (by omega)
      omega
    have hpiece : piece chunk 0 d = d := by simp [piece, take_of_length_le hle]
    have hf : (fetch (cidAt 0 d)).run s = .ok d s := fetch_ok hs hp hh.block hle
    rw [hroot, if_pos (by rw [codec_cidAt, codecAt]), bind_ok hf, chunksOf, hone]
    simp [hpiece]
  | succ k =>
    have hroot : rootOf d = cidAt (k + 1) d := by rw [rootOf, hk]
    have hblocks : blocksOf d = blocksAt (k + 1) d := by rw [blocksOf, hk]
    have hgt := cap_lt_of_lt_height h64 (show 0 < height d.length by omega)
    rw [hblocks] at hh
    have hmax : max 1 (divCeil d.length chunk) = divCeil d.length chunk := by
      have := (lt_divCeil_iff (a := d.length) (n := 0) (show 0 < chunk by decide)).mpr (by omega)
      omega
    have hspan : divCeil d.length (cap 1) = divCeil (divCeil d.length chunk) fanout := by
      rw [divCeil_divCeil (by decide) (by decide), cap_succ, cap_zero]
    have hchunks : chunksOf d = (List.range (divCeil d.length (cap 1))).flatMap fun under =>
        (List.range (min fanout (divCeil d.length chunk - under * fanout))).map fun i =>
          ((under * fanout + i) * chunk, piece chunk (under * fanout + i) d) := by
      rw [chunksOf, hmax, hspan, range_eq_flatMap (show 0 < fanout by decide), map_flatMap]
      simp only [map_map, Function.comp_def]
    have hrun : (Proc.each (chunksUnder each (cidAt (k + 1) d) d.length)
        (List.range (divCeil d.length (cap 1)))).run s =
          (Proc.each (fun p : Nat × Bytes => each p.1 p.2) (chunksOf d)).run s := by
      rw [hchunks]
      exact each_eq_flatMap (fun p : Nat × Bytes => he p.1 p.2) (fun under hunder s' hs' =>
        chunksUnder_run hs he hs' hh h64 hk (mem_range_divCeil hunder)) hp
    rw [hroot, if_neg (by rw [codec_cidAt]; simp [codecAt]), bind_run_congr hrun]

omit [BlockSource B] in
theorem mem_cidsOf_succ : c ∈ cidsOf (blocksAt (k + 1) d) ↔ c = cidAt (k + 1) d ∨
      ∃ i, i < divCeil d.length (cap k) ∧ c ∈ cidsOf (blocksAt k (piece (cap k) i d)) := by
  simp only [cidsOf, blocksAt, map_cons, map_flatMap, mem_cons, mem_flatMap, mem_pieces]
  constructor
  · rintro (h | ⟨p, ⟨i, hi, rfl⟩, hc⟩)
    · exact .inl h
    · exact .inr ⟨i, hi, hc⟩
  · rintro (h | ⟨i, hi, hc⟩)
    · exact .inl h
    · exact .inr ⟨_, ⟨i, hi, rfl⟩, hc⟩

theorem cidAt_mem (k : Nat) (d : Bytes) : cidAt k d ∈ cidsOf (blocksAt k d) :=
  mem_map.mpr ⟨_, mem_blocksAt k d, rfl⟩

theorem chunk_mem (hw : w < d.length) (hk : d.length ≤ cap k) :
    cidAt 0 (piece chunk (w / chunk) d) ∈ cidsOf (blocksAt k d) := by
  induction k generalizing d w with
  | zero =>
    rw [cap_zero] at hk
    have hpiece : piece chunk 0 d = d := by simp [piece, take_of_length_le hk]
    rw [Nat.div_eq_of_lt (by omega), hpiece]
    exact cidAt_mem 0 d
  | succ k ih =>
    have h := ih (mod_lt_length_piece (cap_pos k) hw) (length_piece_le_left _ _ _)
    rw [← cap_zero, piece_cap (Nat.zero_le k)] at h
    exact mem_cidsOf_succ.mpr (.inr ⟨_, div_lt_divCeil hw, h⟩)

theorem pathAt_mem (hw : w < d.length) (hc : c ∈ pathAt k d w) : c ∈ cidsOf (blocksAt (k + 1) d) := by
  induction k generalizing d w with
  | zero => cases hc
  | succ k ih =>
    refine mem_cidsOf_succ.mpr (.inr ⟨w / cap (k + 1), div_lt_divCeil hw, ?_⟩)
    rcases mem_cons.mp hc with rfl | h
    · exact cidAt_mem _ _
    · exact ih (mod_lt_length_piece (cap_pos _) hw) h

theorem mem_ordered : c ∈ ordered k d ↔ ∃ under, under * cap 1 < d.length ∧
      (c ∈ pathAt k d (under * cap 1) ∨ c ∈ linksAt 0 (piece (cap 1) under d)) := by
  simp only [ordered, mem_flatMap, mem_range, lt_divCeil_iff (cap_pos 1), mem_append]

theorem mem_ordered_of_mem (hk : d.length ≤ cap (k + 1))
    (hc : c ∈ cidsOf (blocksAt (k + 1) d)) : c = cidAt (k + 1) d ∨ c ∈ ordered k d := by
  induction k generalizing d with
  | zero =>
    rcases mem_cidsOf_succ.mp hc with h | ⟨i, hi, h⟩
    · exact .inl h
    · refine .inr (mem_ordered.mpr ⟨0, ?_, .inr ?_⟩)
      · have := (lt_divCeil_iff (cap_pos 0)).mp hi
        omega
      · have hpiece : piece (cap 1) 0 d = d := by simp [piece, take_of_length_le hk]
        rw [hpiece]
        refine mem_map.mpr ⟨_, mem_pieces.mpr ⟨i, hi, rfl⟩, ?_⟩
        exact (mem_singleton.mp h).symm
  | succ k ih =>
    rcases mem_cidsOf_succ.mp hc with h | ⟨i, hi, h⟩
    · exact .inl h
    · right
      have hcap := cap_pos (k + 1)
      have hi' := (lt_divCeil_iff hcap).mp hi
      have hcap1 : cap (k + 1) = fanout ^ k * cap 1 := by
        rw [cap, cap, Nat.pow_succ, Nat.pow_one]
        ring
      rcases ih (length_piece_le_left _ _ _) h with h | h
      · refine mem_ordered.mpr ⟨i * fanout ^ k, ?_, .inl ?_⟩
        · rwa [Nat.mul_assoc, ← hcap1]
        · rw [Nat.mul_assoc, ← hcap1, pathAt, Nat.mul_div_cancel _ hcap, h]
          exact mem_cons_self
      · obtain ⟨v, hv, h⟩ := mem_ordered.mp h
        have hvcap : v * cap 1 < cap (k + 1) := Nat.lt_of_lt_of_le hv (length_piece_le_left _ _ _)
        have hw : (i * fanout ^ k + v) * cap 1 = v * cap 1 + i * cap (k + 1) := by
          rw [hcap1]
          ring
        have hdiv : (i * fanout ^ k + v) * cap 1 / cap (k + 1) = i := by
          rw [hw, Nat.add_mul_div_right _ _ hcap, Nat.div_eq_of_lt hvcap, Nat.zero_add]
        have hmod : (i * fanout ^ k + v) * cap 1 % cap (k + 1) = v * cap 1 := by
          rw [hw, Nat.add_mul_mod_self_right, Nat.mod_eq_of_lt hvcap]
        refine mem_ordered.mpr ⟨i * fanout ^ k + v, ?_, ?_⟩
        · rw [length_piece] at hv
          omega
        · rcases h with h | h
          · left
            rw [pathAt, hdiv, hmod]
            exact mem_cons_of_mem _ h
          · right
            have hsame := piece_cap (j := 1) (k := k + 1) (by omega) d ((i * fanout ^ k + v) * cap 1)
            rw [hdiv, hmod, Nat.mul_div_cancel _ (cap_pos 1), Nat.mul_div_cancel _ (cap_pos 1)] at hsame
            rwa [← hsame]

theorem mem_walkOrder (h64 : d.length < 2 ^ 64) : c ∈ walkOrder d ↔ c ∈ cidsOf (blocksOf d) := by
  have hle := le_cap_height h64
  unfold walkOrder rootOf blocksOf
  rw [mem_cons]
  cases hk : height d.length with
  | zero =>
    rw [below_zero hk]
    simp [cidsOf, blocksAt, cidAt, codecAt, blockAt]
  | succ k =>
    rw [hk] at hle
    rw [below_succ hk]
    refine ⟨?_, mem_ordered_of_mem hle⟩
    rintro (rfl | h)
    · exact cidAt_mem _ _
    · obtain ⟨u, hu, h | h⟩ := mem_ordered.mp h
      · exact pathAt_mem hu h
      · obtain ⟨p, hp, rfl⟩ := mem_map.mp h
        obtain ⟨i, hi, rfl⟩ := mem_pieces.mp hp
        have hc1 : cap 1 = fanout * cap 0 := cap_succ 0
        rw [divCeil_length_piece hc1 (cap_pos 0)] at hi
        rw [piece_piece d hc1 (by omega)]
        have hin : (u * fanout + i) * cap 0 < d.length := (lt_divCeil_iff (cap_pos 0)).mp (by omega)
        have hm := chunk_mem hin hle
        rwa [← cap_zero, Nat.mul_div_cancel _ (cap_pos 0)] at hm

def Agrees (look : Cid → Option Bytes) (bs : List (Codec × Bytes)) : Prop :=
  ∀ b ∈ bs, ∀ x, look (Cid.of b.1 b.2) = some x → x = b.2

theorem complete_run (hs : Serves P look) (hp : P s)
    (ha : Agrees look (blocksOf d)) (h64 : d.length < 2 ^ 64) :
    (complete (rootOf d)).run s =
      if (cidsOf (blocksOf d)).all fun c => (look c).isSome then .ok d.length s
      else .error .notFound s := by
  have hcheck : ∀ {t : B} (c : Cid), P t → ((do
      let held ← BlockSource.has c
      ensure (held = true) Error.notFound : Proc Error B PUnit).run t) =
        if (look c).isSome then .ok ⟨⟩ t else .error .notFound t := by
    intro t c ht
    rw [bind_ok (hs.has ht)]
    cases (look c).isSome <;> rfl
  have hg : Guards P look (fun c => do
      let held ← BlockSource.has c
      ensure (held = true) Error.notFound) (blocksOf d) := by
    constructor
    · intro c t u t' ht hrun
      rw [hcheck c ht] at hrun
      split at hrun <;> cases hrun
      exact ht
    · intro b hb t u t' ht hrun
      rw [hcheck _ ht] at hrun
      split at hrun
      · rename_i hsome
        obtain ⟨x, hx⟩ := Option.isSome_iff_exists.mp hsome
        rw [hx, ha b hb x hx]
      · cases hrun
  have hall : (walkOrder d).all (fun c => (look c).isSome) =
      (cidsOf (blocksOf d)).all fun c => (look c).isSome := by
    rw [Bool.eq_iff_iff, all_eq_true, all_eq_true]
    exact forall_congr' fun c => by rw [mem_walkOrder h64]
  rw [complete, walk_run hs hp hg h64, run_bind, each_check (fun c => hcheck c hp), hall]
  cases (cidsOf (blocksOf d)).all fun c => (look c).isSome <;> rfl

end

end MindCore.Dag
