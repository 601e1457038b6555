import MindCore.Libmind.Canonical
import MindCore.Libmind.Watched

/-!
# Readers within their bounds

The readers again, with every slice, index, subtraction and round of a loop checked as the source
has them. Whatever a store answers, no check fails but the one on the length of an answer, which
is sliced out of a buffer of a block; and the requests made are bounded by what was asked for.
-/

namespace MindCore

open List Proc
open Dag (BlockSource)

namespace Dag

section Facts

variable {h held within : Nat} {n : Node} {cid : Cid}

theorem check_ok {size : Nat} {u : PUnit} (hc : n.check h size = .ok u) :
    n.links.length = divCeil size (capacity h) :=
  (ensure_eq_ok.mp hc).2.1

theorem capacity_pos (h : Nat) : 0 < capacity h := cap_pos (h - 1)

/-- The child over byte `within` of a node that holds `held` bytes. -/
theorem child_lt {u : PUnit} (hc : n.check h held = .ok u)
    (hw : within < held) : within / capacity h < n.links.length := by
  rw [check_ok hc, lt_divCeil_iff (capacity_pos h)]
  exact Nat.lt_of_le_of_lt (Nat.div_mul_le_self _ _) hw

theorem within_lt {c : Nat} (hc : 0 < c) (hw : within < held) :
    within - within / c * c < min c (held - within / c * c) := by
  have hle := Nat.div_mul_le_self within c
  rw [lt_min_iff]
  refine ⟨?_, by omega⟩
  rw [sub_div_mul]
  exact Nat.mod_lt _ hc

theorem heightFrom_le (size rounds h capacity : Nat) : heightFrom size rounds h capacity ≤ h + rounds := by
  induction rounds generalizing h capacity with
  | zero => exact Nat.le_refl _
  | succ rounds ih =>
    unfold heightFrom
    split
    · have := ih (h + 1) (capacity * fanout)
      omega
    · omega

theorem height_le (size : Nat) : height size ≤ levels := by
  have := heightFrom_le size levels 0 chunk
  unfold height
  omega

variable [Sha256]

theorem node_links {B : Type} [BlockSource B] {s t : B}
    (h : (node cid).run s = .ok n t) : 1 ≤ n.links.length := by
  obtain ⟨_, s₁, _, h₁⟩ := bind_eq_ok.mp h
  obtain ⟨data, s₂, _, h₂⟩ := bind_eq_ok.mp h₁
  exact (decode_sound (ofExcept_run_ok h₂).1).1.2.1

/-- The chunk `leaf` comes to has the byte it was to find. -/
theorem leaf_within {B : Type} [BlockSource B] {cid' : Cid}
    {held' within' : Nat} {s t : B} (hw : within < held)
    (hr : (leaf h cid held within).run s = .ok (cid', held', within') t) : within' < held' := by
  induction h generalizing cid held within s with
  | zero =>
    cases hr
    exact hw
  | succ h ih =>
    obtain ⟨n, s₁, _, h₁⟩ := bind_eq_ok.mp hr
    obtain ⟨_, s₂, _, h₂⟩ := bind_eq_ok.mp h₁
    exact ih (within_lt (capacity_pos _) hw) h₂

theorem lowest_links {B : Type} [BlockSource B] {visit : Cid → Proc Error B PUnit} {k : Nat}
    {low : Node × Nat} {s t : B}
    (hr : (lowest visit k cid held within).run s = .ok low t) :
    1 ≤ low.1.links.length ∧ low.1.links.length = divCeil low.2 chunk := by
  induction k generalizing cid held within s with
  | zero =>
    obtain ⟨n, s₁, hn, h₁⟩ := bind_eq_ok.mp hr
    obtain ⟨_, s₂, hc, h₂⟩ := bind_eq_ok.mp h₁
    cases h₂
    refine ⟨node_links hn, ?_⟩
    rw [check_ok (ofExcept_run_ok hc).1]
    rfl
  | succ k ih =>
    obtain ⟨n, s₁, _, h₁⟩ := bind_eq_ok.mp hr
    obtain ⟨_, s₂, _, h₂⟩ := bind_eq_ok.mp h₁
    obtain ⟨_, s₃, _, h₃⟩ := bind_eq_ok.mp h₂
    exact ih h₃

end Facts

namespace Bounded

section Readers
variable [Sha256] {B : Type} [BlockSource B]

def fetch (cid : Cid) : Proc (Stop Error) B Bytes := do
  let data ← mapError .fail (BlockSource.get cid chunk)
  ensure (data.length ≤ chunk) .answer
  ensure (cid.Matches data) (.fail .corrupt)
  return data

def node (cid : Cid) : Proc (Stop Error) B Node := do
  ensure (cid.codec = .dagCbor) (.fail .shape)
  let data ← fetch cid
  mapError .fail (Proc.ofExcept (decode data))

def size (root : Cid) : Proc (Stop Error) B Nat :=
  match root.codec with
  | .raw => do
    let data ← fetch root
    return data.length
  | .dagCbor => do
    let n ← node root
    ensure (height n.size ≠ 0) (.fail .shape)
    mapError .fail (Proc.ofExcept (n.check (height n.size) n.size))
    return n.size

def leaf : Nat → Cid → Nat → Nat → Proc (Stop Error) B (Cid × Nat × Nat)
  | 0, cid, held, within => pure (cid, held, within)
  | h + 1, cid, held, within => do
    let n ← node cid
    mapError .fail (Proc.ofExcept (n.check (h + 1) held))
    let c := capacity (h + 1)
    let child := within / c
    let link ← orError n.links[child]? .trap
    ensure (child * c ≤ held ∧ child * c ≤ within) .trap
    leaf h link (min c (held - child * c)) (within - child * c)

def readFrom (root : Cid) (total offset len : Nat) : Nat → Bytes → Proc (Stop Error) B Bytes
  | 0, out => do
    ensure (¬(out.length < len ∧ offset + out.length < total)) .trap
    return out
  | rounds + 1, out =>
    if out.length < len ∧ offset + out.length < total then do
      let (cid, held, within) ← leaf (height total) root total (offset + out.length)
      let data ← fetch cid
      ensure (cid.codec = .raw ∧ data.length = held) (.fail .shape)
      ensure (within ≤ data.length) .trap
      let taken := min (data.length - within) (len - out.length)
      ensure (out.length + taken ≤ len ∧ within + taken ≤ chunk) .trap
      readFrom root total offset len rounds (out ++ (data.drop within).take taken)
    else pure out

def readAt (root : Cid) (offset len : Nat) : Proc (Stop Error) B Bytes := do
  let total ← size root
  ensure (offset ≤ total) (.fail .tooLarge)
  readFrom root total offset len len []

def lowest (visit : Cid → Proc Error B PUnit) : Nat → Cid → Nat → Nat → Proc (Stop Error) B (Node × Nat)
  | 0, cid, held, _ => do
    let n ← node cid
    mapError .fail (Proc.ofExcept (n.check 1 held))
    return (n, held)
  | k + 1, cid, held, within => do
    let n ← node cid
    mapError .fail (Proc.ofExcept (n.check (k + 2) held))
    let c := capacity (k + 2)
    let child := within / c
    let link ← orError n.links[child]? .trap
    mapError .fail (visit link)
    ensure (child * c ≤ held ∧ child * c ≤ within) .trap
    lowest visit k link (min c (held - child * c)) (within - child * c)

def chunkOf (each : Nat → Bytes → Proc Error B PUnit) (offset held i : Nat) (link : Cid) :
    Proc (Stop Error) B PUnit := do
  ensure (i * chunk ≤ held) .trap
  let data ← fetch link
  ensure (link.codec = .raw ∧ data.length = min chunk (held - i * chunk)) (.fail .shape)
  mapError .fail (each (offset + i * chunk) data)

def chunksUnder (each : Nat → Bytes → Proc Error B PUnit) (root : Cid) (total under : Nat) :
    Proc (Stop Error) B PUnit := do
  let low ← lowest (fun _ => pure ⟨⟩) (height total - 1) root total (under * span)
  Proc.each (fun p => chunkOf each (under * span) low.2 p.2 p.1) low.1.links.zipIdx

def eachChunk (root : Cid) (each : Nat → Bytes → Proc Error B PUnit) : Proc (Stop Error) B Nat := do
  let total ← size root
  if root.codec = .raw then do
    let data ← fetch root
    mapError .fail (each 0 data)
    return total
  else do
    Proc.each (chunksUnder each root total) (List.range (divCeil total span))
    return total

def walkUnder (visit : Cid → Proc Error B PUnit) (root : Cid) (total under : Nat) :
    Proc (Stop Error) B PUnit := do
  let low ← lowest visit (height total - 1) root total (under * span)
  Proc.each (fun cid => mapError .fail (visit cid)) low.1.links

def walk (root : Cid) (visit : Cid → Proc Error B PUnit) : Proc (Stop Error) B Nat := do
  mapError .fail (visit root)
  let total ← size root
  if root.codec = .raw then return total
  else do
    Proc.each (walkUnder visit root total) (List.range (divCeil total span))
    return total

end Readers

section Checks

theorem link_bind {B α : Type} {s : B} {n : Node} {i : Nat} {x : Cid → Proc (Stop Error) B α}
    {y : Proc Error B α} (h : i < n.links.length) (hx : Checked s (x (n.link i)) y) :
    Checked s ((orError n.links[i]? .trap : Proc (Stop Error) B Cid) >>= x) y := by
  have hlink : n.link i = n.links[i] := by
    unfold Node.link
    rw [getD_eq_getElem?_getD, getElem?_eq_getElem h, Option.getD_some]
  rw [getElem?_eq_getElem h, Proc.orError_some, pure_bind, ← hlink]
  exact hx

theorem child_bound {c held within : Nat} (hw : within < held) :
    within / c * c ≤ held ∧ within / c * c ≤ within := by
  have := Nat.div_mul_le_self within c
  omega

theorem under_lt {total under : Nat} (h : under ∈ List.range (divCeil total span)) : under * span < total :=
  (lt_divCeil_iff (capacity_pos 2)).mp (mem_range.mp h)

variable [Sha256] {B : Type} [BlockSource B] {s : B}

theorem fetch_checked (cid : Cid) : Checked s (fetch cid) (Dag.fetch cid) :=
  .request fun _ _ _ => .bind (.ensure _ _) fun _ _ _ => .pure _

theorem fetch_length {cid : Cid} {t : B} {data : Bytes} (h : (fetch cid).run s = .ok data t) :
    data.length ≤ chunk := by
  obtain ⟨d, s₁, _, h₁⟩ := bind_eq_ok.mp h
  obtain ⟨_, s₂, hlen, h₂⟩ := bind_eq_ok.mp h₁
  obtain ⟨_, s₃, _, h₃⟩ := bind_eq_ok.mp h₂
  cases h₃
  exact (ensure_run_ok hlen).1

theorem node_checked (cid : Cid) : Checked s (node cid) (Dag.node cid) :=
  .bind (.ensure _ _) fun _ _ _ => .bind (fetch_checked cid) fun _ _ _ => .refl _

theorem size_checked (root : Cid) : Checked s (size root) (Dag.size root) := by
  unfold size Dag.size
  cases root.codec with
  | raw => exact .bind (fetch_checked root) fun _ _ _ => .pure _
  | dagCbor =>
    exact .bind (node_checked root) fun _ _ _ => .bind (.ensure _ _) fun _ _ _ =>
      .bind (.refl _) fun _ _ _ => .pure _

theorem leaf_checked (h : Nat) (cid : Cid) (held within : Nat) (hw : within < held) :
    Checked s (leaf h cid held within) (Dag.leaf h cid held within) := by
  induction h generalizing s cid held within with
  | zero => exact .pure _
  | succ h ih =>
    refine .bind (node_checked cid) fun n t hn => .bind (.refl _) fun _ t' hc => ?_
    refine link_bind (child_lt (ofExcept_run_ok hc).1 hw) (.bound (child_bound hw) ?_)
    exact ih _ _ _ (within_lt (capacity_pos _) hw)

theorem readFrom_checked (root : Cid) (total offset len rounds : Nat) (out : Bytes)
    (hlen : out.length ≤ len) (hr : len ≤ out.length + rounds) :
    Checked s (readFrom root total offset len rounds out)
      (Dag.readFrom root total offset len rounds out) := by
  induction rounds generalizing s out with
  | zero => exact .bound (by omega) (.pure _)
  | succ rounds ih =>
    unfold readFrom Dag.readFrom
    split
    · rename_i hgo
      refine .bind (leaf_checked _ _ _ _ hgo.2) fun c t hc => ?_
      have hw := leaf_within hgo.2 hc
      refine .bind_both (fetch_checked _) fun data t' _ hd => .bind (.ensure _ _) fun _ t'' he => ?_
      have hfits := fetch_length hd
      have heq := (ensure_run_ok he).1.2
      refine .bound (by omega) (.bound (by omega) (ih _ ?_ ?_))
      · simp only [length_append, length_take, length_drop]
        omega
      · simp only [length_append, length_take, length_drop]
        omega
    · exact .pure _

theorem readAt_checked (root : Cid) (offset len : Nat) :
    Checked s (readAt root offset len) (Dag.readAt root offset len) :=
  .bind (size_checked root) fun _ _ _ => .bind (.ensure _ _) fun _ _ _ =>
    readFrom_checked _ _ _ _ _ _ (Nat.zero_le _) (by simp)

theorem lowest_checked (visit : Cid → Proc Error B PUnit) (k : Nat) (cid : Cid)
    (held within : Nat) (hw : within < held) :
    Checked s (lowest visit k cid held within) (Dag.lowest visit k cid held within) := by
  induction k generalizing s cid held within with
  | zero =>
    exact .bind (node_checked cid) fun _ _ _ => .bind (.refl _) fun _ _ _ => .pure _
  | succ k ih =>
    refine .bind (node_checked cid) fun n t hn => .bind (.refl _) fun _ t' hc => ?_
    refine link_bind (child_lt (ofExcept_run_ok hc).1 hw) (.bind (.refl _) fun _ _ _ => ?_)
    exact .bound (child_bound hw) (ih _ _ _ (within_lt (capacity_pos _) hw))

theorem eachChunk_checked (root : Cid) (each : Nat → Bytes → Proc Error B PUnit) :
    Checked s (eachChunk root each) (Dag.eachChunk root each) := by
  refine .bind (size_checked root) fun total _ _ => ?_
  split
  · exact .bind (fetch_checked root) fun _ _ _ => .bind (.refl _) fun _ _ _ => .pure _
  refine .bind (.each fun under hu t => ?_) fun _ _ _ => .pure _
  refine .bind (lowest_checked _ _ _ _ _ (under_lt hu)) fun low t' hlow => .each fun q hq t'' => ?_
  have hi : q.2 < divCeil low.2 chunk := by
    rw [← (lowest_links hlow).2]
    exact snd_lt_of_mem_zipIdx hq
  have hle : q.2 * chunk ≤ low.2 := ((lt_divCeil_iff (by decide)).mp hi).le
  refine .bound hle (.bind (fetch_checked _) fun _ _ _ => .bind (.ensure _ _) fun _ _ _ => .refl _)

theorem walk_checked (root : Cid) (visit : Cid → Proc Error B PUnit) :
    Checked s (walk root visit) (Dag.walk root visit) := by
  refine .bind (.refl _) fun _ _ _ => .bind (size_checked root) fun total _ _ => ?_
  split
  · exact .pure _
  refine .bind (.each fun under hu t => ?_) fun _ _ _ => .pure _
  exact .bind (lowest_checked _ _ _ _ _ (under_lt hu)) fun _ _ _ => .each fun _ _ _ => .refl _

end Checks

end Bounded

end Dag

namespace Tree

open Dag (Error)

namespace Bounded

section Tours
variable [Sha256] {B : Type} [BlockSource B]

def entries (cid : Cid) : Proc (Stop Error) B (Option Nat) :=
  if cid.codec = .dagCbor then do
    let data ← Dag.Bounded.fetch cid
    match decode data with
    | .ok dir => return some dir.length
    | .error _ => return none
  else pure none

def file (whole : Bool) (visit : Cid → Proc Error B PUnit) (cid : Cid) : Proc (Stop Error) B Nat :=
  if whole then Dag.Bounded.walk cid visit else Dag.Bounded.size cid

def fileAt (whole : Bool) (visit : Cid → Proc Error B PUnit) (cid : Cid) : Proc (Stop Error) B Nat := do
  let held ← attempt (file whole visit cid)
  match held with
  | .ok held => return held
  | .error (.fail .format) => do
    let dir ← attempt (entries cid)
    match dir with
    | .ok (some _) => throw (.fail .shape)
    | .error .answer => throw .answer
    | .error .trap => throw .trap
    | _ => throw (.fail .format)
  | .error e => throw e

def tourFrom (whole : Bool) (visit : Cid → Proc Error (Counted B) PUnit) :
    Nat → List (Cid × Nat × Nat) → Nat → Proc (Stop Error) (Counted B) Nat
  | 0, _, _ => throw .trap
  | _ + 1, [], total => pure total
  | rounds + 1, (cid, count, next) :: above, total => do
    ensure (above.length < depth) .trap
    let data ← Dag.Bounded.fetch cid
    let dir ← mapError .fail (Proc.ofExcept (directory data))
    ensure (dir.length = count) (.fail .shape)
    if next = dir.length then tourFrom whole visit rounds above total
    else do
      mapError .fail Counted.step
      let e ← orError dir[next]? .trap
      match e.kind with
      | .file => do
        let held ← fileAt whole visit e.cid
        ensure (held = e.size) (.fail .shape)
        ensure (total + e.size < 2 ^ 64) (.fail .tooLarge)
        tourFrom whole visit rounds ((cid, count, next + 1) :: above) (total + e.size)
      | .directory => do
        ensure (above.length + 1 ≠ depth) (.fail .shape)
        mapError .fail (visit e.cid)
        ensure (above.length + 1 < depth) .trap
        tourFrom whole visit rounds ((e.cid, e.size, 0) :: (cid, count, next + 1) :: above) total

def tour (whole : Bool) (root : Cid) (visit : Cid → Proc Error B PUnit) :
    Proc (Stop Error) (Counted B) Nat := do
  let count ← entries root
  match count with
  | none => file whole (stepped visit) root
  | some count => do
    mapError .fail (stepped visit root)
    let s ← get
    tourFrom whole (stepped visit) (2 * s.left + 3) [(root, count, 0)] 0

end Tours

section Checks
variable [Sha256] {B : Type} [BlockSource B] {s : B}

theorem entries_checked (cid : Cid) : Checked s (entries cid) (Tree.entries cid) := by
  unfold entries Tree.entries
  split
  · refine .bind (Dag.Bounded.fetch_checked cid) fun data _ _ => ?_
    cases decode data with
    | ok dir => exact .pure _
    | error e => exact .pure _
  · exact .pure _

theorem file_checked (whole : Bool) (visit : Cid → Proc Error B PUnit) (cid : Cid) :
    Checked s (file whole visit cid) (Tree.file whole visit cid) := by
  unfold file Tree.file
  split
  · exact Dag.Bounded.walk_checked cid visit
  · exact Dag.Bounded.size_checked cid

theorem fileAt_checked (whole : Bool) (visit : Cid → Proc Error B PUnit) (cid : Cid) :
    Checked s (fileAt whole visit cid) (Tree.fileAt whole visit cid) := by
  unfold Checked fileAt Tree.fileAt
  rcases file_checked whole visit cid with ⟨t, h⟩ | h
  · rw [bind_ok (attempt_error h)]
    exact .inl ⟨t, rfl⟩
  cases hf : (Tree.file whole visit cid).run s with
  | ok n t =>
    rw [run_mapError_ok hf] at h
    rw [bind_ok (attempt_ok h), run_mapError, bind_ok (attempt_ok hf)]
    exact .inr rfl
  | error e t =>
    rw [run_mapError_error hf] at h
    rw [bind_ok (attempt_error h), run_mapError, bind_ok (attempt_error hf)]
    by_cases he : e = .format
    · subst he
      rcases entries_checked (s := t) cid with ⟨t', h'⟩ | h'
      · exact .inl ⟨t', bind_ok (attempt_error h')⟩
      right
      cases hd : (Tree.entries cid).run t with
      | ok dir t' =>
        rw [run_mapError_ok hd] at h'
        simp only [if_true]
        rw [bind_ok (attempt_ok hd), bind_ok (attempt_ok h')]
        cases dir <;> rfl
      | error e t' =>
        rw [run_mapError_error hd] at h'
        simp only [if_true]
        rw [bind_ok (attempt_error hd), bind_ok (attempt_error h')]
        rfl
    · cases e with
      | format => exact absurd rfl he
      | _ => exact .inr rfl

end Checks

end Bounded

end Tree

end MindCore
