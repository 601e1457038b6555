import MindCore.Libmind.JournalLog

/-!
# A root and what is read under it

A store is another process: it may answer a request as it likes, and the same request otherwise
the next time. A watched store is any store with what it answered and what the reader did with it
written down. Two runs of a reader over two such stores that both end well read the same, as long
as no two blocks they met have one digest.
-/

namespace MindCore

open Dag (BlockSource)

/-- A store, the blocks it answered, the requests made of it, and what the reader was given. -/
structure Watched (ι B : Type) where
  blocks : B
  met : List Bytes
  calls : Nat
  seen : List ι

variable {data : Bytes} {cid : Cid}

namespace Watched

variable {ι B ε α : Type}

def new (b : B) : Watched ι B := ⟨b, [], 0, []⟩

def lift (x : Proc ε B α) : Proc ε (Watched ι B) α :=
  ⟨fun s => match x.run s.blocks with
    | .ok a b => .ok a { s with blocks := b }
    | .error e b => .error e { s with blocks := b }⟩

def called : Proc ε (Watched ι B) PUnit := modify fun s => { s with calls := s.calls + 1 }

def asked (x : Proc ε B Bytes) : Proc ε (Watched ι B) Bytes := do
  called
  let data ← lift x
  modify fun s => { s with met := data :: s.met }
  return data

instance [BlockSource B] : BlockSource (Watched ι B) where
  get cid len := asked (BlockSource.get cid len)
  has cid := do
    called
    lift (BlockSource.has cid)

instance [Journal.Store B] : Journal.Store (Watched ι B) where
  put data := lift (Journal.Store.put data)
  get cid len := asked (Journal.Store.get cid len)
  head name := lift (Journal.Store.head name)
  publish name expected root := lift (Journal.Store.publish name expected root)

def heard (i : ι) (x : Proc ε B PUnit) : Proc ε (Watched ι B) PUnit := do
  modify fun s => { s with seen := s.seen ++ [i] }
  lift x

def noted (each : ι → B → B) (i : ι) (s : Watched ι B) : Watched ι B :=
  { s with seen := s.seen ++ [i], blocks := each i s.blocks }

theorem run_lift (x : Proc ε B α) (s : Watched ι B) : (lift x).run s = match x.run s.blocks with
      | .ok a b => .ok a { s with blocks := b }
      | .error e b => .error e { s with blocks := b } := rfl

variable {s t : Watched ι B} {e : ε} {x : Proc ε B α} {i : ι}

theorem lift_ok {a : α} (h : (lift x).run s = .ok a t) :
    ∃ b, x.run s.blocks = .ok a b ∧ t = { s with blocks := b } := by
  rw [run_lift] at h
  cases hx : x.run s.blocks with
  | ok a' b =>
    rw [hx] at h
    cases h
    exact ⟨b, rfl, rfl⟩
  | error e b =>
    rw [hx] at h
    exact nomatch h

theorem lift_error (h : (lift x).run s = .error e t) : ∃ b, t = { s with blocks := b } := by
  rw [run_lift] at h
  cases hx : x.run s.blocks with
  | ok a b =>
    rw [hx] at h
    exact nomatch h
  | error e' b =>
    rw [hx] at h
    cases h
    exact ⟨b, rfl⟩

theorem asked_ok {x : Proc ε B Bytes} (h : (asked x).run s = .ok data t) :
    ∃ b, t = ⟨b, data :: s.met, s.calls + 1, s.seen⟩ := by
  obtain ⟨_, s₁, h₁, h⟩ := Proc.bind_eq_ok.mp h
  obtain ⟨d, s₂, h₂, h⟩ := Proc.bind_eq_ok.mp h
  obtain ⟨_, s₃, h₃, h⟩ := Proc.bind_eq_ok.mp h
  obtain ⟨b, _, rfl⟩ := lift_ok h₂
  cases h₁
  cases h₃
  cases h
  exact ⟨b, rfl⟩

theorem asked_error {x : Proc ε B Bytes} (h : (asked x).run s = .error e t) :
    ∃ b, t = { s with blocks := b, calls := s.calls + 1 } := by
  change (lift x >>= _).run _ = _ at h
  cases hx : (lift x).run { s with calls := s.calls + 1 } with
  | ok a m =>
    rw [Proc.bind_ok hx] at h
    exact nomatch h
  | error e' m =>
    rw [Proc.bind_error hx] at h
    cases h
    obtain ⟨b, rfl⟩ := lift_error hx
    exact ⟨b, rfl⟩

theorem heard_ok {x : Proc ε B PUnit} {u : PUnit}
    (h : (heard i x).run s = .ok u t) : ∃ b, t = { s with blocks := b, seen := s.seen ++ [i] } := by
  obtain ⟨_, s₁, h₁, h⟩ := Proc.bind_eq_ok.mp h
  cases h₁
  obtain ⟨b, _, rfl⟩ := lift_ok h
  exact ⟨b, rfl⟩

theorem heard_error {x : Proc ε B PUnit} (h : (heard i x).run s = .error e t) :
    ∃ b, t = { s with blocks := b, seen := s.seen ++ [i] } := by
  exact lift_error h

end Watched

section Pairs
variable [Sha256] {ι B₁ B₂ : Type}

/-- Two watched stores are alike when their readers were given the same. -/
def watched : Pairing (Watched ι B₁) (Watched ι B₂) where
  same s₁ s₂ := s₁.seen = s₂.seen
  met₁ := Watched.met
  met₂ := Watched.met
  key := Sha256.digest

def counted : Pairing (Counted (Watched ι B₁)) (Counted (Watched ι B₂)) where
  same s₁ s₂ := s₁.blocks.seen = s₂.blocks.seen ∧ s₁.left = s₂.left
  met₁ s := s.blocks.met
  met₂ s := s.blocks.met
  key := Sha256.digest

end Pairs

namespace Dag

open Proc

section Agreement
variable [Sha256] {σ₁ σ₂ : Type} [BlockSource σ₁] [BlockSource σ₂] {p : Pairing σ₁ σ₂}

section
variable (hf : ∀ cid, Agree p (fetch cid) (fetch cid))
include hf

theorem node_agree (cid : Cid) : Agree p (node cid) (node cid) :=
  .bind (.ensure _ _) fun _ => .bind (hf cid) fun _ => .ofExcept _

theorem size_agree (root : Cid) : Agree p (size root) (size root) := by
  unfold size
  cases root.codec with
  | raw => exact .bind (hf root) fun _ => .pure _
  | dagCbor =>
    exact .bind (node_agree hf root) fun _ => .bind (.ensure _ _) fun _ =>
      .bind (.ofExcept _) fun _ => .pure _

theorem leaf_agree (h : Nat) (cid : Cid)
    (held within : Nat) : Agree p (leaf h cid held within) (leaf h cid held within) := by
  induction h generalizing cid held within with
  | zero => exact .pure _
  | succ h ih =>
    exact .bind (node_agree hf cid) fun _ => .bind (.ofExcept _) fun _ => ih _ _ _

theorem readFrom_agree (root : Cid) (total offset len rounds : Nat) (out : Bytes) :
    Agree p (readFrom root total offset len rounds out)
      (readFrom root total offset len rounds out) := by
  induction rounds generalizing out with
  | zero => exact .pure _
  | succ rounds ih =>
    unfold readFrom
    split
    · exact .bind (leaf_agree hf _ _ _ _) fun _ => .bind (hf _) fun _ =>
        .bind (.ensure _ _) fun _ => ih _
    · exact .pure _

theorem readAt_agree (root : Cid)
    (offset len : Nat) : Agree p (readAt root offset len) (readAt root offset len) :=
  .bind (size_agree hf root) fun _ => .bind (.ensure _ _) fun _ => readFrom_agree hf _ _ _ _ _ _

end

variable {visit₁ : Cid → Proc Error σ₁ PUnit} {visit₂ : Cid → Proc Error σ₂ PUnit}

section
variable (hf : ∀ cid, Agree p (fetch cid) (fetch cid))
include hf

theorem lowest_agree
    (hv : ∀ cid, Agree p (visit₁ cid) (visit₂ cid)) (k : Nat) (cid : Cid) (held within : Nat) :
    Agree p (lowest visit₁ k cid held within) (lowest visit₂ k cid held within) := by
  induction k generalizing cid held within with
  | zero =>
    exact .bind (node_agree hf cid) fun _ => .bind (.ofExcept _) fun _ => .pure _
  | succ k ih =>
    exact .bind (node_agree hf cid) fun _ => .bind (.ofExcept _) fun _ =>
      .bind (hv _) fun _ => ih _ _ _

theorem eachChunk_agree
    {each₁ : Nat → Bytes → Proc Error σ₁ PUnit} {each₂ : Nat → Bytes → Proc Error σ₂ PUnit}
    (he : ∀ offset data, Agree p (each₁ offset data) (each₂ offset data)) (root : Cid) :
    Agree p (eachChunk root each₁) (eachChunk root each₂) := by
  have chunks (total under : Nat) :
      Agree p (chunksUnder each₁ root total under) (chunksUnder each₂ root total under) := by
    refine .bind (lowest_agree hf (fun _ => .pure _) _ _ _ _) fun low => .each (fun q => ?_) _
    exact .bind (hf _) fun _ => .bind (.ensure _ _) fun _ => he _ _
  refine .bind (size_agree hf root) fun total => ?_
  split
  · exact .bind (hf root) fun _ => .bind (he _ _) fun _ => .pure _
  · exact .bind (.each (chunks total) _) fun _ => .pure _

theorem walk_agree (hv : ∀ cid, Agree p (visit₁ cid) (visit₂ cid)) (root : Cid) :
    Agree p (walk root visit₁) (walk root visit₂) := by
  refine .bind (hv root) fun _ => .bind (size_agree hf root) fun total => ?_
  split
  · exact .pure _
  · refine .bind (.each (fun under => ?_) _) fun _ => .pure _
    exact .bind (lowest_agree hf hv _ _ _ _) fun _ => .each hv _

end

end Agreement

section Stores
variable [Sha256] {ι B : Type} [BlockSource B]

theorem fetch_ok_of_run {σ : Type} [BlockSource σ] {s t : σ} (h : (fetch cid).run s = .ok data t) :
    (BlockSource.get cid chunk).run s = .ok data t ∧ cid.Matches data := by
  obtain ⟨d, s₁, h₁, hrest⟩ := bind_eq_ok.mp h
  obtain ⟨hm, h₃⟩ := ensure_bind_ok.mp hrest
  cases h₃
  exact ⟨h₁, hm⟩

variable {B₁ B₂ : Type} [BlockSource B₁] [BlockSource B₂]

theorem fetch_grows (cid : Cid) : Grows Watched.met (fetch cid : Proc Error (Watched ι B) Bytes) := by
  intro s a t h
  obtain ⟨b, rfl⟩ := Watched.asked_ok (fetch_ok_of_run h).1
  exact List.subset_cons_self _ _

theorem fetch_watched (cid : Cid) :
    Agree (watched : Pairing (Watched ι B₁) (Watched ι B₂)) (fetch cid) (fetch cid) where
  left := fetch_grows cid
  right := fetch_grows cid
  both s₁ s₂ a₁ a₂ t₁ t₂ h₁ h₂ same distinct := by
    obtain ⟨h₁, hm₁⟩ := fetch_ok_of_run h₁
    obtain ⟨h₂, hm₂⟩ := fetch_ok_of_run h₂
    obtain ⟨b₁, rfl⟩ := Watched.asked_ok h₁
    obtain ⟨b₂, rfl⟩ := Watched.asked_ok h₂
    refine ⟨distinct ?_ ?_ (hm₁.trans hm₂.symm), same⟩
    · exact .inl List.mem_cons_self
    · exact .inr List.mem_cons_self

theorem fetch_lift {B : Type} [BlockSource B] {s t : Counted B} (h : (fetch cid).run s = .ok data t) :
    ∃ b, (fetch cid).run s.blocks = .ok data b ∧ t = { s with blocks := b } := by
  obtain ⟨hget, hm⟩ := fetch_ok_of_run h
  obtain ⟨b, hb, rfl⟩ := Counted.lift_ok hget
  refine ⟨b, ?_, rfl⟩
  rw [show (fetch cid : Proc Error B Bytes) = BlockSource.get cid chunk >>= fun data =>
    ensure (cid.Matches data) Error.corrupt >>= fun _ => pure data from rfl, bind_ok hb,
    ensure_pos hm]
  rfl

theorem fetch_counted (cid : Cid) :
    Agree (counted : Pairing (Counted (Watched ι B₁)) (Counted (Watched ι B₂)))
      (fetch cid) (fetch cid) where
  left s a t h := by
    obtain ⟨b, hb, rfl⟩ := fetch_lift h
    exact fetch_grows cid hb
  right s a t h := by
    obtain ⟨b, hb, rfl⟩ := fetch_lift h
    exact fetch_grows cid hb
  both s₁ s₂ a₁ a₂ t₁ t₂ h₁ h₂ same distinct := by
    obtain ⟨b₁, hb₁, rfl⟩ := fetch_lift h₁
    obtain ⟨b₂, hb₂, rfl⟩ := fetch_lift h₂
    obtain ⟨rfl, hseen⟩ := (fetch_watched cid).both hb₁ hb₂ same.1 distinct
    exact ⟨rfl, hseen, same.2⟩

end Stores

end Dag

namespace Watched

open Proc

variable [Sha256] {ι B₁ B₂ ε : Type}

theorem heard_agree (i : ι) (x : Proc ε B₁ PUnit) (y : Proc ε B₂ PUnit) :
    Agree (watched : Pairing (Watched ι B₁) (Watched ι B₂)) (heard i x) (heard i y) where
  left s a t h := by
    obtain ⟨b, rfl⟩ := heard_ok h
    exact List.Subset.refl _
  right s a t h := by
    obtain ⟨b, rfl⟩ := heard_ok h
    exact List.Subset.refl _
  both s₁ s₂ a₁ a₂ t₁ t₂ h₁ h₂ same _ := by
    obtain ⟨b₁, rfl⟩ := heard_ok h₁
    obtain ⟨b₂, rfl⟩ := heard_ok h₂
    exact ⟨rfl, congrArg (· ++ [i]) same⟩

end Watched

namespace Tree

open Proc Dag

variable [Sha256] {ι B₁ B₂ : Type}

theorem lift_agree {α : Type} {x : Proc Error (Watched ι B₁) α} {y : Proc Error (Watched ι B₂) α}
    (h : Agree watched x y) : Agree counted (Counted.lift x) (Counted.lift y) where
  left s a t hr := by
    obtain ⟨b, hb, rfl⟩ := Counted.lift_ok hr
    exact h.left hb
  right s a t hr := by
    obtain ⟨b, hb, rfl⟩ := Counted.lift_ok hr
    exact h.right hb
  both s₁ s₂ a₁ a₂ t₁ t₂ h₁ h₂ same distinct := by
    obtain ⟨b₁, hb₁, rfl⟩ := Counted.lift_ok h₁
    obtain ⟨b₂, hb₂, rfl⟩ := Counted.lift_ok h₂
    obtain ⟨rfl, hseen⟩ := h.both hb₁ hb₂ same.1 distinct
    exact ⟨rfl, hseen, same.2⟩

theorem step_agree : Agree (counted : Pairing (Counted (Watched ι B₁)) (Counted (Watched ι B₂)))
      Counted.step Counted.step where
  left s a t h := by
    obtain ⟨_, rfl⟩ := Counted.step_ok h
    exact List.Subset.refl _
  right s a t h := by
    obtain ⟨_, rfl⟩ := Counted.step_ok h
    exact List.Subset.refl _
  both s₁ s₂ a₁ a₂ t₁ t₂ h₁ h₂ same _ := by
    obtain ⟨_, rfl⟩ := Counted.step_ok h₁
    obtain ⟨_, rfl⟩ := Counted.step_ok h₂
    exact ⟨rfl, same.1, congrArg (· - 1) same.2⟩

theorem left_agree {α : Type} {f : Nat → Proc Error (Counted (Watched ι B₁)) α}
    {g : Nat → Proc Error (Counted (Watched ι B₂)) α} (h : ∀ n, Agree counted (f n) (g n)) :
    Agree counted (get >>= fun s => f s.left) (get >>= fun s => g s.left) where
  left s a t hr := (h s.left).left hr
  right s a t hr := (h s.left).right hr
  both s₁ s₂ a₁ a₂ t₁ t₂ h₁ h₂ same distinct := by
    change (g s₂.left).run s₂ = _ at h₂
    rw [← same.2] at h₂
    exact (h s₁.left).both h₁ h₂ same distinct

variable [BlockSource B₁] [BlockSource B₂]

theorem entries_agree (cid : Cid) :
    Agree (counted : Pairing (Counted (Watched ι B₁)) (Counted (Watched ι B₂)))
      (entries cid) (entries cid) := by
  unfold entries
  split
  · refine .bind (fetch_counted cid) fun data => ?_
    cases decode data with
    | ok dir => exact .pure _
    | error e => exact .pure _
  · exact .pure _

theorem fileAt_ok {B : Type} [BlockSource B] {whole : Bool} {visit : Cid → Proc Error B PUnit}
    {s t : B} {n : Nat} (h : (fileAt whole visit cid).run s = .ok n t) :
    (file whole visit cid).run s = .ok n t := by
  obtain ⟨held, m, ha, hrest⟩ := bind_eq_ok.mp h
  rw [run_attempt] at ha
  cases hf : (file whole visit cid).run s with
  | ok a b =>
    rw [hf] at ha
    cases ha
    exact hrest
  | error e b =>
    rw [hf] at ha
    cases ha
    change (if e = .format then _ else _ : Proc Error B Nat).run _ = _ at hrest
    split at hrest
    · obtain ⟨dir, _, _, hthrow⟩ := bind_eq_ok.mp hrest
      split at hthrow <;> exact nomatch hthrow
    · exact nomatch hrest

section Visits
variable {visit₁ : Cid → Proc Error (Counted (Watched ι B₁)) PUnit}
  {visit₂ : Cid → Proc Error (Counted (Watched ι B₂)) PUnit}
  (hv : ∀ cid, Agree counted (visit₁ cid) (visit₂ cid))

include hv

theorem file_agree (whole : Bool) (cid : Cid) :
    Agree counted (file whole visit₁ cid) (file whole visit₂ cid) := by
  unfold file
  split
  · exact walk_agree fetch_counted hv cid
  · exact size_agree fetch_counted cid

theorem tourFrom_agree (whole : Bool) (rounds : Nat) (stack : List (Cid × Nat × Nat))
    (total : Nat) : Agree counted (tourFrom whole visit₁ rounds stack total)
      (tourFrom whole visit₂ rounds stack total) := by
  induction rounds generalizing stack total with
  | zero => exact .throw _
  | succ rounds ih =>
    rcases stack with _ | ⟨⟨cid, count, next⟩, above⟩
    · exact .pure _
    refine .bind (fetch_counted cid) fun data => .bind (.ofExcept _) fun dir =>
      .bind (.ensure _ _) fun _ => ?_
    rcases dir[next]? with _ | e
    · exact ih _ _
    refine .bind step_agree fun _ => ?_
    cases e.kind with
    | file =>
      refine .bind ?_ fun held => .bind (.ensure _ _) fun _ => .bind (.ensure _ _) fun _ => ih _ _
      exact (file_agree hv whole e.cid).of_ok (fun _ _ _ => fileAt_ok) fun _ _ _ => fileAt_ok
    | directory => exact .bind (.ensure _ _) fun _ => .bind (hv _) fun _ => ih _ _

end Visits

theorem tour_agree {visit₁ : Cid → Proc Error (Watched ι B₁) PUnit}
    {visit₂ : Cid → Proc Error (Watched ι B₂) PUnit}
    (hv : ∀ cid, Agree watched (visit₁ cid) (visit₂ cid)) (whole : Bool) (root : Cid) :
    Agree counted (tour whole root visit₁) (tour whole root visit₂) := by
  have stepped (cid : Cid) : Agree counted (stepped visit₁ cid) (stepped visit₂ cid) :=
    .bind step_agree fun _ => lift_agree (hv cid)
  refine .bind (entries_agree root) fun count => ?_
  cases count with
  | none => exact file_agree stepped whole root
  | some count =>
    exact .bind (stepped root) fun _ => left_agree fun left =>
      tourFrom_agree stepped whole (2 * left + 3) [(root, count, 0)] 0

end Tree

namespace Journal

open Proc

variable [Sha256] {ι J₁ J₂ : Type} [Store J₁] [Store J₂]

theorem entry_agree (cid : Cid) :
    Agree (watched : Pairing (Watched ι J₁) (Watched ι J₂)) (entry cid) (entry cid) where
  left s a t h := by
    obtain ⟨data, hget, _⟩ := entry_ok h
    obtain ⟨b, rfl⟩ := Watched.asked_ok hget
    exact List.subset_cons_self _ _
  right s a t h := by
    obtain ⟨data, hget, _⟩ := entry_ok h
    obtain ⟨b, rfl⟩ := Watched.asked_ok hget
    exact List.subset_cons_self _ _
  both s₁ s₂ a₁ a₂ t₁ t₂ h₁ h₂ same distinct := by
    obtain ⟨data₁, hget₁, hm₁, _, hd₁⟩ := entry_ok h₁
    obtain ⟨data₂, hget₂, hm₂, _, hd₂⟩ := entry_ok h₂
    obtain ⟨b₁, rfl⟩ := Watched.asked_ok hget₁
    obtain ⟨b₂, rfl⟩ := Watched.asked_ok hget₂
    have hdata : data₁ = data₂ :=
      distinct (.inl List.mem_cons_self) (.inr List.mem_cons_self) (hm₁.trans hm₂.symm)
    subst hdata
    exact ⟨Except.ok.inj (hd₁.symm.trans hd₂), same⟩

/-- Each entry given to the reader, who then changes the store as it likes. -/
def hear {J : Type} (each : Entry → Cid → J → J) (e : Entry) (cid : Cid) :
    Watched (Entry × Cid) J → Watched (Entry × Cid) J :=
  Watched.noted (fun i => each i.1 i.2) (e, cid)

omit [Store J₁] [Store J₂] in
theorem hear_agree (each₁ : Entry → Cid → J₁ → J₁) (each₂ : Entry → Cid → J₂ → J₂) (e : Entry)
    (cid : Cid) : Agree watched (modify (hear each₁ e cid) : Proc Refused _ PUnit)
      (modify (hear each₂ e cid)) where
  left s a t h := by
    cases h
    exact List.Subset.refl _
  right s a t h := by
    cases h
    exact List.Subset.refl _
  both s₁ s₂ a₁ a₂ t₁ t₂ h₁ h₂ same _ := by
    cases h₁
    cases h₂
    exact ⟨rfl, congrArg (· ++ [(e, cid)]) same⟩

theorem downFrom_agree (each₁ : Entry → Cid → J₁ → J₁) (each₂ : Entry → Cid → J₂ → J₂) (left : Nat)
    (done : Checked) (cid : Cid) (after : Option Time) :
    Agree watched (downFrom (hear each₁) left done cid after)
      (downFrom (hear each₂) left done cid after) := by
  induction left generalizing done cid after with
  | zero => exact .pure _
  | succ left ih =>
    refine .bind (.mapError _ (entry_agree cid)) fun e => .bind (.ensure _ _) fun _ =>
      .bind (.ensure _ _) fun _ => .bind (hear_agree each₁ each₂ e cid) fun _ => ?_
    cases e.prev with
    | none => exact .pure _
    | some prev => exact ih _ _ _

end Journal

end MindCore
