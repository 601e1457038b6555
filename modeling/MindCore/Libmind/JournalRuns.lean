import MindCore.Libmind.Authentic
import MindCore.Libmind.DagBuild

/-!
# Journals and their writers

Writers that append to one name at the same time, each a store's request at a time, against a
store that keeps what it is given and publishes by compare-and-swap. What they leave is one chain
of entries, one for each version, which a check goes down; and a check of any store ends well
only over such a chain.
-/

namespace MindCore.Journal

open List Proc

section Chains
variable [Sha256]

def Names (blocks : List Bytes) (cid : Cid) (e : Entry) : Prop :=
  cid.codec = .dagCbor ∧ ∃ data ∈ blocks, cid.Matches data ∧ decode data = .ok e

/-- Entries from the one `link` names, of sequence `seq`, down to the first, each linked by the
one before it in the list and none past it in time. -/
def Linked (blocks : List Bytes) : Nat → Option Cid → List (Entry × Cid) → Prop
  | seq, link, [] => seq = 0 ∧ link = none
  | seq, link, (e, cid) :: es =>
    link = some cid ∧ Names blocks cid e ∧ 0 < seq ∧ e.seq = seq ∧
      (∀ before ∈ es.head?, ¬before.1.time.past e.time) ∧ Linked blocks (seq - 1) e.prev es

variable {blocks : List Bytes}

variable {es : List (Entry × Cid)} {link : Option Cid} {seq : Nat} {blocks' : List Bytes}
    {cid : Cid} {e : Entry}

theorem Linked.length (h : Linked blocks seq link es) : es.length = seq := by
  induction es generalizing seq link with
  | nil => exact h.1.symm
  | cons p es ih =>
    obtain ⟨_, _, hpos, _, _, hrest⟩ := h
    rw [length_cons, ih hrest]
    omega

theorem Names.mono (hb : blocks ⊆ blocks') (h : Names blocks cid e) : Names blocks' cid e := by
  obtain ⟨hc, data, hd, hm, he⟩ := h
  exact ⟨hc, data, hb hd, hm, he⟩

theorem Linked.mono (hb : blocks ⊆ blocks') (h : Linked blocks seq link es) : Linked blocks' seq link es := by
  induction es generalizing seq link with
  | nil => exact h
  | cons p es ih =>
    obtain ⟨hl, hn, hpos, hs, ht, hrest⟩ := h
    exact ⟨hl, hn.mono hb, hpos, hs, ht, ih hrest⟩

def Distinct (blocks : List Bytes) : Prop := Set.InjOn Sha256.digest {b | b ∈ blocks}

theorem Names.unique (hb : Distinct blocks) {e' : Entry}
    (h : Names blocks cid e) (h' : Names blocks cid e') : e = e' := by
  obtain ⟨_, data, hd, hm, he⟩ := h
  obtain ⟨_, data', hd', hm', he'⟩ := h'
  have : data = data' := hb hd hd' (hm.trans hm'.symm)
  subst this
  exact Except.ok.inj (he.symm.trans he')

end Chains

variable {done : Checked} {after : Option Time} {left steps : Nat}

section Whole
variable [Sha256] {J : Type} [Store J] {each : Entry → Cid → J → J} {t : Watched (Entry × Cid) J}

/-- What a run of the loop of `down` gave the reader is a part of a chain; the whole of what is
left of it, if it came to the first entry. -/
theorem downFrom_linked {fin : Checked} {cid : Cid} {s : Watched (Entry × Cid) J}
    (hr : (downFrom (hear each) left done cid after).run s = .ok fin t) :
    s.met ⊆ t.met ∧ ∃ es, t.seen = s.seen ++ es ∧
      fin.version = done.version ∧ fin.entries = done.entries + es.length ∧ fin.last = done.last ∧
      (∀ e ∈ es.head?, ∀ time ∈ after, ¬e.1.time.past time) ∧
      (es = [] → fin.first = done.first) ∧
      (es ≠ [] → fin.first = 1 →
        Linked t.met (done.version - done.entries) (some cid) es) := by
  induction left generalizing done cid after s with
  | zero =>
    cases hr
    exact ⟨List.Subset.refl _, [], by simp, rfl, rfl, rfl, by simp, fun _ => rfl, by simp⟩
  | succ left ih =>
    obtain ⟨e, s₁, hentry, h₁⟩ := bind_eq_ok.mp hr
    obtain ⟨hs, h₂⟩ := ensure_bind_ok.mp h₁
    obtain ⟨ht, h₃⟩ := ensure_bind_ok.mp h₂
    obtain ⟨_, s₄, hnote, h₄⟩ := bind_eq_ok.mp h₃
    obtain ⟨data, hget, hm, hc, hd⟩ := entry_ok (mapError_ok hentry)
    obtain ⟨hpos, hprev⟩ := entry_prev (mapError_ok hentry)
    obtain ⟨b, rfl⟩ := Watched.asked_ok hget
    cases hnote
    have hfirst : ∀ e' ∈ (((e, cid) :: ([] : List (Entry × Cid))).head?), ∀ time ∈ after,
        ¬e'.1.time.past time := by
      intro e' he' time htime
      cases Option.mem_some_iff.mp he'
      exact ht time htime
    cases hp : e.prev with
    | none =>
      rw [hp] at h₄
      cases h₄
      have h1 : e.seq = 1 := by
        rw [hp] at hprev
        simp only [Option.isSome_none, Bool.false_eq_true, false_iff] at hprev
        omega
      refine ⟨subset_cons_self _ _, [(e, cid)], rfl, rfl, rfl, rfl, hfirst, by simp, ?_⟩
      intro _ _
      refine ⟨rfl, ⟨hc, data, mem_cons_self, hm, hd⟩, by omega, hs, by simp, ?_⟩
      exact ⟨by omega, hp⟩
    | some prev =>
      rw [hp] at h₄
      have hgt := hprev.mp (by rw [hp]; rfl)
      obtain ⟨hmet, es, hseen, hv, hn, hl, hafter, hnil, hcons⟩ := ih h₄
      have hdata : data ∈ t.met := hmet mem_cons_self
      refine ⟨List.Subset.trans (subset_cons_self _ _) hmet, (e, cid) :: es, ?_, hv, ?_, hl,
        hfirst, by simp, ?_⟩
      · rw [hseen]
        exact append_assoc _ _ _
      · rw [hn, length_cons]
        simp only
        omega
      intro _ hone
      have hes : es ≠ [] := by
        intro h
        have hf := hnil h
        simp only at hf
        omega
      have hrest := hcons hes hone
      refine ⟨rfl, ⟨hc, data, hdata, hm, hd⟩, by omega, hs, ?_, ?_⟩
      · intro before hb
        exact hafter before hb e.time rfl
      · rw [hp]
        exact hrest

theorem checkEach_linked {name : Bytes} {version : Nat} {root : Cid} {j u : J}
    (hhead : (Store.head name).run j = .ok (version, some root) u) (hpos : 0 < version)
    (h64 : version < 2 ^ 64)
    (hr : (checkEach name steps (hear each)).run (.new j) = .ok done t) :
    done = ⟨version, version, 1, version⟩ ∧ Linked t.met version (some root) t.seen := by
  obtain ⟨v, cid, m, hh, hdown, hone⟩ := checkEach_ok hr
  obtain ⟨c, hc, rfl⟩ := Watched.lift_ok hh
  cases hhead.symm.trans hc
  obtain ⟨_, es, hseen, hv, hn, hl, _, hnil, hcons⟩ := downFrom_linked hdown
  have hes : es ≠ [] := by
    intro h
    have hf := hnil h
    simp only [hone] at hf
    omega
  have hlinked := hcons hes hone
  have hall : t.seen = es := hseen
  refine ⟨?_, ?_⟩
  · have hlen := hlinked.length
    obtain ⟨dv, de, df, dl⟩ := done
    simp only at hv hn hl hone hlen
    simp only [Checked.mk.injEq]
    omega
  · rw [hall]
    exact hlinked

end Whole

structure Call where
  now : Reading
  source : Bytes
  kind : Bytes
  content : Cid

def Call.Typed (c : Call) : Prop := c.now.monotonic < 2 ^ 64 ∧ c.now.calendar < 2 ^ 64

/-- An append between two of its requests: begun, with the head it read, with the entry to store,
with the stored entry to publish, done. -/
inductive Writer where
  | start (c : Call)
  | headed (c : Call) (version : Nat) (root : Option Cid)
  | encoded (version : Nat) (e : Entry) (bytes : Bytes)
  | stored (version : Nat) (e : Entry) (cid : Cid)
  | appended (a : Appended)

section Writers
variable [Sha256] {J : Type} [Store J]

def Writer.advance (name : Bytes) : Writer → Proc Error J Writer
  | .start c => do
    ensure (validLabel c.source) .invalid
    ensure (validLabel c.kind) .invalid
    let (version, root) ← Store.head name
    return .headed c version root
  | .headed c version root => do
    let (boot, prev) ← next c.now version root
    let e : Entry := ⟨(version + 1) % 2 ^ 64, ⟨boot, c.now.monotonic, c.now.calendar, c.now.clock⟩,
      c.source, c.kind, c.content, prev⟩
    let bytes ← Proc.ofExcept (encodeOr e)
    return .encoded version e bytes
  | .encoded version e bytes => do
    let cid ← Store.put bytes
    ensure (cid = Cid.of .dagCbor bytes) .corrupt
    return .stored version e cid
  | .stored version e cid => do
    let _ ← Store.publish name version cid
    return .appended ⟨e, cid⟩
  | .appended a => return .appended a

/-- The parts one after another are `append`. -/
theorem append_eq (name : Bytes) (c : Call) (s : J) :
    ((Writer.start c).advance name >>= fun w => w.advance name >>= fun w => w.advance name >>=
      fun w => w.advance name).run s =
    (append name c.now c.source c.kind c.content >>= fun a => pure (Writer.appended a)).run s := by
  simp only [Writer.advance, append, bind_assoc, pure_bind]

end Writers

/-- A store that keeps the blocks it is given and, for one name, the roots of its versions, none
for a version that removed it. -/
structure World where
  blocks : List Bytes
  history : List (Option Cid)

section System
variable [Sha256]

instance : Store World where
  put data := do
    modify fun w => { w with blocks := w.blocks ++ [data] }
    return Cid.of .dagCbor data
  get cid _ := do
    let w ← get
    orError (w.blocks.find? fun b => cid.Matches b) .missing
  head _ := do
    let w ← get
    return (w.history.length, w.history.getLast?.join)
  publish _ expected root := do
    let w ← get
    ensure (w.history.length = expected) .conflict
    set { w with history := w.history ++ [some root] }
    return expected + 1

structure System where
  world : World
  writers : List Writer

/-- A step of the writers of `name`: an append begins, goes on by a part, ends with an error of
its part, ends with its request served and the answer lost, or ends with nothing done; or another
client stores a block. -/
inductive Step (name : Bytes) : System → System → Prop where
  | call (s : System) (c : Call) (hc : c.Typed) : Step name s { s with writers := s.writers ++ [.start c] }
  | goes (s : System) (i : Nat) (w w' : Writer) (world : World) (hw : s.writers[i]? = some w)
    (hr : (w.advance name).run s.world = .ok w' world) :
    Step name s ⟨world, s.writers.set i w'⟩
  | fails (s : System) (i : Nat) (w : Writer) (e : Error) (world : World)
    (hw : s.writers[i]? = some w) (hr : (w.advance name).run s.world = .error e world) :
    Step name s ⟨world, s.writers.eraseIdx i⟩
  | lost (s : System) (i : Nat) (w w' : Writer) (world : World) (hw : s.writers[i]? = some w)
    (hr : (w.advance name).run s.world = .ok w' world) :
    Step name s ⟨world, s.writers.eraseIdx i⟩
  | drops (s : System) (i : Nat) : Step name s { s with writers := s.writers.eraseIdx i }
  | put (s : System) (data : Bytes) :
    Step name s { s with world := { s.world with blocks := s.world.blocks ++ [data] } }

def Reaches (name : Bytes) (s : System) : Prop := Relation.ReflTransGen (Step name) ⟨⟨[], []⟩, []⟩ s

def World.rootAt (w : World) (version : Nat) : Option Cid := (w.history.take version).getLast?.join

structure Follows (w : World) (version : Nat) (e : Entry) : Prop where
  had : version ≤ w.history.length
  typed : e.Typed
  valid : e.valid
  seq : e.seq = version + 1
  prev : e.prev = w.rootAt version
  time : ∀ c ∈ w.rootAt version, ∃ h, Names w.blocks c h ∧ ¬h.time.past e.time

def Writer.Ready (w : World) : Writer → Prop
  | .start c => c.Typed
  | .headed c version root => c.Typed ∧ validLabel c.source ∧ validLabel c.kind ∧
      version ≤ w.history.length ∧ root = w.rootAt version
  | .encoded version e bytes => Follows w version e ∧ bytes = encodeWith e
  | .stored version e cid => Follows w version e ∧ Names w.blocks cid e
  | .appended _ => True

/-- The versions of a name and the entries of its journal, newest first. -/
def Chain (w : World) (es : List (Entry × Cid)) : Prop :=
  Linked w.blocks w.history.length (w.rootAt w.history.length) es ∧
    es.map (fun p => some p.2) = w.history.reverse

/-- The versions published so far are a chain, and the writers are at work on its next ones. -/
structure Inv (s : System) : Prop where
  chain : ∃ es, Chain s.world es
  ready : ∀ w ∈ s.writers, w.Ready s.world

theorem head_run (name : Bytes) (w : World) :
    (Store.head name).run w = .ok (w.history.length, w.rootAt w.history.length) w := by
  unfold World.rootAt
  rw [take_length]
  rfl

theorem get_still (cid : Cid) (len : Nat) : Still (Store.get cid len : Proc Error World Bytes) :=
  .bind .get fun _ => .orError _ _

variable {cid : Cid} {t w world world' : World} {e : Entry} {version : Nat} {c : Call}
    {name : Bytes} {w' : Writer} {es : List (Entry × Cid)} {s : System}

theorem get_ok {len : Nat} {data : Bytes} (h : (Store.get cid len).run w = .ok data t) : data ∈ w.blocks := by
  obtain ⟨w', m, hget, h₁⟩ := bind_eq_ok.mp h
  cases hget
  cases hf : w.blocks.find? (fun b => cid.Matches b) with
  | none =>
    rw [hf] at h₁
    exact nomatch h₁
  | some b =>
    rw [hf] at h₁
    cases h₁
    exact mem_of_find?_eq_some hf

theorem entry_still (cid : Cid) : Still (entry cid : Proc Error World Entry) :=
  .bind (get_still cid _) fun _ => .bind (.ensure _ _) fun _ => .bind (.ensure _ _) fun _ =>
    .ofExcept _

theorem entry_names (h : (entry cid).run w = .ok e t) : Names w.blocks cid e := by
  obtain ⟨data, hget, hm, hc, hd⟩ := entry_ok h
  exact ⟨hc, data, get_ok hget, hm, hd⟩

theorem next_still (now : Reading) (version : Nat) (root : Option Cid) :
    Still (next now version root : Proc Error World (Nat × Option Cid)) := by
  cases root with
  | none => exact .bind (.ensure _ _) fun _ => .pure _
  | some head =>
    refine .bind (entry_still head) fun e => .bind (.ensure _ _) fun _ => ?_
    split
    · exact .bind (.ensure _ _) fun _ => .pure _
    · exact .pure _

variable {root : Option Cid} {bytes : Bytes} {s' : System}

/-- What `next` gives after the head of `version`. -/
theorem next_ok {now : Reading} {r : Nat × Option Cid} (h : (next now version root).run w = .ok r t) :
    r.2 = root ∧ version < 2 ^ 64 ∧ r.1 < 2 ^ 64 ∧
      (∀ c ∈ root, ∃ e, Names w.blocks c e ∧
        ¬(r.1 < e.time.boot ∨ (e.time.boot = r.1 ∧ now.monotonic < e.time.monotonic))) := by
  cases root with
  | none =>
    obtain ⟨rfl, h₁⟩ := ensure_bind_ok.mp h
    cases h₁
    exact ⟨rfl, by decide, by decide, by simp⟩
  | some head =>
    obtain ⟨e, m, hentry, h₁⟩ := bind_eq_ok.mp h
    obtain ⟨hs, h₂⟩ := ensure_bind_ok.mp h₁
    obtain ⟨data, _, _, _, hd⟩ := entry_ok hentry
    have ht := (decode_sound hd).1
    split at h₂
    · obtain ⟨_, m'', hboot, h₃⟩ := bind_eq_ok.mp h₂
      have hb := (ensure_run_ok hboot).1
      cases h₃
      refine ⟨rfl, by rw [← hs]; exact ht.1, hb, ?_⟩
      rintro c hc
      cases Option.mem_some_iff.mp hc
      exact ⟨e, entry_names hentry, by simp only; omega⟩
    · cases h₂
      refine ⟨rfl, by rw [← hs]; exact ht.1, ht.2.1, ?_⟩
      rintro c hc
      cases Option.mem_some_iff.mp hc
      exact ⟨e, entry_names hentry, by simp only; omega⟩

structure Extends (w w' : World) : Prop where
  blocks : w.blocks ⊆ w'.blocks
  history : w.history <+: w'.history

omit [Sha256] in
theorem Extends.refl (w : World) : Extends w w := ⟨List.Subset.refl _, prefix_refl _⟩

omit [Sha256] in
theorem Extends.rootAt {w' : World} (h : Extends w w')
    (hv : version ≤ w.history.length) : w'.rootAt version = w.rootAt version := by
  obtain ⟨l, hl⟩ := h.history
  unfold World.rootAt
  rw [← hl, take_append_of_le_length hv]

theorem Follows.mono {w' : World} (h : Extends w w') (hf : Follows w version e) : Follows w' version e where
  had := Nat.le_trans hf.had h.history.length_le
  typed := hf.typed
  valid := hf.valid
  seq := hf.seq
  prev := by rw [h.rootAt hf.had, hf.prev]
  time := by
    rw [h.rootAt hf.had]
    intro c hc
    obtain ⟨before, hn, ht⟩ := hf.time c hc
    exact ⟨before, hn.mono h.blocks, ht⟩

theorem Writer.Ready.mono {w' : World} (h : Extends w w') {writer : Writer}
    (hr : writer.Ready w) : writer.Ready w' := by
  cases writer with
  | start c => exact hr
  | headed c version root =>
    obtain ⟨ht, hs, hk, hv, hroot⟩ := hr
    exact ⟨ht, hs, hk, Nat.le_trans hv h.history.length_le, by rw [h.rootAt hv, hroot]⟩
  | encoded version e bytes => exact ⟨hr.1.mono h, hr.2⟩
  | stored version e cid => exact ⟨hr.1.mono h, hr.2.mono h.blocks⟩
  | appended a => trivial

omit [Sha256] in
theorem encodeOr_ok (h : encodeOr e = .ok bytes) : e.valid ∧ bytes = encodeWith e := by
  unfold encodeOr at h
  split at h
  · rename_i hb
    cases h
    obtain ⟨hv, he⟩ := encode_eq_ok.mp hb
    exact ⟨hv, he.symm⟩
  · exact nomatch h

/-- The entry an append makes after the head it read. Its sequence is the version's next: a
sequence that went around would be 0, which no valid entry has. -/
theorem follows_of_next {boot : Nat}
    (hv : version ≤ world.history.length) (ht : c.Typed) (hs : validLabel c.source)
    (hk : validLabel c.kind) (h64 : version < 2 ^ 64) (hboot : boot < 2 ^ 64)
    (hvalid : Entry.valid ⟨(version + 1) % 2 ^ 64,
      ⟨boot, c.now.monotonic, c.now.calendar, c.now.clock⟩, c.source, c.kind, c.content,
      world.rootAt version⟩)
    (htime : ∀ cid ∈ world.rootAt version, ∃ e, Names world.blocks cid e ∧
      ¬(boot < e.time.boot ∨ (e.time.boot = boot ∧ c.now.monotonic < e.time.monotonic))) :
    Follows world version ⟨(version + 1) % 2 ^ 64,
      ⟨boot, c.now.monotonic, c.now.calendar, c.now.clock⟩, c.source, c.kind, c.content,
      world.rootAt version⟩ := by
  have hseq : 1 ≤ (version + 1) % 2 ^ 64 := by
    simp only [Entry.valid, Bool.and_eq_true, decide_eq_true_eq] at hvalid
    exact hvalid.1.1.1
  have hlt : (version + 1) % 2 ^ 64 = version + 1 := by omega
  rw [hlt] at hvalid ⊢
  have h64' : version + 1 < 2 ^ 64 := by omega
  exact ⟨hv, ⟨h64', hboot, ht.1, ht.2, hs, hk⟩, hvalid, rfl, rfl, htime⟩

theorem advance_start (hw : c.Typed) (hr : ((Writer.start c).advance name).run world = .ok w' world') :
    w'.Ready world' ∧ world' = world := by
  obtain ⟨hs, h₁⟩ := ensure_bind_ok.mp hr
  obtain ⟨hk, h₂⟩ := ensure_bind_ok.mp h₁
  rw [bind_ok (head_run name _)] at h₂
  cases h₂
  exact ⟨⟨hw, hs, hk, Nat.le_refl _, rfl⟩, rfl⟩

theorem advance_headed (hw : (Writer.headed c version root).Ready world)
    (hr : ((Writer.headed c version root).advance name).run world = .ok w' world') :
    w'.Ready world' ∧ world' = world := by
  obtain ⟨ht, hs, hk, hv, rfl⟩ := hw
  obtain ⟨⟨boot, prev⟩, m₁, hnext, h₁⟩ := bind_eq_ok.mp hr
  obtain ⟨bytes, hbytes, h₂⟩ := ofExcept_bind_ok.mp h₁
  obtain ⟨hprev, h64, hboot, htime⟩ := next_ok hnext
  have hstill := (next_still _ _ _).ok hnext
  subst hprev hstill
  cases h₂
  have hb := encodeOr_ok hbytes
  exact ⟨⟨follows_of_next hv ht hs hk h64 hboot hb.1 htime, hb.2⟩, rfl⟩

theorem put_run (data : Bytes) (w : World) : (Store.put data).run w =
    .ok (Cid.of .dagCbor data) { w with blocks := w.blocks ++ [data] } := rfl

theorem publish_run (name : Bytes) (version : Nat) (cid : Cid) (w : World) :
    (Store.publish name version cid).run w =
      if w.history.length = version then
        .ok (version + 1) { w with history := w.history ++ [some cid] }
      else .error .conflict w := by
  by_cases h : w.history.length = version
  · rw [if_pos h]
    change (ensure (w.history.length = version) Error.conflict >>= _ : Proc Error World Nat).run w = _
    rw [ensure_pos h]
    rfl
  · rw [if_neg h]
    change (ensure (w.history.length = version) Error.conflict >>= _ : Proc Error World Nat).run w = _
    rw [ensure_neg h]
    rfl

theorem encoded_run (name : Bytes) (version : Nat) (e : Entry) (bytes : Bytes) (w : World) :
    ((Writer.encoded version e bytes).advance name).run w =
      .ok (.stored version e (Cid.of .dagCbor bytes)) { w with blocks := w.blocks ++ [bytes] } := by
  unfold Writer.advance
  rw [bind_ok (put_run bytes w), ensure_pos rfl, pure_bind]
  rfl

theorem advance_encoded (hw : (Writer.encoded version e bytes).Ready world)
    (hr : ((Writer.encoded version e bytes).advance name).run world = .ok w' world') :
    w'.Ready world' ∧ world' = { world with blocks := world.blocks ++ [bytes] } := by
  obtain ⟨hf, hbytes⟩ := hw
  rw [encoded_run] at hr
  injection hr with hwriter hworld
  subst hwriter hworld
  have hext : Extends world { world with blocks := world.blocks ++ [bytes] } :=
    ⟨subset_append_left _ _, prefix_refl _⟩
  have hdec : decode bytes = .ok e := by
    rw [hbytes]
    exact decode_encode hf.typed hf.valid
  exact ⟨⟨hf.mono hext, rfl, bytes, by simp, rfl, hdec⟩, rfl⟩

theorem advance_stored (hr : ((Writer.stored version e cid).advance name).run world = .ok w' world') :
    w' = .appended ⟨e, cid⟩ ∧ world.history.length = version ∧
      world' = { world with history := world.history ++ [some cid] } := by
  obtain ⟨_, m₁, hpub, h₁⟩ := bind_eq_ok.mp hr
  rw [publish_run] at hpub
  split at hpub
  · rename_i hversion
    cases hpub
    obtain ⟨rfl, rfl⟩ := pure_run_ok h₁
    exact ⟨rfl, hversion, rfl⟩
  · exact nomatch hpub

theorem advance_ok {w : Writer} (hw : w.Ready world) (hr : (w.advance name).run world = .ok w' world') :
    w'.Ready world' ∧ (world' = world ∨ (∃ b, world' = { world with blocks := world.blocks ++ [b] }) ∨
      ∃ e cid, Follows world world.history.length e ∧ Names world.blocks cid e ∧
        world' = { world with history := world.history ++ [some cid] }) := by
  cases w with
  | start c =>
    obtain ⟨hready, hworld⟩ := advance_start hw hr
    exact ⟨hready, .inl hworld⟩
  | headed c version root =>
    obtain ⟨hready, hworld⟩ := advance_headed hw hr
    exact ⟨hready, .inl hworld⟩
  | encoded version e bytes =>
    obtain ⟨hready, hworld⟩ := advance_encoded hw hr
    exact ⟨hready, .inr (.inl ⟨bytes, hworld⟩)⟩
  | stored version e cid =>
    obtain ⟨rfl, rfl, hworld⟩ := advance_stored hr
    exact ⟨trivial, .inr (.inr ⟨e, cid, hw.1, hw.2, hworld⟩)⟩
  | appended a =>
    obtain ⟨rfl, rfl⟩ := pure_run_ok hr
    exact ⟨trivial, .inl rfl⟩

theorem start_still (name : Bytes) (c : Call) :
    Still ((Writer.start c).advance name : Proc Error World Writer) :=
  .bind (.ensure _ _) fun _ => .bind (.ensure _ _) fun _ => .bind (fun _ => rfl) fun _ => .pure _

theorem headed_still (name : Bytes) (c : Call) (version : Nat) (root : Option Cid) :
    Still ((Writer.headed c version root).advance name : Proc Error World Writer) :=
  .bind (next_still _ _ _) fun _ => .bind (.ofExcept _) fun _ => .pure _

theorem advance_error {w : Writer} {e : Error}
    (hr : (w.advance name).run world = .error e world') : world' = world := by
  cases w with
  | start c => exact (start_still name c).error hr
  | headed c version root => exact (headed_still name c version root).error hr
  | encoded version e bytes =>
    rw [encoded_run] at hr
    cases hr
  | stored version e cid =>
    unfold Writer.advance at hr
    rw [run_bind, publish_run] at hr
    split at hr
    · cases hr
    · rename_i hpub
      split at hpub
      · cases hpub
      · cases hpub
        cases hr
        rfl
  | appended a => cases hr

theorem advance_blocks {w : Writer}
    (hr : (w.advance name).run world = .ok w' world') : world.blocks ⊆ world'.blocks := by
  cases w with
  | start c =>
    rw [(start_still name c).ok hr]
    exact List.Subset.refl _
  | headed c version root =>
    rw [(headed_still name c version root).ok hr]
    exact List.Subset.refl _
  | encoded version e bytes =>
    rw [encoded_run] at hr
    injection hr with _ hworld
    rw [← hworld]
    exact subset_append_left _ _
  | stored version e cid =>
    obtain ⟨_, _, rfl⟩ := advance_stored hr
    exact List.Subset.refl _
  | appended a =>
    obtain ⟨_, rfl⟩ := pure_run_ok hr
    exact List.Subset.refl _

omit [Sha256] in
theorem Extends.put (w : World) (data : Bytes) : Extends w { w with blocks := w.blocks ++ [data] } :=
  ⟨subset_append_left _ _, prefix_refl _⟩

omit [Sha256] in
theorem Extends.publish (w : World) (cid : Cid) : Extends w { w with history := w.history ++ [some cid] } :=
  ⟨List.Subset.refl _, prefix_append _ _⟩

theorem Chain.put (h : Chain w es) (data : Bytes) : Chain { w with blocks := w.blocks ++ [data] } es :=
  ⟨h.1.mono (subset_append_left _ _), h.2⟩

theorem Chain.publish (hd : Distinct w.blocks) (h : Chain w es) (hf : Follows w w.history.length e)
    (hn : Names w.blocks cid e) :
    Chain { w with history := w.history ++ [some cid] } ((e, cid) :: es) := by
  have hroot : World.rootAt { w with history := w.history ++ [some cid] }
      (w.history ++ [some cid]).length = some cid := by
    unfold World.rootAt
    rw [take_length, getLast?_concat]
    rfl
  constructor
  · rw [hroot, length_append, length_singleton]
    refine ⟨rfl, hn, Nat.succ_pos _, hf.seq, ?_, ?_⟩
    · intro before hb
      rcases es with _ | ⟨⟨e', cid'⟩, es⟩
      · simp at hb
      cases Option.mem_some_iff.mp hb
      obtain ⟨hlink, hn', _⟩ := h.1
      obtain ⟨p, hp, ht⟩ := hf.time cid' hlink
      rw [Names.unique hd hn' hp]
      exact ht
    · rw [Nat.add_sub_cancel, hf.prev]
      exact h.1
  · rw [map_cons, h.2, reverse_append]
    rfl

theorem advance_inv {w : Writer} (h : Inv s) (hd : Distinct s.world.blocks) (hw : w ∈ s.writers)
    (hr : (w.advance name).run s.world = .ok w' world) :
    Extends s.world world ∧ w'.Ready world ∧ ∃ es, Chain world es := by
  obtain ⟨es, hes⟩ := h.chain
  obtain ⟨hready, rfl | ⟨b, rfl⟩ | ⟨e, cid, hf, hn, rfl⟩⟩ := advance_ok (h.ready w hw) hr
  · exact ⟨.refl _, hready, es, hes⟩
  · exact ⟨.put _ b, hready, es, hes.put b⟩
  · exact ⟨.publish _ cid, hready, _, hes.publish hd hf hn⟩

theorem Inv.extend {writers : List Writer} (h : Inv s)
    (hext : Extends s.world world) (hchain : ∃ es, Chain world es)
    (hsub : ∀ w ∈ writers, w ∈ s.writers ∨ w.Ready world) : Inv ⟨world, writers⟩ where
  chain := hchain
  ready w hw := by
    rcases hsub w hw with hin | hready
    · exact (h.ready w hin).mono hext
    · exact hready

theorem step_inv (h : Inv s) (hd : Distinct s.world.blocks) (hs : Step name s s') : Inv s' := by
  cases hs with
  | call c hc =>
    refine h.extend (.refl _) h.chain fun w hw => ?_
    rcases mem_append.mp hw with hin | hnew
    · exact .inl hin
    · rw [mem_singleton.mp hnew]
      exact .inr hc
  | goes i w w' world hw hr =>
    obtain ⟨hext, hready, hchain⟩ := advance_inv h hd (mem_of_getElem? hw) hr
    refine h.extend hext hchain fun v hv => ?_
    rcases mem_or_eq_of_mem_set hv with hin | rfl
    · exact .inl hin
    · exact .inr hready
  | fails i w e world hw hr =>
    obtain rfl := advance_error hr
    exact h.extend (.refl _) h.chain fun v hv => .inl (mem_of_mem_eraseIdx hv)
  | lost i w w' world hw hr =>
    obtain ⟨hext, hready, hchain⟩ := advance_inv h hd (mem_of_getElem? hw) hr
    exact h.extend hext hchain fun v hv => .inl (mem_of_mem_eraseIdx hv)
  | drops i => exact h.extend (.refl _) h.chain fun v hv => .inl (mem_of_mem_eraseIdx hv)
  | put data =>
    obtain ⟨es, hes⟩ := h.chain
    exact h.extend (.put _ data) ⟨es, hes.put data⟩ fun v hv => .inl hv

theorem step_blocks (hs : Step name s s') : s.world.blocks ⊆ s'.world.blocks := by
  cases hs with
  | call c hc => exact List.Subset.refl _
  | goes i w w' world hw hr => exact advance_blocks hr
  | fails i w e world hw hr =>
    obtain rfl := advance_error hr
    exact List.Subset.refl _
  | lost i w w' world hw hr => exact advance_blocks hr
  | drops i => exact List.Subset.refl _
  | put data => exact subset_append_left _ _

theorem reaches_inv (h : Reaches name s) (hd : Distinct s.world.blocks) : Inv s := by
  induction h with
  | refl => exact ⟨⟨[], ⟨rfl, rfl⟩, rfl⟩, by simp⟩
  | tail _ hs ih =>
    have hd' := Set.InjOn.mono (fun _ hb => step_blocks hs hb) hd
    exact step_inv (ih hd') hd' hs

/-- Entries of the world are read through a store in states `R`, which say what was heard so far. -/
structure Hears {J : Type} [Store J] (w : World) (each : Entry → Cid → J → J)
    (R : J → List (Entry × Cid) → Prop) : Prop where
  head : ∀ s l name, R s l →
    (Store.head name).run s = .ok (w.history.length, w.rootAt w.history.length) s
  entry : ∀ s l cid e, R s l → Names w.blocks cid e →
    ∃ t, (entry cid).run s = .ok e t ∧ R (each e cid t) (l ++ [(e, cid)])

section
variable (hd : Distinct w.blocks)
include hd

theorem entry_run (h : Names w.blocks cid e) : (entry cid).run w = .ok e w := by
  obtain ⟨hc, data, hdata, hm, he⟩ := h
  have hfind : w.blocks.find? (fun b => cid.Matches b) = some data := by
    cases hf : w.blocks.find? (fun b => cid.Matches b) with
    | none =>
      have := find?_eq_none.mp hf data hdata
      simp only [decide_eq_true_eq] at this
      exact absurd hm this
    | some b =>
      have hb := find?_some hf
      simp only [decide_eq_true_eq] at hb
      rw [hd (mem_of_find?_eq_some hf) hdata (hb.trans hm.symm)]
  have hget : (Store.get cid Dag.chunk).run w = .ok data w := by
    change (orError (w.blocks.find? fun b => cid.Matches b) Error.missing : Proc Error World _).run w = _
    rw [hfind]
    rfl
  unfold entry
  rw [bind_ok hget, ensure_pos hm, ensure_pos hc, pure_bind, pure_bind]
  unfold schema
  rw [he]
  rfl

theorem entry_watched {ι : Type}
    (h : Names w.blocks cid e) {s : Watched ι World} (hs : s.blocks = w) :
    ∃ t, (entry cid).run s = .ok e t ∧ t.blocks = w ∧ t.seen = s.seen := by
  have hrun := entry_run hd h
  obtain ⟨data, hget, hm, hc, he⟩ := entry_ok hrun
  refine ⟨⟨w, data :: s.met, s.calls + 1, s.seen⟩, ?_, rfl, rfl⟩
  have hasked : (Store.get cid Dag.chunk : Proc Error (Watched ι World) Bytes).run s =
      .ok data ⟨w, data :: s.met, s.calls + 1, s.seen⟩ := by
    have hlift : (Watched.lift (Store.get cid Dag.chunk) : Proc Error (Watched ι World) Bytes).run
        { s with calls := s.calls + 1 } = .ok data ⟨w, s.met, s.calls + 1, s.seen⟩ := by
      rw [Watched.run_lift]
      simp only [hs, hget]
    change (Watched.lift (Store.get cid Dag.chunk) >>= _ : Proc Error (Watched ι World) Bytes).run
      { s with calls := s.calls + 1 } = _
    rw [bind_ok hlift]
    rfl
  unfold entry
  rw [bind_ok hasked, ensure_pos hm, ensure_pos hc, pure_bind, pure_bind]
  unfold schema
  rw [he]
  rfl

theorem hears_world : Hears w (fun _ _ j => j) (fun s _ => s = w) where
  head := by
    rintro s _ name rfl
    exact head_run name s
  entry := by
    rintro s _ cid e rfl hn
    exact ⟨s, entry_run hd hn, rfl⟩

theorem hears_watched : Hears w (hear fun _ _ j => j) (fun s l => s.blocks = w ∧ s.seen = l) where
  head := by
    rintro ⟨w, met, calls, seen⟩ l name ⟨rfl, -⟩
    change (Watched.lift (Store.head name)).run _ = _
    rw [Watched.run_lift]
    simp only [head_run]
  entry := by
    rintro s l cid e ⟨hs, rfl⟩ hn
    obtain ⟨t, hrun, hb, hseen⟩ := entry_watched hd hn hs
    exact ⟨t, hrun, hb, congrArg (· ++ [(e, cid)]) hseen⟩

end

section Heard
variable {J : Type} [Store J] {each : Entry → Cid → J → J} {R : J → List (Entry × Cid) → Prop}
variable (hh : Hears w each R)
include hh

/-- The loop of `down` over a chain with entries enough to read gives all of it. -/
theorem Hears.downFrom {s : J} {l : List (Entry × Cid)}
    (hl : Linked w.blocks (done.version - done.entries) (some cid) es) (hleft : es.length ≤ left)
    (hs : R s l) (ht : ∀ p ∈ es.head?, ∀ time ∈ after, ¬p.1.time.past time) :
    ∃ t, (downFrom each left done cid after).run s =
      .ok { done with entries := done.entries + es.length, first := 1 } t ∧ R t (l ++ es) := by
  induction es generalizing left done cid after s l with
  | nil => exact absurd hl.2 (by simp)
  | cons p es ih =>
    obtain ⟨e, cid'⟩ := p
    obtain ⟨hlink, hn, hpos, hseq, htime, hrest⟩ := hl
    cases hlink
    obtain ⟨left, rfl⟩ : ∃ n, left = n + 1 := ⟨left - 1, by rw [length_cons] at hleft; omega⟩
    obtain ⟨s₁, hentry, hs₁⟩ := hh.entry s l cid e hs hn
    unfold Journal.downFrom
    rw [bind_ok (run_mapError_ok hentry), ensure_pos hseq, pure_bind,
      ensure_pos (ht (e, cid) rfl), pure_bind, bind_ok (run_modify _ _)]
    rcases es with _ | ⟨⟨e', cid'⟩, es⟩
    · obtain ⟨hzero, hprev⟩ := hrest
      have hone : e.seq = 1 := by omega
      refine ⟨each e cid s₁, ?_, hs₁⟩
      rw [hprev, hone]
      rfl
    · have hprev : e.prev = some cid' := hrest.1
      rw [hprev] at hrest ⊢
      have hnext : ∀ p ∈ ((e', cid') :: es).head?, ∀ time ∈ some e.time, ¬p.1.time.past time := by
        intro p hp time hmem
        cases Option.mem_some_iff.mp hmem
        exact htime p hp
      let done' : Checked := { done with entries := done.entries + 1, first := e.seq }
      have hrest' : Linked w.blocks (done'.version - done'.entries) (some cid') ((e', cid') :: es) := hrest
      obtain ⟨t, hrun, ht⟩ := ih hrest' (Nat.le_of_succ_le_succ hleft) hs₁ hnext
      refine ⟨t, ?_, by rwa [append_assoc] at ht⟩
      simp only [length_cons, done'] at hrun ⊢
      rw [hrun]
      congr 2
      omega

theorem Hears.checkEach (name : Bytes) {s : J} (hs : R s [])
    (hl : Linked w.blocks w.history.length (w.rootAt w.history.length) es)
    (hpos : 0 < w.history.length) (hsteps : w.history.length ≤ steps) :
    ∃ t, (checkEach name steps each).run s =
      .ok ⟨w.history.length, w.history.length, 1, w.history.length⟩ t ∧ R t es := by
  have hlen := hl.length
  rcases es with _ | ⟨⟨e, cid⟩, es⟩
  · rw [length_nil] at hlen
    omega
  have hroot : w.rootAt w.history.length = some cid := hl.1
  have hhead := hh.head s [] name hs
  rw [hroot] at hl hhead
  let done : Checked := ⟨w.history.length, 0, (w.history.length + 1) % 2 ^ 64, w.history.length⟩
  have hl' : Linked w.blocks (done.version - done.entries) (some cid) ((e, cid) :: es) := hl
  have hafter : ∀ p ∈ ((e, cid) :: es).head?, ∀ time ∈ (none : Option Time), ¬p.1.time.past time := by simp
  obtain ⟨t, hrun, ht⟩ := hh.downFrom hl' (hlen.le.trans hsteps) hs hafter
  refine ⟨t, ?_, ht⟩
  unfold Journal.checkEach down
  rw [bind_assoc, bind_ok (run_mapError_ok hhead), bind_ok hrun, ensure_pos rfl, pure_bind, run_pure, hlen]
  simp only [done, Nat.zero_add]

end Heard

/-- An append that nothing comes between is a run of the writers. -/
theorem append_reaches {a : Appended} (h : Reaches name s) (hc : c.Typed)
    (hr : (append name c.now c.source c.kind c.content).run s.world = .ok a world) :
    Reaches name ⟨world, s.writers ++ [.appended a]⟩ := by
  have hgoes : ∀ {m m' : World} {w w' : Writer}, Reaches name ⟨m, s.writers ++ [w]⟩ →
      (w.advance name).run m = .ok w' m' → Reaches name ⟨m', s.writers ++ [w']⟩ := by
    intro m m' w w' h hr
    have hstep := @Step.goes _ name ⟨m, s.writers ++ [w]⟩ s.writers.length w w' m' (by simp) hr
    apply h.tail
    simpa using hstep
  have hparts := append_eq name c s.world
  rw [bind_ok hr, run_pure] at hparts
  obtain ⟨w₁, m₁, h₁, hparts⟩ := bind_eq_ok.mp hparts
  obtain ⟨w₂, m₂, h₂, hparts⟩ := bind_eq_ok.mp hparts
  obtain ⟨w₃, m₃, h₃, h₄⟩ := bind_eq_ok.mp hparts
  exact hgoes (hgoes (hgoes (hgoes (h.tail (.call s c hc)) h₁) h₂) h₃) h₄

theorem Linked.version_eq {blocks : List Bytes} (hd : Distinct blocks) {v v' : Nat} {root : Cid}
    {es' : List (Entry × Cid)} (h : Linked blocks v (some root) es)
    (h' : Linked blocks v' (some root) es') : v = v' := by
  rcases es with _ | ⟨⟨e, cid⟩, es⟩
  · exact absurd h.2 (by simp)
  rcases es' with _ | ⟨⟨e', cid'⟩, es'⟩
  · exact absurd h'.2 (by simp)
  obtain ⟨hlink, hn, _, hseq, _⟩ := h
  obtain ⟨hlink', hn', _, hseq', _⟩ := h'
  cases hlink
  cases hlink'
  rw [← hseq, ← hseq', Names.unique hd hn hn']

/-- Whatever writers do, a check of what they published ends well and is given every version's entry, each
linked to the one before it; an append is what writers do; and a check of any store that ends well at a version was given a
chain of as many entries from the root on, so that one root passes at one version only. -/
theorem journal_is_one_chain (name : Bytes) :
    (∀ s : System, Reaches name s → Distinct s.world.blocks → 0 < s.world.history.length →
      ∀ steps, s.world.history.length ≤ steps →
        (check name steps).run s.world =
          .ok ⟨s.world.history.length, s.world.history.length, 1, s.world.history.length⟩ s.world ∧
        ∃ t, (checkEach name steps (hear fun _ _ j => j)).run (.new s.world) =
          .ok ⟨s.world.history.length, s.world.history.length, 1, s.world.history.length⟩ t ∧
          Chain s.world t.seen) ∧
    (∀ (s : System) (c : Call) (a : Appended) (world : World), Reaches name s → c.Typed →
      (append name c.now c.source c.kind c.content).run s.world = .ok a world →
      Reaches name ⟨world, s.writers ++ [.appended a]⟩) ∧
    (∀ (J : Type) [Store J] (each : Entry → Cid → J → J) (j u : J) (version steps : Nat)
      (root : Cid) (done : Checked) (t : Watched (Entry × Cid) J),
      (Store.head name).run j = .ok (version, some root) u → 0 < version → version < 2 ^ 64 →
      (checkEach name steps (hear each)).run (.new j) = .ok done t →
      done = ⟨version, version, 1, version⟩ ∧ Linked t.met version (some root) t.seen) ∧
    (∀ (J : Type) [Store J] (each each' : Entry → Cid → J → J) (j j' u u' : J)
      (version version' steps steps' : Nat) (root : Cid) (done done' : Checked)
      (t t' : Watched (Entry × Cid) J),
      (Store.head name).run j = .ok (version, some root) u → 0 < version → version < 2 ^ 64 →
      (Store.head name).run j' = .ok (version', some root) u' → 0 < version' →
      version' < 2 ^ 64 → Distinct (t.met ++ t'.met) →
      (checkEach name steps (hear each)).run (.new j) = .ok done t →
      (checkEach name steps' (hear each')).run (.new j') = .ok done' t' → version = version') := by
  refine ⟨?_, fun s c a world hs hc hr => append_reaches hs hc hr, ?_, ?_⟩
  · intro s hs hd hpos steps hsteps
    obtain ⟨es, hchain⟩ := (reaches_inv hs hd).chain
    obtain ⟨_, hcheck, rfl⟩ := (hears_world hd).checkEach name rfl hchain.1 hpos hsteps
    obtain ⟨t, hrun, -, rfl⟩ := (hears_watched hd).checkEach name (s := .new s.world) ⟨rfl, rfl⟩
      hchain.1 hpos hsteps
    exact ⟨hcheck, t, hrun, hchain⟩
  · intro J _ each j u version steps root done t hhead hpos h64 hrun
    exact checkEach_linked hhead hpos h64 hrun
  · intro J _ each each' j j' u u' v v' steps steps' root done done' t t' hh hp h64 hh' hp' h64' hd
      hrun hrun'
    have hl := (checkEach_linked hh hp h64 hrun).2.mono (subset_append_left t.met t'.met)
    have hl' := (checkEach_linked hh' hp' h64' hrun').2.mono (subset_append_right t.met t'.met)
    exact hl.version_eq hd hl'

end System

section Rewritten

/-- Three entries: a first one, another first one, and the entry after that. -/
def first : Entry := ⟨1, ⟨1, 0, 0, .none⟩, [0x61], [0x61], default, none⟩

def otherFirst : Entry := ⟨1, ⟨1, 0, 0, .none⟩, [0x61], [0x61, 0x61], default, none⟩

def otherSecond [Sha256] : Entry :=
  ⟨2, ⟨1, 0, 0, .none⟩, [0x61], [0x61], default, some (Cid.of .dagCbor (encodeWith otherFirst))⟩

def rewritten [Sha256] : World where
  blocks := [encodeWith first, encodeWith otherFirst, encodeWith otherSecond]
  history := [some (Cid.of .dagCbor (encodeWith first)), some (Cid.of .dagCbor (encodeWith otherSecond))]

theorem names_of_encode [Sha256] {blocks : List Bytes} {e : Entry} (ht : e.Typed) (hv : e.valid)
    (hb : encodeWith e ∈ blocks) : Names blocks (Cid.of .dagCbor (encodeWith e)) e :=
  ⟨rfl, _, hb, rfl, decode_encode ht hv⟩

instance (e : Entry) : Decidable e.Typed := inferInstanceAs (Decidable (_ ∧ _))

theorem rewritten_distinct : @Distinct Dag.lengthDigest (@rewritten Dag.lengthDigest).blocks := by
  let := Dag.lengthDigest
  have h : ∀ b ∈ rewritten.blocks, ∀ c ∈ rewritten.blocks,
      Sha256.digest b = Sha256.digest c → b = c := by decide +kernel
  exact fun b hb c hc => h b hb c hc

/-- The check of a name whose second version is a whole other journal of two entries ends well,
though its root does not link the root of the version before. -/
theorem rewritten_journal_passes : letI := Dag.lengthDigest
    Distinct rewritten.blocks ∧ rewritten.history.length = 2 ∧
      (∀ root ∈ rewritten.rootAt 1, otherSecond.prev ≠ some root) ∧
      (∀ root ∈ rewritten.rootAt 2, Names rewritten.blocks root otherSecond) ∧
      ∃ t, (checkEach [] 2 (hear fun _ _ j => j)).run (.new rewritten) = .ok ⟨2, 2, 1, 2⟩ t := by
  let := Dag.lengthDigest
  have hfirst : Names rewritten.blocks (Cid.of .dagCbor (encodeWith otherFirst)) otherFirst :=
    names_of_encode (by decide) (by decide) (by simp [rewritten])
  have hsecond : Names rewritten.blocks (Cid.of .dagCbor (encodeWith otherSecond)) otherSecond :=
    names_of_encode (by decide) (by decide) (by simp [rewritten])
  refine ⟨rewritten_distinct, rfl, ?_, ?_, ?_⟩
  · rintro root hroot
    cases hroot
    decide
  · rintro root hroot
    cases hroot
    exact hsecond
  · have hl : Linked rewritten.blocks rewritten.history.length
        (rewritten.rootAt rewritten.history.length)
        [(otherSecond, Cid.of .dagCbor (encodeWith otherSecond)),
          (otherFirst, Cid.of .dagCbor (encodeWith otherFirst))] := by
      refine ⟨rfl, hsecond, by decide, rfl, ?_, rfl, hfirst, by decide, rfl, by simp, rfl, rfl⟩
      intro before hb
      cases Option.mem_some_iff.mp hb
      decide
    obtain ⟨t, hrun, _⟩ := (hears_watched rewritten_distinct).checkEach _ (s := .new rewritten) ⟨rfl, rfl⟩ hl
      (by decide) (Nat.le_refl 2)
    exact ⟨t, hrun⟩

end Rewritten

end MindCore.Journal
