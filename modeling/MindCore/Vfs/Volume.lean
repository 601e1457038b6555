import Mathlib.Tactic.Common

/-!
# The volume under the handle table

A volume is seen as its directory entries and the chains of its FAT: the place of each entry, its first
cluster and size, and the clusters that follow a first one. Each entry carries the number of the file or
directory it is, which a rename keeps: the server does not know it.
-/

namespace MindCore.Vfs

open Function
open List

structure At where
  lba : Nat
  offset : Nat
  deriving DecidableEq, Repr

structure Node where
  cluster : Nat
  size : Nat
  dir : Bool
  entry : Option At
  deriving DecidableEq, Repr

structure Entry where
  place : At
  parent : Nat
  cluster : Nat
  size : Nat
  dir : Bool
  id : Nat
  deriving DecidableEq, Repr

def Entry.node (e : Entry) : Node := ⟨e.cluster, e.size, e.dir, some e.place⟩

/-- `rest` is what follows a first cluster in its chain. -/
structure Volume where
  root : Nat
  rest : Nat → List Nat
  entries : List Entry

namespace Volume

def rootNode (v : Volume) : Node := ⟨v.root, 0, true, none⟩

def find (v : Volume) (place : At) : Option Entry := v.entries.find? fun e => e.place = place

def chain (v : Volume) (first : Nat) : List Nat := if 2 ≤ first then first :: v.rest first else []

/-- The root directory, or what an entry is of. -/
def nodeAt (v : Volume) : Option At → Option Node
  | none => some v.rootNode
  | some place => (v.find place).map Entry.node

def without (v : Volume) (place : At) : Volume := { v with entries := v.entries.filter fun e => e.place ≠ place }

def freePlace (v : Volume) (place : At) : Bool := v.entries.all fun e => e.place ≠ place

def freeCluster (v : Volume) (c : Nat) : Bool :=
  2 ≤ c && c ∉ v.chain v.root && v.entries.all fun e => c ∉ v.chain e.cluster

/-- `link_chain` and `free_chain`: `clusters` is one chain from its head. -/
def link (v : Volume) (clusters : List Nat) : Volume :=
  { v with rest := update v.rest (clusters.headD 0) clusters.tail }

end Volume

def Entry.stored (node : Node) (e : Entry) : Entry :=
  if node.entry = some e.place then { e with cluster := node.cluster, size := node.size, dir := node.dir }
  else e

def Volume.store (v : Volume) (node : Node) : Volume :=
  { v with entries := v.entries.map (Entry.stored node) }

def Entry.moved (place newPlace : At) (parent : Nat) (e : Entry) : Entry :=
  if e.place = place then { e with place := newPlace, parent } else e

/-- A file on the chain `clusters`. -/
def Node.resize (node : Node) (clusters : List Nat) (size : Nat) : Node :=
  { node with cluster := clusters.headD 0, size }

/-- The chain of a file after a write, with the free clusters `more` behind it. -/
def Volume.grown (v : Volume) (node : Node) (more : List Nat) : List Nat := v.chain node.cluster ++ more

/-- The chain of a file cut to `size` bytes, which take up `keep` clusters. -/
def Volume.cut (v : Volume) (node : Node) (size keep : Nat) : List Nat :=
  if size = 0 then [] else (v.chain node.cluster).take keep

def Volume.mayTake (v : Volume) (more : List Nat) : Bool := more.Nodup && more.all v.freeCluster

def Volume.resize (v : Volume) (node : Node) (clusters : List Nat) (size : Nat) : Volume :=
  (v.link clusters).store (node.resize clusters size)

def Volume.move (v : Volume) (place newPlace : At) (parent : Nat) : Volume :=
  { v with entries := v.entries.map (Entry.moved place newPlace parent) }

/-! ### Whose a cluster is -/

/-- The first cluster of the file or directory, or of the root directory. -/
def Volume.Starts (v : Volume) (first : Nat) : Option Nat → Prop
  | none => first = v.root
  | some id => ∃ e ∈ v.entries, e.id = id ∧ first = e.cluster

def Volume.Owns (v : Volume) (c : Nat) (id : Option Nat) : Prop := ∃ first, v.Starts first id ∧ c ∈ v.chain first

/-- Places and numbers tell the entries of a volume apart, each cluster is one file's or directory's,
and a directory has one. -/
structure Sound (v : Volume) : Prop where
  place : ∀ e ∈ v.entries, ∀ e' ∈ v.entries, e.place = e'.place → e = e'
  id : ∀ e ∈ v.entries, ∀ e' ∈ v.entries, e.id = e'.id → e = e'
  owner : ∀ c a b, v.Owns c a → v.Owns c b → a = b
  dir : ∀ e ∈ v.entries, e.dir = true → 2 ≤ e.cluster

/-- The node is that of the entry of the file or directory, or the root's. -/
def Follows (v : Volume) (node : Node) : Option Nat → Prop
  | none => node = v.rootNode
  | some id => ∃ e ∈ v.entries, e.id = id ∧ node = e.node

instance (v : Volume) (node : Node) : (id : Option Nat) → Decidable (Follows v node id)
  | none => inferInstanceAs (Decidable (node = v.rootNode))
  | some id => inferInstanceAs (Decidable (∃ e ∈ v.entries, e.id = id ∧ node = e.node))

variable {v v' : Volume} {e e' : Entry} {node : Node} {id : Option Nat} {c first : Nat}
  {clusters : List Nat} {place newPlace : At} {parent : Nat}

theorem mem_of_find (h : v.find place = some e) : e ∈ v.entries ∧ e.place = place :=
  ⟨mem_of_find?_eq_some h, by simpa using find?_some h⟩

theorem freePlace_iff : v.freePlace place = true ↔ ∀ e ∈ v.entries, e.place ≠ place := by
  simp [Volume.freePlace]

theorem Follows.or (h : Follows v node id) :
    node = v.rootNode ∧ id = none ∨ ∃ e ∈ v.entries, node = e.node ∧ id = some e.id := by
  cases id with
  | none => exact .inl ⟨h, rfl⟩
  | some id =>
    obtain ⟨e, he, rfl, rfl⟩ := h
    exact .inr ⟨e, he, rfl, rfl⟩

theorem follows_nodeAt {at_ : Option At} (h : v.nodeAt at_ = some node) : ∃ id, Follows v node id := by
  cases at_ with
  | none => exact ⟨none, (Option.some.inj h).symm⟩
  | some place =>
    obtain ⟨e, he, rfl⟩ := Option.map_eq_some_iff.mp h
    exact ⟨some e.id, e, (mem_of_find he).1, rfl, rfl⟩

theorem Follows.starts (h : Follows v node id) : v.Starts node.cluster id := by
  cases id with
  | none => exact congrArg Node.cluster h
  | some id =>
    obtain ⟨e, he, hid, rfl⟩ := h
    exact ⟨e, he, hid, rfl⟩

theorem two_le_of_mem (h : c ∈ v.chain first) : 2 ≤ first := by
  by_contra hlt
  rw [Volume.chain, if_neg hlt] at h
  cases h

theorem Volume.Starts.owns (h : v.Starts first id) (htwo : 2 ≤ first) : v.Owns first id :=
  ⟨first, h, by simp [Volume.chain, htwo]⟩

theorem freeCluster_iff : v.freeCluster c = true ↔ 2 ≤ c ∧ ∀ id, ¬v.Owns c id := by
  simp only [Volume.freeCluster, Bool.and_eq_true, all_eq_true, decide_eq_true_eq]
  constructor
  · rintro ⟨⟨htwo, hroot⟩, hall⟩
    refine ⟨htwo, fun id hid => ?_⟩
    cases id with
    | none =>
      obtain ⟨first, rfl, hc⟩ := hid
      exact hroot hc
    | some id =>
      obtain ⟨first, ⟨e, he, -, rfl⟩, hc⟩ := hid
      exact hall e he hc
  · rintro ⟨htwo, hall⟩
    exact ⟨⟨htwo, fun hc => hall none ⟨_, rfl, hc⟩⟩,
      fun e he hc => hall (some e.id) ⟨_, ⟨e, he, rfl, rfl⟩, hc⟩⟩

theorem Volume.Owns.mono (h : ∀ first id, v'.Starts first id → v.Starts first id) (hrest : v'.rest = v.rest)
    (hown : v'.Owns c id) : v.Owns c id := by
  obtain ⟨first, hstarts, hc⟩ := hown
  exact ⟨first, h first id hstarts, by simpa [Volume.chain, hrest] using hc⟩

theorem Sound.subset (hv : Sound v) (hroot : v'.root = v.root) (hrest : v'.rest = v.rest)
    (h : ∀ e ∈ v'.entries, e ∈ v.entries) : Sound v' := by
  have hstarts : ∀ first id, v'.Starts first id → v.Starts first id := by
    intro first id hs
    cases id with
    | none => exact hs.trans hroot
    | some id =>
      obtain ⟨e, he, hs⟩ := hs
      exact ⟨e, h e he, hs⟩
  exact ⟨fun a ha b hb => hv.place a (h a ha) b (h b hb), fun a ha b hb => hv.id a (h a ha) b (h b hb),
    fun c a b ha hb => hv.owner c a b (ha.mono hstarts hrest) (hb.mono hstarts hrest),
    fun a ha => hv.dir a (h a ha)⟩

theorem Follows.mono (hf : Follows v node id) (hm : ∀ e ∈ v.entries, node = e.node → e ∈ v'.entries)
    (hr : v'.root = v.root) : Follows v' node id := by
  cases id with
  | none => simpa [Follows, Volume.rootNode, hr] using hf
  | some id =>
    obtain ⟨e, he, hid, hn⟩ := hf
    exact ⟨e, hm e he hn, hid, hn⟩

theorem Sound.map {f : Entry → Entry} (hv : Sound v) (hentries : v'.entries = v.entries.map f)
    (hid : ∀ e, (f e).id = e.id)
    (hplace : ∀ a ∈ v.entries, ∀ b ∈ v.entries, (f a).place = (f b).place → a.place = b.place)
    (howner : ∀ c a b, v'.Owns c a → v'.Owns c b → a = b)
    (hdir : ∀ e ∈ v.entries, (f e).dir = true → 2 ≤ (f e).cluster) : Sound v' := by
  refine ⟨?_, ?_, howner, ?_⟩ <;> rw [hentries]
  · intro a' ha' b' hb' hab
    obtain ⟨a, ha, rfl⟩ := mem_map.mp ha'
    obtain ⟨b, hb, rfl⟩ := mem_map.mp hb'
    rw [hv.place a ha b hb (hplace a ha b hb hab)]
  · intro a' ha' b' hb' hab
    obtain ⟨a, ha, rfl⟩ := mem_map.mp ha'
    obtain ⟨b, hb, rfl⟩ := mem_map.mp hb'
    rw [hid, hid] at hab
    rw [hv.id a ha b hb hab]
  · intro a' ha'
    obtain ⟨a, ha, rfl⟩ := mem_map.mp ha'
    exact hdir a ha

/-! ### Chains -/

theorem mem_link (h : c ∈ (v.link clusters).chain first) :
    first = clusters.headD 0 ∧ c ∈ clusters ∨ first ≠ clusters.headD 0 ∧ c ∈ v.chain first := by
  have htwo := two_le_of_mem h
  by_cases hf : first = clusters.headD 0
  · cases clusters with
    | nil =>
      rw [hf] at htwo
      cases htwo
    | cons a l =>
      rw [hf] at h htwo
      simp only [headD_cons] at h htwo
      exact .inl ⟨hf, by simpa [Volume.chain, Volume.link, htwo] using h⟩
  · rw [Volume.chain, if_pos htwo, show (v.link clusters).rest first = v.rest first from update_of_ne hf _ _] at h
    exact .inr ⟨hf, by rwa [Volume.chain, if_pos htwo]⟩

theorem head_mem (htwo : 2 ≤ clusters.headD 0) : clusters.headD 0 ∈ clusters := by
  cases clusters with
  | nil => cases htwo
  | cons a l => exact mem_cons_self

/-- Only `own` comes to start anywhere else, and on a chain of its own and of free clusters. -/
theorem Sound.linked (hv : Sound v) (own : Option Nat)
    (hclusters : ∀ c ∈ clusters, v.Owns c own ∨ v.freeCluster c = true)
    (hrest : v'.rest = (v.link clusters).rest)
    (hstarts : ∀ first id, v'.Starts first id → v.Starts first id ∨ first = clusters.headD 0 ∧ id = own) :
    ∀ c a b, v'.Owns c a → v'.Owns c b → a = b := by
  have hmine : ∀ c a, v'.Owns c a → v.Owns c a ∨ a = own ∧ v.freeCluster c = true := by
    rintro c a ⟨first, hfirst, hc⟩
    have hlink : c ∈ (v.link clusters).chain first := by simpa [Volume.chain, hrest] using hc
    have htwo := two_le_of_mem hc
    rcases mem_link hlink with ⟨rfl, hmem⟩ | ⟨hne, hmem⟩
    · have ha : a = own := by
        rcases hstarts _ a hfirst with hold | ⟨-, ha⟩
        · rcases hclusters _ (head_mem htwo) with hown | hfree
          · exact hv.owner _ a own (hold.owns htwo) hown
          · exact absurd (hold.owns htwo) ((freeCluster_iff.mp hfree).2 a)
        · exact ha
      rw [ha]
      exact (hclusters c hmem).imp_right fun hfree => ⟨rfl, hfree⟩
    · rcases hstarts _ a hfirst with hold | ⟨heq, -⟩
      · exact .inl ⟨first, hold, hmem⟩
      · exact absurd heq hne
  intro c a b ha hb
  rcases hmine c a ha with ha | ⟨ha, hfree⟩ <;> rcases hmine c b hb with hb | ⟨hb, hfree'⟩
  · exact hv.owner c a b ha hb
  · exact absurd ha ((freeCluster_iff.mp hfree').2 a)
  · exact absurd hb ((freeCluster_iff.mp hfree).2 b)
  · rw [ha, hb]

theorem mem_grown {more : List Nat} (hmore : v.mayTake more = true) (hc : c ∈ v.grown node more) :
    c ∈ v.chain node.cluster ∨ v.freeCluster c = true := by
  simp only [Volume.mayTake, Bool.and_eq_true, all_eq_true] at hmore
  exact (mem_append.mp hc).imp_right (hmore.2 c)

theorem mem_cut {size keep : Nat} (hc : c ∈ v.cut node size keep) : c ∈ v.chain node.cluster := by
  unfold Volume.cut at hc
  split at hc
  · cases hc
  · exact mem_of_mem_take hc

/-- A directory grows. -/
theorem Sound.grown (hv : Sound v) (hf : Follows v node id) {more : List Nat}
    (hmore : v.mayTake more = true) : Sound (v.link (v.grown node more)) := by
  refine ⟨hv.place, hv.id, hv.linked id ?_ rfl fun _ _ h => .inl h, hv.dir⟩
  intro c hc
  exact (mem_grown hmore hc).imp_left fun hc => ⟨_, hf.starts, hc⟩

theorem Sound.append (hv : Sound v) (hp : v.freePlace e.place = true) (hid : ∀ e' ∈ v.entries, e'.id ≠ e.id)
    (hc : ∀ c ∈ clusters, v.freeCluster c = true) (hfirst : e.cluster = clusters.headD 0)
    (hdir : e.dir = true → 2 ≤ e.cluster) :
    Sound { v.link clusters with entries := v.entries ++ [e] } := by
  rw [freePlace_iff] at hp
  have hcases : ∀ a ∈ v.entries ++ [e], a ∈ v.entries ∨ a = e := by simp
  refine ⟨?_, ?_, hv.linked (some e.id) (fun c h => .inr (hc c h)) rfl ?_, ?_⟩
  · intro a ha b hb hab
    rcases hcases a ha with hma | rfl <;> rcases hcases b hb with hmb | rfl
    · exact hv.place a hma b hmb hab
    · exact absurd hab (hp a hma)
    · exact absurd hab.symm (hp b hmb)
    · rfl
  · intro a ha b hb hab
    rcases hcases a ha with hma | rfl <;> rcases hcases b hb with hmb | rfl
    · exact hv.id a hma b hmb hab
    · exact absurd hab (hid a hma)
    · exact absurd hab.symm (hid b hmb)
    · rfl
  · intro first id hs
    cases id with
    | none => exact .inl hs
    | some id =>
      obtain ⟨a, ha, haid, rfl⟩ := hs
      rcases hcases a ha with ha | rfl
      · exact .inl ⟨a, ha, haid, rfl⟩
      · exact .inr ⟨hfirst, congrArg some haid.symm⟩
  · intro a ha
    rcases hcases a ha with ha | rfl
    · exact hv.dir a ha
    · exact hdir

/-! ### A file's node is stored -/

theorem stored_fields (node : Node) (e : Entry) :
    (e.stored node).place = e.place ∧ (e.stored node).id = e.id := by
  unfold Entry.stored
  split <;> exact ⟨rfl, rfl⟩

theorem stored_node (h : node.entry = some e.place) : (e.stored node).node = node := by
  rw [Entry.stored, if_pos h]
  obtain ⟨c, z, d, p⟩ := node
  exact congrArg _ h.symm

theorem Sound.stored_other (hv : Sound v) (hm : e ∈ v.entries) (hentry : node.entry = some e.place)
    (hm' : e' ∈ v.entries) (hne : e' ≠ e) : e'.stored node = e' := by
  refine if_neg fun hp => hne (hv.place e' hm' e hm ?_)
  rw [hentry] at hp
  exact (Option.some.inj hp).symm

/-- The entry of a file is given `node`, and with it every node that was the entry's. -/
structure Renews (v v' : Volume) (e : Entry) (node : Node) : Prop where
  mem : e ∈ v.entries
  file : e.dir = false
  entry : node.entry = some e.place
  sound : Sound v'
  follows : ∀ n id, Follows v n id → Follows v' (if n.entry = some e.place then node else n) id
  followed : Follows v' node (some e.id)

theorem Renews.dir {n : Node} (h : Renews v v' e node) (hv : Sound v) (hf : Follows v n id) (hd : n.dir = true) :
    Follows v' n id := by
  have hnot : n.entry ≠ some e.place := by
    intro hentry
    rcases hf.or with ⟨rfl, -⟩ | ⟨a, ha, rfl, -⟩
    · cases hentry
    · rw [hv.place a ha e h.mem (Option.some.inj hentry)] at hd
      cases h.file.symm.trans hd
  have := h.follows n id hf
  rwa [if_neg hnot] at this

theorem Sound.renews (hv : Sound v) (hm : e ∈ v.entries) (hfile : e.dir = false) : Renews v v e e.node := by
  refine ⟨hm, hfile, rfl, hv, ?_, ⟨e, hm, rfl, rfl⟩⟩
  intro n id hf
  split
  · rename_i hentry
    rcases hf.or with ⟨rfl, -⟩ | ⟨a, ha, rfl, -⟩
    · cases hentry
    · rwa [← hv.place a ha e hm (Option.some.inj hentry)]
  · exact hf

/-- A file on a chain of its own and of free clusters. -/
theorem Sound.resize (hv : Sound v) (hm : e ∈ v.entries) (hfile : e.dir = false) (size : Nat)
    (hown : ∀ c ∈ clusters, c ∈ v.chain e.cluster ∨ v.freeCluster c = true) :
    Renews v (v.resize e.node clusters size) e (e.node.resize clusters size) := by
  have hclusters : ∀ c ∈ clusters, v.Owns c (some e.id) ∨ v.freeCluster c = true :=
    fun c hc => (hown c hc).imp_left fun hc => ⟨_, ⟨e, hm, rfl, rfl⟩, hc⟩
  have hself : (e.stored (e.node.resize clusters size)).node = e.node.resize clusters size := stored_node rfl
  refine ⟨hm, hfile, rfl, ?_, ?_, ⟨e.stored _, mem_map_of_mem hm, (stored_fields _ e).2, hself.symm⟩⟩
  · refine hv.map rfl (fun a => (stored_fields _ a).2) ?_
      (hv.linked (some e.id) hclusters rfl ?_) ?_
    · intro a _ b _ hab
      rwa [(stored_fields _ a).1, (stored_fields _ b).1] at hab
    · intro first id hs
      cases id with
      | none => exact .inl hs
      | some id =>
        obtain ⟨_, ha', hid, rfl⟩ := hs
        obtain ⟨a, ha, rfl⟩ := mem_map.mp ha'
        rw [(stored_fields _ a).2] at hid
        by_cases hae : a = e
        · rw [hae] at hid ⊢
          exact .inr ⟨congrArg Node.cluster hself, congrArg some hid.symm⟩
        · rw [hv.stored_other hm rfl ha hae]
          exact .inl ⟨a, ha, hid, rfl⟩
    · intro a ha hd
      by_cases hae : a = e
      · rw [hae, show (e.stored _).dir = e.dir from congrArg Node.dir hself, hfile] at hd
        cases hd
      · rw [hv.stored_other hm rfl ha hae] at hd ⊢
        exact hv.dir a ha hd
  · intro n id hf
    rcases hf.or with ⟨rfl, rfl⟩ | ⟨a, ha, rfl, rfl⟩
    · exact if_neg nofun
    · refine ⟨a.stored _, mem_map_of_mem ha, (stored_fields _ a).2, ?_⟩
      by_cases hae : a = e
      · rw [hae, hself]
        exact if_pos rfl
      · rw [hv.stored_other hm rfl ha hae, if_neg]
        intro hp
        exact hae (hv.place a ha e hm (Option.some.inj hp))

/-! ### An entry moves -/

theorem moved_fields (e : Entry) : (e.moved place newPlace parent).id = e.id ∧
    (e.moved place newPlace parent).cluster = e.cluster ∧ (e.moved place newPlace parent).dir = e.dir := by
  unfold Entry.moved
  split <;> exact ⟨rfl, rfl, rfl⟩

theorem Sound.moved (hv : Sound v) (hp : v.freePlace newPlace = true) : Sound (v.move place newPlace parent) := by
  rw [freePlace_iff] at hp
  have hstarts : ∀ first id, (v.move place newPlace parent).Starts first id → v.Starts first id := by
    intro first id hs
    cases id with
    | none => exact hs
    | some id =>
      obtain ⟨_, ha', hid, rfl⟩ := hs
      obtain ⟨a, ha, rfl⟩ := mem_map.mp ha'
      exact ⟨a, ha, (moved_fields a).1.symm.trans hid, (moved_fields a).2.1⟩
  refine hv.map rfl (fun a => (moved_fields a).1) ?_
    (fun c a b ha hb => hv.owner c a b (ha.mono hstarts rfl) (hb.mono hstarts rfl)) ?_
  · intro a ha b hb hab
    have := hp a ha
    have := hp b hb
    unfold Entry.moved at hab
    grind
  · intro a ha
    rw [(moved_fields a).2.1, (moved_fields a).2.2]
    exact hv.dir a ha

theorem Follows.moved (newPlace : At) (parent : Nat) (hv : Sound v) (hm : e ∈ v.entries)
    (hp : e.place = place) (hf : Follows v node id) : Follows (v.move place newPlace parent)
      (if node.entry = some place then { e.node with entry := some newPlace } else node) id := by
  rcases hf.or with ⟨rfl, rfl⟩ | ⟨a, ha, rfl, rfl⟩
  · exact if_neg nofun
  · refine ⟨a.moved place newPlace parent, mem_map_of_mem ha, (moved_fields a).1, ?_⟩
    by_cases hplace : a.place = place
    · rw [hv.place a ha e hm (hplace.trans hp.symm)]
      simp [Entry.moved, Entry.node, hp]
    · simp [Entry.moved, Entry.node, hplace]

end MindCore.Vfs
