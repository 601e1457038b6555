import MindCore.Vfs.Volume

/-!
# The handle table of the file server

Which entry a path leads to and which places and clusters a change takes are any that are there or free;
a refused request changes nothing and is left out. Each handle carries the number of the file or
directory it was opened on, which the server does not know.
-/

namespace MindCore.Vfs

open Function
open List

structure Handle where
  owner : Nat
  volume : Nat
  node : Node
  id : Option Nat
  deriving DecidableEq, Repr

structure Scope where
  volume : Nat
  node : Node
  id : Option Nat
  deriving DecidableEq, Repr

structure Server where
  volumes : Nat → Volume
  handles : List (Option Handle)
  scopes : List Scope

def handlesMax : Nat := 96

def scopesMax : Nat := 64

/-- `add`: handles of dead clients are freed when the table is full. -/
def Server.add (dead : Nat → Bool) (h : Handle) (s : Server) : Option Server :=
  let handles := if s.handles.any Option.isNone then s.handles
    else s.handles.map fun o => o.filter fun h => !dead h.owner
  match handles.findIdx? Option.isNone with
  | none => none
  | some i => some { s with handles := handles.set i (some h) }

/-- A volume changes: `f` gives the node that each handle on it has then, or closes the handle, and a
scope stays where `keep` says so. -/
def Server.change (volume : Nat) (v : Volume) (f : Node → Option Node) (keep : Node → Bool) (s : Server) :
    Server where
  volumes := update s.volumes volume v
  handles := s.handles.map fun o => o.bind fun h =>
    if h.volume = volume then (f h.node).map fun node => { h with node } else some h
  scopes := s.scopes.filter fun c => c.volume ≠ volume || keep c.node

def Server.store (volume : Nat) (v : Volume) (s : Server) : Server := s.change volume v some fun _ => true

def Server.refresh (volume : Nat) (v : Volume) (node : Node) (s : Server) : Server :=
  s.change volume v (fun n => some (if node.entry ≠ none ∧ n.entry = node.entry then node else n)) fun _ => true

inductive Move where
  | root (volume owner : Nat) (dead : Nat → Bool)
  | scopeRoot (scope owner : Nat) (dead : Nat → Bool)
  | openDir (volume : Nat) (place : At) (owner : Nat) (dead : Nat → Bool)
  | openSame (handle owner : Nat) (dead : Nat → Bool)
  | growDir (volume : Nat) (dir : Option At) (more : List Nat)
  | create (volume : Nat) (e : Entry)
  | openFile (volume : Nat) (place : At) (truncate : Bool) (owner : Nat) (dead : Nat → Bool)
  | write (handle fin : Nat) (more : List Nat)
  | truncate (handle size keep : Nat) (more : List Nat)
  | remove (volume : Nat) (place : At)
  | rename (volume : Nat) (place newPlace : At) (parent : Nat)
  | scope (handle : Nat)
  | endScope (scope : Nat)
  | close (handle : Nat)
  | format (volume root : Nat)
  | journalSave (volume : Nat) (place : At) (fin : Nat) (more : List Nat)
  | journalRemove (volume : Nat) (place : At)

def Server.handle (s : Server) (i : Nat) : Option Handle := s.handles[i]?.join

/-- The file of a node is put on the chain `clusters`, and the handles of its entry see it. -/
def Server.resize (volume : Nat) (node : Node) (clusters : List Nat) (size : Nat) (s : Server) : Server :=
  s.refresh volume ((s.volumes volume).resize node clusters size) (node.resize clusters size)

def Entry.heads (e : Entry) (node : Node) : Bool := 2 ≤ e.cluster && node.cluster = e.cluster

/-- A new directory has one cluster, a new file none. -/
def Entry.first (e : Entry) : List Nat := if e.dir then [e.cluster] else []

/-- A directory with entries is not removed. -/
def Volume.full (v : Volume) (e : Entry) : Bool := e.dir && v.entries.any fun e' => e'.parent = e.cluster

def act : Move → Server → Option Server
  | .root volume owner dead, s => s.add dead ⟨owner, volume, (s.volumes volume).rootNode, none⟩
  | .scopeRoot i owner dead, s => do
    let scope ← s.scopes[i]?
    s.add dead ⟨owner, scope.volume, scope.node, scope.id⟩
  | .openDir volume place owner dead, s => do
    let e ← (s.volumes volume).find place
    if e.dir then s.add dead ⟨owner, volume, e.node, some e.id⟩ else none
  | .openSame i owner dead, s => do
    let h ← s.handle i
    if h.node.dir then s.add dead ⟨owner, h.volume, h.node, h.id⟩ else none
  -- a directory may stay grown where the request then fails
  | .growDir volume dir more, s => do
    let v := s.volumes volume
    let node ← v.nodeAt dir
    if node.dir && 2 ≤ node.cluster && v.mayTake more then some (s.store volume (v.link (v.grown node more)))
    else none
  | .create volume e, s =>
    let v := s.volumes volume
    if v.freePlace e.place && v.entries.all (fun e' => e'.id ≠ e.id) && e.size = 0 && v.mayTake e.first &&
        e.cluster = e.first.headD 0 then
      some (s.store volume { v.link e.first with entries := v.entries ++ [e] })
    else none
  | .openFile volume place truncate owner dead, s => do
    let v := s.volumes volume
    let e ← v.find place
    if e.dir then none
    else
      let cuts := truncate && e.size != 0
      let node := if cuts then e.node.resize (v.cut e.node 0 0) 0 else e.node
      let v := if cuts then v.resize e.node (v.cut e.node 0 0) 0 else v
      match s.add dead ⟨owner, volume, node, some e.id⟩ with
      | some s => some (s.refresh volume v node)
      -- what was cut stays cut
      | none => some (s.store volume v)
  | .write i fin more, s => do
    let h ← s.handle i
    let v := s.volumes h.volume
    if !h.node.dir && v.mayTake more then
      some (s.resize h.volume h.node (v.grown h.node more) (max h.node.size fin))
    else none
  | .truncate i size keep more, s => do
    let h ← s.handle i
    let v := s.volumes h.volume
    if !h.node.dir && v.mayTake more then
      some (s.resize h.volume h.node
        (if h.node.size < size then v.grown h.node more else v.cut h.node size keep) size)
    else none
  | .remove volume place, s => do
    let v := s.volumes volume
    let e ← v.find place
    if v.full e then none
    else some (s.change volume (v.without place)
      (fun n => if n.entry = some place || e.heads n then none else some n) fun n => !e.heads n)
  | .rename volume place newPlace parent, s => do
    let v := s.volumes volume
    let e ← v.find place
    if v.freePlace newPlace then
      some (s.change volume (v.move place newPlace parent)
        (fun n => some (if n.entry = some place then { e.node with entry := some newPlace } else n)) fun _ => true)
    else none
  | .scope i, s => do
    let h ← s.handle i
    if h.node.dir && s.scopes.length < scopesMax then
      some { s with scopes := s.scopes ++ [⟨h.volume, h.node, h.id⟩] }
    else none
  | .endScope i, s => some { s with scopes := s.scopes.eraseIdx i }
  | .close i, s => some { s with handles := s.handles.set i none }
  | .format volume root, s =>
    let v : Volume := ⟨root, fun _ => [], []⟩
    some (s.change volume v (fun n => if n.entry = none then some v.rootNode else none) fun _ => false)
  | .journalSave volume place fin more, s => do
    let v := s.volumes volume
    let e ← v.find place
    if !e.dir && v.mayTake more then
      some (s.resize volume e.node (v.grown e.node more) (max e.size fin))
    else none
  -- no handle is closed and no scope ends
  | .journalRemove volume place, s => do
    let v := s.volumes volume
    let e ← v.find place
    if v.full e then none else some (s.store volume (v.without place))

/-! ### What every state keeps -/

structure Inv (s : Server) : Prop where
  volumes : ∀ v, Sound (s.volumes v)
  handles : ∀ h, some h ∈ s.handles → Follows (s.volumes h.volume) h.node h.id
  scopes : ∀ c ∈ s.scopes, Follows (s.volumes c.volume) c.node c.id ∧ c.node.dir = true

variable {dead : Nat → Bool} {h : Handle} {s s' t : Server} {v : Volume} {node : Node} {e : Entry}
  {volume i : Nat} {place : At} {f : Node → Option Node} {keep : Node → Bool} {m : Move}

theorem mem_add {h' : Handle} (ha : s.add dead h = some s') (hm : some h' ∈ s'.handles) :
    h' = h ∨ some h' ∈ s.handles := by
  unfold Server.add at ha
  dsimp only at ha
  split at ha
  · cases ha
  · cases ha
    rcases mem_or_eq_of_mem_set hm with hm | hm
    · right
      split at hm
      · exact hm
      · obtain ⟨o, ho, hf⟩ := mem_map.mp hm
        rw [Option.filter_eq_some_iff] at hf
        rw [← hf.1]
        exact ho
    · exact .inl (Option.some.inj hm)

theorem add_rest (ha : s.add dead h = some s') : s'.volumes = s.volumes ∧ s'.scopes = s.scopes := by
  unfold Server.add at ha
  dsimp only at ha
  split at ha
  · cases ha
  · cases ha
    exact ⟨rfl, rfl⟩

theorem Inv.add (hi : Inv s) (hf : Follows (s.volumes h.volume) h.node h.id) (ha : s.add dead h = some s') :
    Inv s' := by
  obtain ⟨hv, hs⟩ := add_rest ha
  refine ⟨?_, ?_, ?_⟩ <;> rw [hv]
  · exact hi.volumes
  · intro h' hm
    rcases mem_add ha hm with rfl | hm
    · exact hf
    · exact hi.handles h' hm
  · rw [hs]
    exact hi.scopes

theorem mem_of_handle (hh : s.handle i = some h) : some h ∈ s.handles := by
  rw [Server.handle, Option.join_eq_some_iff] at hh
  exact mem_of_getElem? hh

/-- A change of one volume, to a table whose handles on the others follow them. -/
theorem Inv.changed (hv : Sound v) (hvs : ∀ w, w ≠ volume → Sound (t.volumes w))
    (ho : ∀ h, some h ∈ t.handles → h.volume ≠ volume → Follows (t.volumes h.volume) h.node h.id)
    (hh : ∀ h, some h ∈ t.handles → h.volume = volume → ∀ n, f h.node = some n → Follows v n h.id)
    (hs : ∀ c ∈ t.scopes, c.node.dir = true ∧ (c.volume ≠ volume → Follows (t.volumes c.volume) c.node c.id) ∧
      (c.volume = volume → keep c.node = true → Follows v c.node c.id)) :
    Inv (t.change volume v f keep) := by
  have hvol : ∀ w, (t.change volume v f keep).volumes w = if w = volume then v else t.volumes w := by
    simp [Server.change, update_apply]
  refine ⟨?_, ?_, ?_⟩
  · intro w
    rw [hvol]
    split
    · exact hv
    · exact hvs w ‹_›
  · intro h' hm
    obtain ⟨o, hmem, hbind⟩ := mem_map.mp hm
    obtain ⟨h, rfl, hnew⟩ := Option.bind_eq_some_iff.mp hbind
    split at hnew
    · rename_i hw
      obtain ⟨n, hn, rfl⟩ := Option.map_eq_some_iff.mp hnew
      rw [hvol, if_pos hw]
      exact hh h hmem hw n hn
    · rename_i hw
      cases hnew
      rw [hvol, if_neg hw]
      exact ho _ hmem hw
  · intro c hc
    obtain ⟨hmem, hkeep⟩ := mem_filter.mp hc
    obtain ⟨hd, hother, hsame⟩ := hs c hmem
    refine ⟨?_, hd⟩
    rw [hvol]
    split
    · rename_i hw
      exact hsame hw (by simpa [hw] using hkeep)
    · exact hother ‹_›

theorem Inv.change (hi : Inv s) (hv : Sound v)
    (hh : ∀ h, some h ∈ s.handles → h.volume = volume → Follows (s.volumes volume) h.node h.id →
      ∀ n, f h.node = some n → Follows v n h.id)
    (hs : ∀ c ∈ s.scopes, c.volume = volume → keep c.node = true → c.node.dir = true →
      Follows (s.volumes volume) c.node c.id → Follows v c.node c.id) : Inv (s.change volume v f keep) := by
  refine Inv.changed hv (fun w _ => hi.volumes w) (fun h hm _ => hi.handles h hm) ?_ ?_
  · intro h hm hw
    exact hh h hm hw (hw ▸ hi.handles h hm)
  · intro c hc
    obtain ⟨hf, hd⟩ := hi.scopes c hc
    exact ⟨hd, fun _ => hf, fun hw hk => hs c hc hw hk hd (hw ▸ hf)⟩

/-- The entry's new node in the volume and in every handle, those of `t` being those of `s` and new
ones on the entry. -/
theorem Inv.renewed (hi : Inv s) (hr : Renews (s.volumes volume) v e node) (hv : t.volumes = s.volumes)
    (hs : t.scopes = s.scopes) (hh : ∀ h, some h ∈ t.handles → some h ∈ s.handles ∨
      h.volume = volume ∧ h.node = node ∧ h.id = some e.id) : Inv (t.refresh volume v node) := by
  refine Inv.changed hr.sound (fun w _ => by rw [hv]; exact hi.volumes w) ?_ ?_ ?_
  · intro h hm hw
    rw [hv]
    exact hi.handles h ((hh h hm).resolve_right fun hnew => hw hnew.1)
  · intro h hm hw n hn
    cases hn
    rw [hr.entry]
    rcases hh h hm with hm | ⟨-, hnode, hid⟩
    · have := hr.follows _ _ (hw ▸ hi.handles h hm)
      simpa using this
    · simp only [hnode, hid, hr.entry]
      simpa using hr.followed
  · rw [hs, hv]
    intro c hc
    obtain ⟨hf, hd⟩ := hi.scopes c hc
    refine ⟨hd, fun _ => hf, fun hw _ => ?_⟩
    rw [hw] at hf
    exact hr.dir (hi.volumes volume) hf hd

theorem Inv.resized (hi : Inv s) (hm : e ∈ (s.volumes volume).entries) (hd : e.dir = false)
    {clusters : List Nat} (size : Nat) (hown : ∀ c ∈ clusters,
      c ∈ (s.volumes volume).chain e.node.cluster ∨ (s.volumes volume).freeCluster c = true) :
    Inv (s.resize volume e.node clusters size) :=
  hi.renewed ((hi.volumes volume).resize hm hd size hown) rfl rfl fun _ hm => .inl hm

theorem Inv.file (hi : Inv s) (hh : s.handle i = some h) (hd : h.node.dir = false) :
    ∃ e ∈ (s.volumes h.volume).entries, e.dir = false ∧ h.node = e.node := by
  rcases (hi.handles h (mem_of_handle hh)).or with ⟨hroot, -⟩ | ⟨e, hm, hn, -⟩
  · rw [hroot] at hd
    cases hd
  · rw [hn] at hd
    exact ⟨e, hm, hd, hn⟩

/-! ### A run -/

def Server.room (dead : Nat → Bool) (s : Server) : Bool :=
  s.handles.any fun o => !o.any fun h => !dead h.owner

def Server.Closed (s : Server) (volume : Nat) (place : At) : Prop :=
  ∀ h, some h ∈ s.handles → h.volume = volume → h.node.entry ≠ some place

def Server.Unscoped (s : Server) (volume : Nat) (place : At) : Prop :=
  ∀ c ∈ s.scopes, c.volume = volume → c.node.entry ≠ some place

/-- A file that is emptied by being opened has room for the handle or no other one, what is renamed has
no scope, and what the journal removes has neither a handle nor a scope. -/
def Kept : Move → Server → Prop
  | .openFile volume place truncate _ dead, s =>
    truncate = true → s.room dead = true ∨ s.Closed volume place
  | .rename volume place _ _, s => s.Unscoped volume place
  | .journalRemove volume place, s => s.Closed volume place ∧ s.Unscoped volume place
  | _, _ => True

theorem add_of_room (h : Handle) (hr : s.room dead = true) : ∃ s', s.add dead h = some s' := by
  unfold Server.add
  dsimp only
  cases hfind : (if s.handles.any Option.isNone then s.handles
      else s.handles.map fun o => o.filter fun h => !dead h.owner).findIdx? Option.isNone with
  | some i => exact ⟨_, rfl⟩
  | none =>
    exfalso
    rw [findIdx?_eq_none_iff] at hfind
    obtain ⟨o, ho, hdead⟩ := any_eq_true.mp hr
    split at hfind
    · rename_i hany
      obtain ⟨o, ho, hnone⟩ := any_eq_true.mp hany
      rw [hfind o ho] at hnone
      cases hnone
    · have hsome := hfind _ (mem_map_of_mem ho)
      cases o with
      | none => cases hsome
      | some h' => simp_all

section Steps

theorem openFile_inv {truncate : Bool} {owner : Nat} (hi : Inv s)
    (hk : Kept (.openFile volume place truncate owner dead) s)
    (ha : act (.openFile volume place truncate owner dead) s = some s') : Inv s' := by
  obtain ⟨e, he, h⟩ := Option.bind_eq_some_iff.mp ha
  obtain ⟨hm, rfl⟩ := mem_of_find he
  have hv := hi.volumes volume
  split at h
  · cases h
  rename_i hdir
  have hdir : e.dir = false := by simpa using hdir
  -- the file is emptied, or its node is as the entry has it
  have hr : Renews (s.volumes volume)
      (if (truncate && e.size != 0) = true then (s.volumes volume).resize e.node ((s.volumes volume).cut e.node 0 0) 0
        else s.volumes volume) e
      (if (truncate && e.size != 0) = true then e.node.resize ((s.volumes volume).cut e.node 0 0) 0 else e.node) := by
    split
    · exact hv.resize hm hdir 0 fun c hc => .inl (mem_cut hc)
    · exact hv.renews hm hdir
  dsimp only at h
  split at h
  · rename_i t hadd
    cases h
    obtain ⟨htv, hts⟩ := add_rest hadd
    refine hi.renewed hr htv hts ?_
    intro h' hm'
    rcases mem_add hadd hm' with rfl | hm'
    · exact .inr ⟨rfl, rfl, rfl⟩
    · exact .inl hm'
  · rename_i hfull
    cases h
    refine hi.change hr.sound ?_ fun c _ _ _ hd hf => hr.dir hv hf hd
    intro h' hm' hw hf n hn
    cases hn
    have hfollows := hr.follows _ _ hf
    by_cases htrunc : truncate = true
    · rcases hk htrunc with hroom | hclosed
      · obtain ⟨t, ht⟩ := add_of_room _ hroom
        rw [ht] at hfull
        cases hfull
      · rwa [if_neg (hclosed h' hm' hw)] at hfollows
    · simpa [htrunc] using hf

theorem follows_without {id : Option Nat} (hf : Follows v node id) (hne : node.entry ≠ some place) :
    Follows (v.without place) node id := by
  refine hf.mono (fun e hm hn => mem_filter.mpr ⟨hm, decide_eq_true fun hp => hne ?_⟩) rfl
  rw [hn, ← hp]
  rfl

theorem Sound.without (hv : Sound v) (place : At) : Sound (v.without place) :=
  hv.subset rfl rfl fun _ he => (mem_filter.mp he).1

theorem remove_inv (hi : Inv s) (ha : act (.remove volume place) s = some s') : Inv s' := by
  obtain ⟨e, he, h⟩ := Option.bind_eq_some_iff.mp ha
  obtain ⟨hm, rfl⟩ := mem_of_find he
  have hv := hi.volumes volume
  split at h
  · cases h
  cases h
  refine hi.change (hv.without _) ?_ ?_
  · intro h' _ _ hf n hn
    split at hn
    · cases hn
    · rename_i hnot
      cases hn
      refine follows_without hf fun hentry => hnot ?_
      simp [hentry]
  · intro c _ _ hkeep hd hf
    refine follows_without hf fun hentry => ?_
    -- a directory has a cluster, and its scope is known by it
    rcases hf.or with ⟨hroot, -⟩ | ⟨a, ha, hn, -⟩
    · rw [hroot] at hentry
      cases hentry
    · rw [hn] at hentry hkeep hd
      rw [hv.place a ha e hm (Option.some.inj hentry)] at hkeep hd
      have htwo : 2 ≤ e.cluster := hv.dir e hm hd
      simp [Entry.heads, Entry.node, htwo] at hkeep

theorem rename_inv {newPlace : At} {parent : Nat} (hi : Inv s)
    (hk : Kept (.rename volume place newPlace parent) s)
    (h : act (.rename volume place newPlace parent) s = some s') : Inv s' := by
  obtain ⟨e, he, h⟩ := Option.bind_eq_some_iff.mp h
  obtain ⟨hm, hp⟩ := mem_of_find he
  have hv := hi.volumes volume
  split at h
  · rename_i hfree
    cases h
    refine hi.change (hv.moved hfree) ?_ ?_
    · intro h' _ _ hf n hn
      cases hn
      exact hf.moved newPlace parent hv hm hp
    · intro c hc hw _ _ hf
      have := hf.moved newPlace parent hv hm hp
      rwa [if_neg (hk c hc hw)] at this
  · cases h

theorem format_inv {root : Nat} (hi : Inv s) (h : act (.format volume root) s = some s') : Inv s' := by
  cases h
  have hempty : Sound ⟨root, fun _ => [], []⟩ := by
    refine ⟨by simp, by simp, ?_, by simp⟩
    rintro c (_ | a) (_ | b) ⟨_, ha, -⟩ ⟨_, hb, -⟩
    · rfl
    · simp [Volume.Starts] at hb
    · simp [Volume.Starts] at ha
    · simp [Volume.Starts] at ha
  refine hi.change hempty ?_ fun _ _ _ hkeep => by cases hkeep
  intro h' _ _ hf n hn
  split at hn
  · rename_i hnone
    cases hn
    rcases hf.or with ⟨-, hid⟩ | ⟨a, -, hnode, -⟩
    · rw [hid]
      rfl
    · rw [hnode] at hnone
      cases hnone
  · cases hn

theorem create_inv (hi : Inv s) (h : act (.create volume e) s = some s') : Inv s' := by
  unfold act at h
  dsimp only at h
  split at h
  · rename_i hc
    cases h
    simp only [Volume.mayTake, Bool.and_eq_true, all_eq_true, decide_eq_true_eq] at hc
    obtain ⟨⟨⟨⟨hfree, hid⟩, -⟩, -, hclusters⟩, hfirst⟩ := hc
    have hmono : ∀ {node : Node} {id : Option Nat}, Follows (s.volumes volume) node id →
        Follows { (s.volumes volume).link e.first with
          entries := (s.volumes volume).entries ++ [e] } node id :=
      fun hf => hf.mono (fun e' hm' _ => mem_append_left _ hm') rfl
    refine hi.change ((hi.volumes volume).append hfree hid hclusters hfirst ?_) ?_ fun _ _ _ _ _ hf => hmono hf
    · intro hd
      rw [Entry.first, if_pos hd] at hclusters
      exact (freeCluster_iff.mp (hclusters e.cluster mem_cons_self)).1
    · intro h' _ _ hf n hn
      cases hn
      exact hmono hf
  · cases h

theorem act_inv (hi : Inv s) (hk : Kept m s) (h : act m s = some s') : Inv s' := by
  cases m with
  | root volume owner dead =>
    refine hi.add ?_ h
    exact rfl
  | scopeRoot i owner dead =>
    obtain ⟨c, hc, h⟩ := Option.bind_eq_some_iff.mp h
    exact hi.add (hi.scopes c (mem_of_getElem? hc)).1 h
  | openDir volume place owner dead =>
    obtain ⟨e, he, h⟩ := Option.bind_eq_some_iff.mp h
    split at h
    · refine hi.add ?_ h
      exact ⟨e, (mem_of_find he).1, rfl, rfl⟩
    · cases h
  | openSame i owner dead =>
    obtain ⟨h₀, hh, h⟩ := Option.bind_eq_some_iff.mp h
    split at h
    · refine hi.add ?_ h
      exact hi.handles h₀ (mem_of_handle hh)
    · cases h
  | growDir volume dir more =>
    obtain ⟨node, hnode, h⟩ := Option.bind_eq_some_iff.mp h
    split at h
    · rename_i hc
      cases h
      rw [Bool.and_eq_true] at hc
      obtain ⟨id, hf⟩ := follows_nodeAt hnode
      refine hi.change ((hi.volumes volume).grown hf hc.2) ?_ fun _ _ _ _ _ hf => hf.mono (fun _ h _ => h) rfl
      intro h' _ _ hf n hn
      cases hn
      exact hf.mono (fun _ h _ => h) rfl
    · cases h
  | create volume e => exact create_inv hi h
  | openFile volume place truncate owner dead => exact openFile_inv hi hk h
  | write i fin more =>
    obtain ⟨h₀, hh, h⟩ := Option.bind_eq_some_iff.mp h
    dsimp only at h
    split at h
    · rename_i hc
      cases h
      rw [Bool.and_eq_true, Bool.not_eq_true'] at hc
      obtain ⟨e, hm, hd, hn⟩ := hi.file hh hc.1
      rw [hn]
      exact hi.resized hm hd _ fun c hmem => mem_grown hc.2 hmem
    · cases h
  | truncate i size keep more =>
    obtain ⟨h₀, hh, h⟩ := Option.bind_eq_some_iff.mp h
    dsimp only at h
    split at h
    · rename_i hc
      cases h
      rw [Bool.and_eq_true, Bool.not_eq_true'] at hc
      obtain ⟨e, hm, hd, hn⟩ := hi.file hh hc.1
      rw [hn]
      refine hi.resized hm hd _ fun c hmem => ?_
      split at hmem
      · exact mem_grown hc.2 hmem
      · exact .inl (mem_cut hmem)
    · cases h
  | remove volume place => exact remove_inv hi h
  | rename volume place newPlace parent => exact rename_inv hi hk h
  | scope i =>
    obtain ⟨h₀, hh, h⟩ := Option.bind_eq_some_iff.mp h
    split at h
    · rename_i hc
      cases h
      refine ⟨hi.volumes, hi.handles, ?_⟩
      intro c hm
      rcases mem_append.mp hm with hm | hm
      · exact hi.scopes c hm
      · rw [mem_singleton.mp hm]
        rw [Bool.and_eq_true] at hc
        exact ⟨hi.handles h₀ (mem_of_handle hh), hc.1⟩
    · cases h
  | endScope i =>
    cases h
    exact ⟨hi.volumes, hi.handles, fun c hc => hi.scopes c (mem_of_mem_eraseIdx hc)⟩
  | close i =>
    cases h
    refine ⟨hi.volumes, ?_, hi.scopes⟩
    intro h' hm
    rcases mem_or_eq_of_mem_set hm with hm | hm
    · exact hi.handles h' hm
    · cases hm
  | format volume root => exact format_inv hi h
  | journalSave volume place fin more =>
    obtain ⟨e, he, h⟩ := Option.bind_eq_some_iff.mp h
    obtain ⟨hm, -⟩ := mem_of_find he
    split at h
    · rename_i hc
      cases h
      rw [Bool.and_eq_true, Bool.not_eq_true'] at hc
      exact hi.resized hm hc.1 _ fun c hmem => mem_grown hc.2 hmem
    · cases h
  | journalRemove volume place =>
    obtain ⟨e, he, h⟩ := Option.bind_eq_some_iff.mp h
    split at h
    · cases h
    cases h
    refine hi.change ((hi.volumes volume).without place) ?_ ?_
    · intro h' hm hw hf n hn
      cases hn
      exact follows_without hf (hk.1 h' hm hw)
    · exact fun c hc hw _ _ hf => follows_without hf (hk.2 c hc hw)

end Steps

structure Idle (s : Server) : Prop where
  volumes : ∀ v, Sound (s.volumes v)
  handles : s.handles = List.replicate handlesMax none
  scopes : s.scopes = []

inductive Reached (start : Server) : Server → Prop
  | start : Reached start start
  | move {s s' : Server} (m : Move) : Reached start s → Kept m s → act m s = some s' → Reached start s'

theorem Idle.inv (h : Idle s) : Inv s := by
  refine ⟨h.volumes, ?_, ?_⟩
  · intro h' hm
    rw [h.handles] at hm
    cases (mem_replicate.mp hm).2
  · intro c hc
    rw [h.scopes] at hc
    cases hc

theorem Reached.inv {start s : Server} (hs : Inv start) (h : Reached start s) : Inv s := by
  induction h with
  | start => exact hs
  | move m _ hk ha ih => exact act_inv ih hk ha

/-- Every handle is on the entry of what it was opened on, and each cluster of its chain is that file's
or directory's and nobody else's. -/
def OnOwn (s : Server) : Prop :=
  ∀ h, some h ∈ s.handles → Follows (s.volumes h.volume) h.node h.id ∧
    ∀ c ∈ (s.volumes h.volume).chain h.node.cluster, ∀ id, (s.volumes h.volume).Owns c id ↔ id = h.id

theorem Inv.onOwn (hi : Inv s) : OnOwn s := by
  intro h hm
  have hf := hi.handles h hm
  refine ⟨hf, fun c hc id => ?_⟩
  have hown : (s.volumes h.volume).Owns c h.id := ⟨_, hf.starts, hc⟩
  constructor
  · exact fun hid => (hi.volumes h.volume).owner c id h.id hid hown
  · rintro rfl
    exact hown

/-- In every run whose moves meet the condition every open handle stays on its own file or directory. -/
theorem handle_stays {start s : Server} (hs : Idle start) (hr : Reached start s) : OnOwn s :=
  (hr.inv hs.inv).onOwn

/-! ### Three ways off -/

def placeAt (n : Nat) : At := ⟨n, 0⟩

def smallVolume : Volume where
  root := 0
  rest := fun c => if c = 2 then [4] else []
  entries := [⟨placeAt 1, 0, 2, 600, false, 1⟩, ⟨placeAt 2, 0, 3, 0, true, 2⟩]

def idle : Server where
  volumes _ := smallVolume
  handles := List.replicate handlesMax none
  scopes := []

def alive (_ : Nat) : Bool := false

theorem smallVolume_owns {c : Nat} {id : Option Nat} (h : smallVolume.Owns c id) :
    id = some (if c = 3 then 2 else 1) := by
  obtain ⟨first, hs, hc⟩ := h
  cases id with
  | none =>
    rw [show first = 0 from hs] at hc
    cases hc
  | some id =>
    obtain ⟨e, he, hid, rfl⟩ := hs
    simp only [smallVolume, mem_cons, not_mem_nil, or_false] at he
    rcases he with rfl | rfl
    · have hc : c = 2 ∨ c = 4 := by simpa [smallVolume, Volume.chain] using hc
      rcases hc with rfl | rfl <;> exact congrArg some hid.symm
    · have hc : c = 3 := by simpa [smallVolume, Volume.chain] using hc
      rw [hc]
      exact congrArg some hid.symm

theorem smallVolume_sound : Sound smallVolume :=
  ⟨by decide, by decide, fun _ _ _ ha hb => (smallVolume_owns ha).trans (smallVolume_owns hb).symm, by decide⟩

theorem idle_idle : Idle idle := ⟨fun _ => smallVolume_sound, rfl, rfl⟩

def run (moves : List Move) (s : Server) : Option Server := moves.foldlM (fun s m => act m s) s

def followsAll (s : Server) : Bool :=
  s.handles.all fun o => o.all fun h => Follows (s.volumes h.volume) h.node h.id

theorem not_onOwn {moves : List Move} (h : (run moves idle).any (fun s => !followsAll s) = true) :
    ∃ s, run moves idle = some s ∧ ¬OnOwn s := by
  cases hs : run moves idle with
  | none =>
    rw [hs] at h
    cases h
  | some s =>
    rw [hs, Option.any_some, Bool.not_eq_true', followsAll, all_eq_false] at h
    obtain ⟨o, ho, hnot⟩ := h
    refine ⟨s, rfl, fun hown => hnot ?_⟩
    cases o with
    | none => rfl
    | some h => exact decide_eq_true (hown h ho).1

theorem act_getD (h : (act m s).isSome = true) : act m s = some ((act m s).getD s) := by
  obtain ⟨s', hs'⟩ := Option.isSome_iff_exists.mp h
  rw [hs', Option.getD_some]

def openedOnce : Server := (act (.openFile 0 (placeAt 1) false 7 alive) idle).getD idle

def openedTwice : Server := (act (.openFile 0 (placeAt 1) true 8 alive) openedOnce).getD openedOnce

def written : Server := (act (.write 1 700 [4, 2]) openedTwice).getD openedTwice

def renamed : Server := (act (.rename 0 (placeAt 1) (placeAt 4) 3) written).getD written

/-- The file is emptied, written on its freed clusters and moved, and both handles are on it. -/
theorem both_handles_stay :
    OnOwn renamed ∧ (renamed.handle 0).map Handle.node = some ⟨4, 700, false, some (placeAt 4)⟩ ∧
      (renamed.handle 1).map Handle.node = some ⟨4, 700, false, some (placeAt 4)⟩ ∧
      (renamed.volumes 0).chain 4 = [4, 2] := by
  have hopen : Reached idle openedOnce := by
    refine .move (.openFile 0 (placeAt 1) false 7 alive) .start ?_ (act_getD (by decide))
    nofun
  have hagain : Reached idle openedTwice := by
    refine .move (.openFile 0 (placeAt 1) true 8 alive) hopen ?_ (act_getD (by decide))
    exact fun _ => .inl (by decide)
  have hwrite : Reached idle written := .move (.write 1 700 [4, 2]) hagain trivial (act_getD (by decide))
  have hrename : Reached idle renamed := by
    refine .move (.rename 0 (placeAt 1) (placeAt 4) 3) hwrite ?_ (act_getD (by decide))
    intro c hc
    rw [show written.scopes = [] by decide] at hc
    cases hc
  exact ⟨handle_stays idle_idle hrename, by decide, by decide, by decide⟩

/-- With the table full of a file's handles, opening it to be emptied fails after it is emptied: the
handles keep its freed clusters. A scope made before its directory is renamed gives a handle on the old
place. The journal removes a log under its handle, and a directory under its scope. -/
theorem handles_left_behind : (∃ s, run (List.replicate handlesMax (.openFile 0 (placeAt 1) false 7 alive) ++
        [.openFile 0 (placeAt 1) true 8 alive]) idle = some s ∧ ¬OnOwn s) ∧
      (∃ s, run [.openDir 0 (placeAt 2) 7 alive, .scope 0, .rename 0 (placeAt 2) (placeAt 4) 0,
        .scopeRoot 0 8 alive] idle = some s ∧ ¬OnOwn s) ∧
      (∃ s, run [.openFile 0 (placeAt 1) false 7 alive, .journalRemove 0 (placeAt 1)] idle = some s ∧ ¬OnOwn s) ∧
      ∃ s, run [.openDir 0 (placeAt 2) 7 alive, .scope 0, .close 0, .journalRemove 0 (placeAt 2),
        .scopeRoot 0 8 alive] idle = some s ∧ ¬OnOwn s :=
  ⟨not_onOwn (by decide +kernel), not_onOwn (by decide +kernel), not_onOwn (by decide +kernel),
    not_onOwn (by decide +kernel)⟩

end MindCore.Vfs
