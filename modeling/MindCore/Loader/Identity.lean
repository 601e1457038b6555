import MindCore.Lib.Ascii

/-!
# Whose secrets and directory a program gets

The loader names a task after its program's file and gives it a client of keystore and a directory under
that name (`loader/src/main.rs`, `keystore/src/secrets.rs`). When two programs share neither.
-/

namespace MindCore.Loader

open List

/-! ### Names and files -/

def bootServices : List Bytes :=
  ["init", "logd", "rtc", "ps2_kbd", "virtio_input", "compositor", "ata", "ahci", "usb_host", "usb_storage",
    "usb_hid", "virtio_blk", "nvme", "ramdisk", "vfs_server", "usb_serial", "link", "blockstore", "gpio",
    "battery", "loader", "audio_gw", "tts", "video_gw", "virtio_net", "rtl8168", "rtw89_wifi", "rtw88_wifi",
    "bt_hci", "bcm_wifi", "tpm", "keystore", "storefs", "wlansim", "wlan", "netstack", "netpolicy", "timed",
    "parse", "tls", "ssh", "windows", "sysmon", "nnd", "updater", "effector_gw", "effector", "shell"].map ascii

def pathFor (name : Bytes) : Option Bytes :=
  if name = [] ∨ (name.all fun b => 0x21 ≤ b && b ≤ 0x7e) = false then none
  else some (if 0x2e ∈ name ∨ slash ∈ name then name else name ++ ascii ".elf")

def fileOf (path : Bytes) : Bytes := (path.splitOn slash).getLastD []

def taskName (path : Bytes) : Bytes :=
  let file := fileOf path
  let stem := if 4 < file.length ∧ (file.drop (file.length - 4)).map asciiLower = ascii ".elf" then
    file.take (file.length - 4) else file
  (stem.take 16).map asciiLower

def splitOnce (s : Bytes) : Option (Bytes × Bytes) :=
  (s.findIdx? (· = slash)).map fun i => (s.take i, s.drop (i + 1))

structure Installed where
  name : Bytes
  dir : Bytes
  file : Bytes

/-- `installed`; `current` is the number in an application's file of that name. -/
def installed (current : Bytes → Option Bytes) (path : Bytes) : Option (Option Installed) :=
  if (ascii "data/apps/").isPrefixOf path = false then some none
  else do
    let (name, rest) ← splitOnce (path.drop 10)
    let (version, file) := match splitOnce rest with
      | some (v, f) => if v ≠ [] ∧ v.all digit then (some v, f) else (none, rest)
      | none => (none, rest)
    if name = [] ∨ 32 < name.length ∨ (name.all fun b => lowercase b || digit b || b == 0x2d) = false ∨
        (file.splitOn slash).any badPart then none
    else
      let now ← current name
      if version.any (· ≠ now) ∨ 63 < 10 + name.length + now.length + file.length + 2 then none
      else some (some ⟨name, ascii "data/apps/" ++ name ++ [slash] ++ now ++ [slash], file⟩)

structure Opened where
  path : Bytes
  task : Bytes
  app : Option Installed
  bare : Bool

/-- `open`: the path has 64 bytes at most. -/
def openFile (appsDir : Bytes) (current : Bytes → Option Bytes) (name : Bytes) : Option Opened := do
  let full ← pathFor name
  let path := ((if slash ∈ name then [] else appsDir) ++ full).take 64
  let app ← installed current path
  let path := app.elim path fun a => (a.dir ++ a.file).take 64
  if taskName path = ascii "kernel" ∨ bootServices.contains (taskName path) then none
  else some ⟨path, taskName path, app, !name.contains slash⟩

/-- The file a task was started from, where case does not tell files apart: the system's own, one of an
application's package, or another, which has no identity. -/
inductive Program where
  | system (file : Bytes)
  | package (name file : Bytes)
  | file (path : Bytes)
  deriving DecidableEq

def Opened.program (o : Opened) : Program :=
  match o.app with
  | some a => .package a.name (a.file.map asciiLower)
  | none => if o.bare then .system ((fileOf o.path).map asciiLower) else .file (o.path.map asciiLower)

def Opened.named (o : Opened) : Bool := o.bare || o.app.isSome

/-! ### The clients of keystore -/

def badgeLoader : Nat := 4

def badgeBlockstore : Nat := 5

inductive Error where
  | denied | invalid | budget
  deriving DecidableEq

structure Client where
  badge : Nat
  program : Option Bytes := none
  user : Option Nat := none
  maker : Nat

inductive Owner where
  | program (name : Bytes)
  | service (name : Bytes)
  deriving DecidableEq

structure Clients where
  clients : List Client := []
  next : Nat := 0x100

namespace Clients

def index (k : Clients) (badge : Nat) : Option Client :=
  if badge < 0x100 then none else k.clients.find? (·.badge = badge)

def put (k : Clients) (c : Client) : Clients :=
  { k with clients := k.clients.map fun d => if d.badge = c.badge then c else d }

/-- The badge `i` after `next`, round from the last to the first. -/
def after (k : Clients) (i : Nat) : Nat := 0x100 + (k.next - 0x100 + i) % 0xff00

/-- `client`; `stale` are those whose task has ended or that no task took up, `minted` is the kernel's answer. -/
def client (k : Clients) (stale : Client → Bool) (minted : Bool) (badge pid : Nat) :
    Clients × Except Error Nat :=
  if badge ≠ badgeLoader then (k, .error .denied)
  else
    let k := { k with clients := k.clients.filter fun c => !stale c }
    if 64 ≤ k.clients.length then (k, .error .budget)
    else match (List.range 64).find? fun i => (k.index (k.after i)).isNone with
      | none => (k, .error .budget)
      | some i =>
        let k' := { k with next := k.after (i + 1) }
        if minted then ({ k' with clients := ⟨k.after i, none, none, pid⟩ :: k.clients }, .ok (k.after i))
        else (k', .error .budget)

def programOk (p : Bytes) : Bool :=
  p != [] && p.length ≤ 16 && p != ascii "." && p != ascii ".." &&
    p.all fun b => lowercase b || digit b || b ∈ ascii "._-"

def name (k : Clients) (badge pid client : Nat) (program : Bytes) : Except Error Clients :=
  if badge ≠ badgeLoader then .error .denied
  else if programOk program = false then .error .invalid
  else match k.index client with
    | none => .error .invalid
    | some c =>
      if c.maker ≠ pid ∨ c.program.isSome then .error .denied
      else .ok (k.put { c with program := some program })

def adopt (k : Clients) (badge pid client task : Nat) : Except Error Clients :=
  if badge ≠ badgeLoader then .error .denied
  else match k.index client with
    | none => .error .invalid
    | some c =>
      if c.maker = pid ∧ c.user.all (· = task) then .ok (k.put { c with user := some task })
      else .error .denied

inductive Ask where
  | client (stale : Client → Bool) (minted : Bool)
  | name (client : Nat) (program : Bytes)
  | adopt (client task : Nat)

def asked (k : Clients) (badge pid : Nat) : Ask → Clients
  | .client stale minted => (k.client stale minted badge pid).1
  | .name c program => (k.name badge pid c program).toOption.getD k
  | .adopt c task => (k.adopt badge pid c task).toOption.getD k

/-- `owner`: the first task that calls on a client not yet adopted takes it. -/
def owner (k : Clients) (badge pid : Nat) : Except Error (Clients × Owner) :=
  if badge = badgeBlockstore then .ok (k, .service (ascii "blockstore"))
  else match k.index badge with
    | none => .error .denied
    | some c => match c.program with
      | none => .error .denied
      | some program =>
        if c.user.all (· = pid) then .ok (k.put { c with user := some pid }, .program program)
        else .error .denied

end Clients

/-! ### Launches and calls -/

structure Kept where
  value : Bytes
  badge : Nat
  pid : Nat

/-- A directory of `system/own`, with its short alias and the program it was made for. -/
structure Dir where
  name : Bytes
  short : Bytes
  maker : Program

structure World where
  loader : Nat
  keys : Clients := {}
  secrets : Owner → Bytes → Option Kept := fun _ _ => none
  dirs : List Dir := []
  tasks : List (Nat × Program) := []
  /-- The task names of the launches with an identity. -/
  named : List (Bytes × Program) := []
  /-- The clients that went to tasks. -/
  lent : List (Nat × Nat) := []

def World.program (w : World) (pid : Nat) : Option Program := (w.tasks.find? (·.1 = pid)).map (·.2)

inductive Op where
  | get (key : Bytes)
  | set (key value : Bytes)
  | delete (key : Bytes)

structure Answers where
  appsDir : Bytes
  current : Bytes → Option Bytes
  /-- What the program asks for. -/
  own : Bool
  secrets : Bool
  short : Bytes
  stale : Client → Bool
  minted : Bool
  pid : Option Nat

inductive Event where
  | launch (name : Bytes) (a : Answers)
  | adopt (client pid : Nat)
  /-- Asked by another than the loader. -/
  | ask (badge pid : Nat) (a : Clients.Ask)
  /-- A call by any sender; `works` if the device key is held and the files answer. -/
  | call (badge pid : Nat) (op : Op) (works : Bool)

structure Given where
  secret : Option Kept := none
  dir : Option Dir := none

def World.ownDir (w : World) (task short : Bytes) (p : Program) : World × Dir :=
  match w.dirs.find? fun d => d.name = task ∨ d.short = task with
  | some d => (w, d)
  | none => ({ w with dirs := ⟨task, short, p⟩ :: w.dirs }, ⟨task, short, p⟩)

/-- `secrets_client`. A client that was made and not named stays until it is swept. -/
def World.secretsClient (w : World) (a : Answers) (task : Bytes) : World × Option Nat :=
  match w.keys.client a.stale a.minted badgeLoader w.loader with
  | (keys, .error _) => ({ w with keys }, none)
  | (keys, .ok badge) =>
    let w := { w with keys, lent := w.lent.filter (·.1 ≠ badge) }
    match keys.name badgeLoader w.loader badge task with
    | .ok keys => ({ w with keys }, some badge)
    | .error _ => (w, none)

def World.identify (w : World) (o : Opened) : World :=
  if o.named then { w with named := (o.task, o.program) :: w.named } else w

def World.lendDir (w : World) (a : Answers) (o : Opened) : World × Option Dir :=
  if a.own && o.named then
    ((w.ownDir o.task a.short o.program).1, some (w.ownDir o.task a.short o.program).2)
  else (w, none)

def World.lendClient (w : World) (a : Answers) (o : Opened) : World × Option Nat :=
  if a.secrets && o.named then w.secretsClient a o.task else (w, none)

def World.launch (w : World) (name : Bytes) (a : Answers) : Option (World × Given) := do
  let o ← openFile a.appsDir a.current name
  let (w, dir) := (w.identify o).lendDir a o
  let (w, client) := w.lendClient a o
  match a.pid with
  | none => some (w, {})
  | some pid =>
    if (w.program pid).isSome then none
    else some ({ w with
      tasks := (pid, o.program) :: w.tasks
      lent := (client.map (·, pid)).toList ++ w.lent }, { dir })

def World.change (w : World) (owner : Owner) (key : Bytes) (s : Option Kept) : World :=
  { w with secrets := fun o k => if o = owner ∧ k = key then s else w.secrets o k }

def World.act (w : World) : Event → Option (World × Given)
  | .launch name a => w.launch name a
  | .adopt client pid =>
    if (client, pid) ∈ w.lent then
      match w.keys.adopt badgeLoader w.loader client pid with
      | .ok keys => some ({ w with keys }, {})
      | .error _ => some (w, {})
    else none
  | .ask badge pid a => if badge = badgeLoader then none else some ({ w with keys := w.keys.asked badge pid a }, {})
  | .call badge pid op works =>
    match w.keys.owner badge pid with
    | .error _ => some (w, {})
    | .ok (keys, owner) =>
      let w := { w with keys }
      if !works then some (w, {})
      else match op with
        | .get key => some (w, { secret := w.secrets owner key })
        | .set key value => some (w.change owner key (some ⟨value, badge, pid⟩), {})
        | .delete key => some (w.change owner key none, {})

/-! ### Runs in which names tell programs apart -/

/-- The launches of a task name with an identity are of one program and no directory has that name for its
alias; the first call on a client comes from the task it went to. -/
def Apart (w : World) : Event → Prop
  | .launch name a => ∀ o, openFile a.appsDir a.current name = some o → o.named = true →
      (∀ p, (o.task, p) ∈ w.named → p = o.program) ∧ ∀ d ∈ w.dirs, d.short = o.task → d.name = o.task
  | .call badge pid _ _ => ∀ c, w.keys.index badge = some c → c.user = none → (badge, pid) ∈ w.lent
  | _ => True

inductive Reached : World → Prop
  | new (loader : Nat) : Reached { loader }
  | step {w w' : World} {e : Event} {g : Given} (h : Reached w) (ha : w.act e = some (w', g))
      (hp : Apart w e) : Reached w'

def Named (w : World) (name : Bytes) (pid : Nat) : Prop := ∃ p, (name, p) ∈ w.named ∧ w.program pid = some p

structure Inv (w : World) : Prop where
  one : ∀ t p q, (t, p) ∈ w.named → (t, q) ∈ w.named → p = q
  lent : ∀ e ∈ w.lent, ∀ c ∈ w.keys.clients, c.badge = e.1 → ∀ n, c.program = some n → Named w n e.2
  user : ∀ c ∈ w.keys.clients, ∀ n u, c.program = some n → c.user = some u → Named w n u
  kept : ∀ n k s, w.secrets (.program n) k = some s → Named w n s.pid
  service : ∀ n k s, w.secrets (.service n) k = some s → s.badge = badgeBlockstore
  dirs : ∀ d ∈ w.dirs, (d.name, d.maker) ∈ w.named

section Clients

variable {k k' : Clients} {c d : Client} {badge pid : Nat}

theorem index_some (h : k.index badge = some c) : c ∈ k.clients ∧ c.badge = badge := by
  unfold Clients.index at h
  split at h
  · cases h
  · exact ⟨mem_of_find?_eq_some h, by simpa using find?_some h⟩

theorem mem_put (h : d ∈ (k.put c).clients) : d = c ∨ (d.badge ≠ c.badge ∧ d ∈ k.clients) := by
  obtain ⟨e, he, rfl⟩ := mem_map.mp h
  split
  · exact .inl rfl
  · exact .inr ⟨‹_›, he⟩

theorem index_put (h : k.index badge = some c) (hd : d.badge = badge) : (k.put d).index badge = some d := by
  unfold Clients.index at h ⊢
  split at h
  · cases h
  · have hp : ((fun e : Client => decide (e.badge = badge)) ∘ fun e => if e.badge = d.badge then d else e) =
        fun e => decide (e.badge = badge) := by
      funext e
      dsimp only [Function.comp]
      split <;> simp_all
    have hc : c.badge = d.badge := by simpa [hd] using find?_some h
    rw [if_neg ‹_›, Clients.put, find?_map, hp, h, Option.map_some, if_pos hc]

theorem client_spec {stale : Client → Bool} {minted : Bool} {r : Except Error Nat}
    (h : k.client stale minted badge pid = (k', r)) (hd : d ∈ k'.clients) :
    d ∈ k.clients ∧ r ≠ .ok d.badge ∨ d.program = none ∧ d.user = none ∧ r = .ok d.badge := by
  unfold Clients.client at h
  split at h
  · cases h
    exact .inl ⟨hd, nofun⟩
  dsimp only at h
  split at h
  · cases h
    exact .inl ⟨(mem_filter.mp hd).1, nofun⟩
  split at h
  · cases h
    exact .inl ⟨(mem_filter.mp hd).1, nofun⟩
  · rename_i i hi
    split at h
    · cases h
      obtain rfl | hd := mem_cons.mp hd
      · exact .inr ⟨rfl, rfl, rfl⟩
      · refine .inl ⟨(mem_filter.mp hd).1, fun hb => ?_⟩
        have hnone := find?_some hi
        rw [Option.isNone_iff_eq_none, Clients.index, if_neg (by simp [Clients.after])] at hnone
        simpa [Except.ok.inj hb] using find?_eq_none.mp hnone d hd
    · cases h
      exact .inl ⟨(mem_filter.mp hd).1, nofun⟩

end Clients

variable {w w' : World} {e : Event} {g : Given}

theorem Named.mono {n : Bytes} {u : Nat} (h : Named w n u) (hn : ∀ x ∈ w.named, x ∈ w'.named)
    (ht : ∀ p, w.program u = some p → w'.program u = some p) : Named w' n u := by
  obtain ⟨p, hp, hu⟩ := h
  exact ⟨p, hn _ hp, ht p hu⟩

theorem Inv.name (h : Inv w) {t : Bytes} {p : Program} (hp : ∀ q, (t, q) ∈ w.named → q = p) :
    Inv { w with named := (t, p) :: w.named } := by
  have hmono : ∀ {n u}, Named w n u → Named { w with named := (t, p) :: w.named } n u :=
    fun hn => hn.mono (fun _ => mem_cons_of_mem _) fun _ => id
  refine ⟨fun s q r hq hr => ?_, fun e he c hc hb n hn => hmono (h.lent e he c hc hb n hn),
    fun c hc n u hn hu => hmono (h.user c hc n u hn hu), fun n k s hs => hmono (h.kept n k s hs), h.service,
    fun d hd => mem_cons_of_mem _ (h.dirs d hd)⟩
  obtain hq | hq := mem_cons.mp hq <;> obtain hr | hr := mem_cons.mp hr
  · cases hq
    cases hr
    rfl
  · cases hq
    exact (hp r hr).symm
  · cases hr
    exact hp q hq
  · exact h.one s q r hq hr

theorem Inv.ownDir (h : Inv w) {t short : Bytes} {p : Program} (hp : (t, p) ∈ w.named)
    (hs : ∀ d ∈ w.dirs, d.short = t → d.name = t) :
    Inv (w.ownDir t short p).1 ∧ (w.ownDir t short p).2.maker = p := by
  unfold World.ownDir
  split
  · rename_i d hd
    have hmem := mem_of_find?_eq_some hd
    have hname : d.name = t := by
      have hfound := find?_some hd
      rw [decide_eq_true_eq] at hfound
      exact hfound.elim id (hs d hmem)
    exact ⟨h, h.one t _ _ (hname ▸ h.dirs d hmem) hp⟩
  · refine ⟨⟨h.one, h.lent, h.user, h.kept, h.service, fun d hd => ?_⟩, rfl⟩
    obtain rfl | hd := mem_cons.mp hd
    · exact hp
    · exact h.dirs d hd

theorem Inv.keys (h : Inv w) {keys : Clients} {lent : List (Nat × Nat)}
    (hk : ∀ c ∈ keys.clients, ∀ n, c.program = some n →
      (∀ u, c.user = some u → Named w n u) ∧ ∀ e ∈ lent, c.badge = e.1 → Named w n e.2) :
    Inv { w with keys, lent } :=
  ⟨h.one, fun e he c hc hb n hn => (hk c hc n hn).2 e he hb, fun c hc n u hn hu => (hk c hc n hn).1 u hu,
    h.kept, h.service, h.dirs⟩

theorem Inv.secretsClient (h : Inv w) (a : Answers) (t : Bytes) : Inv (w.secretsClient a t).1 ∧
    ∀ b, (w.secretsClient a t).2 = some b →
      ∀ c ∈ (w.secretsClient a t).1.keys.clients, c.badge = b → c.program = some t := by
  have hold : ∀ c ∈ w.keys.clients, ∀ n, c.program = some n →
      (∀ u, c.user = some u → Named w n u) ∧ ∀ e ∈ w.lent, c.badge = e.1 → Named w n e.2 :=
    fun c hc n hn => ⟨fun u hu => h.user c hc n u hn hu, fun e he hb => h.lent e he c hc hb n hn⟩
  unfold World.secretsClient
  split
  · rename_i keys _ hkeys
    refine ⟨h.keys fun c hc n hn => ?_, nofun⟩
    obtain ⟨hc, -⟩ | ⟨-, -, hno⟩ := client_spec hkeys hc
    · exact hold c hc n hn
    · cases hno
  · rename_i keys badge hkeys
    have hlent : ∀ e ∈ w.lent.filter (·.1 ≠ badge), e ∈ w.lent ∧ e.1 ≠ badge :=
      fun e he => ⟨(mem_filter.mp he).1, by simpa using (mem_filter.mp he).2⟩
    have hnew : ∀ c ∈ keys.clients, ∀ n, c.program = some n →
        (∀ u, c.user = some u → Named w n u) ∧
          ∀ e ∈ w.lent.filter (·.1 ≠ badge), c.badge = e.1 → Named w n e.2 := by
      intro c hc n hn
      obtain ⟨hc, -⟩ | ⟨hp, -⟩ := client_spec hkeys hc
      · exact ⟨(hold c hc n hn).1, fun e he => (hold c hc n hn).2 e (hlent e he).1⟩
      · rw [hp] at hn
        cases hn
    dsimp only
    split
    · rename_i keys' hname
      unfold Clients.name at hname
      split at hname
      · cases hname
      split at hname
      · cases hname
      split at hname
      · cases hname
      rename_i c hc
      split at hname
      · cases hname
      cases hname
      obtain ⟨hmem, hbadge⟩ := index_some hc
      have huser : c.user = none := by
        obtain ⟨-, hne⟩ | ⟨-, hu, -⟩ := client_spec hkeys hmem
        · exact absurd (by rw [hbadge]) hne
        · exact hu
      refine ⟨h.keys fun d hd n hn => ?_, ?_⟩
      · obtain rfl | ⟨-, hd⟩ := mem_put hd
        · refine ⟨fun u hu => ?_, fun e he hb => absurd (hb.symm.trans hbadge) (hlent e he).2⟩
          rw [huser] at hu
          cases hu
        · exact hnew d hd n hn
      · rintro b hb d hd hdb
        cases hb
        obtain rfl | ⟨hne, -⟩ := mem_put hd
        · rfl
        · exact absurd (hdb.trans hbadge.symm) hne
    · exact ⟨h.keys hnew, nofun⟩

theorem Inv.start (h : Inv w) {pid : Nat} {t : Bytes} {p : Program} {client : Option Nat}
    (hpid : w.program pid = none) (hp : client ≠ none → (t, p) ∈ w.named)
    (hc : ∀ b, client = some b → ∀ c ∈ w.keys.clients, c.badge = b → c.program = some t) :
    Inv { w with tasks := (pid, p) :: w.tasks, lent := (client.map (·, pid)).toList ++ w.lent } := by
  have hself : World.program { w with tasks := (pid, p) :: w.tasks } pid = some p := by simp [World.program]
  have hmono : ∀ {n u}, Named w n u → Named { w with tasks := (pid, p) :: w.tasks } n u := by
    refine fun hn => hn.mono (fun _ => id) fun q hq => ?_
    obtain ⟨e, he, rfl⟩ := Option.map_eq_some_iff.mp hq
    have hne : pid ≠ _ := fun heq => by rw [heq, hq] at hpid; cases hpid
    simp [World.program, hne, he]
  refine ⟨h.one, fun e he c hm hb n hn => ?_, fun c hc n u hn hu => hmono (h.user c hc n u hn hu),
    fun n k s hs => hmono (h.kept n k s hs), h.service, h.dirs⟩
  obtain he | he := mem_append.mp he
  · cases client with
    | none => cases he
    | some b =>
      obtain rfl := mem_singleton.mp he
      rw [hc b rfl c hm hb] at hn
      cases hn
      exact ⟨p, hp nofun, hself⟩
  · exact hmono (h.lent e he c hm hb n hn)

theorem secretsClient_named (w : World) (a : Answers) (t : Bytes) : (w.secretsClient a t).1.named = w.named := by
  unfold World.secretsClient
  split
  · rfl
  · dsimp only
    split <;> rfl

section Launch

variable {o : Opened} {a : Answers}

theorem Inv.identify (h : Inv w) (hp : o.named = true → ∀ p, (o.task, p) ∈ w.named → p = o.program) :
    Inv (w.identify o) ∧ (o.named = true → (o.task, o.program) ∈ (w.identify o).named) ∧
      (w.identify o).dirs = w.dirs := by
  unfold World.identify
  split
  · exact ⟨h.name (hp ‹_›), fun _ => mem_cons_self, rfl⟩
  · exact ⟨h, fun hn => absurd hn ‹_›, rfl⟩

theorem Inv.lendDir (h : Inv w) (hn : o.named = true → (o.task, o.program) ∈ w.named)
    (hs : o.named = true → ∀ d ∈ w.dirs, d.short = o.task → d.name = o.task) :
    Inv (w.lendDir a o).1 ∧ (w.lendDir a o).1.named = w.named ∧
      ∀ d, (w.lendDir a o).2 = some d → d.maker = o.program := by
  unfold World.lendDir
  split
  · rename_i hif
    rw [Bool.and_eq_true] at hif
    obtain ⟨hinv, hmaker⟩ := @Inv.ownDir _ h _ a.short _ (hn hif.2) (hs hif.2)
    refine ⟨hinv, ?_, fun d hd => ?_⟩
    · dsimp only [World.ownDir]
      split <;> rfl
    · cases hd
      exact hmaker
  · exact ⟨h, rfl, nofun⟩

theorem Inv.lendClient (h : Inv w) : Inv (w.lendClient a o).1 ∧ (w.lendClient a o).1.named = w.named ∧
    ((w.lendClient a o).2 ≠ none → o.named = true) ∧ ∀ b, (w.lendClient a o).2 = some b →
      ∀ c ∈ (w.lendClient a o).1.keys.clients, c.badge = b → c.program = some o.task := by
  unfold World.lendClient
  split
  · rename_i hif
    rw [Bool.and_eq_true] at hif
    obtain ⟨hinv, hclient⟩ := h.secretsClient a o.task
    exact ⟨hinv, secretsClient_named w a o.task, fun _ => hif.2, hclient⟩
  · exact ⟨h, rfl, absurd rfl, nofun⟩

theorem Inv.launch (h : Inv w) {name : Bytes} (ha : w.launch name a = some (w', g))
    (hp : Apart w (.launch name a)) : Inv w' ∧ g.secret = none ∧
      ∀ d, g.dir = some d → ∃ o, openFile a.appsDir a.current name = some o ∧ d.maker = o.program := by
  obtain ⟨o, ho, ha⟩ := Option.bind_eq_some_iff.mp ha
  obtain ⟨hid, hnamed, hdirs⟩ := h.identify fun hn => (hp o ho hn).1
  obtain ⟨hdir, hsame, hmaker⟩ := hid.lendDir (a := a) hnamed fun hn => hdirs ▸ (hp o ho hn).2
  obtain ⟨hclient, hsame', hif, hprogram⟩ := hdir.lendClient (a := a) (o := o)
  dsimp only at ha
  split at ha
  · cases ha
    exact ⟨hclient, rfl, nofun⟩
  · split at ha
    · cases ha
    · rename_i hfree
      cases ha
      refine ⟨hclient.start (by simpa using hfree) (fun hc => ?_) hprogram, rfl, fun d hd => ⟨o, ho, hmaker d hd⟩⟩
      rw [hsame', hsame]
      exact hnamed (hif hc)

end Launch

variable {badge pid : Nat}

theorem Inv.take (h : Inv w) {c : Client} (hc : w.keys.index badge = some c)
    (hn : ∀ n, c.program = some n → Named w n pid) : Inv { w with keys := w.keys.put { c with user := some pid } } := by
  refine h.keys fun d hd n hd' => ?_
  obtain rfl | ⟨-, hd⟩ := mem_put hd
  · refine ⟨fun u hu => ?_, fun e he hb => h.lent e he c (index_some hc).1 hb n hd'⟩
    cases hu
    exact hn n hd'
  · exact ⟨fun u hu => h.user d hd n u hd' hu, fun e he hb => h.lent e he d hd hb n hd'⟩

theorem adopt_ok {k k' : Clients} {badge pid client task : Nat} (h : k.adopt badge pid client task = .ok k') :
    ∃ c, k.index client = some c ∧ k' = k.put { c with user := some task } := by
  unfold Clients.adopt at h
  split at h
  · cases h
  split at h
  · cases h
  split at h
  · cases h
    exact ⟨_, ‹_›, rfl⟩
  · cases h

theorem Inv.adopt (h : Inv w) {client pid : Nat} (ha : w.act (.adopt client pid) = some (w', g)) :
    Inv w' ∧ g = {} := by
  simp only [World.act] at ha
  split at ha
  · rename_i hlent
    split at ha
    · rename_i keys hkeys
      obtain ⟨c, hc, rfl⟩ := adopt_ok hkeys
      cases ha
      exact ⟨h.take hc fun n hn => h.lent _ hlent c (index_some hc).1 (index_some hc).2 n hn, rfl⟩
    · cases ha
      exact ⟨h, rfl⟩
  · cases ha

theorem Inv.ask (h : Inv w) {a : Clients.Ask} (ha : w.act (.ask badge pid a) = some (w', g)) :
    Inv w' ∧ g = {} := by
  simp only [World.act] at ha
  split at ha
  · cases ha
  · rename_i hne
    have hkeys : w.keys.asked badge pid a = w.keys := by
      cases a <;> simp [Clients.asked, Clients.client, Clients.name, Clients.adopt, hne, Except.toOption]
    rw [hkeys] at ha
    cases ha
    exact ⟨h, rfl⟩

theorem Inv.owner (h : Inv w) {keys : Clients} {owner : Owner}
    (ho : w.keys.owner badge pid = .ok (keys, owner))
    (hp : ∀ c, w.keys.index badge = some c → c.user = none → (badge, pid) ∈ w.lent) :
    Inv { w with keys } ∧ ((badge = badgeBlockstore ∧ ∃ n, owner = .service n) ∨
      ∃ c n, keys.index badge = some c ∧ c.user = some pid ∧ c.program = some n ∧ owner = .program n ∧
        Named w n pid) := by
  unfold Clients.owner at ho
  split at ho
  · cases ho
    exact ⟨h, .inl ⟨‹_›, _, rfl⟩⟩
  split at ho
  · cases ho
  rename_i c hc
  split at ho
  · cases ho
  rename_i n hn
  split at ho
  · rename_i huser
    cases ho
    obtain ⟨hmem, hbadge⟩ := index_some hc
    have hnamed : Named w n pid := by
      cases hu : c.user with
      | none => exact h.lent _ (hp c hc hu) c hmem hbadge n hn
      | some u =>
        rw [hu, Option.all_some, decide_eq_true_eq] at huser
        exact huser ▸ h.user c hmem n u hn hu
    refine ⟨h.take hc fun m hm => ?_, .inr ⟨_, n, index_put hc hbadge, rfl, hn, rfl, hnamed⟩⟩
    rw [hn] at hm
    cases hm
    exact hnamed
  · cases ho

/-- What a call or a launch gives: a secret to the program that put it, on the client that one task took up
or by the service's badge, and a directory to the program it was made for. -/
def Right (w' : World) (e : Event) (g : Given) : Prop :=
  (∀ s, g.secret = some s → ∃ badge pid key works, e = .call badge pid (.get key) works ∧
    ((badge = badgeBlockstore ∧ s.badge = badgeBlockstore) ∨ ∃ c n p, w'.keys.index badge = some c ∧
      c.user = some pid ∧ c.program = some n ∧ (n, p) ∈ w'.named ∧ w'.program pid = some p ∧
      w'.program s.pid = some p)) ∧
  ∀ d, g.dir = some d → ∃ name a o, e = .launch name a ∧ openFile a.appsDir a.current name = some o ∧
    d.maker = o.program

theorem Inv.change (h : Inv w) {owner : Owner} {key : Bytes} {s : Option Kept}
    (hp : ∀ n, owner = .program n → ∀ t, s = some t → Named w n t.pid)
    (hs : ∀ n, owner = .service n → ∀ t, s = some t → t.badge = badgeBlockstore) : Inv (w.change owner key s) := by
  refine ⟨h.one, h.lent, h.user, fun n k t ht => ?_, fun n k t ht => ?_, h.dirs⟩
  · dsimp only [World.change] at ht
    split at ht
    · rename_i hif
      exact hp n hif.1.symm t ht
    · exact h.kept n k t ht
  · dsimp only [World.change] at ht
    split at ht
    · rename_i hif
      exact hs n hif.1.symm t ht
    · exact h.service n k t ht

theorem Inv.call (h : Inv w) {op : Op} {works : Bool}
    (ha : w.act (.call badge pid op works) = some (w', g)) (hp : Apart w (.call badge pid op works)) :
    Inv w' ∧ Right w' (.call badge pid op works) g := by
  simp only [World.act] at ha
  split at ha
  · cases ha
    exact ⟨h, nofun, nofun⟩
  rename_i keys owner hown
  obtain ⟨hinv, hwho⟩ := h.owner hown hp
  split at ha
  · cases ha
    exact ⟨hinv, nofun, nofun⟩
  cases op with
  | get key =>
    cases ha
    refine ⟨hinv, fun s hs => ⟨badge, pid, key, works, rfl, ?_⟩, nofun⟩
    obtain ⟨hb, n, rfl⟩ | ⟨c, n, hc, hu, hn, rfl, p, hpn, hpid⟩ := hwho
    · exact .inl ⟨hb, h.service n key s hs⟩
    · obtain ⟨q, hq, hqpid⟩ := h.kept n key s hs
      obtain rfl := h.one n p q hpn hq
      exact .inr ⟨c, n, p, hc, hu, hn, hpn, hpid, hqpid⟩
  | set key value =>
    cases ha
    refine ⟨hinv.change (fun n hn t ht => ?_) fun n hn t ht => ?_, nofun, nofun⟩
    · cases ht
      obtain ⟨-, m, rfl⟩ | ⟨c, m, -, -, -, rfl, hnamed⟩ := hwho
      · cases hn
      · cases hn
        exact hnamed
    · cases ht
      obtain ⟨hb, -⟩ | ⟨c, m, -, -, -, rfl, -⟩ := hwho
      · exact hb
      · cases hn
  | delete key =>
    cases ha
    exact ⟨hinv.change nofun nofun, nofun, nofun⟩

theorem Inv.act (h : Inv w) (ha : w.act e = some (w', g)) (hp : Apart w e) : Inv w' ∧ Right w' e g := by
  cases e with
  | launch name a =>
    obtain ⟨hinv, hno, hdir⟩ := h.launch ha hp
    refine ⟨hinv, fun s hs => ?_, fun d hd => ?_⟩
    · rw [hno] at hs
      cases hs
    · obtain ⟨o, ho, hmaker⟩ := hdir d hd
      exact ⟨name, a, o, rfl, ho, hmaker⟩
  | adopt client pid =>
    obtain ⟨hinv, rfl⟩ := h.adopt ha
    exact ⟨hinv, nofun, nofun⟩
  | ask badge pid a =>
    obtain ⟨hinv, rfl⟩ := h.ask ha
    exact ⟨hinv, nofun, nofun⟩
  | call badge pid op works => exact h.call ha hp

theorem Reached.inv (h : Reached w) : Inv w := by
  induction h with
  | new loader => exact ⟨nofun, nofun, nofun, nofun, nofun, nofun⟩
  | step _ ha hp ih => exact (ih.act ha hp).1

/-- In every run in which names tell programs apart, what is given is right. -/
theorem identity_its_own (h : Reached w) (ha : w.act e = some (w', g)) (hp : Apart w e) : Right w' e g :=
  (h.inv.act ha hp).2

/-! ### Two packages with a file of one name -/

def World.next (w : World) (e : Event) : World × Given := (w.act e).getD (w, {})

theorem act_next (h : (w.act e).isSome = true) : w.act e = some ((w.next e).1, (w.next e).2) := by
  obtain ⟨r, hr⟩ := Option.isSome_iff_exists.mp h
  rw [World.next, hr]
  rfl

def newWorld : World := { loader := 1 }

def launchOf (path : String) (pid : Nat) : Event :=
  .launch (ascii path) ⟨[], fun _ => some (ascii "1"), true, true, [], fun _ => false, true, some pid⟩

def putToken (badge pid : Nat) : Event := .call badge pid (.set (ascii "token") [1]) true

def getToken (badge pid : Nat) : Event := .call badge pid (.get (ascii "token")) true

def alphaWorld : World := ((newWorld.next (launchOf "data/apps/alpha/main.elf" 7)).1.next (putToken 0x100 7)).1

theorem alpha_reads_its_token : (alphaWorld.next (getToken 0x100 7)).2.secret.map (·.pid) = some 7 ∧
    Right (alphaWorld.next (getToken 0x100 7)).1 (getToken 0x100 7) (alphaWorld.next (getToken 0x100 7)).2 := by
  have hlaunch : Reached (newWorld.next (launchOf "data/apps/alpha/main.elf" 7)).1 :=
    .step (.new 1) (act_next (by decide)) fun _ _ _ => ⟨nofun, nofun⟩
  have hput : Reached alphaWorld :=
    .step hlaunch (act_next (e := putToken 0x100 7) (by decide)) fun _ _ _ => by decide
  exact ⟨by decide, identity_its_own hput (act_next (by decide)) fun _ _ _ => by decide⟩

/-- The program of another package, of the same file name, gets the token and the directory. -/
theorem beta_reads_alphas_token : let launched := alphaWorld.next (launchOf "data/apps/beta/main.elf" 8)
    let asked := launched.1.next (getToken 0x101 8)
    asked.2.secret.map (·.pid) = some 7 ∧
      asked.1.program 7 = some (.package (ascii "alpha") (ascii "main.elf")) ∧
      asked.1.program 8 = some (.package (ascii "beta") (ascii "main.elf")) ∧
      launched.2.dir.map (·.maker) = some (.package (ascii "alpha") (ascii "main.elf")) := by
  decide

end MindCore.Loader
