import MindCore.Update.Volume

/-!
# A slot shows a channel only while it is whole

`Updater::stage` over the other slot's directory, step by step, stopped after any of them: the stale
files removed in directory order, each listed file written, the manifest, its signature and the
channel written last. The digest and the signature check are any functions.
-/

namespace MindCore.Update

open List
open MindCore.Release

section Staging
variable (sha256 : Bytes → Fixed 32) (verified : Bytes → Fixed 64 → Bool) (arch : Bytes)

/-- The digest a channel file names for this architecture, if it is signed. -/
def named (file : Bytes) : Option (Fixed 32) := do
  let (channel, signed) ← parseChannel (file.take channelMax)
  if verified (file.take signed.body) signed.signature then
    (channel.manifests.find? fun m => m.1.bytes = arch).map fun m => m.2
  else none

def Shows (d : Dir) : Prop :=
  ∃ file text, d.file channelName = some file ∧ d.file manifestName = some text ∧
    named verified arch file = some (sha256 text)

def holds (d : Dir) (f : File) : Bool :=
  match d.file (inSlot f.path.bytes) with
  | some data => data.length == f.size.toNat && sha256 data == f.digest
  | none => false

/-- The slot holds every file its manifest lists for it, and no other boot file or application. -/
def Whole (d : Dir) : Prop :=
  ∃ text files, d.file manifestName = some text ∧ slotFiles text = some files ∧
    (∀ f ∈ files, holds sha256 d f = true) ∧
    ∀ e ∈ d, kind e.name = .boot ∨ kind e.name = .application →
      ∃ f ∈ files, alike (inSlot f.path.bytes) e.name = true

/-- A release that was checked: its channel names its manifest, whose files for a slot are known. -/
structure Checked where
  channel : Bytes
  manifest : Bytes
  signature : Bytes
  files : List File
  names : named verified arch channel = some (sha256 manifest)
  lists : slotFiles manifest = some files

/-- The files removed first, in directory order: those that say what the slot holds, and those the
manifest does not list. -/
def stale (d : Dir) (files : List File) : List Bytes :=
  (d.map Entry.name).filter fun name =>
    metaNames.any (alike · name) || !files.any fun f => alike (inSlot f.path.bytes) name

inductive Phase where
  | removing (rest : List Bytes)
  | filling (rest : List File)
  | closing (rest : List (Bytes × Bytes))
  | done
  deriving DecidableEq

structure Staging where
  dir : Dir
  phase : Phase
  deriving DecidableEq

/-- The next step is taken, or the file it is about is created, cut or written in part. -/
inductive Move where
  | next
  | fill (data : Bytes)

variable {sha256 verified arch}

def Checked.last (r : Checked sha256 verified arch) : List (Bytes × Bytes) :=
  [(manifestName, r.manifest), (signatureName, r.signature), (channelName, r.channel)]

def Checked.start (r : Checked sha256 verified arch) (d : Dir) : Staging := ⟨d, .removing (stale d r.files)⟩

def Checked.move (r : Checked sha256 verified arch) : Move → Staging → Option Staging
  | .next, ⟨d, .removing (name :: rest)⟩ => some ⟨d.remove name, .removing rest⟩
  | .next, ⟨d, .removing []⟩ => some ⟨d, .filling r.files⟩
  | .fill data, ⟨d, .filling (f :: rest)⟩ =>
    some ⟨d.put (inSlot f.path.bytes) data, .filling (f :: rest)⟩
  -- the file is left only once it is whole
  | .next, ⟨d, .filling (f :: rest)⟩ => if holds sha256 d f then some ⟨d, .filling rest⟩ else none
  | .next, ⟨d, .filling []⟩ => some ⟨d, .closing r.last⟩
  | .fill part, ⟨d, .closing ((name, data) :: rest)⟩ =>
    some ⟨d.put name part, .closing ((name, data) :: rest)⟩
  | .next, ⟨d, .closing ((name, data) :: rest)⟩ => some ⟨d.put name data, .closing rest⟩
  | .next, ⟨d, .closing []⟩ => some ⟨d, .done⟩
  | _, _ => none

inductive Checked.Reached (r : Checked sha256 verified arch) (d : Dir) : Staging → Prop
  | start : Reached r d (r.start d)
  | move {s s' : Staging} (m : Move) : Reached r d s → r.move m s = some s' → Reached r d s'

/-! ### What each phase keeps -/

variable {f : File}

theorem holds_congr {d d' : Dir} (h : d'.file (inSlot f.path.bytes) = d.file (inSlot f.path.bytes)) :
    holds sha256 d' f = holds sha256 d f := by
  rw [holds, holds, h]

def removed (d : Dir) (gone : List Bytes) : Dir := gone.foldl Dir.remove d

variable {d : Dir} {gone : List Bytes}

theorem removed_mem {e : Entry} (h : e ∈ removed d gone) :
    e ∈ d ∧ ∀ name ∈ gone, alike e.name name = false := by
  induction gone generalizing d with
  | nil => exact ⟨h, by simp⟩
  | cons name rest ih =>
    obtain ⟨hmem, hrest⟩ := ih h
    obtain ⟨hd, hkeep⟩ := mem_filter.mp hmem
    refine ⟨hd, ?_⟩
    intro n hn
    rcases mem_cons.mp hn with rfl | hn
    · simpa using hkeep
    · exact hrest n hn

theorem removed_file {name : Bytes}
    (h : ∀ n ∈ gone, alike n name = false) : (removed d gone).file name = d.file name := by
  induction gone generalizing d with
  | nil => rfl
  | cons n rest ih =>
    have hrest : ∀ n ∈ rest, alike n name = false := fun n hn => h n (mem_cons_of_mem _ hn)
    exact (ih (d := d.remove n) hrest).trans (Dir.file_remove (h n mem_cons_self))

theorem removed_gone {n name : Bytes} (hn : n ∈ gone)
    (ha : alike n name = true) : (removed d gone).file name = none := by
  refine Dir.file_none ?_
  intro e he
  rw [Bool.eq_false_iff]
  intro hname
  have := (removed_mem he).2 n hn
  rw [alike_trans hname (alike_symm ha)] at this
  cases this

def Only (d : Dir) (files : List File) (more : List Bytes) : Prop :=
  ∀ e ∈ d, (∃ f ∈ files, alike (inSlot f.path.bytes) e.name = true) ∨ ∃ n ∈ more, alike n e.name = true

def Checked.Keeps (r : Checked sha256 verified arch) (d : Dir) (s : Staging) : Prop :=
  match s.phase with
  | .removing rest => ∃ gone, stale d r.files = gone ++ rest ∧ s.dir = removed d gone
  | .filling rest => ∃ filled, r.files = filled ++ rest ∧ Only s.dir r.files [] ∧
      ∀ f ∈ filled, holds sha256 s.dir f = true
  | .closing rest => Only s.dir r.files metaNames ∧ (∀ f ∈ r.files, holds sha256 s.dir f = true) ∧
      (rest = r.last ∧ s.dir.file channelName = none ∨
        rest = r.last.drop 1 ∧ s.dir.file manifestName = some r.manifest ∧ s.dir.file channelName = none ∨
        rest = r.last.drop 2 ∧ s.dir.file manifestName = some r.manifest ∨
        rest = [] ∧ s.dir.file manifestName = some r.manifest ∧ s.dir.file channelName = some r.channel)
  | .done => Only s.dir r.files metaNames ∧ (∀ f ∈ r.files, holds sha256 s.dir f = true) ∧
      s.dir.file manifestName = some r.manifest ∧ s.dir.file channelName = some r.channel

def Apart (files : List File) : Prop :=
  files.Pairwise fun f g => alike (inSlot f.path.bytes) (inSlot g.path.bytes) = false

section Steps
variable {r : Checked sha256 verified arch} {d : Dir}

variable {name : Bytes} {dir : Dir} {m : Move} {rest gone : List Bytes} {s' s : Staging}

theorem meta_apart (hf : f ∈ r.files) (hn : name ∈ metaNames) : alike (inSlot f.path.bytes) name = false :=
  slot_name (slotFiles_kind r.lists f hf) hn

theorem Only.put {files : List File} {more : List Bytes} {data : Bytes}
    (h : Only d files more) (hn : (∃ f ∈ files, alike (inSlot f.path.bytes) name = true) ∨ name ∈ more) :
    Only (d.put name data) files more := by
  intro e he
  rcases Dir.mem_put he with ha | he
  · rcases hn with ⟨f, hf, hfn⟩ | hn
    · exact .inl ⟨f, hf, alike_trans hfn (alike_symm ha)⟩
    · exact .inr ⟨name, hn, alike_symm ha⟩
  · exact h e he

theorem only_removed : Only (removed d (stale d r.files)) r.files [] := by
  intro e he
  obtain ⟨hd, hgone⟩ := removed_mem he
  left
  by_contra hn
  have hstale : e.name ∈ stale d r.files := by
    refine mem_filter.mpr ⟨mem_map_of_mem hd, ?_⟩
    rw [Bool.or_eq_true]
    right
    rw [Bool.not_eq_true', any_eq_false]
    intro f hf ha
    exact hn ⟨f, hf, ha⟩
  have := hgone _ hstale
  rw [alike_refl] at this
  cases this

theorem Only.channel_none (h : Only d r.files []) (hn : name ∈ metaNames) : d.file name = none := by
  refine Dir.file_none ?_
  intro e he
  rcases h e he with ⟨f, hf, ha⟩ | ⟨n, hnil, -⟩
  · rw [Bool.eq_false_iff]
    intro hname
    have := meta_apart hf hn
    rw [alike_trans ha hname] at this
    cases this
  · cases hnil

theorem holds_put_meta {data : Bytes} (hf : f ∈ r.files)
    (hn : name ∈ metaNames) : holds sha256 (d.put name data) f = holds sha256 d f := by
  refine holds_congr (Dir.file_put_other ?_)
  rw [Bool.eq_false_iff]
  intro ha
  have := meta_apart hf hn
  rw [alike_symm ha] at this
  cases this

theorem closing_put (data : Bytes) (hn : name ∈ metaNames)
    (ho : Only d r.files metaNames) (hh : ∀ f ∈ r.files, holds sha256 d f = true) :
    Only (d.put name data) r.files metaNames ∧
      ∀ f ∈ r.files, holds sha256 (d.put name data) f = true := by
  refine ⟨ho.put (.inr hn), ?_⟩
  intro f hf
  rw [holds_put_meta hf hn]
  exact hh f hf

theorem keeps_removing (h : r.Keeps d ⟨dir, .removing rest⟩) (hm : r.move m ⟨dir, .removing rest⟩ = some s') :
    r.Keeps d s' := by
  obtain ⟨gone, hstale, rfl⟩ := h
  cases m with
  | fill data => cases rest <;> cases hm
  | next =>
    cases rest with
    | nil =>
      cases hm
      refine ⟨[], rfl, ?_, by simp⟩
      rw [append_nil] at hstale
      exact hstale ▸ only_removed
    | cons name rest =>
      cases hm
      refine ⟨gone ++ [name], by rw [hstale, append_assoc, singleton_append], ?_⟩
      rw [removed, removed, foldl_append]
      rfl

theorem keeps_filling (ha : Apart r.files) {rest : List File}
    (h : r.Keeps d ⟨dir, .filling rest⟩) (hm : r.move m ⟨dir, .filling rest⟩ = some s') :
    r.Keeps d s' := by
  obtain ⟨filled, hfiles, honly, hfilled⟩ := h
  cases rest with
  | nil =>
    cases m with
    | fill data => cases hm
    | next =>
      cases hm
      rw [append_nil] at hfiles
      refine ⟨fun e he => ?_, hfiles ▸ hfilled, .inl ⟨rfl, honly.channel_none mem_cons_self⟩⟩
      rcases honly e he with hl | ⟨n, hn, -⟩
      · exact .inl hl
      · cases hn
  | cons f rest =>
    have hf : f ∈ r.files := by
      rw [hfiles]
      exact mem_append_right _ mem_cons_self
    cases m with
    | fill data =>
      cases hm
      refine ⟨filled, hfiles, honly.put (.inl ⟨f, hf, alike_refl _⟩), ?_⟩
      -- the other files have other names
      intro g hg
      have hgf : alike (inSlot g.path.bytes) (inSlot f.path.bytes) = false := by
        have hpair := ha
        rw [Apart, hfiles] at hpair
        exact (pairwise_append.mp hpair).2.2 g hg f mem_cons_self
      rw [holds_congr (Dir.file_put_other (alike_comm hgf))]
      exact hfilled g hg
    | next =>
      unfold Checked.move at hm
      dsimp only at hm
      split at hm
      · rename_i hwhole
        cases hm
        refine ⟨filled ++ [f], by rw [hfiles, append_assoc, singleton_append], honly, ?_⟩
        intro g hg
        rcases mem_append.mp hg with hg | hg
        · exact hfilled g hg
        · rw [mem_singleton.mp hg]
          exact hwhole
      · cases hm

theorem file_kept {other name data : Bytes} {x : Option Bytes} (h : dir.file other = x) (hne : alike name other = false) :
    (dir.put name data).file other = x :=
  (Dir.file_put_other hne).trans h

theorem keeps_closing {rest : List (Bytes × Bytes)}
    (h : r.Keeps d ⟨dir, .closing rest⟩) (hm : r.move m ⟨dir, .closing rest⟩ = some s') :
    r.Keeps d s' := by
  obtain ⟨honly, hhold, hat⟩ := h
  have hman : manifestName ∈ metaNames := by decide
  have hsig : signatureName ∈ metaNames := by decide
  have hcha : channelName ∈ metaNames := by decide
  rcases hat with ⟨rfl, hnone⟩ | ⟨rfl, hmanifest, hnone⟩ | ⟨rfl, hmanifest⟩ | ⟨rfl, hmanifest, hchannel⟩
  · -- the manifest
    cases m with
    | fill data =>
      cases hm
      obtain ⟨ho, hh⟩ := closing_put data hman honly hhold
      exact ⟨ho, hh, .inl ⟨rfl, file_kept hnone (by decide)⟩⟩
    | next =>
      cases hm
      obtain ⟨ho, hh⟩ := closing_put r.manifest hman honly hhold
      exact ⟨ho, hh, .inr (.inl ⟨rfl, Dir.file_put_same (alike_refl _), file_kept hnone (by decide)⟩)⟩
  · -- its signature
    cases m with
    | fill data =>
      cases hm
      obtain ⟨ho, hh⟩ := closing_put data hsig honly hhold
      exact ⟨ho, hh, .inr (.inl ⟨rfl, file_kept hmanifest (by decide), file_kept hnone (by decide)⟩)⟩
    | next =>
      cases hm
      obtain ⟨ho, hh⟩ := closing_put r.signature hsig honly hhold
      exact ⟨ho, hh, .inr (.inr (.inl ⟨rfl, file_kept hmanifest (by decide)⟩))⟩
  · -- the channel
    cases m with
    | fill data =>
      cases hm
      obtain ⟨ho, hh⟩ := closing_put data hcha honly hhold
      exact ⟨ho, hh, .inr (.inr (.inl ⟨rfl, file_kept hmanifest (by decide)⟩))⟩
    | next =>
      cases hm
      obtain ⟨ho, hh⟩ := closing_put r.channel hcha honly hhold
      exact ⟨ho, hh, .inr (.inr (.inr ⟨rfl, file_kept hmanifest (by decide), Dir.file_put_same (alike_refl _)⟩))⟩
  · cases m with
    | fill data => cases hm
    | next =>
      cases hm
      exact ⟨honly, hhold, hmanifest, hchannel⟩

theorem keeps_move (ha : Apart r.files) (h : r.Keeps d s) (hm : r.move m s = some s') : r.Keeps d s' := by
  obtain ⟨dir, phase⟩ := s
  cases phase with
  | removing rest => exact keeps_removing h hm
  | filling rest => exact keeps_filling ha h hm
  | closing rest => exact keeps_closing h hm
  | done => cases m <;> cases hm

theorem reached_keeps (ha : Apart r.files) (h : r.Reached d s) : r.Keeps d s := by
  induction h with
  | start => exact ⟨[], rfl, rfl⟩
  | move m _ hm ih => exact keeps_move ha ih hm

/-! ### Stopped anywhere -/

theorem whole_of (hm : dir.file manifestName = some r.manifest)
    (ho : Only dir r.files metaNames) (hh : ∀ f ∈ r.files, holds sha256 dir f = true) :
    Whole sha256 dir := by
  refine ⟨r.manifest, r.files, hm, r.lists, hh, ?_⟩
  intro e he hk
  rcases ho e he with hl | ⟨n, hn, hne⟩
  · exact hl
  · -- those that say what the slot holds are neither
    exfalso
    have := kind_meta hn hne
    rw [this] at hk
    rcases hk with hk | hk <;> cases hk

theorem not_shows (h : dir.file channelName = none) : ¬Shows sha256 verified arch dir := by
  rintro ⟨file, text, hf, -⟩
  rw [h] at hf
  cases hf

/-- Where the slot shows a channel, the directory lists no file of the old release that goes before the
channel or the manifest does. -/
def Checked.Ordered (r : Checked sha256 verified arch) (d : Dir) : Prop :=
  ∀ text old gone rest, Shows sha256 verified arch d → d.file manifestName = some text →
    slotFiles text = some old → stale d r.files = gone ++ rest →
    (∀ n ∈ gone, ∀ m ∈ [channelName, manifestName], alike n m = false) →
    ∀ n ∈ gone, ∀ f ∈ old, alike n (inSlot f.path.bytes) = false

def Sound (sha256 : Bytes → Fixed 32) (verified : Bytes → Fixed 64 → Bool) (arch : Bytes) (s : Staging) :
    Prop :=
  match s.phase with
  | .done => Shows sha256 verified arch s.dir ∧ Whole sha256 s.dir
  | _ => Shows sha256 verified arch s.dir → Whole sha256 s.dir

theorem shows_removed (h : Shows sha256 verified arch (removed d gone)) :
    ∀ n ∈ gone, ∀ m ∈ [channelName, manifestName], alike n m = false := by
  obtain ⟨file, text, hf, ht, -⟩ := h
  intro n hn m hm
  rw [Bool.eq_false_iff]
  intro ha
  have hgone := removed_gone (d := d) hn ha
  rcases mem_cons.mp hm with rfl | hm
  · rw [hgone] at hf
    cases hf
  · rw [mem_singleton.mp hm] at hgone
    rw [hgone] at ht
    cases ht

theorem removed_meta (h : ∀ n ∈ gone, ∀ m ∈ [channelName, manifestName], alike n m = false) :
    (removed d gone).file channelName = d.file channelName ∧
      (removed d gone).file manifestName = d.file manifestName :=
  ⟨removed_file fun n hn => h n hn _ mem_cons_self,
    removed_file fun n hn => h n hn _ (mem_cons_of_mem _ mem_cons_self)⟩

theorem whole_removed (hd : Whole sha256 d ∨ d.file channelName = none)
    (ho : r.Ordered d) (hs : stale d r.files = gone ++ rest)
    (h : Shows sha256 verified arch (removed d gone)) : Whole sha256 (removed d gone) := by
  have hclear := shows_removed h
  obtain ⟨hchannel, hmanifest⟩ := removed_meta (d := d) hclear
  obtain ⟨file, text, hf, ht, hname⟩ := h
  rw [hchannel] at hf
  rw [hmanifest] at ht
  have hshows : Shows sha256 verified arch d := ⟨file, text, hf, ht, hname⟩
  rcases hd with ⟨text', old, ht', hold, hholds, honly⟩ | hd
  · refine ⟨text', old, hmanifest.trans ht', hold, ?_, ?_⟩
    · intro f hf
      rw [holds_congr (removed_file fun n hn => ho text' old gone rest hshows ht' hold hs hclear n hn f hf)]
      exact hholds f hf
    · intro e he
      exact honly e (removed_mem he).1
  · exact absurd hshows (not_shows hd)

theorem sound_of_keeps (hd : Whole sha256 d ∨ d.file channelName = none) (ho : r.Ordered d)
    (h : r.Keeps d s) : Sound sha256 verified arch s := by
  obtain ⟨dir, phase⟩ := s
  cases phase with
  | removing rest =>
    obtain ⟨gone, hs, rfl⟩ := h
    exact whole_removed hd ho hs
  | filling rest =>
    obtain ⟨filled, -, honly, -⟩ := h
    exact fun hshows => absurd hshows (not_shows (honly.channel_none mem_cons_self))
  | closing rest =>
    obtain ⟨honly, hhold, hat⟩ := h
    intro hshows
    rcases hat with ⟨-, hnone⟩ | ⟨-, -, hnone⟩ | ⟨-, hmanifest⟩ | ⟨-, hmanifest, -⟩
    · exact absurd hshows (not_shows hnone)
    · exact absurd hshows (not_shows hnone)
    · exact whole_of hmanifest honly hhold
    · exact whole_of hmanifest honly hhold
  | done =>
    obtain ⟨honly, hhold, hmanifest, hchannel⟩ := h
    exact ⟨⟨r.channel, r.manifest, hchannel, hmanifest, r.names⟩, whole_of hmanifest honly hhold⟩

theorem reached_removing (h : r.Reached d ⟨dir, .removing (gone ++ rest)⟩) :
    r.Reached d ⟨removed dir gone, .removing rest⟩ := by
  induction gone generalizing dir with
  | nil => exact h
  | cons name gone ih => exact ih (h.move .next rfl)

theorem reached_run (moves : List Move) (h : r.Reached d s)
    (hr : moves.foldlM (fun s m => r.move m s) s = some s') : r.Reached d s' := by
  induction moves generalizing s with
  | nil =>
    cases hr
    exact h
  | cons m rest ih =>
    obtain ⟨t, hm, hr⟩ := Option.bind_eq_some_iff.mp hr
    exact ih (h.move m hm) hr

theorem ordered_of_sound (h : ∀ s, r.Reached d s → Sound sha256 verified arch s) : r.Ordered d := by
  intro text old gone rest hshows ht hold hs hclear n hn f hf
  rw [Bool.eq_false_iff]
  intro ha
  obtain ⟨hchannel, hmanifest⟩ := removed_meta (d := d) hclear
  have hshown : Shows sha256 verified arch (removed d gone) := by
    obtain ⟨file, text', hf', ht', hname⟩ := hshows
    exact ⟨file, text', hchannel.trans hf', hmanifest.trans ht', hname⟩
  have hsound : Shows sha256 verified arch (removed d gone) → Whole sha256 (removed d gone) :=
    h _ (reached_removing (by rw [← hs]; exact .start))
  obtain ⟨text', old', ht', hold', hholds, -⟩ := hsound hshown
  rw [hmanifest, ht] at ht'
  cases ht'
  rw [hold] at hold'
  cases hold'
  have hlost := hholds f hf
  rw [holds, removed_gone hn ha] at hlost
  cases hlost

/-- A slot shows a channel only while it is whole, wherever its staging stops, exactly where no file of
the old release goes before the channel or the manifest does. -/
theorem staging_sound_iff (r : Checked sha256 verified arch) (d : Dir)
    (hd : Whole sha256 d ∨ d.file channelName = none) (ha : Apart r.files) :
    (∀ s, r.Reached d s → Sound sha256 verified arch s) ↔ r.Ordered d :=
  ⟨ordered_of_sound, fun ho _ hs => sound_of_keeps hd ho (reached_keeps ha hs)⟩

end Steps

end Staging

/-! ### A file goes before the channel -/

def sizeDigest (data : Bytes) : Fixed 32 := ⟨List.replicate 32 (UInt8.ofNat data.length), by simp⟩

def anySignature (_ : Bytes) (_ : Fixed 64) : Bool := true

def manifestListing (files : List (String × Nat)) : Bytes :=
  unlines (formatLine :: files.map fun f =>
    ascii "file " ++ (ascii f.1 ++ (ascii " " ++ (decimalOf f.2 ++ (ascii " " ++
      (hexOf (List.replicate 32 (UInt8.ofNat f.2)) ++ ascii " 00000000 1"))))))

def listed (files : List (String × Nat)) : List File :=
  files.filterMap fun f => (Text.new (ascii f.1)).map fun path =>
    { path, size := UInt64.ofNat f.2, digest := sizeDigest (List.replicate f.2 0), flags := 0, mib := 1 }

def channelOf (manifest : Bytes) : Bytes :=
  channelFile
    { stableChannel with manifests := [(⟨ascii "x86_64", x86_valid⟩, sizeDigest manifest)] } stableSigned

/-- A slot as staging leaves it: the manifest's files, the manifest, its signature and the channel. -/
def slotOf (files : List (String × Nat)) : Dir :=
  (files.map fun f => ⟨ascii f.1, List.replicate f.2 0⟩) ++
    [⟨manifestName, manifestListing files⟩, ⟨signatureName, []⟩, ⟨channelName, channelOf (manifestListing files)⟩]

def oldFiles : List (String × Nat) := [("init.elf", 1), ("kernel.elf", 1), ("old.elf", 1)]

def newFiles : List (String × Nat) := [("init.elf", 1), ("kernel.elf", 1)]

theorem old_lists : slotFiles (manifestListing oldFiles) = some (listed oldFiles) := by decide +kernel

def newRelease : Checked sizeDigest anySignature (ascii "x86_64") where
  channel := channelOf (manifestListing newFiles)
  manifest := manifestListing newFiles
  signature := []
  files := listed newFiles
  names := by decide +kernel
  lists := by decide +kernel

def twinFiles : List (String × Nat) := [("A.ELF", 2), ("a.elf", 1), ("init.elf", 1), ("kernel.elf", 1)]

def twinRelease : Checked sizeDigest anySignature (ascii "x86_64") where
  channel := channelOf (manifestListing twinFiles)
  manifest := manifestListing twinFiles
  signature := []
  files := listed twinFiles
  names := by decide +kernel
  lists := by decide +kernel

def twinMoves : List Move :=
  .next :: (twinFiles.flatMap fun f => [.fill (List.replicate f.2 0), .next]) ++
    List.replicate 5 .next

def twinSlot : Dir := slotOf [("A.ELF", 1), ("init.elf", 1), ("kernel.elf", 1)] |>.map fun e =>
  if e.name = manifestName then { e with data := manifestListing twinFiles }
  else if e.name = channelName then { e with data := channelOf (manifestListing twinFiles) } else e

theorem whole_of_files {sha256 : Bytes → Fixed 32} {text : Bytes} {files : List File}
    (ht : d.file manifestName = some text) (hf : slotFiles text = some files) (h : Whole sha256 d) :
    ∀ f ∈ files, holds sha256 d f = true := by
  obtain ⟨text', files', ht', hf', hh, -⟩ := h
  rw [ht] at ht'
  cases ht'
  rw [hf] at hf'
  cases hf'
  exact hh

theorem old_whole (h : d.Perm (slotOf oldFiles)) (hm : d.file manifestName = some (manifestListing oldFiles))
    (hh : ∀ f ∈ listed oldFiles, holds sizeDigest d f = true) : Whole sizeDigest d := by
  have hall : ∀ e ∈ slotOf oldFiles, kind e.name = .boot ∨ kind e.name = .application →
      ∃ f ∈ listed oldFiles, alike (inSlot f.path.bytes) e.name = true := by decide
  exact ⟨_, _, hm, old_lists, hh, fun e he => hall e (h.mem_iff.mp he)⟩

/-- Over a slot that lists its channel first, a release that drops a file is staged soundly. -/
theorem channel_first_sound : Whole sizeDigest (slotOf oldFiles).reverse ∧
      ∀ s, newRelease.Reached (slotOf oldFiles).reverse s →
        Sound sizeDigest anySignature (ascii "x86_64") s := by
  have hwhole : Whole sizeDigest (slotOf oldFiles).reverse := old_whole (reverse_perm _) rfl (by decide)
  refine ⟨hwhole, (staging_sound_iff newRelease (slotOf oldFiles).reverse (.inl hwhole) ?_).mpr ?_⟩
  · unfold Apart
    decide
  · intro text old gone rest _ _ _ hstale hclear n hn
    have hfirst : (stale (slotOf oldFiles).reverse newRelease.files).head? = some channelName := by
      decide
    cases gone with
    | nil => cases hn
    | cons first gone =>
      rw [hstale, cons_append, head?_cons, Option.some.injEq] at hfirst
      have hnot := hclear first mem_cons_self channelName mem_cons_self
      rw [hfirst, alike_refl] at hnot
      cases hnot

/-- A release without a file of the one before, stopped after that file is removed: the old channel is
still shown over what is left. And of two files under one name the second replaces the first: the
staging ends with a slot that is not whole. -/
theorem dropped_file_leaves_channel :
    (Whole sizeDigest (slotOf oldFiles) ∧ ∃ s, newRelease.Reached (slotOf oldFiles) s ∧
        Shows sizeDigest anySignature (ascii "x86_64") s.dir ∧ ¬Whole sizeDigest s.dir) ∧
      ∃ d, twinRelease.Reached [] ⟨d, .done⟩ ∧ ¬Whole sizeDigest d := by
  constructor
  · refine ⟨old_whole (.refl _) rfl (by decide), ?_⟩
    refine ⟨⟨removed (slotOf oldFiles) [ascii "old.elf"], .removing
      [manifestName, signatureName, channelName]⟩, ?_, ?_, ?_⟩
    · refine reached_removing ?_
      exact .start
    · exact ⟨channelOf (manifestListing oldFiles), manifestListing oldFiles, rfl, rfl, by decide +kernel⟩
    · intro hw
      have hall := whole_of_files rfl old_lists hw
      revert hall
      decide
  · refine ⟨twinSlot, reached_run twinMoves .start (by decide +kernel), ?_⟩
    intro hw
    have hall := whole_of_files rfl twinRelease.lists hw
    revert hall
    decide

end MindCore.Update
