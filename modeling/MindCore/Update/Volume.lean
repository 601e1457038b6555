import MindCore.Update.Verify

/-!
# The files of a slot

What a file of a manifest is to a slot (`plan::kind`, `plan::in_slot`, `slot_files`), and the slot's
directory, whose names are compared without regard to case. A directory within it is passed over by
all of this and left out.
-/

namespace MindCore.Update

open List
open MindCore.Release

/-! ### Names -/

/-- A name as `eq_ignore_ascii_case` sees it. -/
def fold (name : Bytes) : Bytes := name.map asciiLower

def alike (a b : Bytes) : Bool := fold a == fold b

variable {a b : Bytes}

theorem alike_iff : alike a b = true ↔ fold a = fold b := beq_iff_eq

theorem alike_refl (a : Bytes) : alike a a = true := alike_iff.mpr rfl

theorem alike_symm (h : alike a b = true) : alike b a = true := alike_iff.mpr (alike_iff.mp h).symm

theorem alike_trans {c : Bytes} (h : alike a b = true) (h' : alike b c = true) : alike a c = true :=
  alike_iff.mpr ((alike_iff.mp h).trans (alike_iff.mp h'))

theorem alike_comm (h : alike a b = false) : alike b a = false := by
  rw [Bool.eq_false_iff] at h ⊢
  exact fun hba => h (alike_symm hba)

def bootFiles : List Bytes :=
  ["init.elf", "logd.elf", "rtc.elf", "ps2_kbd.elf", "virtio_input.elf", "compositor.elf", "ata.elf",
    "ahci.elf", "usb_host.elf", "usb_storage.elf", "usb_hid.elf", "virtio_blk.elf", "nvme.elf",
    "ramdisk.elf", "vfs_server.elf", "usb_serial.elf", "link.elf", "blockstore.elf", "gpio.elf",
    "battery.elf", "loader.elf", "audio_gw.elf", "tts.elf", "video_gw.elf", "virtio_net.elf",
    "rtl8168.elf", "rtw89_wifi.elf", "rtw88_wifi.elf", "bt_hci.elf", "bcm_wifi.elf", "tpm.elf",
    "keystore.elf", "storefs.elf", "wlansim.elf", "wlan.elf", "netstack.elf", "netpolicy.elf",
    "timed.elf", "parse.elf", "tls.elf", "ssh.elf", "windows.elf", "sysmon.elf", "nnd.elf",
    "updater.elf", "effector_gw.elf", "effector.elf", "shell.elf"].map ascii

def kernelName : Bytes := ascii "kernel.elf"

def initName : Bytes := ascii "init.elf"

def loaderPath : Bytes := ascii "EFI/BOOT/BOOTX64.EFI"

inductive Kind where
  | boot
  | loader
  | application
  | shared
  deriving DecidableEq, Repr

def isElf (path : Bytes) : Bool := 4 < path.length && alike (path.drop (path.length - 4)) (ascii ".elf")

def kind (path : Bytes) : Kind :=
  if alike path kernelName || bootFiles.any (alike · path) then .boot
  else if alike path loaderPath then .loader
  else if isElf path && !path.contains 0x2f then .application
  else .shared

def inSlot (path : Bytes) : Bytes := (path.splitOn 0x2f).getLast?.getD path

/-- The files of a manifest a slot holds, read by an honest parser. -/
def slotFiles (text : Bytes) : Option (List File) := do
  let m ← Manifest.parse text
  let files := ((List.range m.files).filterMap m.file).filter fun f => kind f.path.bytes ≠ .shared
  if [kernelName, initName].all fun name => files.any fun f => f.path.bytes == name then some files
  else none

/-- What the updater takes from the parser service, in the form the honest parser demands, gives the
same files. -/
theorem slotFiles_read {text : Bytes} {answers : List (Answer Page)} {n : Nat × Nat} {files : List File}
    (h : readManifest text answers = .ok (n, files)) (hf : AnswerForm text (answeredHeaders answers) files) :
    slotFiles text = if [kernelName, initName].all (fun name => (files.filter fun f =>
        kind f.path.bytes ≠ .shared).any fun f => f.path.bytes == name) then
      some (files.filter fun f => kind f.path.bytes ≠ .shared) else none := by
  obtain ⟨-, ls, henc, htext⟩ := readManifest_rebuilt h
  rw [htext] at hf
  obtain ⟨m, hm, hlen, hfile⟩ := (listed_iff henc).mpr hf
  have hfiles : (List.range m.files).filterMap m.file = files := by
    rw [hlen, show m.file = fun i => files[i]? from funext hfile]
    simpa using filterMap_range files some
  rw [slotFiles, htext, hm]
  simp only [Option.bind_eq_bind, Option.bind_some, hfiles]

def channelName : Bytes := ascii "CHANNEL"

def manifestName : Bytes := ascii "MANIFEST"

def signatureName : Bytes := ascii "MANIFEST.SIG"

def metaNames : List Bytes := [channelName, manifestName, signatureName]

/-! ### A directory -/

structure Entry where
  name : Bytes
  data : Bytes
  deriving DecidableEq, Repr

abbrev Dir := List Entry

def Dir.file (d : Dir) (name : Bytes) : Option Bytes := (d.find? fun e => alike e.name name).map Entry.data

def Dir.remove (d : Dir) (name : Bytes) : Dir := d.filter fun e => !alike e.name name

def Dir.put (d : Dir) (name data : Bytes) : Dir :=
  if d.any fun e => alike e.name name then
    d.map fun e => if alike e.name name then { e with data } else e
  else d ++ [⟨name, data⟩]

section Dir
variable {d : Dir} {name other data : Bytes}

theorem Dir.file_remove (h : alike name other = false) : (d.remove name).file other = d.file other := by
  induction d with
  | nil => rfl
  | cons e rest ih =>
    unfold Dir.file Dir.remove at ih ⊢
    rw [filter_cons, find?_cons]
    cases ho : alike e.name other with
    | true =>
      have hn : alike e.name name = false := by
        rw [Bool.eq_false_iff]
        intro hn
        rw [alike_trans (alike_symm hn) ho] at h
        cases h
      rw [hn, Bool.not_false, if_pos rfl, find?_cons, ho]
    | false =>
      split
      · rw [find?_cons, ho]
        exact ih
      · exact ih

theorem Dir.file_none (h : ∀ e ∈ d, alike e.name name = false) : d.file name = none := by
  rw [Dir.file, Option.map_eq_none_iff, find?_eq_none]
  intro e he
  rw [h e he]
  simp

theorem Dir.mem_put {e : Entry} (h : e ∈ d.put name data) : alike e.name name = true ∨ e ∈ d := by
  unfold Dir.put at h
  split at h
  · obtain ⟨e', he', rfl⟩ := mem_map.mp h
    split
    · rename_i ha
      exact .inl ha
    · exact .inr he'
  · rcases mem_append.mp h with h | h
    · exact .inr h
    · rw [mem_singleton] at h
      rw [h]
      exact .inl (alike_refl name)

theorem Dir.file_put_same (h : alike name other = true) : (d.put name data).file other = some data := by
  unfold Dir.put
  split
  · rename_i hany
    induction d with
    | nil => cases hany
    | cons e rest ih =>
      rw [any_cons, Bool.or_eq_true] at hany
      rw [Dir.file, map_cons, find?_cons]
      cases hn : alike e.name name with
      | true =>
        simp only [if_true, alike_trans hn h]
        rfl
      | false =>
        have ho : alike e.name other = false := by
          rw [Bool.eq_false_iff]
          intro ho
          rw [alike_trans ho (alike_symm h)] at hn
          cases hn
        simp only [Bool.false_eq_true, if_false, ho]
        exact ih (hany.resolve_left (by rw [hn]; simp))
  · rename_i hany
    have hnone : d.find? (fun e => alike e.name other) = none := by
      rw [find?_eq_none]
      intro e he ho
      refine hany (any_eq_true.mpr ⟨e, he, ?_⟩)
      exact alike_trans ho (alike_symm h)
    rw [Dir.file, find?_append, hnone, Option.none_or, find?_cons, h]
    rfl

theorem Dir.file_put_other (h : alike name other = false) : (d.put name data).file other = d.file other := by
  unfold Dir.put
  split
  · clear * - h
    induction d with
    | nil => rfl
    | cons e rest ih =>
      unfold Dir.file at ih ⊢
      rw [map_cons, find?_cons, find?_cons]
      cases hn : alike e.name name with
      | true =>
        have ho : alike e.name other = false := by
          rw [Bool.eq_false_iff]
          intro ho
          rw [alike_trans (alike_symm hn) ho] at h
          cases h
        simp only [if_true, ho]
        exact ih
      | false =>
        simp only [Bool.false_eq_true, if_false]
        cases ho : alike e.name other with
        | true => rfl
        | false => exact ih
  · rw [Dir.file, find?_append, find?_cons, h, find?_nil, Option.or_none]
    rfl

end Dir

/-! ### No file of a slot is named as those that say what it holds -/

theorem lower_slash (b : UInt8) : (asciiLower b == 0x2f) = (b == 0x2f) := by
  revert b
  exact forall_byte (by decide +kernel)

theorem fold_splitOn (path : Bytes) : (fold path).splitOn 0x2f = (path.splitOn 0x2f).map fold := by
  induction path with
  | nil => rfl
  | cons b rest ih =>
    obtain ⟨p, ps, hps⟩ := exists_cons_of_ne_nil (splitOn_ne_nil 0x2f rest)
    have hcons : fold (b :: rest) = asciiLower b :: fold rest := rfl
    unfold List.splitOn at ih hps ⊢
    rw [hcons, splitOnP_cons_eq_if_modifyHead, splitOnP_cons_eq_if_modifyHead, lower_slash, ih, hps]
    split <;> rfl

theorem fold_inSlot (path : Bytes) : fold (inSlot path) = inSlot (fold path) := by
  rw [inSlot, inSlot, fold_splitOn, getLast?_map]
  cases (path.splitOn 0x2f).getLast? <;> rfl

theorem isElf_fold (h : fold a = fold b) : isElf a = isElf b := by
  have hlen : a.length = b.length := by
    have := congrArg List.length h
    simpa [fold] using this
  have hdrop : ∀ k, fold (a.drop k) = fold (b.drop k) := by
    intro k
    rw [fold, fold, map_drop, map_drop]
    exact congrArg (List.drop k) h
  rw [isElf, isElf, hlen, alike, alike, hdrop]

theorem slot_name {path name : Bytes} (hk : kind path ≠ .shared) (hn : name ∈ metaNames) :
    alike (inSlot path) name = false := by
  rw [Bool.eq_false_iff]
  intro ha
  have hname : inSlot (fold path) = fold name := by rw [← fold_inSlot]; exact alike_iff.mp ha
  unfold kind at hk
  split at hk
  · rename_i hb
    rw [Bool.or_eq_true, any_eq_true] at hb
    have hall : ∀ b ∈ kernelName :: bootFiles, ∀ n ∈ metaNames, inSlot (fold b) ≠ fold n := by
      decide
    rcases hb with hb | ⟨b, hb, hpath⟩
    · rw [alike_iff.mp hb] at hname
      exact hall kernelName mem_cons_self name hn hname
    · rw [← alike_iff.mp hpath] at hname
      exact hall b (mem_cons_of_mem _ hb) name hn hname
  · split at hk
    · rename_i hl
      have hall : ∀ n ∈ metaNames, inSlot (fold loaderPath) ≠ fold n := by decide
      rw [alike_iff.mp hl] at hname
      exact hall name hn hname
    · split at hk
      · rename_i he
        rw [Bool.and_eq_true, Bool.not_eq_true', contains_eq_mem, decide_eq_false_iff_not] at he
        have hslot : inSlot path = path := by
          rw [inSlot, splitOn_eq_singleton he.2]
          rfl
        have hpath : fold path = fold name := by rw [← hslot]; exact alike_iff.mp ha
        have helf := he.1
        rw [isElf_fold hpath] at helf
        have hall : ∀ n ∈ metaNames, isElf n = false := by decide
        rw [hall name hn] at helf
        cases helf
      · exact hk rfl

theorem kind_fold (h : fold a = fold b) : kind a = kind b := by
  have hslash : a.contains 0x2f = b.contains 0x2f := by
    have hmem : ∀ c : Bytes, (0x2f ∈ fold c) ↔ 0x2f ∈ c := by
      intro c
      constructor
      · intro hc
        obtain ⟨x, hx, hlow⟩ := mem_map.mp hc
        have := lower_slash x
        rw [hlow, beq_self_eq_true] at this
        rw [eq_of_beq this.symm] at hx
        exact hx
      · exact fun hc => mem_map.mpr ⟨0x2f, hc, rfl⟩
    rw [Bool.eq_iff_iff, contains_iff_mem, contains_iff_mem, ← hmem a, ← hmem b, h]
  have halike : ∀ c, alike a c = alike b c := by
    intro c
    rw [alike, alike, h]
  have halike' : ∀ c, alike c a = alike c b := by
    intro c
    rw [alike, alike, h]
  unfold kind
  rw [isElf_fold h, hslash, halike, halike loaderPath]
  simp only [halike']

theorem kind_meta {name other : Bytes} (hn : name ∈ metaNames) (ha : alike name other = true) :
    kind other = .shared := by
  have hall : ∀ n ∈ metaNames, kind n = .shared := by decide
  rw [← kind_fold (alike_iff.mp ha)]
  exact hall name hn

theorem slotFiles_kind {text : Bytes} {files : List File} (h : slotFiles text = some files) :
    ∀ f ∈ files, kind f.path.bytes ≠ .shared := by
  obtain ⟨m, -, h⟩ := Option.bind_eq_some_iff.mp h
  dsimp only at h
  split at h
  · cases h
    intro f hf
    simpa using (mem_filter.mp hf).2
  · cases h

end MindCore.Update
