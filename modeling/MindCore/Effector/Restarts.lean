import Mathlib.Data.List.Induction
import MindCore.Effector.Journal

/-!
# The journal over stops and starts

The two files of the journal under `append_journal`, `finished`, `rewrite_journal` and `recover`
(`main.rs`), each write cut after any of its bytes and each removal and renaming done or not. Under
which cuts every start reads back what was written, and three cuts after which one does not.
-/

namespace MindCore.Effector

open List
open MindCore.Release

def journalMax : Nat := 8 * recordsMax * lineMax

structure Files where
  journal : Option Bytes
  new : Option Bytes
  deriving DecidableEq

/-- Where the agent is: not running, at its start with what it read, running with what its session
holds, or refused by a journal it does not read. -/
inductive Phase where
  | stopped
  | started (es : List Entry)
  | running (es : List Entry)
  | refused
  deriving DecidableEq

structure Machine where
  files : Files
  phase : Phase
  /-- The records whose append or rewrite was reported to succeed, or that a start read. -/
  told : List Kept
  /-- What the journal was to hold when a call on it did not come to its end. -/
  flight : Option (List Kept)
  /-- The records whose done line was written whole. -/
  ended : List Kept
  deriving DecidableEq

def newMachine : Machine := ⟨⟨none, none⟩, .stopped, [], none, []⟩

/-! ### The calls -/

/-- Moves `journal.new` to `journal`'s place; a name that is taken is not given. -/
def Files.rename (f : Files) (done : Bool) : Files :=
  match f.journal, f.new with
  | none, some b => if done then ⟨some b, none⟩ else f
  | _, _ => f

def Files.remove (f : Files) (done : Bool) : Files := if done then { f with journal := none } else f

/-- What `append_journal` writes: the header first in an empty file. -/
def appended (old : Bytes) (r : Kept) : Bytes := (if old = [] then header else []) ++ line r

inductive Event where
  /-- `written` bytes reach the file. -/
  | append (r : Kept) (opened : Bool) (written : Nat) (flushed : Bool)
  | finished (r : Kept) (written : Nat) (stop : Bool)
  /-- With what the session holds now. -/
  | rewrite (s : Session (Fixed 32)) (written : Nat) (removed renamed stop : Bool)
  | recover (renamed removed stop : Bool)
  | compact (written : Nat) (removed renamed stop : Bool)

def Files.recovered (f : Files) (renamed removed : Bool) : Files :=
  let f := f.rename renamed
  if removed then { f with new := none } else f

def Files.start (f : Files) (agentId : Bytes) : Except Error (List Entry) :=
  match f.journal with
  | none => .ok []
  | some b => if journalMax < b.length then .error .journal else read b agentId

def Files.rewritten (f : Files) (es : List Entry) (written : Nat) (removed renamed : Bool) : Bool × Files :=
  let f := { f with new := some ((writeAll es).take written) }
  if written < (writeAll es).length then (false, f)
  else
    let f := f.remove removed
    (f.journal.isNone && renamed, f.rename renamed)

def records (es : List Entry) : List Kept := es.map (·.1)

def endedBy (es : List Entry) (written : Nat) : List Kept :=
  if written < (writeAll es).length then [] else (es.filter (·.2)).map (·.1)

/-- What the journal is to hold, oldest first: each record, also the one being saved, and whether it needs
no more acknowledgement. -/
def Session.journal (s : Session (Fixed 32)) : List Entry :=
  ((s.records.zipIdx.filterMap fun (o, i) => o.map fun saved => (saved, i)).mergeSort fun a b =>
    decide (a.1.sequence < b.1.sequence ∨ a.1.sequence = b.1.sequence ∧ a.2 ≤ b.2)).map
      fun x => (x.1.record, x.1.done)

def act (agentId : Bytes) (m : Machine) : Event → Option Machine
  | .append r opened written flushed => match m.phase with
    | .running es =>
      if es.any (fun e => e.1.id = r.id) || recordsMax ≤ es.length then none
      else if !opened then some { m with phase := .stopped, flight := some (m.told ++ [r]) }
      else
        let old := m.files.journal.getD []
        let data := appended old r
        let files := { m.files with journal := some (old ++ data.take written) }
        if data.length ≤ written && flushed then
          some { m with files, phase := .running (es ++ [(r, false)]), told := m.told ++ [r], flight := none }
        else some { m with files, phase := .stopped, flight := some (m.told ++ [r]) }
    | _ => none
  | .finished r written stop => match m.phase with
    | .running es =>
      if r ∉ records es then none
      else
        let phase := if stop then .stopped else .running (mark r.id es)
        match m.files.journal with
        | none => some { m with phase }
        | some old => some { m with
            files := { m.files with journal := some (old ++ (doneLine r).take written) }
            phase
            ended := if (doneLine r).length ≤ written then r :: m.ended else m.ended }
    | _ => none
  | .rewrite s written removed renamed stop => match m.phase with
    | .running es =>
      if es = [] then none
      else
        let es' := s.journal
        let (ok, files) := m.files.rewritten es' written removed renamed
        let ended := endedBy es' written ++ m.ended
        if ok && !stop then
          some { m with files, ended, phase := .running es', told := records es', flight := none }
        else some { m with files, ended, phase := .stopped, flight := some (records es') }
    | _ => none
  | .recover renamed removed stop =>
    let files := m.files.recovered renamed removed
    if stop then some { m with files, phase := .stopped }
    else match files.start agentId with
      | .error _ => some { m with files, phase := .refused }
      | .ok es => some { m with files, phase := .started es, told := records es, flight := none }
  | .compact written removed renamed stop => match m.phase with
    | .started [] => some { m with phase := if stop then .stopped else .running [] }
    | .started (e :: es) =>
      let (_, files) := m.files.rewritten (e :: es) written removed renamed
      some { m with
        files
        ended := endedBy (e :: es) written ++ m.ended
        phase := if stop then .stopped else .running (e :: es) }
    | _ => none

/-! ### The cuts that do no harm -/

structure Valid (agent : Id) (es : List Entry) : Prop where
  nonempty : es ≠ []
  nodup : (es.map fun e => e.1.id).Nodup
  length : es.length ≤ recordsMax
  writable : ∀ e ∈ es, Writable agent e.1

/-- A session that saves a record. -/
structure Session.Saves (agent : Id) (s : Session (Fixed 32)) : Prop where
  some : ∃ saved, .some saved ∈ s.records
  apart : (s.records.filterMap fun o => o.map fun saved => saved.record.id).Nodup
  few : s.records.length ≤ recordsMax
  writable : ∀ saved, .some saved ∈ s.records → Writable agent saved.record

/-- The cuts of one call under which the journal keeps its promise: not inside the first record's
line or the header before it, inside a done line only where the agent stops, and at a start only
where the file's last line is whole or the compaction goes through; a removed journal is replaced. -/
def Spares (agent : Id) (m : Machine) : Event → Prop
  | .append r opened written _ => Writable agent r ∧ (m.phase = .running [] → opened = true → written = 0 ∨
      (appended (m.files.journal.getD []) r).length ≤ written ∨
      m.files.journal.getD [] = [] ∧ written = header.length)
  | .finished r written stop => stop = false → written = 0 ∨ (doneLine r).length ≤ written
  | .rewrite s _ _ _ _ => s.Saves agent
  | .recover renamed removed stop => m.files.journal = none → m.files.new ≠ none →
      renamed = true ∨ (stop = true ∧ removed = false)
  | .compact written removed renamed stop => stop = false → ∀ es b, m.phase = .started es → es ≠ [] →
      m.files.journal = some b →
        if written < (writeAll es).length ∨ removed = false then b.getLast? = some newline else renamed = true

def Fits (f : Files) : Prop :=
  (∀ b, f.journal = some b → b.length ≤ journalMax) ∧ ∀ b, f.new = some b → b.length ≤ journalMax

inductive Spared (agentId : Bytes) (agent : Id) : Machine → Prop
  | new : Spared agentId agent newMachine
  | step {m m' : Machine} {e : Event} (h : Spared agentId agent m) (he : act agentId m e = some m')
      (hs : Spares agent m e) (hf : Fits m'.files) : Spared agentId agent m'

/-- A start now reads what was told, or what was to be written when it was stopped, and takes for done
what was written as done. -/
def Survives (agentId : Bytes) (m : Machine) : Prop :=
  m.phase ≠ .refused ∧ ∀ removed, ∃ es, (m.files.recovered true removed).start agentId = .ok es ∧
    (records es = m.told ∨ some (records es) = m.flight) ∧ ∀ e ∈ es, e.2 = true → e.1 ∈ m.ended

/-! ### What the files hold -/

variable {k : Nat} {es' : List Entry}

section Forms

variable {agent : Id}

def itemsOf (es : List Entry) : List Item :=
  es.flatMap fun e => .record e.1 :: if e.2 then [.done e.1] else []

theorem writeAll_eq (es : List Entry) : writeAll es = header ++ encode (itemsOf es) := by
  rw [writeAll, encode, itemsOf, flatMap_assoc]
  congr 1
  refine flatMap_congr fun e _ => ?_
  cases e.2 <;> simp [line_eq, doneLine_eq]

theorem mark_new {acc : List Entry} {r : Kept} (h : ∀ e ∈ acc, e.1.id ≠ r.id) :
    mark r.id (acc ++ [(r, false)]) = acc ++ [(r, true)] := by
  have hacc : acc.map (fun e : Entry => if e.1.id = r.id then (e.1, true) else e) = acc := by
    conv_rhs => rw [← map_id acc]
    exact map_congr_left fun e he => if_neg (h e he)
  rw [mark, map_append, hacc]
  simp

variable {es : List Entry} {b tail : Bytes} {f : Files}

theorem Valid.lists (hn : (es.map fun e => e.1.id).Nodup)
    (hl : es.length ≤ recordsMax) (hw : ∀ e ∈ es, Writable agent e.1) :
    Lists agent (itemsOf es) es := by
  induction es using List.reverseRecOn with
  | nil => exact .nil
  | append_singleton es e ih =>
    rw [map_append, nodup_append] at hn
    rw [length_append, length_singleton] at hl
    have hnew : ∀ x ∈ es, x.1.id ≠ e.1.id := fun x hx hid =>
      hn.2.2 _ (mem_map_of_mem hx) e.1.id (by simp) hid
    have hbase := ih hn.1 (by omega) fun x hx => hw x (mem_append_left _ hx)
    have hrec := hbase.snoc (.record (hw e (by simp)) hnew (by omega))
    obtain ⟨r, d⟩ := e
    have hitems : itemsOf (es ++ [(r, d)]) =
        itemsOf es ++ [.record r] ++ if d then [.done r] else [] := by
      simp [itemsOf]
    rw [hitems]
    cases d with
    | false => simpa using hrec
    | true =>
      have hdone := hrec.snoc (.done (r := r) (by simp))
      rw [mark_new hnew] at hdone
      exact hdone

theorem Valid.form (h : Valid agent es) : Form agent (writeAll es) es [] := by
  have hform := Form.lines (Valid.lists h.nodup h.length h.writable) (not_mem_nil (a := newline)) rfl
  rwa [append_nil, ← writeAll_eq] at hform

theorem Session.journal_perm (s : Session (Fixed 32)) :
    s.journal.Perm (s.records.filterMap fun o => o.map fun saved => (saved.record, saved.done)) := by
  have hslots : (s.records.zipIdx.filterMap fun (o, i) => o.map fun saved => (saved, i)).map
        (fun x : Saved (Fixed 32) × Nat => (x.1.record, x.1.done)) =
      s.records.filterMap fun o => o.map fun saved => (saved.record, saved.done) := by
    conv_rhs => rw [← zipIdx_map_fst 0 s.records]
    rw [map_filterMap, filterMap_map]
    refine filterMap_congr fun x _ => ?_
    rw [Option.map_map]
    rfl
  rw [← hslots]
  exact (mergeSort_perm _ _).map _

/-- What a session that saves writes can be read back. -/
theorem Session.Saves.valid {s : Session (Fixed 32)} (h : s.Saves agent) : Valid agent s.journal where
  nonempty := by
    obtain ⟨saved, hs⟩ := h.some
    have hmem := s.journal_perm.mem_iff.mpr (mem_filterMap.mpr ⟨.some saved, hs, rfl⟩)
    exact ne_nil_of_mem hmem
  nodup := by
    rw [(s.journal_perm.map _).nodup_iff, map_filterMap]
    simp only [Option.map_map]
    exact h.apart
  length := by
    rw [s.journal_perm.length_eq]
    exact (length_filterMap_le _ _).trans h.few
  writable e he := by
    obtain ⟨o, ho, hsome⟩ := mem_filterMap.mp (s.journal_perm.mem_iff.mp he)
    obtain ⟨saved, rfl, rfl⟩ := Option.map_eq_some_iff.mp hsome
    exact h.writable saved ho

variable {items : List Item}

theorem Lists.length_le (h : Lists agent items es) :
    es.length ≤ recordsMax ∧ ∀ e ∈ es, Writable agent e.1 := by
  induction h with
  | nil => exact ⟨Nat.zero_le _, fun _ h => absurd h not_mem_nil⟩
  | snoc _ hp ih =>
    cases hp with
    | record hw _ hroom =>
      refine ⟨by rw [length_append, length_singleton]; omega, fun e he => ?_⟩
      obtain he | he := mem_append.mp he
      · exact ih.2 e he
      · rw [mem_singleton.mp he]
        exact hw
    | done _ =>
      refine ⟨by rw [mark, length_map]; exact ih.1, fun e he => ?_⟩
      obtain ⟨x, hx, rfl⟩ := mem_map.mp he
      split
      · exact ih.2 x hx
      · exact ih.2 x hx

theorem Form.valid (h : Form agent b es tail) (hne : es ≠ []) : Valid agent es := by
  cases h with
  | empty => exact absurd rfl hne
  | lines h _ _ => exact ⟨hne, h.nodup, h.length_le.1, h.length_le.2⟩

theorem Item.take_text (i : Item) (h : k < (i.text ++ [newline]).length) :
    newline ∉ (i.text ++ [newline]).take k ∧ ((i.text ++ [newline]).take k).all isAscii = true := by
  rw [length_append, length_singleton] at h
  rw [take_append_of_le_length (by omega)]
  refine ⟨fun hm => i.newline_not_mem (mem_of_mem_take hm), ?_⟩
  rw [all_eq_true]
  exact fun b hb => all_eq_true.mp i.text_ascii b (mem_of_mem_take hb)

theorem Form.write {i : Item} (h : Lists agent items es) (hp : Puts agent es i es') (k : Nat) :
    Form agent (header ++ encode items ++ (i.text ++ [newline]).take k)
        (if (i.text ++ [newline]).length ≤ k then es' else es)
        (if (i.text ++ [newline]).length ≤ k then [] else (i.text ++ [newline]).take k) := by
  split
  · rename_i hk
    rw [take_of_length_le hk, append_assoc, ← encode_singleton, ← encode_append]
    have hform := Form.lines (h.snoc hp) (not_mem_nil (a := newline)) rfl
    rwa [append_nil] at hform
  · rename_i hk
    obtain ⟨hn, ha⟩ := i.take_text (not_le.mp hk)
    exact .lines h hn ha

theorem Form.tail_nil (h : Form agent b es tail) (hb : b ≠ [] → b.getLast? = some newline) : tail = [] := by
  cases h with
  | empty => rfl
  | lines h hn _ =>
    by_contra hne
    have hlast := hb (by simp [header, ascii])
    rw [getLast?_append, getLast?_eq_some_getLast hne, Option.some_or] at hlast
    exact hn (Option.some.inj hlast ▸ getLast_mem hne)

/-- The files hold these entries, `journal.new` where the journal was removed. -/
inductive Holds (agent : Id) (f : Files) : List Entry → Bytes → Prop
  | nothing (hj : f.journal = none) (hn : f.new = none) : Holds agent f [] []
  | journal {b tail : Bytes} {es : List Entry} (hj : f.journal = some b) (h : Form agent b es tail) :
      Holds agent f es tail
  | new {b : Bytes} {es : List Entry} (hj : f.journal = none) (hn : f.new = some b)
      (h : Form agent b es []) : Holds agent f es []

theorem Holds.recovered (h : Holds agent f es tail)
    {renamed removed : Bool} (hs : f.journal = none → f.new ≠ none → renamed = true ∨ removed = false) :
    Holds agent (f.recovered renamed removed) es tail := by
  cases h with
  | nothing hj hn =>
    refine .nothing ?_ ?_ <;> cases removed <;> simp [Files.recovered, Files.rename, hj, hn]
  | journal hj h =>
    refine .journal ?_ h
    cases removed <;> simp [Files.recovered, Files.rename, hj]
  | new hj hn h =>
    obtain rfl | rfl := hs hj (by simp [hn])
    · refine .journal ?_ h
      cases removed <;> simp [Files.recovered, Files.rename, hj, hn]
    · cases renamed with
      | true => exact .journal (by simp [Files.recovered, Files.rename, hj, hn]) h
      | false =>
        refine .new ?_ ?_ h
        · simp [Files.recovered, Files.rename, hj, hn]
        · simp [Files.recovered, Files.rename, hj, hn]

def Placed (f : Files) : Prop := f.journal = none → f.new = none

theorem placed_recovered (f : Files) (removed : Bool) : Placed (f.recovered true removed) := by
  obtain ⟨journal, new⟩ := f
  cases journal <;> cases new <;> cases removed <;> simp [Placed, Files.recovered, Files.rename]

theorem Holds.start {agentId : Bytes}
    (ha : Id.new agentId = .ok agent) (h : Holds agent f es tail) (hp : Placed f)
    (hf : ∀ b, f.journal = some b → b.length ≤ journalMax) : f.start agentId = .ok es := by
  cases h with
  | nothing hj _ => rw [Files.start, hj]
  | journal hj h =>
    rw [Files.start, hj]
    exact (if_neg (not_lt.mpr (hf _ hj))).trans (h.read ha)
  | new hj hn _ => exact absurd (hp hj) (by simp [hn])

theorem Fits.recovered (h : Fits f) (renamed removed : Bool) : Fits (f.recovered renamed removed) := by
  obtain ⟨journal, new⟩ := f
  obtain ⟨hj, hn⟩ := h
  refine ⟨fun b hb => ?_, fun b hb => ?_⟩
  · cases journal <;> cases new <;> cases renamed <;> cases removed <;>
      simp_all [Files.recovered, Files.rename]
  · cases journal <;> cases new <;> cases renamed <;> cases removed <;>
      simp_all [Files.recovered, Files.rename]

/-- What `rewrite_journal` leaves: the journal as it was, the new one beside a removed journal, or
the new one in its place. -/
theorem rewritten_cases (hj : f.journal = some b) (es : List Entry)
    (written : Nat) (removed renamed : Bool) {ok : Bool} {f' : Files}
    (h : f.rewritten es written removed renamed = (ok, f')) :
    (ok = false ∧ f'.journal = some b ∧ (written < (writeAll es).length ∨ removed = false)) ∨
    (ok = false ∧ endedBy es written = (es.filter (·.2)).map (·.1) ∧ f'.journal = none ∧
      f'.new = some (writeAll es) ∧ ¬(written < (writeAll es).length ∨ removed = false) ∧ renamed = false) ∨
    (endedBy es written = (es.filter (·.2)).map (·.1) ∧ f'.journal = some (writeAll es)) := by
  obtain ⟨journal, new⟩ := f
  subst hj
  rw [Files.rewritten] at h
  split at h
  · rename_i hw
    obtain ⟨rfl, rfl⟩ := Prod.mk.inj h
    exact .inl ⟨rfl, rfl, .inl hw⟩
  · rename_i hw
    have hend : endedBy es written = (es.filter (·.2)).map (·.1) := if_neg hw
    rw [take_of_length_le (not_lt.mp hw)] at h
    obtain ⟨rfl, rfl⟩ := Prod.mk.inj h
    cases removed with
    | false => exact .inl ⟨rfl, rfl, .inr rfl⟩
    | true =>
      cases renamed with
      | false => exact .inr (.inl ⟨rfl, hend, rfl, rfl, by simpa using hw, rfl⟩)
      | true => exact .inr (.inr ⟨hend, rfl⟩)

end Forms

/-! ### Over every run -/

def Fine (m : Machine) (es : List Entry) (tail : Bytes) : Prop :=
  match m.phase with
  | .stopped => True
  | .started hs => hs = es ∧ records es = m.told ∧ Placed m.files
  | .running hs => records hs = records es ∧ records es = m.told ∧ Placed m.files ∧ tail = []
  | .refused => False

structure Inv (agent : Id) (m : Machine) (es : List Entry) (tail : Bytes) : Prop where
  holds : Holds agent m.files es tail
  whole : es = [] → tail = []
  told : records es = m.told ∨ some (records es) = m.flight
  ended : ∀ e ∈ es, e.2 = true → e.1 ∈ m.ended
  fine : Fine m es tail

section Runs

variable {agentId : Bytes} {agent : Id} {m m' : Machine} {es hs : List Entry} {tail : Bytes}

theorem Inv.running (h : Inv agent m es tail) (hp : m.phase = .running hs) :
    records hs = records es ∧ records es = m.told ∧ Placed m.files ∧ tail = [] := by
  have hf := h.fine
  rwa [Fine, hp] at hf

theorem Inv.started (h : Inv agent m es tail) (hp : m.phase = .started hs) :
    hs = es ∧ records es = m.told ∧ Placed m.files := by
  have hf := h.fine
  rwa [Fine, hp] at hf

theorem Inv.form (h : Inv agent m es tail) (hp : Placed m.files) :
    Form agent (m.files.journal.getD []) es tail ∧ (es ≠ [] → ∃ b, m.files.journal = some b) := by
  cases h.holds with
  | nothing hj _ =>
    rw [hj]
    exact ⟨.empty, fun hne => absurd rfl hne⟩
  | journal hj hform =>
    rw [hj]
    exact ⟨hform, fun _ => ⟨_, rfl⟩⟩
  | new hj hn _ => exact absurd (hp hj) (by simp [hn])

theorem records_eq_nil {es : List Entry} (h : records es = []) : es = [] := map_eq_nil_iff.mp h

theorem records_length (h : records hs = records es) : hs.length = es.length := by
  have := congrArg List.length h
  rwa [records, records, length_map, length_map] at this

variable {r : Kept} {old : Bytes} {written : Nat} {stop removed renamed : Bool}

theorem records_new (h : records hs = records es) (hnew : ∀ e ∈ hs, e.1.id ≠ r.id) :
    ∀ e ∈ es, e.1.id ≠ r.id := by
  intro e he
  have hmem : e.1 ∈ records hs := h ▸ mem_map_of_mem he
  obtain ⟨x, hx, hxe⟩ := mem_map.mp hmem
  rw [← hxe]
  exact hnew x hx

theorem records_snoc (es : List Entry) (r : Kept) (d : Bool) :
    records (es ++ [(r, d)]) = records es ++ [r] := by
  simp [records]

theorem header_form : Form agent header [] [] := by
  have h : Form agent (header ++ encode [] ++ []) [] [] := .lines .nil not_mem_nil rfl
  simpa [encode] using h

theorem appended_whole (h : Form agent old es []) (hp : Puts agent es (.record r) (es ++ [(r, false)])) :
    Form agent (old ++ appended old r) (es ++ [(r, false)]) [] := by
  cases h with
  | empty =>
    have hform := Form.write .nil hp (line r).length
    rw [← line_eq, if_pos le_rfl, if_pos le_rfl, take_of_length_le le_rfl] at hform
    simpa [appended, encode] using hform
  | @lines items _ _ h _ _ =>
    have hform := Form.write h hp (line r).length
    rw [← line_eq, if_pos le_rfl, if_pos le_rfl, take_of_length_le le_rfl] at hform
    have hne : header ++ encode items ++ [] ≠ [] := by simp [header, ascii]
    rw [appended, if_neg hne, nil_append, append_nil]
    exact hform

theorem appended_part (h : Form agent old es []) (hne : es ≠ [])
    (hp : Puts agent es (.record r) (es ++ [(r, false)])) (hk : k < (appended old r).length) :
    ∃ tail, Form agent (old ++ (appended old r).take k) es tail := by
  cases h with
  | empty => exact absurd rfl hne
  | @lines items _ _ h _ _ =>
    have hold : header ++ encode items ++ [] ≠ [] := by simp [header, ascii]
    rw [appended, if_neg hold, nil_append] at hk ⊢
    have hform := Form.write h hp k
    rw [← line_eq, if_neg (not_le.mpr hk), if_neg (not_le.mpr hk)] at hform
    rw [append_nil]
    exact ⟨_, hform⟩

theorem Inv.append (h : Inv agent m es tail) {opened flushed : Bool}
    (ha : act agentId m (.append r opened written flushed) = some m')
    (hs : Spares agent m (.append r opened written flushed)) : ∃ es' tail', Inv agent m' es' tail' := by
  obtain ⟨hw, hfirst⟩ := hs
  rw [act] at ha
  split at ha
  next hs hphase =>
    obtain ⟨hrec, htold, hplaced, rfl⟩ := h.running hphase
    obtain ⟨hform, -⟩ := h.form hplaced
    split at ha
    · cases ha
    · rename_i hguard
      simp only [Bool.or_eq_true, any_eq_true, decide_eq_true_eq, not_or, not_exists, not_and,
        not_le] at hguard
      have hput : Puts agent es (.record r) (es ++ [(r, false)]) :=
        .record hw (records_new hrec hguard.1) (records_length hrec ▸ hguard.2)
      split at ha
      · cases ha
        exact ⟨es, [], h.holds, h.whole, .inl htold, h.ended, trivial⟩
      · dsimp only at ha
        split at ha
        · -- the line is written and flushed
          rename_i hdone
          obtain ⟨hlen, -⟩ := Bool.and_eq_true_iff.mp hdone
          cases ha
          rw [take_of_length_le (of_decide_eq_true hlen)]
          refine ⟨es ++ [(r, false)], [], .journal rfl (appended_whole hform hput), fun _ => rfl,
            .inl ?_, ?_, ?_, ?_, (fun hj => nomatch hj), rfl⟩
          · rw [records_snoc, htold]
          · simpa using h.ended
          · rw [records_snoc, records_snoc, hrec]
          · rw [records_snoc, htold]
        · cases ha
          by_cases hlen : (appended (m.files.journal.getD []) r).length ≤ written
          · -- written whole, and perhaps not flushed
            rw [take_of_length_le hlen]
            refine ⟨es ++ [(r, false)], [], .journal rfl (appended_whole hform hput), fun _ => rfl,
              .inr ?_, ?_, trivial⟩
            · rw [records_snoc, htold]
            · simpa using h.ended
          · by_cases hes : es = []
            · -- the first record's line: nothing of it, or the header alone
              subst hes
              have hnil : hs = [] := records_eq_nil hrec
              subst hnil
              have hopened : opened = true := by simpa using ‹¬(!opened) = true›
              obtain hzero | hwhole | ⟨hold, hcut⟩ := hfirst hphase hopened
              · rw [hzero, take_zero, append_nil]
                exact ⟨[], [], .journal rfl hform, fun _ => rfl, .inl htold, h.ended, trivial⟩
              · exact absurd hwhole hlen
              · rw [hold, appended, if_pos rfl, hcut, take_left]
                exact ⟨[], [], .journal rfl header_form, fun _ => rfl, .inl htold, h.ended, trivial⟩
            · obtain ⟨tail', hpart⟩ := appended_part hform hes hput (not_le.mp hlen)
              exact ⟨es, tail', .journal rfl hpart, fun hnil => absurd hnil hes, .inl htold, h.ended, trivial⟩
  next => cases ha

theorem finished_form (h : Form agent old es []) (hr : r ∈ records es) (k : Nat) :
    Form agent (old ++ (doneLine r).take k) (if (doneLine r).length ≤ k then mark r.id es else es)
      (if (doneLine r).length ≤ k then [] else (doneLine r).take k) := by
  cases h with
  | empty => exact absurd hr not_mem_nil
  | @lines items _ _ h _ _ =>
    rw [append_nil]
    exact Form.write h (.done hr) k

theorem mark_ended {ended : List Kept} (hn : (es.map fun e => e.1.id).Nodup)
    (hr : r ∈ records es) (h : ∀ e ∈ es, e.2 = true → e.1 ∈ ended) :
    ∀ e ∈ mark r.id es, e.2 = true → e.1 ∈ r :: ended := by
  intro e he htrue
  obtain ⟨x, hx, rfl⟩ := mem_map.mp he
  split at htrue
  · rename_i hid
    obtain ⟨y, hy, rfl⟩ := mem_map.mp hr
    rw [if_pos hid, inj_on_of_nodup_map hn hx hy hid]
    exact mem_cons_self
  · rename_i hid
    rw [if_neg hid]
    exact mem_cons_of_mem _ (h x hx htrue)

theorem Inv.finished (h : Inv agent m es tail) (ha : act agentId m (.finished r written stop) = some m')
    (hs : Spares agent m (.finished r written stop)) : ∃ es' tail', Inv agent m' es' tail' := by
  rw [act] at ha
  split at ha
  next hs' hphase =>
    obtain ⟨hrec, htold, hplaced, rfl⟩ := h.running hphase
    obtain ⟨hform, hsome⟩ := h.form hplaced
    split at ha
    · cases ha
    · rename_i hr
      rw [not_not, hrec] at hr
      have hne : es ≠ [] := fun hnil => by
        rw [hnil] at hr
        exact not_mem_nil hr
      obtain ⟨old, hold⟩ := hsome hne
      have hnodup := (hform.valid hne).nodup
      rw [hold, Option.getD_some] at hform
      rw [hold] at ha
      cases ha
      have hwrite := finished_form hform hr written
      by_cases hk : (doneLine r).length ≤ written
      · -- the line is whole: the record is done, for the session and in the file
        rw [if_pos hk, if_pos hk] at hwrite
        refine ⟨mark r.id es, [], .journal rfl hwrite, fun _ => rfl, .inl ?_, ?_, ?_⟩
        · rw [records, mark_records]
          exact htold
        · rw [if_pos hk]
          exact mark_ended hnodup hr h.ended
        · cases stop with
          | true => trivial
          | false =>
            refine ⟨?_, ?_, (fun hj => nomatch hj), rfl⟩
            · rw [records, records, mark_records, mark_records]
              exact hrec
            · rw [records, mark_records]
              exact htold
      · rw [if_neg hk, if_neg hk] at hwrite
        rw [if_neg hk]
        refine ⟨es, _, .journal rfl hwrite, fun hnil => absurd hnil hne, .inl htold, h.ended, ?_⟩
        cases stop with
        | true => trivial
        | false =>
          obtain hzero | hall := hs rfl
          · refine ⟨?_, htold, fun hj => (nomatch hj), ?_⟩
            · rw [records, mark_records]
              exact hrec
            · rw [hzero, take_zero]
          · exact absurd hall hk
  next => cases ha

theorem endedBy_subset (es : List Entry) (ended : List Kept) :
    ∀ e ∈ es, e.2 = true → e.1 ∈ (es.filter (·.2)).map (·.1) ++ ended :=
  fun _ he htrue => mem_append_left _ (mem_map_of_mem (mem_filter.mpr ⟨he, htrue⟩))

theorem Inv.rewrite {s : Session (Fixed 32)} (h : Inv agent m es tail)
    (ha : act agentId m (.rewrite s written removed renamed stop) = some m')
    (hs : Spares agent m (.rewrite s written removed renamed stop)) : ∃ es'' tail', Inv agent m' es'' tail' := by
  have hv : Valid agent s.journal := Session.Saves.valid hs
  rw [act] at ha
  generalize s.journal = es' at ha hv
  split at ha
  next hs hphase =>
    obtain ⟨hrec, htold, hplaced, rfl⟩ := h.running hphase
    obtain ⟨hform, hsome⟩ := h.form hplaced
    split at ha
    · cases ha
    · rename_i hne
      have hes : es ≠ [] := fun hnil => hne (records_eq_nil (hrec.trans (congrArg records hnil)))
      obtain ⟨b, hb⟩ := hsome hes
      rw [hb, Option.getD_some] at hform
      cases hout : m.files.rewritten es' written removed renamed with
      | mk ok files =>
        simp only [hout] at ha
        have hold : ∀ e ∈ es, e.2 = true → e.1 ∈ endedBy es' written ++ m.ended :=
          fun e he htrue => mem_append_right _ (h.ended e he htrue)
        obtain ⟨rfl, hj, -⟩ | ⟨rfl, hend, hj, hn, -⟩ | ⟨hend, hj⟩ :=
          rewritten_cases hb es' written removed renamed hout
        · cases ha
          exact ⟨es, [], .journal hj hform, fun _ => rfl, .inl htold, hold, trivial⟩
        · cases ha
          refine ⟨es', [], .new hj hn hv.form, fun _ => rfl, .inr rfl, ?_, trivial⟩
          rw [hend]
          exact endedBy_subset es' m.ended
        · rw [hend] at ha
          split at ha
          · cases ha
            exact ⟨es', [], .journal hj hv.form, fun _ => rfl, .inl rfl, endedBy_subset es' m.ended,
              rfl, rfl, fun hnone => absurd (hj.symm.trans hnone) (by simp), rfl⟩
          · cases ha
            exact ⟨es', [], .journal hj hv.form, fun _ => rfl, .inr rfl, endedBy_subset es' m.ended, trivial⟩
  next => cases ha

theorem Inv.recover (hid : Id.new agentId = .ok agent) (h : Inv agent m es tail)
    (ha : act agentId m (.recover renamed removed stop) = some m')
    (hs : Spares agent m (.recover renamed removed stop)) (hf : Fits m'.files) :
    ∃ es' tail', Inv agent m' es' tail' := by
  have hholds : Holds agent (m.files.recovered renamed removed) es tail :=
    h.holds.recovered fun hj hn => (hs hj hn).imp id And.right
  simp only [act] at ha
  split at ha
  · cases ha
    exact ⟨es, tail, hholds, h.whole, h.told, h.ended, trivial⟩
  · rename_i hstop
    have hplaced : Placed (m.files.recovered renamed removed) := by
      cases renamed with
      | true => exact placed_recovered m.files removed
      | false =>
        have hfiles : (m.files.recovered false removed).journal = m.files.journal ∧
            (m.files.new = none → (m.files.recovered false removed).new = none) := by
          obtain ⟨⟨journal, new⟩, _⟩ := m
          cases journal <;> cases new <;> cases removed <;> simp [Files.recovered, Files.rename]
        intro hj
        by_contra hn
        obtain hr | hr := hs (hfiles.1 ▸ hj) fun hnone => hn (hfiles.2 hnone)
        · cases hr
        · exact hstop hr.1
    split at ha
    · rename_i hstart
      cases ha
      rw [hholds.start hid hplaced hf.1] at hstart
      cases hstart
    · rename_i hstart
      cases ha
      rw [hholds.start hid hplaced hf.1] at hstart
      cases hstart
      exact ⟨es, tail, hholds, h.whole, .inl rfl, h.ended, rfl, rfl, hplaced⟩

theorem Inv.compact (h : Inv agent m es tail)
    (ha : act agentId m (.compact written removed renamed stop) = some m')
    (hs : Spares agent m (.compact written removed renamed stop)) :
    ∃ es' tail', Inv agent m' es' tail' := by
  rw [act] at ha
  split at ha
  next hphase =>
    obtain ⟨rfl, htold, hplaced⟩ := h.started hphase
    obtain rfl := h.whole rfl
    cases ha
    refine ⟨[], [], h.holds, fun _ => rfl, .inl htold, h.ended, ?_⟩
    cases stop with
    | true => trivial
    | false => exact ⟨rfl, htold, hplaced, rfl⟩
  next e rest hphase =>
    obtain ⟨rfl, htold, hplaced⟩ := h.started hphase
    obtain ⟨hform, hsome⟩ := h.form hplaced
    have hne : e :: rest ≠ [] := cons_ne_nil _ _
    have hv := hform.valid hne
    obtain ⟨b, hb⟩ := hsome hne
    rw [hb, Option.getD_some] at hform
    cases hout : m.files.rewritten (e :: rest) written removed renamed with
    | mk ok files =>
      simp only [hout] at ha
      cases ha
      have hold : ∀ x ∈ e :: rest, x.2 = true → x.1 ∈ endedBy (e :: rest) written ++ m.ended :=
        fun x hx htrue => mem_append_right _ (h.ended x hx htrue)
      obtain ⟨-, hj, hkept⟩ | ⟨-, -, hj, hn, hgone, hnot⟩ | ⟨-, hj⟩ :=
        rewritten_cases hb _ written removed renamed hout
      · -- the journal is as it was; an agent that goes on finds its last line whole
        refine ⟨e :: rest, tail, .journal hj hform, h.whole, .inl htold, hold, ?_⟩
        cases stop with
        | true => trivial
        | false =>
          have hlast := hs rfl _ b hphase hne hb
          rw [if_pos hkept] at hlast
          exact ⟨rfl, htold, fun hnone => absurd (hj.symm.trans hnone) (by simp),
            hform.tail_nil fun _ => hlast⟩
      · refine ⟨e :: rest, [], .new hj hn hv.form, fun _ => rfl, .inl htold, hold, ?_⟩
        cases stop with
        | true => trivial
        | false =>
          have hdone := hs rfl _ b hphase hne hb
          rw [if_neg hgone, hnot] at hdone
          cases hdone
      · refine ⟨e :: rest, [], .journal hj hv.form, fun _ => rfl, .inl htold, hold, ?_⟩
        cases stop with
        | true => trivial
        | false => exact ⟨rfl, htold, fun hnone => absurd (hj.symm.trans hnone) (by simp), rfl⟩
  next => cases ha

theorem Spared.inv (hid : Id.new agentId = .ok agent) (h : Spared agentId agent m) :
    (∃ es tail, Inv agent m es tail) ∧ Fits m.files := by
  induction h with
  | new =>
    refine ⟨⟨[], [], .nothing rfl rfl, fun _ => rfl, .inl rfl, ?_, trivial⟩, ?_, ?_⟩
    · exact fun _ he => absurd he not_mem_nil
    · exact fun _ hb => nomatch hb
    · exact fun _ hb => nomatch hb
  | @step m m' e _ he hs hf ih =>
    obtain ⟨⟨es, tail, hi⟩, -⟩ := ih
    refine ⟨?_, hf⟩
    cases e with
    | append r opened written flushed => exact hi.append he hs
    | finished r written stop => exact hi.finished he hs
    | rewrite s written removed renamed stop => exact hi.rewrite he hs
    | recover renamed removed stop => exact hi.recover hid he hs hf
    | compact written removed renamed stop => exact hi.compact he hs

/-- In every run whose calls are cut only where it does no harm, a start reads the journal, and reads
of it what was told. -/
theorem journal_survives (hid : Id.new agentId = .ok agent) (h : Spared agentId agent m) :
    Survives agentId m := by
  obtain ⟨⟨es, tail, hi⟩, hf⟩ := h.inv hid
  refine ⟨fun hphase => ?_, fun removed => ⟨es, ?_, hi.told, hi.ended⟩⟩
  · have hfine := hi.fine
    rw [Fine, hphase] at hfine
    exact hfine
  · exact (hi.holds.recovered fun _ _ => .inl rfl).start hid (placed_recovered m.files removed)
      (hf.recovered true removed).1

end Runs

/-! ### Runs of one agent -/

def play (events : List Event) : Option Machine := events.foldlM (act oneAgent.bytes) newMachine

theorem zeros_length : (List.replicate 32 (0 : UInt8)).length = 32 := length_replicate

def kept (id : Id) : Kept := ⟨oneAgent, id, ⟨List.replicate 32 0, zeros_length⟩, .completed, none⟩

theorem otherByte_valid : idForm true [0x62] = true := by decide

def first : Kept := kept oneAgent

def second : Kept := kept ⟨[0x62], otherByte_valid⟩

def startup : List Event := [.recover true true false, .compact 4096 true true false]

theorem oneAgent_new : Id.new oneAgent.bytes = .ok oneAgent := rfl

theorem kept_writable (id : Id) : Writable oneAgent (kept id) := ⟨rfl, fun _ h => nomatch h⟩

theorem fits_of_le {f : Files} {b : Bytes} (hj : f.journal = some b) (hn : f.new = none)
    (hb : b.length ≤ journalMax) : Fits f := by
  refine ⟨fun c hc => ?_, fun c hc => ?_⟩
  · rw [hj] at hc
    cases hc
    exact hb
  · rw [hn] at hc
    cases hc

def oneTold : Machine := ⟨⟨some (header ++ line first), none⟩, .running [(first, false)], [first], none, []⟩

def cutSecond : Machine :=
  ⟨⟨some (header ++ line first ++ (line second).take 30), none⟩, .stopped, [first], some [first, second], []⟩

theorem empty_fits : Fits ⟨none, none⟩ := ⟨fun _ h => (nomatch h), fun _ h => (nomatch h)⟩

theorem cutSecond_survives : Survives oneAgent.bytes cutSecond := by
  have h1 : Spared oneAgent.bytes oneAgent { newMachine with phase := .started [] } :=
    .step (e := .recover true true false) .new rfl (fun _ _ => .inl rfl) empty_fits
  have h2 : Spared oneAgent.bytes oneAgent { newMachine with phase := .running [] } :=
    .step (e := .compact 4096 true true false) h1 rfl (fun _ _ _ _ _ h => nomatch h) empty_fits
  have h3 : Spared oneAgent.bytes oneAgent oneTold := by
    refine .step (e := .append first true 4096 true) h2 (by decide) ?_ (fits_of_le rfl rfl (by decide))
    exact ⟨kept_writable _, fun _ _ => .inr (.inl (by decide))⟩
  have h4 : Spared oneAgent.bytes oneAgent cutSecond := by
    refine .step (e := .append second true 30 true) h3 (by decide +kernel) ?_ (fits_of_le rfl rfl (by decide +kernel))
    exact ⟨kept_writable _, fun h => absurd h (by decide)⟩
  exact journal_survives oneAgent_new h4

/-- A stop inside the header of a first append, and one inside the first record's line: the next start,
or the one after a further record, is refused. And a compaction whose renaming fails: the record told
before it is not read once another was appended. -/
theorem cut_journal_forgotten :
    (play (startup ++ [.append first true 5 true, .recover true true false])).map (·.phase) =
        some .refused ∧
      (play (startup ++ [.append first true 30 true] ++ startup ++
        [.append second true 4096 true])).map (·.told) = some [second] ∧
      (play (startup ++ [.append first true 30 true] ++ startup ++
        [.append second true 4096 true, .recover true true false])).map (·.phase) = some .refused ∧
      (play (startup ++ [.append first true 4096 true, .recover true true false,
        .compact 4096 true false false, .append second true 4096 true])).map (·.told) =
          some [first, second] ∧
      (play (startup ++ [.append first true 4096 true, .recover true true false,
        .compact 4096 true false false, .append second true 4096 true,
        .recover true true false])).map (·.phase) = some (.started [(second, false)]) := by
  decide

end MindCore.Effector
