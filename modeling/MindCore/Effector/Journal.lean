import Mathlib.Data.List.Nodup
import MindCore.Lib.Utf8
import MindCore.Libmind.ReleaseCodec
import MindCore.Effector.Session

/-!
# The journal's file form

One line for each saved answer and one more once it needs no acknowledgement (`journal.rs`), and what
a start reads of a file of such lines, whatever unfinished line stands at its end.
-/

namespace MindCore.Effector

open List
open MindCore.Release

abbrev Kept := Record (Fixed 32)

abbrev Entry := Kept × Bool

def header : Bytes := ascii "effector-journal 1\n"

def lineMax : Nat := 64 + 1 + 64 + 1 + 18 + 1 + 20 + 1

def dash : Bytes := ascii "-"

def doneWord : Bytes := ascii "done"

def Failure.name : Failure → Bytes
  | .denied => ascii "denied"
  | .noPolicy => ascii "no-policy"
  | .notFound => ascii "not-found"
  | .bounds => ascii "bounds"
  | .digest => ascii "digest"
  | .busy => ascii "busy"
  | .expired => ascii "expired"
  | .audit => ascii "audit"
  | .io => ascii "io"
  | .malformed => ascii "malformed"
  | .unsupported => ascii "unsupported"
  | .upload => ascii "upload"

def Failure.all : List Failure :=
  [.denied, .noPolicy, .notFound, .bounds, .digest, .busy, .expired, .audit, .io, .malformed,
    .unsupported, .upload]

def Failure.fromName (name : Bytes) : Option Failure := Failure.all.find? fun f => f.name = name

def Artifact.name : Artifact → Bytes
  | .screen => ascii "screen"
  | .log => ascii "log"

def Artifact.fromName (name : Bytes) : Option Artifact := [.screen, .log].find? fun a => a.name = name

/-! ### Writing -/

def Final.word : Final → Bytes
  | .failed f => ascii "failed-" ++ f.name
  | .captured a => ascii "captured-" ++ a.name
  | .reported => ascii "reported"
  | .denied => ascii "denied"
  | .expired => ascii "expired"
  | .completed => ascii "completed"

def expiresWord : Option Nat → Bytes
  | none => dash
  | some v => decimalOf v

def words (r : Kept) : List Bytes :=
  [r.id.bytes, hexOf r.identity.1, r.result.word, expiresWord r.expiresUnix]

def doneWords (r : Kept) : List Bytes := [r.id.bytes, hexOf r.identity.1, doneWord, dash]

def line (r : Kept) : Bytes := [blank].intercalate (words r) ++ [newline]

def doneLine (r : Kept) : Bytes := [blank].intercalate (doneWords r) ++ [newline]

def writeAll (entries : List Entry) : Bytes :=
  header ++ entries.flatMap fun e => line e.1 ++ if e.2 then doneLine e.1 else []

/-! ### Reading -/

def Final.ofWord (w : Bytes) : Option Final :=
  if w = ascii "denied" then some .denied
  else if w = ascii "expired" then some .expired
  else if w = ascii "completed" then some .completed
  else if w = ascii "reported" then some .reported
  else if (ascii "captured-").isPrefixOf w then (Artifact.fromName (w.drop 9)).map .captured
  else if (ascii "failed-").isPrefixOf w then (Failure.fromName (w.drop 7)).map .failed
  else none

def expiresOf (w : Bytes) : Option (Option Nat) :=
  if w = dash then some none else (decimal w).map fun v => some v.toNat

def mark (id : Id) (acc : List Entry) : List Entry := acc.map fun e => if e.1.id = id then (e.1, true) else e

def readLine (agent : Id) (acc : List Entry) (l : Bytes) : Except Error (List Entry) := do
  let w := l.splitOn blank
  if 4 < w.length then .error .journal
  else
    let id ← orError .journal (Id.command (w.getD 0 [])).toOption
    let identity ← orError .journal (w[1]?.bind (hex 32))
    if w[2]? = some doneWord then
      match acc.find? fun e => e.1.id = id with
      | none => .error .journal
      | some e =>
        if e.1.identity ≠ identity ∨ w[3]? ≠ some dash then .error .journal else .ok (mark id acc)
    else
      let result ← orError .journal (w[2]?.bind Final.ofWord)
      let expires ← orError .journal (w[3]?.bind expiresOf)
      if acc.any fun e => e.1.id = id then .error .journal
      else if acc.length = recordsMax then .error .full
      else .ok (acc ++ [(⟨agent, id, identity, result, expires⟩, false)])

/-- The lines that a newline ends; a last one without is dropped. -/
def wholeLines (body : Bytes) : List Bytes := (body.splitOn newline).dropLast

def read (text : Bytes) (agentId : Bytes) : Except Error (List Entry) := do
  let agent ← Id.new agentId
  if text = [] then .ok []
  else if !utf8 text then .error .journal
  else if !header.isPrefixOf text then .error .journal
  else (wholeLines (text.drop header.length)).foldlM (readLine agent) []

/-! ### What is written is read back -/

theorem decimalOf_ne_dash (n : Nat) : decimalOf n ≠ dash := by
  intro h
  have hall := decimalOf_all n
  rw [h] at hall
  exact absurd hall (by decide)

theorem expiresOf_word {e : Option Nat} (h : ∀ v, e = some v → v < 2 ^ 64) :
    expiresOf (expiresWord e) = some e := by
  cases e with
  | none => rfl
  | some v =>
    have hv : (UInt64.ofNat v).toNat = v := UInt64.toNat_ofNat_of_lt (h v rfl)
    have hd : decimal (decimalOf v) = some (UInt64.ofNat v) := by
      have := decimal_decimalOf (UInt64.ofNat v)
      rwa [hv] at this
    rw [expiresOf, expiresWord, if_neg (decimalOf_ne_dash v), hd, Option.map_some, hv]

theorem command_bytes (id : Id) : Id.command id.bytes = .ok id := dif_pos id.valid

/-- The bytes of a line: no space inside a word, no newline before the end, all of them text. -/
def plain (b : UInt8) : Bool := 0x21 ≤ b && b ≤ 0x7e

theorem byte_plain (b : UInt8) : (plain b = true → isAscii b = true) ∧
    (idByte true b = true → plain b = true) ∧ (wordByte b = true → plain b = true) := by
  revert b
  exact forall_byte (by decide +kernel)

theorem id_plain (id : Id) : id.bytes.all plain = true := by
  have h := id.valid
  simp only [idForm, Bool.and_eq_true, all_eq_true] at h
  rw [all_eq_true]
  exact fun b hb => (byte_plain b).2.1 (h.1.2 b hb)

theorem hex_plain (bytes : Bytes) : (hexOf bytes).all plain = true := by
  have h := hexOf_word bytes
  rw [all_eq_true] at h ⊢
  exact fun b hb => (byte_plain b).2.2 (h b hb)

theorem word_spec (r : Final) :
    Final.ofWord r.word = some r ∧ r.word ≠ doneWord ∧ r.word.all plain = true := by
  cases r with
  | failed f => cases f <;> decide
  | captured a => cases a <;> decide
  | reported => decide
  | denied => decide
  | expired => decide
  | completed => decide

theorem expires_plain (e : Option Nat) : (expiresWord e).all plain = true := by
  cases e with
  | none => decide
  | some v =>
    have h := decimalOf_all v
    rw [expiresWord, all_eq_true] at *
    intro b hb
    have hd := h b hb
    exact (byte_plain b).2.2 (by simp [wordByte, hd])

theorem words_plain (r : Kept) : ∀ w ∈ words r, w.all plain = true := by
  simp only [words, mem_cons, not_mem_nil, or_false, forall_eq_or_imp, forall_eq]
  exact ⟨id_plain _, hex_plain _, (word_spec _).2.2, expires_plain _⟩

theorem doneWords_plain (r : Kept) : ∀ w ∈ doneWords r, w.all plain = true := by
  simp only [doneWords, mem_cons, not_mem_nil, or_false, forall_eq_or_imp, forall_eq]
  exact ⟨id_plain _, hex_plain _, by decide, by decide⟩

theorem splitOn_words {ws : List Bytes} (hne : ws ≠ []) (h : ∀ w ∈ ws, w.all plain = true) :
    ([blank].intercalate ws).splitOn blank = ws :=
  splitOn_intercalate blank (fun w hw => not_mem_of_all (h w hw) (by decide)) hne

theorem mem_words {ws : List Bytes} (h : ∀ w ∈ ws, w.all plain = true) {b : UInt8}
    (hb : b ∈ [blank].intercalate ws) : b = blank ∨ plain b = true := by
  induction ws with
  | nil => cases hb
  | cons w rest ih =>
    have hw := all_eq_true.mp (h w mem_cons_self)
    cases rest with
    | nil =>
      rw [intercalate_singleton] at hb
      exact .inr (hw b hb)
    | cons v rest =>
      rw [intercalate_cons_cons, mem_append, mem_append, mem_singleton] at hb
      obtain (hb | rfl) | hb := hb
      · exact .inr (hw b hb)
      · exact .inl rfl
      · exact ih (fun u hu => h u (mem_cons_of_mem _ hu)) hb

/-! ### Lines and what they stand for -/

inductive Item where
  | record (r : Kept)
  | done (r : Kept)

def Item.words : Item → List Bytes
  | .record r => Effector.words r
  | .done r => doneWords r

def Item.text (i : Item) : Bytes := [blank].intercalate i.words

def encode (items : List Item) : Bytes := items.flatMap fun i => i.text ++ [newline]

theorem Item.words_plain (i : Item) : ∀ w ∈ i.words, w.all plain = true := by
  cases i with
  | record r => exact Effector.words_plain r
  | done r => exact doneWords_plain r

theorem Item.words_ne (i : Item) : i.words ≠ [] := by
  cases i <;> exact cons_ne_nil _ _

theorem Item.splitOn_text (i : Item) : i.text.splitOn blank = i.words :=
  splitOn_words i.words_ne i.words_plain

theorem Item.newline_not_mem (i : Item) : newline ∉ i.text := by
  intro h
  obtain h | h := mem_words i.words_plain h
  · exact absurd h (by decide)
  · exact absurd h (by decide)

theorem Item.text_ascii (i : Item) : i.text.all isAscii = true := by
  rw [all_eq_true]
  intro b hb
  obtain rfl | h := mem_words i.words_plain hb
  · decide
  · exact (byte_plain b).1 h

theorem line_eq (r : Kept) : line r = (Item.record r).text ++ [newline] := rfl

theorem doneLine_eq (r : Kept) : doneLine r = (Item.done r).text ++ [newline] := rfl

theorem encode_append (a b : List Item) : encode (a ++ b) = encode a ++ encode b := flatMap_append

theorem encode_singleton (i : Item) : encode [i] = i.text ++ [newline] := by simp [encode]

theorem encode_ascii (items : List Item) : (encode items).all isAscii = true := by
  rw [all_eq_true]
  intro b hb
  obtain ⟨i, -, hb⟩ := mem_flatMap.mp hb
  obtain hb | hb := mem_append.mp hb
  · exact all_eq_true.mp i.text_ascii b hb
  · rw [mem_singleton.mp hb]
    decide

theorem wholeLines_encode (items : List Item) {tail : Bytes} (ht : newline ∉ tail) :
    wholeLines (encode items ++ tail) = items.map Item.text := by
  have hsplit : (encode items ++ tail).splitOn newline = items.map Item.text ++ [tail] := by
    induction items with
    | nil => exact splitOn_eq_singleton ht
    | cons i rest ih =>
      have hcons : encode (i :: rest) ++ tail = i.text ++ newline :: (encode rest ++ tail) := by
        simp [encode]
      rw [hcons, List.splitOn, splitOnP_append_cons _ _ (by simp), ← List.splitOn, ← List.splitOn,
        splitOn_eq_singleton i.newline_not_mem, ih]
      rfl
  rw [wholeLines, hsplit, dropLast_concat]

structure Writable (agent : Id) (r : Kept) : Prop where
  agent : r.agent = agent
  expires : ∀ v, r.expiresUnix = some v → v < 2 ^ 64

inductive Puts (agent : Id) : List Entry → Item → List Entry → Prop
  | record {acc : List Entry} {r : Kept} (hw : Writable agent r) (hnew : ∀ e ∈ acc, e.1.id ≠ r.id)
      (hroom : acc.length < recordsMax) : Puts agent acc (.record r) (acc ++ [(r, false)])
  | done {acc : List Entry} {r : Kept} (hin : r ∈ acc.map (·.1)) : Puts agent acc (.done r) (mark r.id acc)

inductive Lists (agent : Id) : List Item → List Entry → Prop
  | nil : Lists agent [] []
  | snoc {items : List Item} {i : Item} {acc es : List Entry} (h : Lists agent items acc)
      (hp : Puts agent acc i es) : Lists agent (items ++ [i]) es

variable {agent : Id}

theorem mark_records (id : Id) (acc : List Entry) : (mark id acc).map (·.1) = acc.map (·.1) := by
  simp only [mark, map_map]
  refine map_congr_left fun e _ => ?_
  dsimp only [Function.comp_apply]
  split <;> rfl

variable {acc es : List Entry}

theorem Puts.records {i : Item} (h : Puts agent acc i es)
    (hn : (acc.map fun e => e.1.id).Nodup) : (es.map fun e => e.1.id).Nodup := by
  cases h with
  | @record r hw hnew hroom =>
    rw [map_append]
    refine nodup_append.mpr ⟨hn, nodup_singleton _, ?_⟩
    intro id hid id' hid' heq
    obtain ⟨e, he, rfl⟩ := mem_map.mp hid
    rw [map_cons, map_nil, mem_singleton] at hid'
    exact hnew e he (heq.trans hid')
  | @done r hin =>
    have h := congrArg (List.map fun r : Kept => r.id) (mark_records r.id acc)
    rw [map_map, map_map] at h
    exact h ▸ hn

theorem Lists.nodup {items : List Item} (h : Lists agent items es) : (es.map fun e => e.1.id).Nodup := by
  induction h with
  | nil => exact nodup_nil
  | snoc _ hp ih => exact hp.records ih

theorem readLine_record {r : Kept} (hw : Writable agent r)
    (hnew : ∀ e ∈ acc, e.1.id ≠ r.id) (hroom : acc.length < recordsMax) :
    readLine agent acc (Item.record r).text = .ok (acc ++ [(r, false)]) := by
  have hany : (acc.any fun e => decide (e.1.id = r.id)) = false := by
    rw [any_eq_false]
    exact fun e he => by simpa using hnew e he
  have hlen : acc.length ≠ recordsMax := by omega
  have hdone : ¬r.result.word = doneWord := (word_spec _).2.1
  rw [readLine, Item.splitOn_text]
  simp [Item.words, words, command_bytes, orError, Except.toOption, hex_hexOf, hdone, (word_spec _).1,
    expiresOf_word hw.expires, hany, hlen, bind, Except.bind, ← hw.agent]

theorem readLine_done {r : Kept} (hn : (acc.map fun e => e.1.id).Nodup)
    (hin : r ∈ acc.map (·.1)) : readLine agent acc (Item.done r).text = .ok (mark r.id acc) := by
  obtain ⟨e, he, rfl⟩ := mem_map.mp hin
  have hfind : (acc.find? fun x => decide (x.1.id = e.1.id)) = some e := by
    cases hf : acc.find? fun x => decide (x.1.id = e.1.id) with
    | none => exact absurd (find?_eq_none.mp hf e he) (by simp)
    | some x =>
      have hid : x.1.id = e.1.id := by simpa using find?_some hf
      rw [inj_on_of_nodup_map hn (mem_of_find?_eq_some hf) he hid]
  rw [readLine, Item.splitOn_text]
  simp [Item.words, doneWords, command_bytes, orError, Except.toOption, hex_hexOf, hfind, bind, Except.bind]

theorem readLine_puts {i : Item} (h : Puts agent acc i es)
    (hn : (acc.map fun e => e.1.id).Nodup) : readLine agent acc i.text = .ok es := by
  cases h with
  | record hw hnew hroom => exact readLine_record hw hnew hroom
  | done hin => exact readLine_done hn hin

theorem Lists.foldlM {items : List Item} (h : Lists agent items es) :
    (items.map Item.text).foldlM (readLine agent) [] = .ok es := by
  induction h with
  | nil => rfl
  | snoc h hp ih =>
    rw [map_append, foldlM_append, ih]
    simp [bind, Except.bind, readLine_puts hp h.nodup, pure, Except.pure]

inductive Form (agent : Id) : Bytes → List Entry → Bytes → Prop
  | empty : Form agent [] [] []
  | lines {items : List Item} {es : List Entry} {tail : Bytes} (h : Lists agent items es)
      (hn : newline ∉ tail) (ha : tail.all isAscii = true) :
      Form agent (header ++ encode items ++ tail) es tail

theorem header_ascii : header.all isAscii = true := by decide

theorem Form.read {agentId text tail : Bytes} (ha : Id.new agentId = .ok agent)
    (h : Form agent text es tail) : read text agentId = .ok es := by
  cases h with
  | empty => simp [Effector.read, ha, bind, Except.bind]
  | @lines items es tail h hn hasc =>
    have hne : header ++ encode items ++ tail ≠ [] := by simp [header, ascii]
    have hutf : utf8 (header ++ encode items ++ tail) = true := by
      refine utf8_of_ascii ?_
      rw [all_append, all_append, header_ascii, encode_ascii, hasc]
      rfl
    have hprefix : header.isPrefixOf (header ++ encode items ++ tail) = true := by
      rw [append_assoc, isPrefixOf_iff_prefix]
      exact prefix_append _ _
    have hdrop : (header ++ encode items ++ tail).drop header.length = encode items ++ tail := by
      rw [append_assoc, drop_left]
    simp only [Effector.read, ha, bind, Except.bind, if_neg hne, hutf, hprefix, Bool.not_true,
      Bool.false_eq_true, if_false, hdrop, wholeLines_encode items hn]
    exact h.foldlM

end MindCore.Effector
