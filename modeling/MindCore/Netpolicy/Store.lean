import Mathlib.Data.List.Induction
import MindCore.Libmind.ReleaseCodec

/-!
# The changed network policy

`policy_text`, `store`, `add` and `remove` of `netpolicy/src/main.rs`. A change is written beside the policy and
then put in its place; the policy in force is the first of three files that can be read.
-/

namespace MindCore.Netpolicy

open List

abbrev Text := List Char

def encode (t : Text) : Bytes := t.flatMap String.utf8EncodeChar

def decode (b : Bytes) : Option Text := b.toByteArray.utf8Decode?.map Array.toList

inductive Path where
  | edited | editedNew | shipped
  deriving DecidableEq

def paths : List Path := [.edited, .editedNew, .shipped]

abbrev Disk := Path → Option Bytes

def maxText : Nat := 64 * 1024

def policyText (answers : Path → Bool) (d : Disk) : Option Text :=
  paths.findSome? fun p => if answers p then (d p).bind fun b => decode (b.take maxText) else none

/-- How far a store comes: a failure or a stop before an operation or its answer, or after `n` bytes of the write. -/
inductive Reach where
  | create | write (n : Nat) | remove | rename | answer | done
  deriving DecidableEq

def store (text : Text) : Reach → Disk → Disk
  | .create, d => d
  | .write n, d => Function.update d .editedNew (some ((encode text).take n))
  | .remove, d => Function.update d .editedNew (some (encode text))
  | .rename, d => Function.update (Function.update d .editedNew (some (encode text))) .edited none
  | .answer, d | .done, d => Function.update (Function.update d .editedNew none) .edited (some (encode text))

/-! ### Lines -/

def white (c : Char) : Bool :=
  (9 ≤ c.toNat && c.toNat ≤ 13) || (0x2000 ≤ c.toNat && c.toNat ≤ 0x200a) ||
    [0x20, 0x85, 0xa0, 0x1680, 0x2028, 0x2029, 0x202f, 0x205f, 0x3000].contains c.toNat

/-- A line without its comment, its words with one space between them. -/
def normal (line : Text) : Text :=
  ((((line.takeWhile (· ≠ '#')).splitOnP white).filter (· ≠ [])).flatMap (' ' :: ·)).tail

/-- `str::lines`: the last line need not be ended, and then keeps its carriage return. -/
def lines (t : Text) : List Text :=
  (t.splitOn '\n').dropLast.map (withoutReturn '\r') ++ (t.splitOn '\n').getLast?.toList.filter (· ≠ [])

abbrev Ended (t : Text) : Prop := t = [] ∨ t.getLast? = some '\n'

def ended (t : Text) : Text := if Ended t then t else t ++ ['\n']

def kept (text target : Text) : List Text := (lines text).filter (normal · ≠ target)

inductive Act where
  | add (line : Text)
  | remove (line : Text)

section Requests
variable (valid : Text → Bool)

/-- The text a request makes of the policy's, if it is one to store; `valid` is the check of a line to add. -/
def changed (text : Text) : Act → Option Text
  | .add line => if valid line then some (ended text ++ normal line ++ ['\n']) else none
  | .remove line =>
    if normal line = [] ∨ (kept text (normal line)).length = (lines text).length then none
    else some (['\n'].intercalate (kept text (normal line)) ++ ['\n'])

structure State where
  disk : Disk
  /-- What was stored since the last acknowledged change, and that one. -/
  recent : List Text

structure Req where
  act : Act
  answers : Path → Bool
  reach : Reach

def stored (s : State) (q : Req) : Option Text := changed valid ((policyText q.answers s.disk).getD []) q.act

def step (s : State) (q : Req) : State :=
  match stored valid s q with
  | none => s
  | some text => ⟨store text q.reach s.disk, if q.reach = .done then [text] else text :: s.recent⟩

/-- The reads answer, the text is not longer than a read of it, and the write is not cut while there is no
changed policy to read instead. -/
def Fine (s : State) (q : Req) : Prop :=
  (∀ p, q.answers p = true) ∧ ∀ text, stored valid s q = some text → (encode text).length ≤ maxText ∧
    ∀ n, q.reach = .write n → s.disk .edited = none → (encode text).length ≤ n

def start (shipped : Text) : State :=
  ⟨fun p => if p = .shipped then some (encode shipped) else none, [shipped]⟩

inductive Reached (shipped : Text) : State → Prop
  | start (h : (encode shipped).length ≤ maxText) : Reached shipped (start shipped)
  | step {s : State} {q : Req} (h : Reached shipped s) (hf : Fine valid s q) : Reached shipped (step valid s q)

end Requests

/-- Only the request's line is new, or only its equals are gone. -/
def OneLine (text text' : Text) : Act → Prop
  | .add line => lines text' = lines text ++ [normal line]
  | .remove line => lines text' = kept text (normal line)

/-- No carriage return is taken for an end of line that was not one, and a line is left. -/
def Plain (text : Text) : Act → Prop
  | .add _ => text.getLast? ≠ some '\r'
  | .remove line => kept text (normal line) ≠ [] ∧ ∀ l ∈ kept text (normal line), l.getLast? ≠ some '\r'

/-! ### The policy in force -/

variable {valid : Text → Bool} {s : State} {t shipped : Text} {d : Disk} {answers : Path → Bool}

theorem decode_encode (t : Text) : decode (encode t) = some t := by
  rw [decode, encode, ← List.utf8Encode, utf8Decode?_utf8Encode, Option.map_some]

def Holds (d : Disk) (t : Text) : Prop := paths.findSome? d = some (encode t) ∧ (encode t).length ≤ maxText

theorem Holds.policyText (h : Holds d t) (ha : ∀ p, answers p = true) : policyText answers d = some t := by
  obtain ⟨hd, hlen⟩ := h
  unfold Netpolicy.policyText
  generalize paths = l at hd ⊢
  induction l with
  | nil => cases hd
  | cons p rest ih =>
    rw [findSome?_cons] at hd ⊢
    rw [if_pos (ha p)]
    cases hp : d p with
    | none =>
      rw [hp] at hd
      exact ih hd
    | some b =>
      rw [hp, Option.some.injEq] at hd
      rw [hd, Option.bind_some, take_of_length_le hlen, decode_encode]

/-- The new file counts only where there is no changed policy. -/
theorem Holds.beside (h : Holds d t) {text : Text} {b : Bytes} (hlen : (encode text).length ≤ maxText)
    (hb : d .edited = none → b = encode text) :
    Holds (Function.update d .editedNew (some b)) t ∨ Holds (Function.update d .editedNew (some b)) text := by
  cases hd : d .edited with
  | none => exact .inr ⟨by simp [paths, hd, hb hd], hlen⟩
  | some c => exact .inl ⟨by simpa [paths, hd] using h.1, h.2⟩

theorem Holds.store (h : Holds d t) {text : Text} {reach : Reach} (hlen : (encode text).length ≤ maxText)
    (hcut : ∀ n, reach = .write n → d .edited = none → (encode text).length ≤ n) :
    Holds (store text reach d) t ∧ reach ≠ .done ∨ Holds (store text reach d) text := by
  cases reach with
  | create => exact .inl ⟨h, nofun⟩
  | write n =>
    have hb := fun hd => take_of_length_le (hcut n rfl hd)
    exact (h.beside hlen hb).imp_left fun hold => ⟨hold, nofun⟩
  | remove => exact (h.beside hlen fun _ => rfl).imp_left fun hold => ⟨hold, nofun⟩
  | rename | answer | done => exact .inr ⟨by simp [paths, Netpolicy.store], hlen⟩

theorem Reached.holds (h : Reached valid shipped s) : ∃ t ∈ s.recent, Holds s.disk t := by
  induction h with
  | start hlen => exact ⟨shipped, mem_singleton_self _, by simp [Netpolicy.start, paths], hlen⟩
  | @step s q _ hf ih =>
    obtain ⟨t, ht, hd⟩ := ih
    cases hs : stored valid s q with
    | none => exact ⟨t, by simpa [Netpolicy.step, hs] using ht, by simpa [Netpolicy.step, hs] using hd⟩
    | some text =>
      have hstep : Netpolicy.step valid s q = ⟨Netpolicy.store text q.reach s.disk,
          if q.reach = .done then [text] else text :: s.recent⟩ := by rw [Netpolicy.step, hs]
      rw [hstep]
      obtain ⟨hlen, hcut⟩ := hf.2 text hs
      rcases hd.store hlen hcut with ⟨hold, hr⟩ | hnew
      · exact ⟨t, by simp [hr, ht], hold⟩
      · exact ⟨text, by split <;> simp, hnew⟩

/-! ### What a change makes of the lines -/

theorem lines_append (t u : Text) :
    lines (t ++ '\n' :: u) = (t.splitOn '\n').map (withoutReturn '\r') ++ lines u := by
  have hsplit : (t ++ '\n' :: u).splitOn '\n' = t.splitOn '\n' ++ u.splitOn '\n' := by
    rw [List.splitOn, splitOnP_append_cons _ _ (by simp), ← List.splitOn, ← List.splitOn]
  have hne := splitOn_ne_nil '\n' u
  rw [lines, hsplit, dropLast_append_of_ne_nil hne, getLast?_append_of_ne_nil _ hne, map_append,
    append_assoc, lines]

theorem lines_line {l : Text} (hn : '\n' ∉ l) : lines (l ++ ['\n']) = [withoutReturn '\r' l] := by
  rw [lines_append, splitOn_eq_singleton hn]
  rfl

theorem newline_not_mem_lines {l : Text} (h : l ∈ lines t) : '\n' ∉ l := by
  have hpart : ∀ part ∈ t.splitOn '\n', '\n' ∉ part := fun part hp hn => by
    simpa using Release.not_of_mem_splitOnP hp _ hn
  rcases mem_append.mp h with h | h
  · obtain ⟨part, hp, rfl⟩ := mem_map.mp h
    have hno := hpart part (dropLast_subset _ hp)
    unfold withoutReturn
    split
    · exact fun hm => hno (dropLast_subset _ hm)
    · exact hno
  · exact hpart l (mem_of_getLast? (Option.mem_toList.mp (mem_of_mem_filter h)))

theorem not_mem_normal {c : Char} (hc : c ≠ ' ') (hw : white c = true) (line : Text) : c ∉ normal line := by
  intro h
  obtain ⟨part, hp, hm⟩ := mem_flatMap.mp (mem_of_mem_tail h)
  have hno := Release.not_of_mem_splitOnP (mem_of_mem_filter hp) c ((mem_cons.mp hm).resolve_left hc)
  rw [hw] at hno
  cases hno

theorem lines_normal (line : Text) : lines (normal line ++ ['\n']) = [normal line] := by
  have hr := not_mem_normal (c := '\r') (by decide) (by decide) line
  rw [lines_line (not_mem_normal (by decide) (by decide) line),
    withoutReturn_eq_iff.mpr fun h => hr (mem_of_getLast? h)]

theorem Ended.lines_append {v : Text} (h : Ended v) (w : Text) : lines (v ++ w) = lines v ++ lines w := by
  rcases h with rfl | h
  · rfl
  · obtain ⟨v, rfl⟩ := getLast?_eq_some_iff.mp h
    rw [append_assoc, singleton_append, Netpolicy.lines_append, Netpolicy.lines_append, append_assoc]
    rfl

/-- A text is its last line after lines that are ended. -/
theorem exists_last_line (t : Text) : ∃ v w, Ended v ∧ '\n' ∉ w ∧ t = v ++ w := by
  induction t using List.reverseRecOn with
  | nil => exact ⟨[], [], .inl rfl, not_mem_nil, rfl⟩
  | append_singleton t c ih =>
    by_cases hc : c = '\n'
    · exact ⟨t ++ [c], [], .inr (by simp [hc]), not_mem_nil, by simp⟩
    · obtain ⟨v, w, hv, hn, rfl⟩ := ih
      exact ⟨v, w ++ [c], hv, by simp [hn, Ne.symm hc], append_assoc _ _ _⟩

theorem lines_ended_iff : lines (ended t) = lines t ↔ t.getLast? ≠ some '\r' := by
  obtain ⟨v, w, hv, hn, rfl⟩ := exists_last_line t
  by_cases hw : w = []
  · rw [hw, append_nil, ended, if_pos hv]
    rcases hv with rfl | h <;> simp [*]
  · have hlast : (v ++ w).getLast? = w.getLast? := getLast?_append_of_ne_nil v hw
    have hopen : ¬ Ended (v ++ w) := by
      rw [Ended, hlast, append_eq_nil_iff]
      exact fun h => h.elim (fun h => hw h.2) fun h => hn (mem_of_getLast? h)
    have hsingle : lines w = [w] := by simp [lines, splitOn_eq_singleton hn, hw]
    rw [ended, if_neg hopen, append_assoc, hv.lines_append, hv.lines_append, lines_line hn, hsingle,
      append_cancel_left_eq, singleton_inj, withoutReturn_eq_iff, hlast]

theorem ended_ended (t : Text) : Ended (ended t) := by
  unfold ended
  split
  · assumption
  · exact .inr (by simp)

/-- Exactly then is the line the only difference. -/
theorem changed_iff {act : Act} {text text' : Text} (h : changed valid text act = some text') :
    OneLine text text' act ↔ Plain text act := by
  cases act with
  | add line =>
    obtain ⟨-, rfl⟩ : valid line = true ∧ ended text ++ normal line ++ ['\n'] = text' := by
      simpa [changed] using h
    rw [OneLine, Plain, append_assoc, (ended_ended text).lines_append, lines_normal,
      append_cancel_right_eq, lines_ended_iff]
  | remove line =>
    obtain ⟨-, rfl⟩ : _ ∧ ['\n'].intercalate (kept text (normal line)) ++ ['\n'] = text' := by
      simpa [changed] using h
    rw [OneLine, Plain, lines_append]
    cases hk : kept text (normal line) with
    | nil => simp [lines]
    | cons l rest =>
      have hno : ∀ k ∈ l :: rest, '\n' ∉ k := fun k hm =>
        newline_not_mem_lines (mem_of_mem_filter (hk ▸ hm))
      rw [splitOn_intercalate _ hno (cons_ne_nil _ _), and_iff_right (cons_ne_nil _ _)]
      simp only [← withoutReturn_eq_iff]
      have hmap := map_inj_left (l := l :: rest) (f := withoutReturn '\r') (g := id)
      rwa [map_id, ← append_nil (List.map _ _)] at hmap

/-- In a run whose reads answer, whose texts fit a read and whose writes are not cut while there is no changed
policy, the policy in force is whole and not older than the last acknowledged change; and what the next change
stores differs from it in its line only, exactly if no carriage return is lost and a line is left. -/
theorem policy_whole (h : Reached valid shipped s) :
    ∃ text ∈ s.recent, (∀ answers, (∀ p, answers p = true) → policyText answers s.disk = some text) ∧
      ∀ q text', (∀ p, q.answers p = true) → stored valid s q = some text' →
        (OneLine text text' q.act ↔ Plain text q.act) := by
  obtain ⟨text, ht, hd⟩ := h.holds
  refine ⟨text, ht, fun answers ha => hd.policyText ha, ?_⟩
  intro q text' ha hs
  rw [stored, hd.policyText ha] at hs
  exact changed_iff hs

theorem policy_whole_added :
    let s := step (fun _ => true) (start "a dns".toList) ⟨.add "b  dns".toList, fun _ => true, .done⟩
    ∃ text ∈ s.recent, policyText (fun _ => true) s.disk = some text := by
  have hfine : Fine (fun _ => true) (start "a dns".toList) ⟨.add "b  dns".toList, fun _ => true, .done⟩ := by
    refine ⟨fun _ => rfl, fun text h => ⟨?_, nofun⟩⟩
    cases h
    decide
  obtain ⟨text, ht, hp, -⟩ := policy_whole (.step (.start (by decide)) hfine)
  exact ⟨text, ht, hp _ fun _ => rfl⟩

/-- The first change, cut in its write: the rule is in force without its port. -/
theorem cut_in_force :
    ∃ s, s = step (fun _ => true) (start "#\n".toList) ⟨.add "p 1.2.3.4 tcp 80".toList, fun _ => true, .write 15⟩ ∧
      ∃ text ∉ s.recent, policyText (fun _ => true) s.disk = some text :=
  ⟨_, rfl, "#\np 1.2.3.4 tcp".toList, by decide, by decide⟩

end MindCore.Netpolicy
