import Mathlib.Algebra.GroupWithZero.Nat
import Mathlib.Data.List.Basic
import Mathlib.Data.List.Induction
import Mathlib.Logic.Relation

/-!
# Messages between two parties that save and crash

A sender numbers its messages and keeps them until a receiver is seen to have applied them; a
receiver applies what the sender's last save owes it, past the number it came to. Each saves on
its own, and a crash takes it back to its last save. The party at the other end only ever sees a
save. Then no message is applied twice or out of order along the receiver's saves, and none leaves
a save of the sender's before a save of the receiver's has it.
-/

namespace MindCore

open List

universe u

/-- The sender's outbox and the last number it gave, now and in each of its saves; what the
receiver has applied, now and in each of its saves. The newest save is first. -/
structure Mail (μ : Type u) where
  out : List μ
  sent : Nat
  saves : List (List μ × Nat)
  log : List μ
  logs : List (List μ)

namespace Mail

variable {μ : Type u} (seq : μ → Nat)

def empty : Mail μ := ⟨[], 0, [], [], []⟩

def saved (s : Mail μ) : List μ × Nat := s.saves.headD ([], 0)

def savedLog (s : Mail μ) : List μ := s.logs.headD []

def shown (s : Mail μ) : List μ := s.saves.flatMap Prod.fst

def last (log : List μ) : Nat := (log.getLast?.map seq).getD 0

@[simp] theorem last_nil : last seq ([] : List μ) = 0 := rfl

@[simp] theorem last_concat (log : List μ) (m : μ) : last seq (log ++ [m]) = seq m := by
  simp [last]

/-- `mine` are the messages for this receiver. Each party may act on an old save of the other. -/
inductive Step (mine : μ → Prop) [DecidablePred mine] : Mail μ → Mail μ → Prop where
  | send (s : Mail μ) (m : μ) (h : s.sent < seq m) : Step mine s { s with out := s.out ++ [m], sent := seq m }
  | clear (s : Mail μ) (n : Nat) (h : n ≤ last seq s.savedLog) :
    Step mine s { s with out := s.out.filter fun m => ¬(mine m ∧ seq m ≤ n) }
  | deliver (s : Mail μ) (out : List μ) (hsub : out.Sublist s.out)
    (hmine : ∀ m ∈ s.out, mine m → m ∈ out) : Step mine s { s with out := out }
  | saveSender (s : Mail μ) : Step mine s { s with saves := (s.out, s.sent) :: s.saves }
  | crashSender (s : Mail μ) : Step mine s { s with out := s.saved.1, sent := s.saved.2 }
  | receive (s : Mail μ) (save : List μ × Nat) (hsave : save ∈ s.saves) (l : List μ)
    (h : l <+: save.1.filter fun m => mine m ∧ last seq s.log < seq m) :
    Step mine s { s with log := s.log ++ l }
  | saveReceiver (s : Mail μ) : Step mine s { s with logs := s.log :: s.logs }
  | crashReceiver (s : Mail μ) : Step mine s { s with log := s.savedLog }

/-- An outbox in order, its numbers from 1 to the last one given. -/
structure Numbered (out : List μ) (sent : Nat) : Prop where
  sorted : out.Pairwise fun a b => seq a < seq b
  pos : ∀ m ∈ out, 0 < seq m
  le : ∀ m ∈ out, seq m ≤ sent

/-- A log in order, of messages shown to this receiver, that leaves none out up to its last. -/
structure Applied (mine : μ → Prop) (shown log : List μ) : Prop where
  sorted : log.Pairwise fun a b => seq a < seq b
  subset : ∀ m ∈ log, m ∈ shown ∧ mine m
  all : ∀ m ∈ shown, mine m → seq m ≤ last seq log → m ∈ log

/-- A save of the sender's: a message it had given is owed in it, or in the receiver's last
save. -/
structure Kept (mine : μ → Prop) (shown savedLog : List μ) (save : List μ × Nat) : Prop where
  numbered : Numbered seq save.1 save.2
  kept : ∀ m ∈ shown, mine m → seq m ≤ save.2 → m ∈ save.1 ∨ m ∈ savedLog

structure Inv (mine : μ → Prop) (s : Mail μ) : Prop where
  now : Kept seq mine s.shown s.savedLog (s.out, s.sent)
  saved : Kept seq mine s.shown s.savedLog s.saved
  saves : ∀ save ∈ s.saves, Kept seq mine s.shown s.savedLog save ∧ save.2 ≤ s.saved.2
  sent : s.saved.2 ≤ s.sent
  shown_sent : ∀ m ∈ s.shown, 0 < seq m ∧ seq m ≤ s.saved.2
  /-- No number names two messages ever shown. -/
  unique : ∀ a ∈ s.shown, ∀ b ∈ s.shown, seq a = seq b → a = b
  fresh : ∀ m ∈ s.out, m ∈ s.shown ∨ s.saved.2 < seq m
  log : Applied seq mine s.shown s.log
  savedLog : Applied seq mine s.shown s.savedLog
  logs : ∀ log ∈ s.logs, Applied seq mine s.shown log
  grows : (s.log :: s.logs).Pairwise fun new old => old <+: new

variable {seq} {mine : μ → Prop} {log l out : List μ} {m : μ} {s : Mail μ} {save : List μ × Nat}

theorem le_last (h : log.Pairwise fun a b => seq a < seq b) (hm : m ∈ log) : seq m ≤ last seq log := by
  induction log using List.reverseRecOn with
  | nil => simp at hm
  | append_singleton log a ih =>
    rw [last_concat]
    rw [pairwise_append] at h
    rcases mem_append.mp hm with hin | hlast
    · exact Nat.le_of_lt (h.2.2 m hin a (by simp))
    · exact Nat.le_of_eq (congrArg seq (mem_singleton.mp hlast))

theorem sorted_unique (h : l.Pairwise fun a b => seq a < seq b) {a b : μ} (ha : a ∈ l)
    (hb : b ∈ l) (hab : seq a = seq b) : a = b := by
  induction l with
  | nil => simp at ha
  | cons c l ih =>
    rw [pairwise_cons] at h
    rcases mem_cons.mp ha with rfl | ha' <;> rcases mem_cons.mp hb with rfl | hb'
    · rfl
    · exact absurd hab (Nat.ne_of_lt (h.1 b hb'))
    · exact absurd hab.symm (Nat.ne_of_lt (h.1 a ha'))
    · exact ih h.2 ha' hb'

theorem last_mem (h : 0 < last seq log) : ∃ m ∈ log, seq m = last seq log := by
  induction log using List.reverseRecOn with
  | nil => simp at h
  | append_singleton log a ih => exact ⟨a, by simp, by rw [last_concat]⟩

theorem last_mono {log' : List μ} (h' : log'.Pairwise fun a b => seq a < seq b)
    (hsub : log ⊆ log') : last seq log ≤ last seq log' := by
  by_cases hpos : 0 < last seq log
  · obtain ⟨m, hm, hs⟩ := last_mem hpos
    rw [← hs]
    exact le_last h' (hsub hm)
  · omega

variable {bound sent : Nat} {more : List μ} {s' : Mail μ}

theorem Applied.show_more {shown : List μ} (h : Applied seq mine shown log)
    (hshown : ∀ m ∈ shown, seq m ≤ bound) (hmore : ∀ m ∈ more, m ∈ shown ∨ bound < seq m) :
    Applied seq mine (more ++ shown) log where
  sorted := h.sorted
  subset m hm := ⟨mem_append_right _ (h.subset m hm).1, (h.subset m hm).2⟩
  all m hm hmine hle := by
    have hpos : ∀ n, n ≤ last seq log → 0 < n → n ≤ bound := by
      intro n hn hp
      obtain ⟨k, hk, hs⟩ := last_mem (show 0 < last seq log by omega)
      have := hshown k (h.subset k hk).1
      omega
    rcases mem_append.mp hm with hin | hin
    · rcases hmore m hin with hs | hs
      · exact h.all m hs hmine hle
      · have := hpos (seq m) hle (by omega)
        omega
    · exact h.all m hin hmine hle

theorem Numbered.sublist {out' : List μ} (h : Numbered seq out sent)
    (hsub : out'.Sublist out) : Numbered seq out' sent where
  sorted := h.sorted.sublist hsub
  pos m hm := h.pos m (hsub.subset hm)
  le m hm := h.le m (hsub.subset hm)

theorem Numbered.send (h : Numbered seq out sent)
    (hm : sent < seq m) : Numbered seq (out ++ [m]) (seq m) where
  sorted := by
    rw [pairwise_append]
    refine ⟨h.sorted, pairwise_singleton _ _, ?_⟩
    intro a ha b hb
    rw [mem_singleton.mp hb]
    exact Nat.lt_of_le_of_lt (h.le a ha) hm
  pos a ha := by
    rcases mem_append.mp ha with hin | hin
    · exact h.pos a hin
    · rw [mem_singleton.mp hin]
      omega
  le a ha := by
    rcases mem_append.mp ha with hin | hin
    · exact Nat.le_of_lt (Nat.lt_of_le_of_lt (h.le a hin) hm)
    · exact Nat.le_of_eq (congrArg seq (mem_singleton.mp hin))

theorem prefix_all {all : List μ} (h : all.Pairwise fun a b => seq a < seq b) (hl : l <+: all)
    (hm : m ∈ all) (hle : seq m ≤ last seq l) (hpos : 0 < seq m) : m ∈ l := by
  obtain ⟨rest, rfl⟩ := hl
  rcases mem_append.mp hm with hin | hin
  · exact hin
  · obtain ⟨k, hk, hs⟩ := last_mem (show 0 < last seq l by omega)
    have := (pairwise_append.mp h).2.2 k hk m hin
    omega

theorem last_append (l l' : List μ) : last seq (l ++ l') = if l' = [] then last seq l else last seq l' := by
  induction l' using List.reverseRecOn with
  | nil => simp
  | append_singleton l' a _ =>
    rw [← append_assoc, last_concat, last_concat]
    simp

theorem savedLog_grows (h : Inv seq mine s) : s.savedLog <+: s.log := by
  rcases s with ⟨out, sent, saves, log, _ | ⟨old, logs⟩⟩
  · exact nil_prefix
  · exact (pairwise_cons.mp h.grows).1 old mem_cons_self

theorem Inv.saved_grows (h : Inv seq mine s) (hlog : log ∈ s.logs) : log <+: s.savedLog := by
  have hpast := (pairwise_cons.mp h.grows).2
  rcases hlogs : s.logs with _ | ⟨new, logs⟩
  · simp [hlogs] at hlog
  · rw [Mail.savedLog, hlogs, headD_cons]
    rw [hlogs] at hlog hpast
    rcases mem_cons.mp hlog with rfl | hin
    · exact prefix_refl _
    · exact (pairwise_cons.mp hpast).1 log hin

theorem Inv.last_le (h : Inv seq mine s) (hlog : log ∈ s.logs) : last seq log ≤ last seq s.savedLog :=
  last_mono h.savedLog.sorted (h.saved_grows hlog).subset

theorem saved_shown (hm : m ∈ s.saved.1) : m ∈ s.shown := by
  rcases s with ⟨out, sent, _ | ⟨save, saves⟩, log, logs⟩
  · simp [saved] at hm
  · exact mem_append_left _ hm

theorem Applied.nil {shown : List μ} (h : ∀ m ∈ shown, 0 < seq m) : Applied seq mine shown [] where
  sorted := List.Pairwise.nil
  subset m hm := absurd hm not_mem_nil
  all m hm _ hle := by
    have := h m hm
    rw [last_nil] at hle
    omega

theorem Inv.empty : Inv seq mine (empty : Mail μ) := by
  have hnone : Kept seq mine ([] : List μ) [] ([], 0) := ⟨⟨List.Pairwise.nil, by simp, by simp⟩, by simp⟩
  have hlog : Applied seq mine ([] : List μ) [] := Applied.nil (by simp)
  exact {
    now := hnone
    saved := hnone
    saves := by simp [Mail.empty]
    sent := Nat.le_refl _
    shown_sent := by simp [Mail.empty, shown]
    unique := by simp [Mail.empty, shown]
    fresh := by simp [Mail.empty]
    log := hlog
    savedLog := hlog
    logs := by simp [Mail.empty]
    grows := pairwise_singleton _ _ }

theorem Inv.send (h : Inv seq mine s) (hm : s.sent < seq m) :
    Inv seq mine { s with out := s.out ++ [m], sent := seq m } :=
  { h with
    now := by
      refine ⟨h.now.numbered.send hm, ?_⟩
      intro a ha hmine _
      have hle : seq a ≤ s.sent := Nat.le_trans (h.shown_sent a ha).2 h.sent
      exact (h.now.kept a ha hmine hle).imp_left (mem_append_left _)
    sent := Nat.le_of_lt (Nat.lt_of_le_of_lt h.sent hm)
    fresh := by
      intro a ha
      rcases mem_append.mp ha with hin | hin
      · exact h.fresh a hin
      · rw [mem_singleton.mp hin]
        exact .inr (Nat.lt_of_le_of_lt h.sent hm) }

theorem Inv.shrink (h : Inv seq mine s) (hsub : out.Sublist s.out)
    (hmine : ∀ m ∈ s.out, m ∈ s.shown → mine m → m ∈ out ∨ m ∈ s.savedLog) :
    Inv seq mine { s with out := out } :=
  { h with
    now := by
      refine ⟨h.now.numbered.sublist hsub, ?_⟩
      intro a ha hm hle
      rcases h.now.kept a ha hm hle with hin | hin
      · exact hmine a hin ha hm
      · exact .inr hin
    fresh := fun a ha => h.fresh a (hsub.subset ha) }

theorem Kept.show_more {shown savedLog : List μ}
    (h : Kept seq mine shown savedLog save) (hle : save.2 ≤ bound)
    (hmore : ∀ m ∈ more, m ∈ shown ∨ bound < seq m) :
    Kept seq mine (more ++ shown) savedLog save where
  numbered := h.numbered
  kept m hm hmine hs := by
    rcases mem_append.mp hm with hin | hin
    · rcases hmore m hin with hold | hnew
      · exact h.kept m hold hmine hs
      · omega
    · exact h.kept m hin hmine hs

theorem Kept.show_own {shown savedLog : List μ}
    (h : Kept seq mine shown savedLog save) : Kept seq mine (save.1 ++ shown) savedLog save where
  numbered := h.numbered
  kept m hm hmine hle := by
    rcases mem_append.mp hm with hin | hin
    · exact .inl hin
    · exact h.kept m hin hmine hle

theorem Inv.saveSender (h : Inv seq mine s) :
    Inv seq mine { s with saves := (s.out, s.sent) :: s.saves } := by
  have hpast : ∀ m ∈ s.shown, seq m ≤ s.saved.2 := fun m hm => (h.shown_sent m hm).2
  have hold : ∀ a ∈ s.shown, ∀ b ∈ s.out, seq a = seq b → a = b := by
    intro a ha b hb hab
    rcases h.fresh b hb with hs | hs
    · exact h.unique a ha b hs hab
    · have := hpast a ha
      omega
  refine ⟨h.now.show_own, h.now.show_own, ?_, Nat.le_refl _, ?_, ?_, ?_,
    h.log.show_more hpast h.fresh, h.savedLog.show_more hpast h.fresh, ?_, h.grows⟩
  · intro save hsave
    rcases mem_cons.mp hsave with rfl | hin
    · exact ⟨h.now.show_own, Nat.le_refl _⟩
    · have hs := h.saves save hin
      exact ⟨hs.1.show_more hs.2 h.fresh, Nat.le_trans hs.2 h.sent⟩
  · intro m hm
    rcases mem_append.mp hm with hin | hin
    · exact ⟨h.now.numbered.pos m hin, h.now.numbered.le m hin⟩
    · exact ⟨(h.shown_sent m hin).1, Nat.le_trans (hpast m hin) h.sent⟩
  · intro a ha b hb hab
    rcases mem_append.mp ha with hin | hin <;> rcases mem_append.mp hb with hin' | hin'
    · exact sorted_unique h.now.numbered.sorted hin hin' hab
    · exact (hold b hin' a hin hab.symm).symm
    · exact hold a hin b hin' hab
    · exact h.unique a hin b hin' hab
  · exact fun m hm => .inl (mem_append_left _ hm)
  · exact fun log hlog => (h.logs log hlog).show_more hpast h.fresh

theorem Inv.crashSender (h : Inv seq mine s) : Inv seq mine { s with out := s.saved.1, sent := s.saved.2 } :=
  { h with
    now := h.saved
    sent := Nat.le_refl _
    fresh := fun _ hm => .inl (saved_shown hm) }

theorem Inv.saveReceiver (h : Inv seq mine s) : Inv seq mine { s with logs := s.log :: s.logs } := by
  have hkept : ∀ save, Kept seq mine s.shown s.savedLog save → Kept seq mine s.shown s.log save :=
    fun save hk => ⟨hk.numbered, fun m hm hmine hle =>
      (hk.kept m hm hmine hle).imp_right ((savedLog_grows h).subset ·)⟩
  exact { h with
    now := hkept _ h.now
    saved := hkept _ h.saved
    saves := fun save hs => ⟨hkept save (h.saves save hs).1, (h.saves save hs).2⟩
    savedLog := h.log
    logs := forall_mem_cons.mpr ⟨h.log, h.logs⟩
    grows := by
      refine pairwise_cons.mpr ⟨?_, h.grows⟩
      intro old hold
      rcases mem_cons.mp hold with rfl | hin
      · exact prefix_refl _
      · exact (pairwise_cons.mp h.grows).1 old hin }

theorem Inv.crashReceiver (h : Inv seq mine s) : Inv seq mine { s with log := s.savedLog } :=
  { h with
    log := h.savedLog
    grows := pairwise_cons.mpr ⟨fun _ hold => h.saved_grows hold, (pairwise_cons.mp h.grows).2⟩ }

variable [DecidablePred mine]

/-- What a receiver applies of the messages a save owes it, in order and from the first it had
not applied, leaves none out. -/
theorem Applied.receive {shown : List μ}
    (h : Applied seq mine shown log) (hsave : Kept seq mine shown log save)
    (hshown : ∀ m ∈ save.1, m ∈ shown)
    (hl : l <+: save.1.filter fun m => mine m ∧ last seq log < seq m) :
    Applied seq mine shown (log ++ l) := by
  have hmem : ∀ m ∈ l, m ∈ save.1 ∧ mine m ∧ last seq log < seq m := by
    intro m hm
    simpa using hl.subset hm
  have hsorted := hsave.numbered.sorted.filter fun m => decide (mine m ∧ last seq log < seq m)
  refine ⟨?_, ?_, ?_⟩
  · rw [pairwise_append]
    refine ⟨h.sorted, hsorted.sublist hl.sublist, ?_⟩
    intro a ha b hb
    exact Nat.lt_of_le_of_lt (le_last h.sorted ha) (hmem b hb).2.2
  · intro m hm
    rcases mem_append.mp hm with hin | hin
    · exact h.subset m hin
    · exact ⟨hshown m (hmem m hin).1, (hmem m hin).2.1⟩
  · intro m hm hmine hle
    by_cases hlog : seq m ≤ last seq log
    · exact mem_append_left _ (h.all m hm hmine hlog)
    · have hle' : seq m ≤ last seq l := by
        rw [last_append] at hle
        split at hle
        · omega
        · exact hle
      -- a message up to the last one applied was given when the sender saved
      have hgiven : seq m ≤ save.2 := by
        obtain ⟨k, hk, hs⟩ := last_mem (show 0 < last seq l by omega)
        have := hsave.numbered.le k (hmem k hk).1
        omega
      rcases hsave.kept m hm hmine hgiven with ho | ho
      · refine mem_append_right _ (prefix_all hsorted hl ?_ hle' (hsave.numbered.pos m ho))
        simp only [mem_filter, decide_eq_true_eq]
        exact ⟨ho, hmine, Nat.lt_of_not_le hlog⟩
      · exact mem_append_left _ ho

theorem Inv.receive (h : Inv seq mine s) (hsave : save ∈ s.saves)
    (hl : l <+: save.1.filter fun m => mine m ∧ last seq s.log < seq m) :
    Inv seq mine { s with log := s.log ++ l } := by
  have hk := (h.saves save hsave).1
  have hshown : ∀ m ∈ save.1, m ∈ s.shown := fun m hm => mem_flatMap.mpr ⟨save, hsave, hm⟩
  have hlog : Applied seq mine s.shown (s.log ++ l) := by
    refine h.log.receive ⟨hk.numbered, ?_⟩ hshown hl
    intro m hm hmine hle
    exact (hk.kept m hm hmine hle).imp_right ((savedLog_grows h).subset ·)
  have hgrows := pairwise_cons.mp h.grows
  exact { h with
    log := hlog
    grows := pairwise_cons.mpr
      ⟨fun old hold => (hgrows.1 old hold).trans (prefix_append _ _), hgrows.2⟩ }

theorem Inv.clear (h : Inv seq mine s) {n : Nat} (hn : n ≤ last seq s.savedLog) :
    Inv seq mine { s with out := s.out.filter fun m => ¬(mine m ∧ seq m ≤ n) } := by
  refine h.shrink filter_sublist ?_
  intro m hm hshown hmine
  by_cases hle : seq m ≤ n
  · exact .inr (h.savedLog.all m hshown hmine (Nat.le_trans hle hn))
  · refine .inl (mem_filter.mpr ⟨hm, ?_⟩)
    simp [hle]

theorem step_inv (h : Inv seq mine s) (hs : Step seq mine s s') : Inv seq mine s' := by
  cases hs with
  | send m hm => exact h.send hm
  | clear n hn => exact h.clear hn
  | deliver out hsub hmine => exact h.shrink hsub fun m hm _ hm' => .inl (hmine m hm hm')
  | saveSender => exact h.saveSender
  | crashSender => exact h.crashSender
  | receive save hsave l hl => exact h.receive hsave hl
  | saveReceiver => exact h.saveReceiver
  | crashReceiver => exact h.crashReceiver

theorem reaches_inv (h : Inv seq mine s)
    (hs : Relation.ReflTransGen (Step seq mine) s s') : Inv seq mine s' := by
  induction hs with
  | refl => exact h
  | tail _ hstep ih => exact step_inv ih hstep

end Mail

end MindCore
