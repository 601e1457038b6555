import MindCore.Kernel.Ipc

/-!
# Calls and their answers

What a call is for, without endpoints and tables: a client asks, a server receives the call and with it a
right to answer, and the call ends once. The moves of this world are what the kernel's calls are made of.
-/

namespace MindCore.Kernel.Calls

open List
open Ipc (Call Outcome)

inductive Phase where
  | idle
  | asked
  | waits (server : Nat)
  | gone

def Phase.Open : Phase → Prop
  | .asked | .waits _ => True
  | _ => False

structure Party where
  pid : Nat
  phase : Phase
  /-- The number of the call it is in. -/
  call : Nat
  /-- How many of its calls were received. -/
  seq : Nat
  /-- The calls it may answer. -/
  rights : Set Call

inductive Mark where
  | called (slot call : Nat)
  | received (server slot pid seq call : Nat)
  | answer (slot call : Nat) (outcome : Outcome)
  | gone (slot call : Nat)
  deriving DecidableEq

def Mark.ends : Mark → Option Nat
  | .answer _ call _ | .gone _ call => some call
  | _ => none

def ends (call : Nat) (marks : List Mark) : List Mark := marks.filter fun m => m.ends == some call

structure World where
  party : Nat → Option Party
  marks : List Mark
  sent : Nat
  pids : Nat
  /-- Servers that ended, whose clients are not woken yet. -/
  dying : Set Nat

namespace World

def put (w : World) (i : Nat) (p : Party) : World := { w with party := Function.update w.party i (some p) }

def say (w : World) (m : Mark) : World := { w with marks := m :: w.marks }

def Awaits (w : World) (c : Call) (server : Nat) : Prop :=
  ∃ p, w.party c.slot = some p ∧ p.pid = c.pid ∧ p.seq = c.seq ∧ p.phase = .waits server

/-- What the kernel's calls are made of. With `K` no right is lost whose client waits. -/
inductive Move (K : Prop) (w : World) : World → Prop
  | count : Move K w { w with sent := w.sent + 1 }
  | ask {i : Nat} {p : Party} (hp : w.party i = some p) (hi : p.phase = .idle) :
    Move K w (({ w with sent := w.sent + 1 }.put i { p with phase := .asked, call := w.sent + 1 }).say
      (.called i (w.sent + 1)))
  | receive {x y : Nat} {p q : Party} (hp : w.party x = some p) (ha : p.phase = .asked)
    (hq : w.party y = some q) (hi : q.phase = .idle) :
    Move K w (((w.put y { q with rights := insert ⟨x, p.pid, p.seq + 1⟩ q.rights }).put x
      { p with phase := .waits y, seq := p.seq + 1 }).say (.received y x p.pid (p.seq + 1) p.call))
  | answer {i : Nat} {p : Party} {o : Outcome} (hp : w.party i = some p) (ho : p.phase.Open)
    (hr : ∀ y, o = .reply y → p.phase = .waits y) :
    Move K w ((w.put i { p with phase := .idle, call := 0 }).say (.answer i p.call o))
  | lose {y : Nat} {q : Party} {R : Set Call} (hq : w.party y = some q) (hR : R ⊆ q.rights)
    (hk : K → ∀ c ∈ q.rights, c ∉ R → ¬ w.Awaits c y) : Move K w (w.put y { q with rights := R })
  | spawn {i : Nat} (hi : w.party i = none) :
    Move K w ({ w with pids := w.pids + 1 }.put i ⟨w.pids, .idle, 0, 0, ∅⟩)
  | die {i : Nat} {p : Party} (hp : w.party i = some p) (hi : p.phase = .idle) :
    Move K w { w.put i { p with phase := .gone } with dying := insert i w.dying }
  | dieCalling {i : Nat} {p : Party} (hp : w.party i = some p) (ho : p.phase.Open) :
    Move K w ({ w.put i { p with phase := .gone, call := 0 } with dying := insert i w.dying }.say
      (.gone i p.call))
  | bury {i : Nat} (hi : ∀ j p, w.party j = some p → p.phase ≠ .waits i) :
    Move K w { w with dying := w.dying \ {i} }
  | reap {f : Nat → Option Party}
    (hf : ∀ i, f i = w.party i ∨ f i = none ∧ ∀ p, w.party i = some p → p.phase = .gone) :
    Move K w { w with party := f }

/-- What holds of calls and their ends, whatever the servers do with their rights. -/
structure Ok (w : World) : Prop where
  bound : ∀ i n, .called i n ∈ w.marks → n ≤ w.sent
  once : ∀ i j n, .called i n ∈ w.marks → .called j n ∈ w.marks → i = j
  going : ∀ i p, w.party i = some p → p.phase.Open → .called i p.call ∈ w.marks ∧ ends p.call w.marks = []
  asked : ∀ i p, w.party i = some p → p.phase = .asked → ∀ y j pid seq, .received y j pid seq p.call ∉ w.marks
  waits : ∀ i p y, w.party i = some p → p.phase = .waits y → .received y i p.pid p.seq p.call ∈ w.marks
  settled : ∀ i n, .called i n ∈ w.marks → (∃ p, w.party i = some p ∧ p.phase.Open ∧ p.call = n) ∨
    ∃ m, ends n w.marks = [m] ∧ (m = .gone i n ∨ ∃ o, m = .answer i n o)
  ended : ∀ m n, m ∈ w.marks → m.ends = some n → ∃ i, .called i n ∈ w.marks
  answered : ∀ i n y, .answer i n (.reply y) ∈ w.marks → ∃ pid seq, .received y i pid seq n ∈ w.marks
  known : ∀ y i pid seq n, .received y i pid seq n ∈ w.marks → .called i n ∈ w.marks
  single : ∀ y y' i i' pid pid' seq seq' n, .received y i pid seq n ∈ w.marks →
    .received y' i' pid' seq' n ∈ w.marks → y = y' ∧ pid = pid' ∧ seq = seq'
  key : ∀ y y' i pid seq n n', .received y i pid seq n ∈ w.marks →
    .received y' i pid seq n' ∈ w.marks → n = n'
  seqs : ∀ y i pid seq n, .received y i pid seq n ∈ w.marks →
    pid < w.pids ∧ ∀ p, w.party i = some p → p.pid = pid → seq ≤ p.seq
  pids : ∀ i p, w.party i = some p → p.pid < w.pids

def Means (w : World) : Prop :=
  ∀ i p y, w.party i = some p → p.phase = .waits y → y ∉ w.dying →
    ∃ q, w.party y = some q ∧ q.phase ≠ .gone ∧ ⟨i, p.pid, p.seq⟩ ∈ q.rights

/-- Whoever may answer a call received it. -/
def Entitled (w : World) : Prop :=
  ∀ y q c, w.party y = some q → c ∈ q.rights → ∃ n, .received y c.slot c.pid c.seq n ∈ w.marks

section
variable {K : Prop} {w w' : World} {i j : Nat} {p p' : Party}

@[simp] theorem put_self (w : World) (i : Nat) (p : Party) : (w.put i p).party i = some p :=
  Function.update_self ..

theorem put_of_ne (w : World) (h : j ≠ i) (p : Party) : (w.put i p).party j = w.party j :=
  Function.update_of_ne h ..

theorem put_put (w : World) (i : Nat) (p q : Party) : (w.put i p).put i q = w.put i q := by
  simp only [put, Function.update_idem]

theorem put_comm (w : World) (h : i ≠ j) (p q : Party) : (w.put i p).put j q = (w.put j q).put i p := by
  simp only [put, Function.update_comm h]

theorem put_party (h : w.party i = some p) : w.put i p = w := by
  simp only [put, ← h, Function.update_eq_self]

theorem put_cases {q : Party} (h : (w.put i p).party j = some q) :
    j = i ∧ q = p ∨ j ≠ i ∧ w.party j = some q := by
  by_cases hj : j = i
  · subst hj
    rw [put_self, Option.some.injEq] at h
    exact .inl ⟨rfl, h.symm⟩
  · rw [put_of_ne w hj] at h
    exact .inr ⟨hj, h⟩

theorem ends_cons (n : Nat) (m : Mark) (l : List Mark) :
    ends n (m :: l) = if m.ends = some n then m :: ends n l else ends n l := by
  simp only [ends, filter_cons, beq_iff_eq]

section
variable (h : Ok w)
include h

theorem ends_nil_of_fresh {n : Nat} (hn : w.sent < n) : ends n w.marks = [] := by
  refine filter_eq_nil_iff.mpr ?_
  intro m hm he
  obtain ⟨i, hi⟩ := h.ended m n hm (by simpa using he)
  have := h.bound i n hi
  omega

theorem Ok.keep (hm : w'.marks = w.marks) (hs : w.sent ≤ w'.sent) (hp : w.pids ≤ w'.pids)
    (hold : ∀ i p', w'.party i = some p' → (∃ p, w.party i = some p ∧ p'.pid = p.pid ∧ p'.seq = p.seq ∧
      p'.call = p.call ∧ (p'.phase = p.phase ∨ ¬ p'.phase.Open)) ∨
        ¬ p'.phase.Open ∧ w.pids ≤ p'.pid ∧ p'.pid < w'.pids)
    (hopen : ∀ i p, w.party i = some p → p.phase.Open →
      ∃ p', w'.party i = some p' ∧ p'.phase.Open ∧ p'.call = p.call) : Ok w' := by
  have hcall : ∀ i p', w'.party i = some p' → p'.phase.Open →
      ∃ p, w.party i = some p ∧ p.phase = p'.phase ∧ p.call = p'.call ∧ p.pid = p'.pid ∧ p.seq = p'.seq := by
    intro i p' hp' ho
    obtain ⟨p, hw, hpid, hseq, hc, he | hn⟩ | ⟨hn, -⟩ := hold i p' hp'
    · exact ⟨p, hw, he.symm, hc.symm, hpid.symm, hseq.symm⟩
    · exact absurd ho hn
    · exact absurd ho hn
  refine ⟨?_, ?_, ?_, ?_, ?_, ?_, ?_, ?_, ?_, ?_, ?_, ?_, ?_⟩ <;> try rw [hm]
  · exact fun i n hc => (h.bound i n hc).trans hs
  · exact h.once
  · intro i p' hp' ho
    obtain ⟨p, hw, he, hc, -⟩ := hcall i p' hp' ho
    rw [← hc]
    exact h.going i p hw (he ▸ ho)
  · intro i p' hp' ha
    obtain ⟨p, hw, he, hc, -⟩ := hcall i p' hp' (by rw [ha]; trivial)
    rw [← hc]
    exact h.asked i p hw (he.trans ha)
  · intro i p' y hp' ha
    obtain ⟨p, hw, he, hc, hpid, hseq⟩ := hcall i p' hp' (by rw [ha]; trivial)
    rw [← hc, ← hpid, ← hseq]
    exact h.waits i p y hw (he.trans ha)
  · intro i n hc
    rcases h.settled i n hc with ⟨p, hw, ho, rfl⟩ | he
    · exact .inl (hopen i p hw ho)
    · exact .inr he
  · exact h.ended
  · exact h.answered
  · exact h.known
  · exact h.single
  · exact h.key
  · intro y i pid seq n hr
    obtain ⟨hlt, hle⟩ := h.seqs y i pid seq n hr
    refine ⟨hlt.trans_le hp, ?_⟩
    intro p' hp' he
    obtain ⟨p, hw, hpid, hseq, -⟩ | ⟨-, hnew, -⟩ := hold i p' hp'
    · rw [hseq]
      exact hle p hw (hpid ▸ he)
    · -- the number is new
      omega
  · intro i p' hp'
    obtain ⟨p, hw, hpid, -⟩ | ⟨-, -, hlt⟩ := hold i p' hp'
    · rw [hpid]
      exact (h.pids i p hw).trans_le hp
    · exact hlt

theorem Ok.of_put (hi : w.party i = some p) (hpid : p'.pid = p.pid)
    (hseq : p'.seq = p.seq) (hcall : p'.call = p.call) (hphase : p'.phase = p.phase ∨ ¬ p.phase.Open ∧ ¬ p'.phase.Open) :
    Ok (w.put i p') := by
  refine h.keep rfl (le_refl _) (le_refl _) ?_ ?_
  · intro j q hq
    rcases put_cases hq with ⟨rfl, rfl⟩ | ⟨-, hq⟩
    · exact .inl ⟨p, hi, hpid, hseq, hcall, hphase.imp_right And.right⟩
    · exact .inl ⟨q, hq, rfl, rfl, rfl, .inl rfl⟩
  · intro j q hq ho
    by_cases hj : j = i
    · subst hj
      rw [hi, Option.some.injEq] at hq
      subst hq
      refine ⟨p', put_self .., ?_, hcall⟩
      rcases hphase with he | ⟨hn, -⟩
      · rw [he]
        exact ho
      · exact absurd ho hn
    · exact ⟨q, by rw [put_of_ne w hj]; exact hq, ho, rfl⟩

end

/-! ### A party moves on and a mark is set -/

/-- What the mark may be, and what then has to hold of the party. -/
structure Said (w : World) (i : Nat) (p p' : Party) (m : Mark) (n' : Nat) : Prop where
  sent : w.sent ≤ n'
  party : w.party i = some p
  pid : p'.pid = p.pid
  seq : p.seq ≤ p'.seq
  called : ∀ j n, m = .called j n → j = i ∧ n = w.sent + 1 ∧ n ≤ n' ∧ p'.phase.Open ∧ p'.call = n
  received : ∀ y j pid seq n, m = .received y j pid seq n →
    p.phase = .asked ∧ j = i ∧ pid = p.pid ∧ seq = p.seq + 1 ∧ n = p.call ∧ p'.seq = seq
  closes : ∀ n, m.ends = some n → p.phase.Open ∧ n = p.call ∧
    (m = .gone i n ∨ ∃ o, m = .answer i n o ∧ ∀ y, o = .reply y → p.phase = .waits y)
  stay : p.phase.Open → p'.phase.Open ∧ p'.call = p.call ∨ m.ends = some p.call
  going : p'.phase.Open → .called i p'.call ∈ m :: w.marks ∧ ends p'.call (m :: w.marks) = []
  asked : p'.phase = .asked → ∀ y j pid seq, .received y j pid seq p'.call ∉ m :: w.marks
  waits : ∀ y, p'.phase = .waits y → .received y i p'.pid p'.seq p'.call ∈ m :: w.marks

section
variable {m : Mark} {n' : Nat} {q : Party} (hs : Said w i p p' m n') (h : Ok w)
include hs h

theorem Said.ok_once {k n : Nat} (hj : .called j n ∈ m :: w.marks) (hk : .called k n ∈ m :: w.marks) : j = k := by
  have hfresh : ∀ j, .called j (w.sent + 1) ∉ w.marks := by
    intro j hj
    have := h.bound j _ hj
    omega
  rcases mem_cons.mp hj with hj | hj <;> rcases mem_cons.mp hk with hk | hk
  · exact (hs.called j n hj.symm).1.trans (hs.called k n hk.symm).1.symm
  · obtain ⟨-, rfl, -⟩ := hs.called j n hj.symm
    exact absurd hk (hfresh k)
  · obtain ⟨-, rfl, -⟩ := hs.called k n hk.symm
    exact absurd hj (hfresh j)
  · exact h.once j k n hj hk

/-- Whoever else is in a call is in another one. -/
theorem Said.other (hj : j ≠ i) (hq : w.party j = some q) (hqo : q.phase.Open) (ho : p.phase.Open) :
    q.call ≠ p.call := by
  intro heq
  exact hj (h.once j i q.call (h.going j q hq hqo).1 (heq ▸ (h.going i p hs.party ho).1))

theorem Said.ok_going (hj : j ≠ i) (hq : w.party j = some q) (ho : q.phase.Open) :
    .called j q.call ∈ m :: w.marks ∧ ends q.call (m :: w.marks) = [] := by
  refine ⟨mem_cons_of_mem _ (h.going j q hq ho).1, ?_⟩
  rw [ends_cons, if_neg fun hm => hs.other h hj hq ho (hs.closes _ hm).1 (hs.closes _ hm).2.1]
  exact (h.going j q hq ho).2

theorem Said.ok_asked (hj : j ≠ i) (hq : w.party j = some q) (ha : q.phase = .asked) {y k pid seq : Nat} :
    .received y k pid seq q.call ∉ m :: w.marks := by
  intro hm
  rcases mem_cons.mp hm with hm | hm
  · obtain ⟨hpa, -, -, -, hcall, -⟩ := hs.received y k pid seq q.call hm.symm
    exact hs.other h hj hq (by rw [ha]; trivial) (by rw [hpa]; trivial) hcall
  · exact h.asked j q hq ha y k pid seq hm

theorem Said.ok_settled {n : Nat} (hm : .called j n ∈ m :: w.marks) :
    (∃ q, (w.put i p').party j = some q ∧ q.phase.Open ∧ q.call = n) ∨
      ∃ a, ends n (m :: w.marks) = [a] ∧ (a = .gone j n ∨ ∃ o, a = .answer j n o) := by
  rcases mem_cons.mp hm with hm | hm
  · obtain ⟨rfl, -, -, ho, hcall⟩ := hs.called j n hm.symm
    exact .inl ⟨p', put_self .., ho, hcall⟩
  · rcases h.settled j n hm with ⟨q, hq, ho, rfl⟩ | ⟨a, ha, hend⟩
    · by_cases hj : j = i
      · subst hj
        rw [hs.party, Option.some.injEq] at hq
        subst hq
        rcases hs.stay ho with ⟨ho', hcall⟩ | hend
        · exact .inl ⟨p', put_self .., ho', hcall⟩
        · refine .inr ⟨m, ?_, (hs.closes _ hend).2.2.imp_right fun ⟨o, ho, _⟩ => ⟨o, ho⟩⟩
          rw [ends_cons, if_pos hend]
          exact congrArg (List.cons m) (h.going j p hs.party ho).2
      · exact .inl ⟨q, (put_of_ne w hj p').trans hq, ho, rfl⟩
    · refine .inr ⟨a, ?_, hend⟩
      rw [ends_cons, if_neg]
      · exact ha
      · intro hm
        obtain ⟨ho, rfl, -⟩ := hs.closes n hm
        rw [(h.going i p hs.party ho).2] at ha
        cases ha

theorem Said.ok_ended {a : Mark} {n : Nat} (ha : a ∈ m :: w.marks) (hn : a.ends = some n) :
    ∃ j, .called j n ∈ m :: w.marks := by
  rcases mem_cons.mp ha with rfl | ha
  · obtain ⟨ho, rfl, -⟩ := hs.closes n hn
    exact ⟨i, mem_cons_of_mem _ (h.going i p hs.party ho).1⟩
  · obtain ⟨j, hj⟩ := h.ended a n ha hn
    exact ⟨j, mem_cons_of_mem _ hj⟩

theorem Said.ok_answered {n y : Nat} (ha : .answer j n (.reply y) ∈ m :: w.marks) :
    ∃ pid seq, .received y j pid seq n ∈ m :: w.marks := by
  rcases mem_cons.mp ha with rfl | ha
  · obtain ⟨-, rfl, hm | ⟨o, hm, hy⟩⟩ := hs.closes n rfl
    · cases hm
    · cases hm
      exact ⟨_, _, mem_cons_of_mem _ (h.waits i p y hs.party (hy y rfl))⟩
  · obtain ⟨pid, seq, hm⟩ := h.answered j n y ha
    exact ⟨pid, seq, mem_cons_of_mem _ hm⟩

theorem Said.ok_known {y pid seq n : Nat} (hm : .received y j pid seq n ∈ m :: w.marks) :
    .called j n ∈ m :: w.marks := by
  rcases mem_cons.mp hm with hm | hm
  · obtain ⟨ha, rfl, -, -, rfl, -⟩ := hs.received y j pid seq n hm.symm
    exact mem_cons_of_mem _ (h.going j p hs.party (by rw [ha]; trivial)).1
  · exact mem_cons_of_mem _ (h.known y j pid seq n hm)

theorem Said.ok_single {y y' j' pid pid' seq seq' n : Nat} (hm : .received y j pid seq n ∈ m :: w.marks)
    (hm' : .received y' j' pid' seq' n ∈ m :: w.marks) : y = y' ∧ pid = pid' ∧ seq = seq' := by
  rcases mem_cons.mp hm with hm | hm <;> rcases mem_cons.mp hm' with hm' | hm'
  · cases hm.trans hm'.symm
    exact ⟨rfl, rfl, rfl⟩
  · obtain ⟨ha, -, -, -, rfl, -⟩ := hs.received _ _ _ _ _ hm.symm
    exact absurd hm' (h.asked i p hs.party ha _ _ _ _)
  · obtain ⟨ha, -, -, -, rfl, -⟩ := hs.received _ _ _ _ _ hm'.symm
    exact absurd hm (h.asked i p hs.party ha _ _ _ _)
  · exact h.single y y' j j' pid pid' seq seq' n hm hm'

theorem Said.ok_key {y y' pid seq n k : Nat} (hm : .received y j pid seq n ∈ m :: w.marks)
    (hm' : .received y' j pid seq k ∈ m :: w.marks) : n = k := by
  have hnew : ∀ y n z k, m = .received y j pid seq n → .received z j pid seq k ∉ w.marks := by
    intro y n z k hm hz
    obtain ⟨-, rfl, rfl, rfl, -⟩ := hs.received y j pid seq n hm
    have := (h.seqs z j _ _ k hz).2 p hs.party rfl
    omega
  rcases mem_cons.mp hm with hm | hm <;> rcases mem_cons.mp hm' with hm' | hm'
  · cases hm.trans hm'.symm
    rfl
  · exact absurd hm' (hnew _ _ _ _ hm.symm)
  · exact absurd hm (hnew _ _ _ _ hm'.symm)
  · exact h.key y y' j pid seq n k hm hm'

theorem Said.ok_seqs {y pid seq n : Nat} (hm : .received y j pid seq n ∈ m :: w.marks) :
    pid < w.pids ∧ ∀ q, (w.put i p').party j = some q → q.pid = pid → seq ≤ q.seq := by
  rcases mem_cons.mp hm with hm | hm
  · obtain ⟨-, rfl, rfl, -, -, hle⟩ := hs.received y j pid seq n hm.symm
    refine ⟨h.pids j p hs.party, fun q hq _ => ?_⟩
    rw [put_self, Option.some.injEq] at hq
    exact hq ▸ hle.ge
  · obtain ⟨hlt, hle⟩ := h.seqs y j pid seq n hm
    refine ⟨hlt, fun q hq hqp => ?_⟩
    rcases put_cases hq with ⟨rfl, rfl⟩ | ⟨-, hq⟩
    · exact (hle p hs.party (hs.pid ▸ hqp)).trans hs.seq
    · exact hle q hq hqp

theorem Said.ok_pids (hq : (w.put i p').party j = some q) : q.pid < w.pids := by
  rcases put_cases hq with ⟨rfl, rfl⟩ | ⟨-, hq⟩
  · exact hs.pid ▸ h.pids j p hs.party
  · exact h.pids j q hq

theorem Said.ok : Ok (({ w with sent := n' }.put i p').say m) where
  bound j n hm := by
    rcases mem_cons.mp hm with hm | hm
    · exact (hs.called j n hm.symm).2.2.1
    · exact (h.bound j n hm).trans hs.sent
  once _ _ _ := hs.ok_once h
  going j q hq ho := by
    rcases put_cases hq with ⟨rfl, rfl⟩ | ⟨hj, hq⟩
    · exact hs.going ho
    · exact hs.ok_going h hj hq ho
  asked j q hq ha y k pid seq := by
    rcases put_cases hq with ⟨rfl, rfl⟩ | ⟨hj, hq⟩
    · exact hs.asked ha y k pid seq
    · exact hs.ok_asked h hj hq ha
  waits j q y hq ha := by
    rcases put_cases hq with ⟨rfl, rfl⟩ | ⟨-, hq⟩
    · exact hs.waits y ha
    · exact mem_cons_of_mem _ (h.waits j q y hq ha)
  settled _ _ := hs.ok_settled h
  ended _ _ := hs.ok_ended h
  answered _ _ _ := hs.ok_answered h
  known _ _ _ _ _ := hs.ok_known h
  single _ _ _ _ _ _ _ _ _ := hs.ok_single h
  key _ _ _ _ _ _ _ := hs.ok_key h
  seqs _ _ _ _ _ := hs.ok_seqs h
  pids _ _ := hs.ok_pids h

end

section
variable (h : Ok w)
include h

theorem Ok.close {m : Mark} (hi : w.party i = some p) (ho : p.phase.Open)
    (hpid : p'.pid = p.pid) (hseq : p'.seq = p.seq) (hn : ¬ p'.phase.Open)
    (hm : m = .gone i p.call ∨ ∃ o, m = .answer i p.call o ∧ ∀ y, o = .reply y → p.phase = .waits y) :
    Ok ((w.put i p').say m) := by
  have hends : m.ends = some p.call := by
    rcases hm with rfl | ⟨o, rfl, -⟩ <;> rfl
  refine Said.ok ⟨le_rfl, hi, hpid, hseq.ge, ?_, ?_, ?_, fun _ => .inr hends, fun ho => absurd ho hn, ?_, ?_⟩ h
  · rintro j n rfl
    cases hends
  · rintro y j pid seq n rfl
    cases hends
  · intro n hn
    cases hends.symm.trans hn
    exact ⟨ho, rfl, hm⟩
  · exact fun ha => absurd (by rw [ha]; trivial) hn
  · exact fun y ha => absurd (by rw [ha]; trivial) hn

theorem Ok.ask (hi : w.party i = some p) (hidle : p.phase = .idle) :
    Ok (({ w with sent := w.sent + 1 }.put i { p with phase := .asked, call := w.sent + 1 }).say
      (.called i (w.sent + 1))) := by
  refine Said.ok ⟨Nat.le_succ _, hi, rfl, le_rfl, ?_, nofun, nofun, ?_, ?_, ?_, nofun⟩ h
  · rintro j n ⟨⟩
    exact ⟨rfl, rfl, le_rfl, trivial, rfl⟩
  · intro ho
    rw [hidle] at ho
    exact ho.elim
  · intro _
    refine ⟨mem_cons_self, ?_⟩
    exact ends_nil_of_fresh h (Nat.lt_succ_self _)
  · intro _ y j pid seq hm
    rcases mem_cons.mp hm with hm | hm
    · cases hm
    · exact absurd (h.bound j _ (h.known _ _ _ _ _ hm)) (Nat.not_succ_le_self _)

theorem Ok.receive {x y : Nat} (hx : w.party x = some p) (ha : p.phase = .asked) :
    Ok ((w.put x { p with phase := .waits y, seq := p.seq + 1 }).say
      (.received y x p.pid (p.seq + 1) p.call)) := by
  have hg := h.going x p hx (by rw [ha]; trivial)
  refine Said.ok ⟨le_rfl, hx, rfl, Nat.le_succ _, nofun, ?_, nofun, fun _ => .inl ⟨trivial, rfl⟩, ?_, nofun, ?_⟩ h
  · rintro y j pid seq n ⟨⟩
    exact ⟨ha, rfl, rfl, rfl, rfl, rfl⟩
  · intro _
    refine ⟨mem_cons_of_mem _ hg.1, ?_⟩
    exact hg.2
  · rintro z ⟨⟩
    exact mem_cons_self

theorem Ok.spawn (hi : w.party i = none) :
    Ok ({ w with pids := w.pids + 1 }.put i ⟨w.pids, .idle, 0, 0, ∅⟩) := by
  refine h.keep rfl (le_refl _) (Nat.le_succ _) ?_ ?_
  · intro j q hq
    rcases put_cases hq with ⟨rfl, rfl⟩ | ⟨-, hq⟩
    · exact .inr ⟨fun ho => ho.elim, le_refl _, Nat.lt_succ_self _⟩
    · exact .inl ⟨q, hq, rfl, rfl, rfl, .inl rfl⟩
  · intro j q hq ho
    have hj : j ≠ i := by
      rintro rfl
      rw [hi] at hq
      cases hq
    exact ⟨q, (put_of_ne _ hj _).trans hq, ho, rfl⟩

theorem Ok.same (hm : w'.marks = w.marks) (hs : w.sent ≤ w'.sent) (hp : w'.pids = w.pids)
    (he : w'.party = w.party) : Ok w' := by
  refine h.keep hm hs hp.ge ?_ ?_
  · intro i p hi
    exact .inl ⟨p, he ▸ hi, rfl, rfl, rfl, .inl rfl⟩
  · intro i p hi ho
    exact ⟨p, he ▸ hi, ho, rfl⟩

theorem Ok.move (hm : Move K w w') : Ok w' := by
  cases hm with
  | count => exact h.same rfl (Nat.le_succ _) rfl rfl
  | ask hp hi => exact h.ask hp hi
  | @receive x y p q hp ha hq hi =>
    have hne : x ≠ y := by
      rintro rfl
      rw [hp, Option.some.injEq] at hq
      rw [hq, hi] at ha
      cases ha
    have h₁ : Ok (w.put y { q with rights := insert ⟨x, p.pid, p.seq + 1⟩ q.rights }) :=
      h.of_put hq rfl rfl rfl (.inl rfl)
    exact h₁.receive ((put_of_ne w hne _).trans hp) ha
  | @answer i p o hp ho hr =>
    exact h.close hp ho rfl rfl (fun hn => hn.elim) (.inr ⟨o, rfl, hr⟩)
  | lose hq _ _ => exact h.of_put hq rfl rfl rfl (.inl rfl)
  | spawn hi => exact h.spawn hi
  | @die i p hp hi =>
    have hn : ¬ p.phase.Open := by
      rw [hi]
      exact fun ho => ho.elim
    have h₁ : Ok (w.put i { p with phase := .gone }) := h.of_put hp rfl rfl rfl (.inr ⟨hn, fun ho => ho.elim⟩)
    exact h₁.same rfl (le_refl _) rfl rfl
  | @dieCalling i p hp ho =>
    have h₁ : Ok ((w.put i { p with phase := .gone, call := 0 }).say (.gone i p.call)) :=
      h.close hp ho rfl rfl (fun hn => hn.elim) (.inl rfl)
    exact h₁.same rfl (le_refl _) rfl rfl
  | bury _ => exact h.same rfl (le_refl _) rfl rfl
  | reap hf =>
    refine h.keep rfl (le_refl _) (le_refl _) ?_ ?_
    · intro j q hq
      rcases hf j with he | ⟨he, -⟩
      · exact .inl ⟨q, he ▸ hq, rfl, rfl, rfl, .inl rfl⟩
      · cases he.symm.trans hq
    · intro j q hq ho
      rcases hf j with he | ⟨-, hg⟩
      · exact ⟨q, he.trans hq, ho, rfl⟩
      · rw [hg q hq] at ho
        exact ho.elim

end

theorem Means.of_put (h : Means w) {a : Party} {v : World} (hi : w.party i = some p)
    (hv : v.party = (w.put i a).party) (hd : w.dying ⊆ v.dying) (hr : p.rights ⊆ a.rights)
    (hw : ∀ y, a.phase ≠ .waits y) (hg : a.phase = .gone → i ∈ v.dying) : Means v := by
  intro j q y hq hwait hy
  rw [hv] at hq
  rcases put_cases hq with ⟨rfl, rfl⟩ | ⟨-, hq⟩
  · exact absurd hwait (hw y)
  · obtain ⟨r, hr', hng, hmem⟩ := h j q y hq hwait (fun hdy => hy (hd hdy))
    rw [hv]
    by_cases hyi : y = i
    · subst hyi
      rw [hi, Option.some.injEq] at hr'
      subst hr'
      exact ⟨a, put_self .., fun hp => hy (hg hp), hr hmem⟩
    · exact ⟨r, (put_of_ne w hyi _).trans hr', hng, hmem⟩

theorem Means.move (h : Means w) (hk : K) (hm : Move K w w') : Means w' := by
  cases hm with
  | count => exact h
  | ask hp hi =>
    exact h.of_put hp rfl (fun _ hd => hd) (fun _ hc => hc) (nofun) nofun
  | @receive x y p q hp ha hq hi =>
    have hne : x ≠ y := by
      rintro rfl
      rw [hp, Option.some.injEq] at hq
      rw [hq, hi] at ha
      cases ha
    have h₁ : Means (w.put y { q with rights := insert ⟨x, p.pid, p.seq + 1⟩ q.rights }) := by
      refine h.of_put hq rfl (fun _ hd => hd) (Set.subset_insert _ _) ?_ ?_
      · intro z hz
        rw [hi] at hz
        cases hz
      · intro hz
        rw [hi] at hz
        cases hz
    intro j r z hr hwait hz
    rcases put_cases hr with ⟨rfl, rfl⟩ | ⟨hj, hr⟩
    · cases hwait
      refine ⟨_, (put_of_ne _ (Ne.symm hne) _).trans (put_self ..), ?_, Set.mem_insert _ _⟩
      rw [hi]
      exact nofun
    · obtain ⟨u, hu, hng, hmem⟩ := h₁ j r z hr hwait hz
      by_cases hzx : z = x
      · subst hzx
        rw [put_of_ne w hne, hp, Option.some.injEq] at hu
        subst hu
        exact ⟨_, put_self .., (nofun), hmem⟩
      · exact ⟨u, (put_of_ne _ hzx _).trans hu, hng, hmem⟩
  | answer hp ho hr =>
    exact h.of_put hp rfl (fun _ hd => hd) (fun _ hc => hc) (nofun) nofun
  | @lose y q R hq hR hlost =>
    intro j p z hp hwait hz
    have hp' : ∃ p₀, w.party j = some p₀ ∧ p₀.phase = .waits z ∧ p₀.pid = p.pid ∧ p₀.seq = p.seq := by
      rcases put_cases hp with ⟨rfl, rfl⟩ | ⟨-, hp⟩
      · exact ⟨q, hq, hwait, rfl, rfl⟩
      · exact ⟨p, hp, hwait, rfl, rfl⟩
    obtain ⟨p₀, hp₀, hwait₀, hpid, hseq⟩ := hp'
    obtain ⟨r, hr, hng, hmem⟩ := h j p₀ z hp₀ hwait₀ hz
    rw [hpid, hseq] at hmem
    by_cases hzy : z = y
    · subst hzy
      rw [hq, Option.some.injEq] at hr
      subst hr
      refine ⟨_, put_self .., hng, ?_⟩
      by_contra hlost'
      exact hlost hk _ hmem hlost' ⟨p₀, hp₀, hpid, hseq, hwait₀⟩
    · exact ⟨r, (put_of_ne w hzy _).trans hr, hng, hmem⟩
  | @spawn i hi =>
    intro j p y hp hwait hy
    rcases put_cases hp with ⟨rfl, rfl⟩ | ⟨-, hp⟩
    · cases hwait
    · obtain ⟨q, hq, hng, hmem⟩ := h j p y hp hwait hy
      have hyi : y ≠ i := by
        rintro rfl
        rw [hi] at hq
        cases hq
      exact ⟨q, (put_of_ne _ hyi _).trans hq, hng, hmem⟩
  | @die i p hp hi =>
    exact h.of_put hp rfl (Set.subset_insert _ _) (fun _ hc => hc) (nofun)
      fun _ => Set.mem_insert _ _
  | @dieCalling i p hp ho =>
    exact h.of_put (a := { p with phase := .gone, call := 0 }) hp rfl (Set.subset_insert _ _) (fun _ hc => hc)
      (nofun) fun _ => Set.mem_insert _ _
  | @bury i hi =>
    intro j p y hp hwait hy
    refine h j p y hp hwait ?_
    intro hd
    refine hy ⟨hd, ?_⟩
    rintro rfl
    exact hi j p hp hwait
  | reap hf =>
    intro j p y hp hwait hy
    have hp' : w.party j = some p := by
      rcases hf j with he | ⟨he, -⟩
      · exact he ▸ hp
      · cases he.symm.trans hp
    obtain ⟨q, hq, hng, hmem⟩ := h j p y hp' hwait hy
    rcases hf y with he | ⟨-, hg⟩
    · exact ⟨q, he.trans hq, hng, hmem⟩
    · exact absurd (hg q hq) hng

theorem Entitled.of_put (h : Entitled w) {a : Party} {v : World} (hi : w.party i = some p)
    (hv : v.party = (w.put i a).party) (hm : ∀ m ∈ w.marks, m ∈ v.marks)
    (hr : ∀ c ∈ a.rights, c ∈ p.rights ∨ ∃ n, .received i c.slot c.pid c.seq n ∈ v.marks) : Entitled v := by
  intro y q c hq hc
  rw [hv] at hq
  have hold : ∀ q, w.party y = some q → c ∈ q.rights → ∃ n, .received y c.slot c.pid c.seq n ∈ v.marks := by
    intro q hq hc
    obtain ⟨n, hn⟩ := h y q c hq hc
    exact ⟨n, hm _ hn⟩
  rcases put_cases hq with ⟨rfl, rfl⟩ | ⟨-, hq⟩
  · exact (hr c hc).elim (hold p hi) id
  · exact hold q hq hc

theorem Entitled.move (h : Entitled w) (hm : Move K w w') : Entitled w' := by
  cases hm with
  | count => exact h
  | ask hp _ => exact h.of_put hp rfl (fun _ => mem_cons_of_mem _) fun _ hc => .inl hc
  | @receive x y p q hp ha hq hi =>
    have hne : x ≠ y := by
      rintro rfl
      rw [hp, Option.some.injEq] at hq
      rw [hq, hi] at ha
      cases ha
    have h₁ : Entitled ((w.put y { q with rights := insert ⟨x, p.pid, p.seq + 1⟩ q.rights }).say
        (.received y x p.pid (p.seq + 1) p.call)) := by
      refine h.of_put hq rfl (fun _ => mem_cons_of_mem _) ?_
      rintro c (rfl | hc)
      · exact .inr ⟨p.call, mem_cons_self⟩
      · exact .inl hc
    exact h₁.of_put ((put_of_ne w hne _).trans hp) rfl (fun _ hm => hm) fun _ hc => .inl hc
  | answer hp _ _ => exact h.of_put hp rfl (fun _ => mem_cons_of_mem _) fun _ hc => .inl hc
  | lose hq hR _ => exact h.of_put hq rfl (fun _ hm => hm) fun _ hc => .inl (hR hc)
  | spawn hi =>
    intro y q c hq hc
    rcases put_cases hq with ⟨rfl, rfl⟩ | ⟨-, hq⟩
    · exact hc.elim
    · exact h y q c hq hc
  | die hp _ => exact h.of_put hp rfl (fun _ hm => hm) fun _ hc => .inl hc
  | dieCalling hp _ => exact h.of_put hp rfl (fun _ => mem_cons_of_mem _) fun _ hc => .inl hc
  | bury _ => exact h
  | reap hf =>
    intro y q c hq hc
    rcases hf y with he | ⟨he, -⟩
    · exact h y q c (he ▸ hq) hc
    · cases he.symm.trans hq

def Path (K : Prop) : World → World → Prop := Relation.ReflTransGen (Move K)

theorem Ok.path (h : Ok w) (hp : Path K w w') : Ok w' := by
  induction hp with
  | refl => exact h
  | tail _ hm ih => exact ih.move hm

theorem Entitled.path (h : Entitled w) (hp : Path K w w') : Entitled w' := by
  induction hp with
  | refl => exact h
  | tail _ hm ih => exact ih.move hm

theorem Means.path (h : Means w) (hk : K) (hp : Path K w w') : Means w' := by
  induction hp with
  | refl => exact h
  | tail _ hm ih => exact ih.move hk hm

end

end World

end MindCore.Kernel.Calls
