import Mathlib.Data.List.Nodup
import Mathlib.Data.List.Perm.Subperm
import MindCore.Lib.Mail
import MindCore.Libmind.Checkpoint

/-!
# Operations and messages of a manifest

What the operations of `Manifest` do to the table of clients, read as each client's last number,
and to the outbox, read as a list in order.
-/

namespace MindCore.Checkpoint

open List Proc

def Message.number (o : Message) : Nat := o.seq.toNat

variable {k n : Nat}

/-- The first element `findIdx?` finds, and what is before and after it. -/
theorem split_of_findIdx {α : Type} {p : α → Bool} {l : List α} (h : l.findIdx? p = some k) :
    ∃ pre a post, l = pre ++ a :: post ∧ pre.length = k ∧ p a ∧ ∀ b ∈ pre, ¬p b := by
  induction l generalizing k with
  | nil => simp at h
  | cons a l ih =>
    rw [findIdx?_cons] at h
    by_cases ha : p a
    · rw [if_pos ha] at h
      cases h
      exact ⟨[], a, l, rfl, rfl, ha, by simp⟩
    · rw [if_neg ha] at h
      obtain ⟨k', hk', rfl⟩ := Option.map_eq_some_iff.mp h
      obtain ⟨pre, b, post, rfl, hlen, hb, hpre⟩ := ih hk'
      refine ⟨a :: pre, b, post, rfl, by simp [hlen], hb, ?_⟩
      intro c hc
      rcases mem_cons.mp hc with rfl | hin
      · exact ha
      · exact hpre c hin

namespace Manifest

def op (m : Manifest) (who : Bytes) : Nat :=
  ((m.clients.val.find? fun c => c.who.bytes = who).map fun c => c.op.toNat).getD 0

theorem applied_new_iff {m : Manifest} {who : Bytes} {op : UInt64} (h : op ≠ 0) :
    m.applied who op = .new ↔ m.op who < op.toNat := by
  rw [applied, Manifest.op]
  cases hf : m.clients.val.find? fun c => c.who.bytes = who with
  | none =>
    have hpos : op.toNat ≠ 0 := fun h0 => h (UInt64.toNat_inj.mp h0)
    simp only [Option.map_none, Option.getD_none, true_iff]
    omega
  | some c =>
    simp only [Option.map_some, Option.getD_some]
    rcases Nat.lt_trichotomy op.toNat c.op.toNat with hlt | heq | hgt
    · have hne : op ≠ c.op := fun he => by simp [he] at hlt
      rw [if_neg hne, if_pos (UInt64.lt_iff_toNat_lt.mpr hlt)]
      simp only [reduceCtorEq, false_iff]
      omega
    · rw [if_pos (UInt64.toNat_inj.mp heq)]
      simp only [reduceCtorEq, false_iff]
      omega
    · have hne : op ≠ c.op := fun he => by simp [he] at hgt
      have hnlt : ¬op < c.op := fun hl => by
        have := UInt64.lt_iff_toNat_lt.mp hl
        omega
      rw [if_neg hne, if_neg hnlt]
      simpa using hgt

/-- The table has each client once, and only clients of `known`. -/
structure Tabled (known : List Label) (m : Manifest) : Prop where
  nodup : (m.clients.val.map Client.who).Nodup
  known : ∀ c ∈ m.clients.val, c.who ∈ known

structure Recorded (known : List Label) (who : Bytes) (op : UInt64) (m m' : Manifest) : Prop where
  tabled : Tabled known m'
  outbox : m'.outbox = m.outbox
  sent : m'.sent = m.sent
  own : m'.op who = op.toNat
  others : ∀ w, w ≠ who → m'.op w = m.op w

variable {c : Client} {post pre : List Client}

theorem find_replace {d : Client} (hwho : d.who = c.who) (w : Bytes) (hw : w ≠ c.who.bytes) :
    (pre ++ d :: post).find? (fun c => c.who.bytes = w) =
      (pre ++ c :: post).find? fun c => c.who.bytes = w := by
  have hd : ¬d.who.bytes = w := by rw [hwho]; exact fun h => hw h.symm
  have hc : ¬c.who.bytes = w := fun h => hw h.symm
  simp [hd, hc]

variable {known : List Label} {m m' : Manifest} {who : Bytes} {op result : UInt64} {label : Label}

theorem record_found (ht : Tabled known m) (hl : Label.new who = some label)
    (hk : m.clients.val.findIdx? (fun c => c.who = label) = some k) :
    Recorded known who op m
      { m with clients := m.clients.set k ⟨label, op, result, m.sequence⟩ } := by
  obtain ⟨pre, c, post, hsplit, rfl, hc, hpre⟩ := split_of_findIdx hk
  have hwho : c.who = label := by simpa using hc
  have hbytes : label.bytes = who := Label.bytes_of_new hl
  have hset : (m.clients.set pre.length ⟨label, op, result, m.sequence⟩).val =
      pre ++ ⟨label, op, result, m.sequence⟩ :: post := by
    rw [UpTo.set_val, hsplit]
    simp
  refine ⟨⟨?_, ?_⟩, rfl, rfl, ?_, ?_⟩
  · have := ht.nodup
    rw [hsplit] at this
    rw [hset]
    simpa [hwho] using this
  · intro d hd
    rw [hset] at hd
    rcases mem_append.mp hd with hin | hin
    · exact ht.known d (by rw [hsplit]; exact mem_append_left _ hin)
    · rcases mem_cons.mp hin with rfl | hin'
      · rw [← hwho]
        exact ht.known c (by rw [hsplit]; simp)
      · exact ht.known d (by rw [hsplit]; simp [hin'])
  · rw [Manifest.op, hset, find?_append]
    have hnone : pre.find? (fun c => c.who.bytes = who) = none := by
      rw [find?_eq_none]
      intro d hd hdw
      refine hpre d hd ?_
      simp only [decide_eq_true_eq] at hdw ⊢
      exact Label.ext_bytes (hdw.trans hbytes.symm)
    simp [hnone, hbytes]
  · intro w hw
    rw [Manifest.op, Manifest.op, hset, hsplit]
    rw [find_replace (c := c) hwho.symm w (by rw [hwho, hbytes]; exact hw)]

theorem record_absent (ht : Tabled known m) (hl : Label.new who = some label) (hknown : label ∈ known)
    (hk : m.clients.val.findIdx? (fun c => c.who = label) = none)
    (h : m.clients.val.length < clientsMax) :
    Recorded known who op m
      { m with clients := m.clients.push ⟨label, op, result, m.sequence⟩ h } := by
  have hbytes : label.bytes = who := Label.bytes_of_new hl
  have hno : ∀ c ∈ m.clients.val, c.who ≠ label := by
    simpa [findIdx?_eq_none_iff] using hk
  refine ⟨⟨?_, ?_⟩, rfl, rfl, ?_, ?_⟩
  · rw [UpTo.push_val, map_append, nodup_append]
    refine ⟨ht.nodup, by simp, ?_⟩
    intro a ha b hb
    obtain ⟨c, hc, rfl⟩ := mem_map.mp ha
    simp only [map_cons, map_nil, mem_singleton] at hb
    rw [hb]
    exact hno c hc
  · intro c hc
    rcases mem_append.mp hc with hin | hin
    · exact ht.known c hin
    · rw [mem_singleton.mp hin]
      exact hknown
  · rw [Manifest.op, UpTo.push_val, find?_append]
    have hnone : m.clients.val.find? (fun c => c.who.bytes = who) = none := by
      rw [find?_eq_none]
      intro d hd hdw
      simp only [decide_eq_true_eq] at hdw
      exact hno d hd (Label.ext_bytes (hdw.trans hbytes.symm))
    simp [hnone, hbytes]
  · intro w hw
    rw [Manifest.op, Manifest.op, UpTo.push_val, find?_append]
    have hne : ¬label.bytes = w := fun h => hw (h.symm.trans hbytes)
    simp [hne]

/-- A table of at most `clientsMax` known clients has room for each of them. -/
theorem room_of_absent (hfew : known.length ≤ clientsMax) (ht : Tabled known m)
    (hknown : label ∈ known) (hk : m.clients.val.findIdx? (fun c => c.who = label) = none) :
    m.clients.val.length < clientsMax := by
  have hno : label ∉ m.clients.val.map Client.who := by
    intro hin
    obtain ⟨c, hc, hwho⟩ := mem_map.mp hin
    have := findIdx?_eq_none_iff.mp hk c hc
    simp [hwho] at this
  have hnodup : (label :: m.clients.val.map Client.who).Nodup := nodup_cons.mpr ⟨hno, ht.nodup⟩
  have hsub : label :: m.clients.val.map Client.who ⊆ known := by
    intro a ha
    rcases mem_cons.mp ha with rfl | hin
    · exact hknown
    · obtain ⟨c, hc, rfl⟩ := mem_map.mp hin
      exact ht.known c hc
  have := (subperm_of_subset hnodup hsub).length_le
  simp only [length_cons, length_map] at this
  omega

theorem record_ok (hfew : known.length ≤ clientsMax) (ht : Tabled known m)
    (hl : Label.new who = some label) (hknown : label ∈ known)
    (h : m.record who op result = .ok m') : Recorded known who op m m' := by
  rw [record, hl, orError_some, except_ok_bind] at h
  split at h
  · rename_i k hk
    obtain ⟨_, _, h⟩ := ok_of_bind h
    cases h
    exact record_found ht hl hk
  · rename_i hk
    obtain ⟨_, _, h⟩ := ok_of_bind h
    have hroom := room_of_absent hfew ht hknown hk
    rw [dif_pos hroom] at h
    cases h
    exact record_absent ht hl hknown hk hroom

theorem op_of_split (h : m.clients.val = pre ++ c :: post)
    (hc : c.who.bytes = who) (hpre : ∀ d ∈ pre, d.who.bytes ≠ who) : m.op who = c.op.toNat := by
  have hnone : pre.find? (fun c => c.who.bytes = who) = none := by
    simpa [find?_eq_none] using hpre
  simp [Manifest.op, h, find?_append, hnone, hc]

theorem record_of_lt (result : UInt64) (hl : Label.new who = some label) (h : m.op who < op.toNat) :
    ∃ m', m.record who op result = .ok m' := by
  have hbytes : label.bytes = who := Label.bytes_of_new hl
  rw [record, hl, orError_some, except_ok_bind]
  split
  · rename_i k hk
    obtain ⟨pre, c, post, hsplit, rfl, hc, hpre⟩ := split_of_findIdx hk
    have hwho : c.who = label := by simpa using hc
    have hop : m.op who = c.op.toNat := by
      refine op_of_split hsplit (by rw [hwho, hbytes]) ?_
      intro d hd hdw
      refine hpre d hd ?_
      simp only [decide_eq_true_eq]
      exact Label.ext_bytes (hdw.trans hbytes.symm)
    have hget : m.clients.val[pre.length]? = some c := by rw [hsplit]; simp
    have hle : ¬∃ c ∈ m.clients.val[pre.length]?, op ≤ c.op := by
      rintro ⟨d, hd, hd'⟩
      rw [hget] at hd
      cases hd
      have := UInt64.le_iff_toNat_le.mp hd'
      omega
    rw [ensure_ok hle]
    exact ⟨_, rfl⟩
  · have hne : op ≠ 0 := by
      rintro rfl
      simp at h
    rw [ensure_ok hne, except_ok_bind]
    split
    · exact ⟨_, rfl⟩
    · exact ⟨_, rfl⟩

theorem le_op_iff (ht : Tabled known m) (hn : 0 < n) :
    n ≤ m.op who ↔ ∃ c ∈ m.clients.val, c.who.bytes = who ∧ n ≤ c.op.toNat := by
  rw [Manifest.op]
  cases hf : m.clients.val.find? fun c => c.who.bytes = who with
  | none =>
    have hno := find?_eq_none.mp hf
    simp only [Option.map_none, Option.getD_none, Nat.le_zero]
    refine ⟨fun h => absurd h (by omega), ?_⟩
    rintro ⟨c, hc, hwho, _⟩
    exact absurd (by simpa using hwho) (hno c hc)
  | some c =>
    have hwho : c.who.bytes = who := by simpa using find?_some hf
    have hmem := mem_of_find?_eq_some hf
    refine ⟨fun h => ⟨c, hmem, hwho, h⟩, ?_⟩
    rintro ⟨d, hd, hdw, hle⟩
    have hdc : d = c := by
      refine inj_on_of_nodup_map ht.nodup hd hmem ?_
      exact Label.ext_bytes (hdw.trans hwho.symm)
    rw [← hdc]
    exact hle

end Manifest

variable {o : Message}

section Receive
variable {known : List Label} {from_ : Bytes} {label : Label}

/-- An `apply` that keeps what it applied: what it answers may depend on all of it. -/
def logged (answer : List Message → Message → Except Error UInt64) (o : Message) :
    Proc Error (List Message) UInt64 := do
  let log ← get
  let result ← Proc.ofExcept (answer log o)
  set (log ++ [o])
  return result

variable {log owed : List Message} {answer : List Message → Message → Except Error UInt64} {m : Manifest}

theorem logged_error {e : Error} (h : answer log o = .error e) :
    (logged answer o).run log = .error e log := by
  rw [logged, bind_ok (run_get log), h]
  rfl

theorem logged_ok {r : UInt64} (h : answer log o = .ok r) :
    (logged answer o).run log = .ok r (log ++ [o]) := by
  rw [logged, bind_ok (run_get log), h]
  rfl

/-- What a component is after it received: messages applied in order, each recorded. -/
structure Received (known : List Label) (from_ : Bytes) (owed : List Message) (m m' : Manifest)
    (log log' : List Message) : Prop where
  tabled : m'.Tabled known
  outbox : m'.outbox = m.outbox
  sent : m'.sent = m.sent
  own : m'.op from_ = Mail.last Message.number log'
  others : ∀ w, w ≠ from_ → m'.op w = m.op w
  log : ∃ l, log' = log ++ l ∧ l <+: owed.filter fun o => Mail.last Message.number log < o.number

theorem Received.refl (ht : m.Tabled known) (hop : m.op from_ = Mail.last Message.number log) :
    Received known from_ owed m m log log :=
  ⟨ht, rfl, rfl, hop, fun _ _ => rfl, [], (append_nil log).symm, nil_prefix⟩

theorem filter_past (h : ∀ p ∈ owed, n < p.number) : (owed.filter fun p => n < p.number) = owed := by
  simpa using h

theorem receiveEach_state (hfew : known.length ≤ clientsMax) (hl : Label.new from_ = some label)
    (hknown : label ∈ known) (answer : List Message → Message → Except Error UInt64)
    (hsorted : owed.Pairwise fun a b => a.number < b.number)
    (hpos : ∀ o ∈ owed, 0 < o.number) (n : Nat)
    (ht : m.Tabled known) (hop : m.op from_ = Mail.last Message.number log) :
    Received known from_ owed m
      ((Manifest.receiveEach from_ (logged answer) owed n).run (m, log)).state.1 log
      ((Manifest.receiveEach from_ (logged answer) owed n).run (m, log)).state.2 := by
  induction owed generalizing m log n with
  | nil => exact .refl ht hop
  | cons o owed ih =>
    rw [pairwise_cons] at hsorted
    have hpos' := hpos o mem_cons_self
    have hne : o.seq ≠ 0 := by
      intro h0
      simp [Message.number, h0] at hpos'
    rw [Manifest.receiveEach, bind_ok (run_get _)]
    by_cases hnew : m.applied from_ o.seq = .new
    · have hlt := (Manifest.applied_new_iff hne).mp hnew
      simp only [if_pos hnew]
      cases hans : answer log o with
      | error e =>
        simp only [logged_error hans]
        exact .refl ht hop
      | ok r =>
        simp only [logged_ok hans]
        obtain ⟨m', hrec⟩ := Manifest.record_of_lt r hl hlt
        have hr := Manifest.record_ok hfew ht hl hknown hrec
        rw [bind_ok (run_set _ _), hrec, ofExcept_ok, pure_bind,
          bind_ok (run_set _ _)]
        have hown : m'.op from_ = Mail.last Message.number (log ++ [o]) := by
          rw [hr.own, Mail.last_concat]
          rfl
        have hrest := ih hsorted.2 (fun p hp => hpos p (mem_cons_of_mem _ hp)) (n + 1) hr.tabled hown
        obtain ⟨l, hlog, hpre⟩ := hrest.log
        refine ⟨hrest.tabled, hrest.outbox.trans hr.outbox, hrest.sent.trans hr.sent, hrest.own,
          fun w hw => (hrest.others w hw).trans (hr.others w hw), o :: l, ?_, ?_⟩
        · rw [hlog, append_assoc]
          rfl
        · -- the rest is past `o`, so all of it is past what was applied before
          have hlast : Mail.last Message.number log < o.number := by rw [← hop]; exact hlt
          rw [filter_cons_of_pos (by simpa using hlast)]
          rw [Mail.last_concat, filter_past hsorted.1] at hpre
          rw [filter_past fun p hp => Nat.lt_trans hlast (hsorted.1 p hp)]
          exact (prefix_cons_inj o).mpr hpre
    · have hle : ¬m.op from_ < o.seq.toNat := fun h => hnew ((Manifest.applied_new_iff hne).mpr h)
      simp only [if_neg hnew]
      have hrest := ih hsorted.2 (fun p hp => hpos p (mem_cons_of_mem _ hp)) n ht hop
      refine { hrest with log := ?_ }
      obtain ⟨l, hlog, hpre⟩ := hrest.log
      refine ⟨l, hlog, ?_⟩
      have hskip : ¬Mail.last Message.number log < o.number := by rw [← hop]; exact hle
      simpa [hskip] using hpre

end Receive

theorem send_eq {m : Manifest} {to_ what : Bytes} {t w : Label} (ht : Label.new to_ = some t)
    (hw : Label.new what = some w) (h : m.outbox.val.length < outboxMax) :
    m.send to_ what = .ok (m.sent + 1,
      { m with sent := m.sent + 1, outbox := m.outbox.push ⟨m.sent + 1, t, w⟩ h }) := by
  rw [Manifest.send, ht, hw, orError_some, orError_some, except_ok_bind, except_ok_bind, dif_pos h]

section Acknowledge

def UpTo.filter {n : Nat} {α : Type} (l : UpTo n α) (p : α → Bool) : UpTo n α :=
  ⟨l.val.filter p, Nat.le_trans (List.length_filter_le p l.val) l.2⟩

variable {m : Manifest}

theorem delivered_of_mem (ho : o ∈ m.outbox.val)
    (hsorted : m.outbox.val.Pairwise fun a b => a.number < b.number) :
    ∃ pre post k, m.outbox.val = pre ++ o :: post ∧ (m.outbox.erase k).val = pre ++ post ∧
      (m.delivered o.seq).2 = { m with outbox := m.outbox.erase k } := by
  rw [Manifest.delivered]
  cases hk : m.outbox.val.findIdx? fun p => p.seq = o.seq with
  | none =>
    have := findIdx?_eq_none_iff.mp hk o ho
    simp at this
  | some k =>
    obtain ⟨pre, a, post, hsplit, rfl, ha, _⟩ := split_of_findIdx hk
    have hao : a = o := by
      refine Mail.sorted_unique hsorted (by rw [hsplit]; simp) ho ?_
      simpa [Message.number, UInt64.toNat_inj] using ha
    subst hao
    refine ⟨pre, post, pre.length, hsplit, ?_, rfl⟩
    rw [UpTo.erase_val, hsplit]
    simp [eraseIdx_append_of_length_le]

theorem delivered_keeps (m : Manifest) (seq : UInt64) :
    (m.delivered seq).2.clients = m.clients ∧ (m.delivered seq).2.sent = m.sent ∧
      (m.delivered seq).2.outbox.val.Sublist m.outbox.val ∧
      ∀ o ∈ m.outbox.val, o.seq ≠ seq → o ∈ (m.delivered seq).2.outbox.val := by
  rw [Manifest.delivered]
  cases hk : m.outbox.val.findIdx? fun o => o.seq = seq with
  | none => exact ⟨rfl, rfl, List.Sublist.refl _, fun o ho _ => ho⟩
  | some k =>
    obtain ⟨pre, a, post, hsplit, rfl, ha, _⟩ := split_of_findIdx hk
    have herase : (m.outbox.erase pre.length).val = pre ++ post := by
      rw [UpTo.erase_val, hsplit]
      simp [eraseIdx_append_of_length_le]
    refine ⟨rfl, rfl, ?_, ?_⟩
    · exact eraseIdx_sublist _ _
    · intro o ho hne
      simp only [herase]
      rw [hsplit] at ho
      rcases mem_append.mp ho with hin | hin
      · exact mem_append_left _ hin
      · rcases mem_cons.mp hin with rfl | hin'
        · exact absurd (by simpa using ha) hne
        · exact mem_append_right _ hin'

theorem delivered_single (h : m.outbox.val = [o]) : (m.delivered o.seq).2 = { m with outbox := .empty } := by
  have hk : m.outbox.val.findIdx? (fun p => p.seq = o.seq) = some 0 := by
    rw [h]
    simp [findIdx?_cons]
  have herase : m.outbox.erase 0 = .empty := by
    refine Subtype.ext ?_
    rw [UpTo.erase_val, h]
    rfl
  rw [Manifest.delivered, hk]
  simp only [herase]

variable {to_ : Bytes} {last : UInt64}

theorem acknowledgeEach_eq {rounds : Nat} (hsorted : m.outbox.val.Pairwise fun a b => a.number < b.number)
    (hrounds : m.outbox.val.countP (fun o => o.to_.bytes = to_ ∧ o.seq ≤ last) ≤ rounds) :
    (Manifest.acknowledgeEach to_ last rounds m).2 =
      { m with outbox := m.outbox.filter fun o => ¬(o.to_.bytes = to_ ∧ o.seq ≤ last) } := by
  have hnone : ∀ m : Manifest, (∀ o ∈ m.outbox.val, ¬(o.to_.bytes = to_ ∧ o.seq ≤ last)) →
      m = { m with outbox := m.outbox.filter fun o => ¬(o.to_.bytes = to_ ∧ o.seq ≤ last) } := by
    intro m h
    have : (m.outbox.filter fun o => ¬(o.to_.bytes = to_ ∧ o.seq ≤ last)) = m.outbox := by
      refine Subtype.ext ?_
      rw [UpTo.filter, filter_eq_self]
      intro o ho
      exact decide_eq_true (h o ho)
    rw [this]
  induction rounds generalizing m with
  | zero =>
    refine hnone m ?_
    have := countP_eq_zero.mp (Nat.le_zero.mp hrounds)
    simpa using this
  | succ rounds ih =>
    rw [Manifest.acknowledgeEach]
    cases hf : (m.owed to_).find? fun o => o.seq ≤ last with
    | none =>
      refine hnone m ?_
      intro o ho hc
      have := find?_eq_none.mp hf o (mem_filter.mpr ⟨ho, by simpa using hc.1⟩)
      exact this (by simpa using hc.2)
    | some o =>
      have hle : o.seq ≤ last := by simpa using find?_some hf
      obtain ⟨ho, hto⟩ := mem_filter.mp (mem_of_find?_eq_some hf)
      have hto' : o.to_.bytes = to_ := by simpa using hto
      obtain ⟨pre, post, k, hsplit, herase, hdel⟩ := delivered_of_mem ho hsorted
      simp only [hdel]
      have hsub : (pre ++ post).Sublist m.outbox.val := by
        rw [hsplit]
        exact (List.Sublist.refl pre).append (sublist_cons_self o post)
      rw [ih]
      · refine congrArg (fun out => { m with outbox := out }) (Subtype.ext ?_)
        simp only [UpTo.filter]
        rw [herase, hsplit]
        simp [hto', hle]
      · rw [herase]
        exact hsorted.sublist hsub
      · rw [herase]
        rw [hsplit] at hrounds
        simp only [countP_append, countP_cons, hto', hle, and_self, decide_true,
          if_true] at hrounds ⊢
        omega

theorem acknowledge_eq {receiver : Manifest} {me : Bytes}
    (hsorted : m.outbox.val.Pairwise fun a b => a.number < b.number)
    (hpos : ∀ o ∈ m.outbox.val, 0 < o.number) :
    (m.acknowledge me to_ receiver).2 =
      { m with outbox := m.outbox.filter fun o =>
          ¬(o.to_.bytes = to_ ∧ o.number ≤ receiver.op me) } := by
  rw [Manifest.acknowledge, Manifest.op]
  cases hf : receiver.clients.val.find? fun c => c.who.bytes = me with
  | none =>
    have : (m.outbox.filter fun o => ¬(o.to_.bytes = to_ ∧ o.number ≤ 0)) = m.outbox := by
      refine Subtype.ext ?_
      rw [UpTo.filter, filter_eq_self]
      intro o ho
      have := hpos o ho
      simp only [not_and, decide_eq_true_eq]
      omega
    simp only [Option.map_none, Option.getD_none, this]
  | some c =>
    exact acknowledgeEach_eq hsorted countP_le_length

end Acknowledge

end MindCore.Checkpoint
