import MindCore.Libmind.Checkpoint

/-!
# The manifest's format

What `Manifest.decode` makes of what `Manifest.encode` wrote: the manifest itself, or nothing when
its clients or its outbox are not as the format has them.
-/

namespace MindCore.Checkpoint

open Reader (Reads)

variable {n : Nat} {bytes : Bytes} {c : Prop}

namespace In

theorem take_reads {b : Bytes} (h : b.length = n) : Reads (take n) b b True := Reads.take h _

theorem u16_reads (v : UInt16) : Reads u16 (Checkpoint.u16 v) v True := by
  refine ((take_reads (Bytes.length_le 2 _)).map fun b => UInt16.ofNat (Bytes.ofLe b)).congr
    rfl ?_ Iff.rfl
  rw [Bytes.ofLe_le 2 _ (by simpa using v.toNat_lt), UInt16.ofNat_toNat]

theorem u64_reads (v : UInt64) : Reads u64 (Checkpoint.u64 v) v True := by
  refine ((take_reads (Bytes.length_le 8 _)).map fun b => UInt64.ofNat (Bytes.ofLe b)).congr
    rfl ?_ Iff.rfl
  rw [Bytes.ofLe_le 8 _ (by simpa using v.toNat_lt), UInt64.ofNat_toNat]

theorem byte_reads (b : UInt8) : Reads byte [b] b True := (take_reads (b := [b]) rfl).map fun b => b.headD 0

theorem cid_reads (c : Cid) : Reads cid c.toBytes c True := by
  refine ((take_reads (Cid.length_toBytes c)).next ?_).congr (List.append_nil _) rfl Iff.rfl
  rw [Cid.fromBytes_toBytes]
  exact Reads.pure c

variable {α : Type}

theorem text_reads {text : Bytes} (h : text.length < 256) {f : Bytes → Proc Error Bytes α}
    {a : α} (hf : Reads (f text) bytes a c) :
    Reads (byte >>= fun len => take len.toNat >>= f) (UInt8.ofNat text.length :: (text ++ bytes))
      a c := by
  have hlen : text.length = (UInt8.ofNat text.length).toNat := by
    rw [UInt8.toNat_ofNat', Nat.mod_eq_of_lt h]
  exact (byte_reads _).next ((take_reads hlen).next hf)

theorem label_reads (l : Label) : Reads label (putLabel l) l True := by
  have hlen : l.bytes.length < 256 := Nat.lt_of_le_of_lt l.valid.1 (by decide)
  have h : Reads (orError (Label.new l.bytes) .format : Proc Error Bytes Label) [] l True := by
    rw [Label.new_bytes]
    exact Reads.pure l
  exact (text_reads hlen h).congr (by rw [List.append_nil]; rfl) rfl Iff.rfl

theorem outcome_reads (o : Outcome) : Reads outcome [o.code] o True := by
  cases o
  · exact (byte_reads 0).next (Reads.pure Outcome.pending)
  · exact (byte_reads 1).next (Reads.pure Outcome.done)
  · exact (byte_reads 2).next (Reads.pure Outcome.failed)

theorem key_reads (k : Key) : Reads key (putKey k) k True := by
  cases k with
  | none => exact (byte_reads 0).next (Reads.pure Key.none)
  | publication p =>
    have hlen : p.name.length < 256 := Nat.lt_of_le_of_lt p.valid.1.2 (by decide)
    have hnew : Publication.new p.name p.from_ p.root = some p := dif_pos p.valid
    have hp : Reads (orError (Publication.new p.name p.from_ p.root) .format >>= fun p =>
        pure (Key.publication p) : Proc Error Bytes Key) [] (.publication p) True := by
      rw [hnew]
      exact Reads.pure _
    have henc : putKey (.publication p) = [1] ++ (UInt8.ofNat p.name.length :: (p.name ++
        (Checkpoint.u64 p.from_ ++ (p.root.toBytes ++ [])))) := by
      simp [putKey]
    rw [henc]
    refine .next (byte_reads 1) ?_
    refine text_reads hlen ?_
    refine .next (u64_reads p.from_) ?_
    exact .next (cid_reads p.root) hp

theorem effect_reads (e : Effect) : Reads effect (putEffect e) e True := by
  have henc : putEffect e = Checkpoint.u64 e.id ++ ([e.outcome.code] ++ (putLabel e.what ++
      (putKey e.key ++ []))) := by
    simp [putEffect]
  rw [henc]
  refine .next (u64_reads e.id) ?_
  refine .next (outcome_reads e.outcome) ?_
  refine .next (label_reads e.what) ?_
  exact .next (key_reads e.key) (.pure e)

def Next (sequence : UInt64) (before : List Client) (c : Client) : Prop :=
  c.op ≠ 0 ∧ c.at_ ≤ sequence ∧ ¬∃ d ∈ before, d.who = c.who

theorem client_reads (sequence : UInt64) (before : List Client) (c : Client) :
    Reads (client sequence before) (putClient c) c (Next sequence before c) := by
  have henc : putClient c = putLabel c.who ++ (Checkpoint.u64 c.op ++ (Checkpoint.u64 c.result ++
      (Checkpoint.u64 c.at_ ++ []))) := by
    simp [putClient]
  rw [henc]
  refine .next (label_reads c.who) ?_
  refine .next (u64_reads c.op) ?_
  refine .next (u64_reads c.result) ?_
  refine .next (u64_reads c.at_) ?_
  exact (Reads.check (.pure c)).congr rfl rfl (iff_of_eq (and_true _))

def Owed (sent : UInt64) (before : List Message) (o : Message) : Prop :=
  o.seq ≠ 0 ∧ o.seq ≤ sent ∧ ∀ p ∈ before.getLast?, p.seq < o.seq

theorem message_reads (sent : UInt64) (before : List Message) (o : Message) :
    Reads (message sent before) (putMessage o) o (Owed sent before o) := by
  have henc : putMessage o = Checkpoint.u64 o.seq ++ (putLabel o.to_ ++ (putLabel o.what ++ [])) := by
    simp [putMessage]
  rw [henc]
  refine .next (u64_reads o.seq) ?_
  refine (Reads.check ?_).congr rfl rfl (iff_of_eq (and_true _))
  refine .next (label_reads o.to_) ?_
  exact .next (label_reads o.what) (.pure o)

end In

/-- The clients and the outbox of a manifest that can be read back. -/
structure Manifest.WellFormed (m : Manifest) : Prop where
  clients : ∀ pre c post, m.clients.val = pre ++ c :: post → In.Next m.sequence pre c
  outbox : ∀ pre o post, m.outbox.val = pre ++ o :: post → In.Owed m.sent pre o

theorem count_toNat (l : UpTo n α) (hn : n < 256) : (UInt8.ofNat l.val.length).toNat = l.val.length := by
  rw [UInt8.toNat_ofNat', Nat.mod_eq_of_lt (Nat.lt_of_le_of_lt l.2 hn)]

theorem count_le (l : UpTo n α) : (UInt8.ofNat l.val.length).toNat ≤ n := by
  exact Nat.le_trans (Nat.mod_le _ _) l.2

variable {p : Proc Error Bytes α}

theorem In.many_reads {w : α → Bytes}
    (h : ∀ a, Reads p (w a) a True) (l : UpTo n α) {k : Nat} (hk : k = l.val.length) :
    Reads (Reader.many (fun _ => p) k []) (l.val.flatMap w) l.val True := by
  subst hk
  refine (Reads.many (fun _ a => h a) l.val []).congr rfl rfl ?_
  simp

theorem In.manifest_reads (m : Manifest) : Reads In.manifest m.encode m m.WellFormed := by
  have hr := count_toNat m.resources (by decide)
  have ha := count_toNat m.authorities (by decide)
  have he := count_toNat m.effects (by decide)
  have hc := count_toNat m.clients (by decide)
  have ho := count_toNat m.outbox (by decide)
  have henc : m.encode = magic ++ (Checkpoint.u16 format ++ (putLabel m.contract ++
      (Checkpoint.u16 m.contractVersion ++ (Checkpoint.u16 m.schema ++ (Checkpoint.u64 m.epoch ++
      (Checkpoint.u64 m.sequence ++ (m.state.toBytes ++
      ([UInt8.ofNat m.resources.val.length, UInt8.ofNat m.authorities.val.length,
        UInt8.ofNat m.effects.val.length, UInt8.ofNat m.clients.val.length,
        UInt8.ofNat m.outbox.val.length] ++
      (Checkpoint.u64 m.inbox ++ (Checkpoint.u64 m.sent ++ (m.resources.val.flatMap putLabel ++
      (m.authorities.val.flatMap putLabel ++ (m.effects.val.flatMap putEffect ++
      (m.clients.val.flatMap putClient ++ (m.outbox.val.flatMap putMessage ++ []))))))))))))))) := by
    simp [Manifest.encode]
  rw [henc]
  refine .next (take_reads rfl) (.passed rfl ?_)
  refine .next (u16_reads format) (.passed rfl ?_)
  refine .next (label_reads m.contract) ?_
  refine .next (u16_reads m.contractVersion) ?_
  refine .next (u16_reads m.schema) ?_
  refine .next (u64_reads m.epoch) ?_
  refine .next (u64_reads m.sequence) ?_
  refine .next (cid_reads m.state) ?_
  refine .next (take_reads rfl) ?_
  refine .passed ⟨count_le m.resources, count_le m.authorities, count_le m.effects,
    count_le m.clients, count_le m.outbox⟩ ?_
  refine .next (u64_reads m.inbox) ?_
  refine .next (u64_reads m.sent) ?_
  refine .next (many_reads label_reads m.resources hr) ?_
  refine .next (many_reads label_reads m.authorities ha) ?_
  refine .next (many_reads effect_reads m.effects he) ?_
  have hclients := Reads.many (client_reads m.sequence) m.clients.val []
  have houtbox := Reads.many (message_reads m.sent) m.outbox.val []
  rw [← hc] at hclients
  rw [← ho] at houtbox
  have hm : m.WellFormed ↔ (∀ pre c post, m.clients.val = pre ++ c :: post →
      Next m.sequence ([] ++ pre) c) ∧ (∀ pre o post, m.outbox.val = pre ++ o :: post →
      Owed m.sent ([] ++ pre) o) ∧ True :=
    ⟨fun h => ⟨h.clients, h.outbox, trivial⟩, fun h => ⟨h.1, h.2.1⟩⟩
  rw [hm]
  refine .bind hclients (.bind houtbox ?_)
  refine (Reads.pure _).congr rfl ?_ Iff.rfl
  simp only [List.nil_append, UpTo.ofList_val]

theorem readAll_of_reads {a : α} (h : Reads p bytes a c) (hc : c) : readAll p bytes = .ok a := by
  have hp := h.accepts hc []
  rw [List.append_nil] at hp
  rw [readAll, Proc.bind_ok hp, Proc.bind_ok (Reader.finish_nil _)]
  rfl

theorem readAll_ok {a : α} (h : readAll p bytes = .ok a) : p.run bytes = .ok a [] := by
  rw [readAll] at h
  split at h
  · rename_i b s hr
    cases h
    obtain ⟨b, rest, hp, hf⟩ := Proc.bind_eq_ok.mp hr
    obtain ⟨_, rest', hfin, hpure⟩ := Proc.bind_eq_ok.mp hf
    cases hpure
    rw [Reader.finish, Proc.bind_ok (Proc.run_get rest)] at hfin
    by_cases hrest : rest = []
    · rwa [hrest] at hp
    · rw [Proc.ensure_neg hrest] at hfin
      exact nomatch hfin
  · exact nomatch h

theorem Manifest.decode_encode (m : Manifest) (h : m.WellFormed) : decode m.encode = .ok m :=
  readAll_of_reads (In.manifest_reads m) h

theorem Manifest.eq_of_decode_encode {m m' : Manifest} (h : decode m.encode = .ok m') : m' = m := by
  have hp := readAll_ok h
  rw [← List.append_nil m.encode] at hp
  exact ((In.manifest_reads m).eq_of_ok hp).2.1

end MindCore.Checkpoint
