import MindCore.Libmind.DagShape
import MindCore.Libmind.Journal

/-!
# Nodes have one encoding

The three decoders accept exactly what the three encoders write. Each reads the fields in
order and at last compares the encoding of what it read with the bytes, so an accepted block is
the encoding of its value; the converse reads an encoding back field by field. The number of
keys in the first head tells the three kinds apart.
-/

namespace MindCore

open List

namespace In

open Dag (Error)

variable {i rest : Bytes}

theorem ofBe_take_lt {n : Nat} {bs : Bytes} (h : take n i = .ok (bs, rest)) : Bytes.ofBe bs < 256 ^ n := by
  unfold take at h
  split at h
  · cases h
    have hlt := Bytes.ofBe_lt (i.take n)
    rw [length_take, Nat.min_eq_left (by assumption)] at hlt
    exact hlt
  · cases h

variable {m : UInt8} {v : Nat}

/-- A number that was read is a `u64`. -/
theorem head_lt (h : head i = .ok ((m, v), rest)) : v < 2 ^ 64 := by
  cases i with
  | nil => cases h
  | cons first i =>
    simp only [head] at h
    split at h
    · cases h
      omega
    · split at h
      · obtain ⟨⟨bs, rest'⟩, htake, hok⟩ := ok_of_bind h
        cases hok
        have hlt := ofBe_take_lt htake
        have hinfo : (first &&& 31).toNat - 24 ≤ 3 := by omega
        have hwidth : 1 <<< ((first &&& 31).toNat - 24) ≤ 8 := by
          rw [Nat.one_shiftLeft]
          exact Nat.pow_le_pow_right (by decide) hinfo
        exact Nat.lt_of_lt_of_le hlt (Nat.pow_le_pow_right (by decide) hwidth)
      · cases h

theorem expect_lt (h : expect m i = .ok (v, rest)) : v < 2 ^ 64 := by
  obtain ⟨⟨⟨m', v'⟩, rest'⟩, hhead, h⟩ := ok_of_bind h
  obtain ⟨_, _, hok⟩ := ok_of_bind h
  cases hok
  exact head_lt hhead

end In

variable {count : Nat}

namespace Dag

def Node.Valid (n : Node) : Prop := n.size < 2 ^ 64 ∧ 0 < n.links.length ∧ n.links.length ≤ fanout

theorem readLinks_length {i rest : Bytes} {links : List Cid}
    (h : readLinks count i = .ok (links, rest)) : links.length = count := by
  induction count generalizing i links rest with
  | zero =>
    cases h
    rfl
  | succ count ih =>
    obtain ⟨⟨cid, i'⟩, _, h⟩ := ok_of_bind h
    obtain ⟨⟨cids, i''⟩, hrest, h⟩ := ok_of_bind h
    cases h
    rw [length_cons, ih hrest]

variable {b : Bytes} {n : Node}

theorem decode_sound (h : decode b = .ok n) : n.Valid ∧ encode n.size n.links = b := by
  obtain ⟨⟨entries, i1⟩, _, h⟩ := ok_of_bind h
  obtain ⟨i2, _, h⟩ := ok_of_bind h
  obtain ⟨⟨v, i3⟩, _, h⟩ := ok_of_bind h
  obtain ⟨_, _, h⟩ := ok_of_bind h
  obtain ⟨_, _, h⟩ := ok_of_bind h
  obtain ⟨i4, _, h⟩ := ok_of_bind h
  obtain ⟨⟨size, i5⟩, hsize, h⟩ := ok_of_bind h
  obtain ⟨i6, _, h⟩ := ok_of_bind h
  obtain ⟨⟨count, i7⟩, _, h⟩ := ok_of_bind h
  obtain ⟨_, hcount, h⟩ := ok_of_bind h
  obtain ⟨⟨links, rest⟩, hlinks, h⟩ := ok_of_bind h
  obtain ⟨_, _, h⟩ := ok_of_bind h
  obtain ⟨_, hsame, h⟩ := ok_of_bind h
  cases h
  have hcount := ensure_eq_ok.mp hcount
  have hlen := readLinks_length hlinks
  exact ⟨⟨In.expect_lt hsize, by simp only; omega, by simp only; omega⟩, ensure_eq_ok.mp hsame⟩

theorem decode_iff : decode b = .ok n ↔ n.Valid ∧ encode n.size n.links = b := by
  constructor
  · exact decode_sound
  · rintro ⟨⟨hs, h0, hn⟩, rfl⟩
    exact decode_encode hs h0 hn

theorem decode_keys (h : decode b = .ok n) : ∃ rest, In.expect 5 b = .ok (3, rest) := by
  obtain ⟨_, rfl⟩ := decode_sound h
  simp only [encode, append_assoc]
  exact ⟨_, In.expect_head (by decide) (by decide) _⟩

end Dag

namespace Tree

open Dag (Error chunk)

def Sized (es : List Entry) : Prop := ∀ e ∈ es, e.size < 2 ^ 64

theorem fromCode_code (k : Kind) : Kind.fromCode k.code = some k := by
  cases k <;> rfl

theorem code_lt (k : Kind) : k.code < 2 ^ 64 := by
  cases k <;> decide

theorem validName_length {name : Bytes} (h : validName name) : 1 ≤ name.length ∧ name.length ≤ nameMax := by
  simp only [validName, Bool.and_eq_true, decide_eq_true_eq] at h
  exact ⟨h.1.1.1.1.1, h.1.1.1.1.2⟩

variable {e : Entry} {es : List Entry} {last b : Bytes}

theorem Entry.valid_name (h : e.valid) : validName e.name := by
  simp only [Entry.valid, Bool.and_eq_true] at h
  exact h.1

theorem entry_encodeEntry (hv : e.valid) (hs : e.size < 2 ^ 64) (rest : Bytes) :
    entry (encodeEntry e ++ rest) = .ok (e, rest) := by
  have hlen := (validName_length (Entry.valid_name hv)).2
  have hname : e.name.length < 2 ^ 64 := by
    unfold nameMax at hlen
    omega
  have h4 := In.expect_head (m := 4) (by decide) (v := 4) (by decide)
  have h3 := In.expect_head (m := 3) (by decide) hname
  have hk := In.expect_head (m := 0) (by decide) (code_lt e.kind)
  have hz := In.expect_head (m := 0) (by decide) hs
  have hn : ∀ ys : Bytes, In.take e.name.length (e.name ++ ys) = .ok (e.name, ys) :=
    fun ys => In.take_append rfl
  simp only [entry, encodeEntry, append_assoc, h4, h3, hn, hk, hz, In.link_link, fromCode_code,
    except_ok_bind, ensure_ok, orError_some, hv]

theorem readEntries_flatMap (hv : es.all Entry.valid)
    (ha : ascending last es) (hs : Sized es) (rest : Bytes) :
    readEntries es.length last (es.flatMap encodeEntry ++ rest) = .ok (es, rest) := by
  induction es generalizing last with
  | nil => rfl
  | cons e es ih =>
    simp only [all_cons, Bool.and_eq_true] at hv
    simp only [ascending, Bool.and_eq_true, decide_eq_true_eq] at ha
    have he := entry_encodeEntry hv.1 (hs e mem_cons_self)
    have hes := ih hv.2 ha.2 fun x hx => hs x (mem_cons_of_mem e hx)
    simp only [length_cons, flatMap_cons, append_assoc, readEntries, he, hes,
      except_ok_bind, ensure_ok ha.1]

variable {i rest : Bytes}

theorem entry_sound (h : entry i = .ok (e, rest)) : e.valid ∧ e.size < 2 ^ 64 := by
  obtain ⟨⟨fields, i1⟩, _, h⟩ := ok_of_bind h
  obtain ⟨_, _, h⟩ := ok_of_bind h
  obtain ⟨⟨len, i2⟩, _, h⟩ := ok_of_bind h
  obtain ⟨⟨name, i3⟩, _, h⟩ := ok_of_bind h
  obtain ⟨⟨code, i4⟩, _, h⟩ := ok_of_bind h
  obtain ⟨kind, _, h⟩ := ok_of_bind h
  obtain ⟨⟨size, i5⟩, hsize, h⟩ := ok_of_bind h
  obtain ⟨⟨cid, i6⟩, _, h⟩ := ok_of_bind h
  obtain ⟨_, hvalid, h⟩ := ok_of_bind h
  cases h
  exact ⟨ensure_eq_ok.mp hvalid, In.expect_lt hsize⟩

theorem readEntries_sound (h : readEntries count last i = .ok (es, rest)) :
    es.all Entry.valid ∧ ascending last es ∧ Sized es := by
  induction count generalizing last i es rest with
  | zero =>
    cases h
    exact ⟨rfl, rfl, fun _ he => (nomatch he)⟩
  | succ count ih =>
    obtain ⟨⟨e, i1⟩, he, h⟩ := ok_of_bind h
    obtain ⟨_, hlast, h⟩ := ok_of_bind h
    obtain ⟨⟨es', i2⟩, hes, h⟩ := ok_of_bind h
    cases h
    obtain ⟨hv, hs⟩ := entry_sound he
    obtain ⟨hvs, has, hss⟩ := ih hes
    refine ⟨?_, ?_, ?_⟩
    · simp only [all_cons, hv, hvs, Bool.and_self]
    · simp only [ascending, ensure_eq_ok.mp hlast, has, decide_true, Bool.and_self]
    · intro x hx
      rcases mem_cons.mp hx with rfl | hx
      · exact hs
      · exact hss x hx

theorem sorted_of_ascending (h : ascending last es) : sorted es := by
  cases es with
  | nil => rfl
  | cons e es =>
    simp only [ascending, Bool.and_eq_true] at h
    exact h.2

theorem ascending_of_sorted (hv : es.all Entry.valid) (h : sorted es) : ascending [] es := by
  cases es with
  | nil => rfl
  | cons e es =>
    simp only [all_cons, Bool.and_eq_true] at hv
    have hlen := (validName_length (Entry.valid_name hv.1)).1
    have hlt : ([] : Bytes) < e.name := by
      cases hn : e.name with
      | nil =>
        rw [hn] at hlen
        simp at hlen
      | cons b bs => exact nil_lt_cons b bs
    simp only [ascending, hlt, decide_true, Bool.true_and]
    exact h

theorem head_length_pos (m : UInt8) (v : Nat) : 1 ≤ (Sink.head m v).length := by
  unfold Sink.head
  split
  · simp
  · split
    · simp
    · split
      · simp
      · split <;> simp

theorem entryMin_le (hv : e.valid) : entryMin ≤ (encodeEntry e).length := by
  have hname := (validName_length (Entry.valid_name hv)).1
  have h1 := head_length_pos 4 4
  have h2 := head_length_pos 3 e.name.length
  have h3 := head_length_pos 0 e.kind.code
  have h4 := head_length_pos 0 e.size
  have hl := Dag.length_link e.cid
  simp only [encodeEntry, length_append, hl, entryMin]
  omega

theorem length_le_maxEntries (hv : es.all Entry.valid)
    (h : (encodeWith es).length ≤ chunk) : es.length ≤ maxEntries := by
  have hsum : es.length * entryMin ≤ (es.flatMap encodeEntry).length := by
    clear h
    induction es with
    | nil => simp
    | cons e es ih =>
      simp only [all_cons, Bool.and_eq_true] at hv
      have he := entryMin_le hv.1
      have hes := ih hv.2
      simp only [length_cons, flatMap_cons, length_append, Nat.add_mul]
      omega
  have hle : es.length * entryMin ≤ chunk := by
    simp only [encodeWith, length_append] at h
    omega
  exact (Nat.le_div_iff_mul_le (by decide)).mpr hle

theorem encode_eq_ok : encode es = .ok b ↔ es.all Entry.valid ∧ sorted es ∧ (encodeWith es).length ≤ chunk ∧
      encodeWith es = b := by
  unfold encode
  constructor
  · intro h
    obtain ⟨_, hvalid, h⟩ := ok_of_bind h
    obtain ⟨_, hlen, h⟩ := ok_of_bind h
    cases h
    have hvalid := ensure_eq_ok.mp hvalid
    exact ⟨hvalid.1, hvalid.2, ensure_eq_ok.mp hlen, rfl⟩
  · rintro ⟨hv, hs, hlen, rfl⟩
    rw [ensure_ok ⟨hv, hs⟩, except_ok_bind, ensure_ok hlen, except_ok_bind]

theorem decode_encode (hs : Sized es) (h : encode es = .ok b) : decode b = .ok es := by
  obtain ⟨hv, hsorted, hlen, rfl⟩ := encode_eq_ok.mp h
  have hcount := length_le_maxEntries hv hlen
  have h64 : es.length < 2 ^ 64 := Nat.lt_of_le_of_lt hcount (by decide)
  have hes : readEntries es.length [] (es.flatMap encodeEntry) = .ok (es, []) := by
    have h := readEntries_flatMap hv (ascending_of_sorted hv hsorted) hs []
    rwa [append_nil] at h
  have henc : encodeWith es = Sink.head 5 2 ++ (Sink.text keyV ++ (Sink.head 0 version ++
      (Sink.text keyEntries ++ (Sink.head 4 es.length ++ es.flatMap encodeEntry)))) := by
    simp only [encodeWith, append_assoc]
  have h5 := In.expect_head (m := 5) (by decide) (v := 2) (by decide)
  have hvn := In.expect_head (m := 0) (by decide) (v := version) (by decide)
  have h4 := In.expect_head (m := 4) (by decide) h64
  have kv := In.key_text (t := keyV) (by decide)
  have ke := In.key_text (t := keyEntries) (by decide)
  rw [decode, ensure_ok hlen, except_ok_bind, henc]
  simp only [h5, kv, hvn, ke, h4, hes, except_ok_bind, ensure_ok]
  rw [ensure_ok hcount, except_ok_bind, ensure_ok henc]
  rfl

theorem decode_sound (h : decode b = .ok es) : Sized es ∧ encode es = .ok b := by
  obtain ⟨_, hlen, h⟩ := ok_of_bind h
  obtain ⟨⟨keys, i1⟩, _, h⟩ := ok_of_bind h
  obtain ⟨i2, _, h⟩ := ok_of_bind h
  obtain ⟨⟨v, i3⟩, _, h⟩ := ok_of_bind h
  obtain ⟨_, _, h⟩ := ok_of_bind h
  obtain ⟨_, _, h⟩ := ok_of_bind h
  obtain ⟨i4, _, h⟩ := ok_of_bind h
  obtain ⟨⟨count, i5⟩, _, h⟩ := ok_of_bind h
  obtain ⟨_, _, h⟩ := ok_of_bind h
  obtain ⟨⟨es', rest⟩, hread, h⟩ := ok_of_bind h
  obtain ⟨_, _, h⟩ := ok_of_bind h
  obtain ⟨_, hsame, h⟩ := ok_of_bind h
  cases h
  have hsame := ensure_eq_ok.mp hsame
  obtain ⟨hv, ha, hs⟩ := readEntries_sound hread
  refine ⟨hs, encode_eq_ok.mpr ⟨hv, sorted_of_ascending ha, ?_, hsame⟩⟩
  rw [hsame]
  exact ensure_eq_ok.mp hlen

theorem decode_iff : decode b = .ok es ↔ Sized es ∧ encode es = .ok b :=
  ⟨decode_sound, fun h => decode_encode h.1 h.2⟩

theorem decode_keys (h : decode b = .ok es) : ∃ rest, In.expect 5 b = .ok (2, rest) := by
  obtain ⟨-, -, -, rfl⟩ := encode_eq_ok.mp (decode_sound h).2
  simp only [encodeWith, append_assoc]
  exact ⟨_, In.expect_head (by decide) (by decide) _⟩

end Tree

namespace Journal

open Dag (Error)

/-- An entry as the source's types allow it: its numbers are `u64`s and its labels are labels. -/
def Entry.Typed (e : Entry) : Prop :=
  e.seq < 2 ^ 64 ∧ e.time.boot < 2 ^ 64 ∧ e.time.monotonic < 2 ^ 64 ∧ e.time.calendar < 2 ^ 64 ∧
    validLabel e.source ∧ validLabel e.kind

theorem clock_fromCode_code (c : Clock) : Clock.fromCode c.code = some c := by
  cases c <;> rfl

theorem clock_code_lt (c : Clock) : c.code < 2 ^ 64 := by
  cases c <;> decide

variable {t : Bytes}

theorem label_text (h : validLabel t) (rest : Bytes) : label (Sink.text t ++ rest) = .ok (t, rest) := by
  have hlen : t.length < 2 ^ 64 := by
    simp only [validLabel, Bool.and_eq_true, decide_eq_true_eq] at h
    have := h.1.2
    unfold labelMax at this
    omega
  simp only [label, Sink.text, append_assoc]
  rw [In.expect_head (by decide) hlen, except_ok_bind, In.take_append rfl]
  simp only [except_ok_bind, ensure_ok h]

theorem label_sound {i rest : Bytes} (h : label i = .ok (t, rest)) : validLabel t := by
  obtain ⟨⟨len, i1⟩, _, h⟩ := ok_of_bind h
  obtain ⟨⟨text, i2⟩, _, h⟩ := ok_of_bind h
  obtain ⟨_, hvalid, h⟩ := ok_of_bind h
  cases h
  exact ensure_eq_ok.mp hvalid

def keysOf (e : Entry) : Nat := if e.prev.isSome then 10 else 9

def prevBytes (e : Entry) : Bytes :=
  match e.prev with
  | some prev => Sink.text keyPrev ++ Sink.link prev
  | none => []

theorem prevLink_prevBytes (e : Entry) (rest : Bytes) :
    prevLink (keysOf e) (prevBytes e ++ rest) = .ok (e.prev, rest) := by
  have kp := In.key_text (t := keyPrev) (by decide)
  cases hp : e.prev with
  | none => simp [prevLink, keysOf, prevBytes, hp]
  | some prev =>
    simp only [prevLink, keysOf, prevBytes, hp, Option.isSome_some, if_true, append_assoc, kp,
      In.link_link, except_ok_bind]

theorem encodeWith_eq (e : Entry) : encodeWith e = Sink.head 5 (keysOf e) ++
    (Sink.text keyV ++ (Sink.head 0 version ++ (Sink.text keySeq ++ (Sink.head 0 e.seq ++
    (Sink.text keyBoot ++ (Sink.head 0 e.time.boot ++ (Sink.text keyKind ++ (Sink.text e.kind ++
    (prevBytes e ++ (Sink.text keyClock ++ (Sink.head 0 e.time.clock.code ++
    (Sink.text keySource ++ (Sink.text e.source ++ (Sink.text keyContent ++
    (Sink.link e.content ++ (Sink.text keyCalendar ++ (Sink.head 0 e.time.calendar ++
    (Sink.text keyMonotonic ++ Sink.head 0 e.time.monotonic)))))))))))))))))) := by
  unfold encodeWith keysOf prevBytes
  cases e.prev <;> simp only [append_assoc]

theorem keysOf_cases (e : Entry) : keysOf e = 9 ∨ keysOf e = 10 := by
  unfold keysOf
  split
  · exact Or.inr rfl
  · exact Or.inl rfl

theorem keysOf_lt (e : Entry) : keysOf e < 2 ^ 64 := by
  rcases keysOf_cases e with h | h <;> rw [h] <;> decide

variable {e : Entry} {b : Bytes}

theorem decode_encode (ht : e.Typed) (hv : e.valid) : decode (encodeWith e) = .ok e := by
  obtain ⟨hseq, hboot, hmono, hcal, hsource, hkind⟩ := ht
  have h5 := In.expect_head (m := 5) (by decide) (keysOf_lt e)
  have h0 := fun {v : Nat} (hv : v < 2 ^ 64) => In.expect_head (m := 0) (by decide) hv
  have hlast : In.expect 0 (Sink.head 0 e.time.monotonic) = .ok (e.time.monotonic, []) := by
    have h := h0 hmono []
    rwa [append_nil] at h
  have henc := encodeWith_eq e
  rw [decode, henc]
  refine bind_of_ok (h5 _) ?_
  refine bind_of_ok (In.key_text (by decide) _) ?_
  refine bind_of_ok (h0 (show version < 2 ^ 64 by decide) _) ?_
  refine bind_of_ok (ensure_ok rfl) ?_
  refine bind_of_ok (ensure_ok (keysOf_cases e)) ?_
  refine bind_of_ok (In.key_text (by decide) _) ?_
  refine bind_of_ok (h0 hseq _) ?_
  refine bind_of_ok (In.key_text (by decide) _) ?_
  refine bind_of_ok (h0 hboot _) ?_
  refine bind_of_ok (In.key_text (by decide) _) ?_
  refine bind_of_ok (label_text hkind _) ?_
  refine bind_of_ok (prevLink_prevBytes e _) ?_
  refine bind_of_ok (In.key_text (by decide) _) ?_
  refine bind_of_ok (h0 (clock_code_lt e.time.clock) _) ?_
  refine bind_of_ok (a := e.time.clock) (by rw [clock_fromCode_code]; rfl) ?_
  refine bind_of_ok (In.key_text (by decide) _) ?_
  refine bind_of_ok (label_text hsource _) ?_
  refine bind_of_ok (In.key_text (by decide) _) ?_
  refine bind_of_ok (In.link_link e.content _) ?_
  refine bind_of_ok (In.key_text (by decide) _) ?_
  refine bind_of_ok (h0 hcal _) ?_
  refine bind_of_ok (In.key_text (by decide) _) ?_
  refine bind_of_ok hlast ?_
  refine bind_of_ok (ensure_ok ⟨rfl, hv⟩) ?_
  refine bind_of_ok (ensure_ok henc) ?_
  rfl

theorem decode_sound (h : decode b = .ok e) : e.Typed ∧ e.valid ∧ encodeWith e = b := by
  obtain ⟨⟨keys, i1⟩, _, h⟩ := ok_of_bind h
  obtain ⟨i2, _, h⟩ := ok_of_bind h
  obtain ⟨⟨v, i3⟩, _, h⟩ := ok_of_bind h
  obtain ⟨_, _, h⟩ := ok_of_bind h
  obtain ⟨_, _, h⟩ := ok_of_bind h
  obtain ⟨i4, _, h⟩ := ok_of_bind h
  obtain ⟨⟨seq, i5⟩, hseq, h⟩ := ok_of_bind h
  obtain ⟨i6, _, h⟩ := ok_of_bind h
  obtain ⟨⟨boot, i7⟩, hboot, h⟩ := ok_of_bind h
  obtain ⟨i8, _, h⟩ := ok_of_bind h
  obtain ⟨⟨kind, i9⟩, hkind, h⟩ := ok_of_bind h
  obtain ⟨⟨prev, i10⟩, _, h⟩ := ok_of_bind h
  obtain ⟨i11, _, h⟩ := ok_of_bind h
  obtain ⟨⟨code, i12⟩, _, h⟩ := ok_of_bind h
  obtain ⟨clock, _, h⟩ := ok_of_bind h
  obtain ⟨i13, _, h⟩ := ok_of_bind h
  obtain ⟨⟨source, i14⟩, hsource, h⟩ := ok_of_bind h
  obtain ⟨i15, _, h⟩ := ok_of_bind h
  obtain ⟨⟨content, i16⟩, _, h⟩ := ok_of_bind h
  obtain ⟨i17, _, h⟩ := ok_of_bind h
  obtain ⟨⟨calendar, i18⟩, hcal, h⟩ := ok_of_bind h
  obtain ⟨i19, _, h⟩ := ok_of_bind h
  obtain ⟨⟨monotonic, i20⟩, hmono, h⟩ := ok_of_bind h
  obtain ⟨_, hvalid, h⟩ := ok_of_bind h
  obtain ⟨_, hsame, h⟩ := ok_of_bind h
  cases h
  exact ⟨⟨In.expect_lt hseq, In.expect_lt hboot, In.expect_lt hmono, In.expect_lt hcal,
    label_sound hsource, label_sound hkind⟩, (ensure_eq_ok.mp hvalid).2, ensure_eq_ok.mp hsame⟩

theorem encode_eq_ok : e.encode = .ok b ↔ e.valid ∧ encodeWith e = b := by
  unfold Entry.encode
  constructor
  · intro h
    obtain ⟨_, hvalid, h⟩ := ok_of_bind h
    exact ⟨ensure_eq_ok.mp hvalid, Except.ok.inj h⟩
  · rintro ⟨hv, h⟩
    rw [ensure_ok hv, except_ok_bind, h]

theorem decode_iff : decode b = .ok e ↔ e.Typed ∧ e.encode = .ok b := by
  rw [encode_eq_ok]
  constructor
  · exact decode_sound
  · rintro ⟨ht, hv, rfl⟩
    exact decode_encode ht hv

theorem decode_keys (h : decode b = .ok e) : ∃ rest, In.expect 5 b = .ok (keysOf e, rest) := by
  obtain ⟨-, -, rfl⟩ := decode_sound h
  rw [encodeWith_eq]
  exact ⟨_, In.expect_head (by decide) (keysOf_lt e) _⟩

end Journal

/-- A block has one number of keys. -/
theorem keys_unique {b : Bytes} {j k : Nat} (hj : ∃ rest, In.expect 5 b = .ok (j, rest))
    (hk : ∃ rest, In.expect 5 b = .ok (k, rest)) : j = k := by
  obtain ⟨_, hj⟩ := hj
  obtain ⟨_, hk⟩ := hk
  rw [hj] at hk
  cases hk
  rfl

/-- Each decoder accepts a block exactly when it is the encoding of a valid value, which is the one
it gives; no two values of a kind have one encoding, and no block is of two kinds. -/
theorem nodes_have_one_encoding : (∀ b : Bytes, b.length ≤ Dag.chunk →
      (∀ n, Dag.decode b = .ok n ↔ n.Valid ∧ Dag.encode n.size n.links = b) ∧
      (∀ es, Tree.decode b = .ok es ↔ Tree.Sized es ∧ Tree.encode es = .ok b) ∧
      (∀ e, Journal.decode b = .ok e ↔ e.Typed ∧ e.encode = .ok b) ∧
      ¬((Dag.decode b).isOk ∧ (Tree.decode b).isOk) ∧
      ¬((Dag.decode b).isOk ∧ (Journal.decode b).isOk) ∧
      ¬((Tree.decode b).isOk ∧ (Journal.decode b).isOk)) ∧
    (∀ m n : Dag.Node, m.Valid → n.Valid → Dag.encode m.size m.links = Dag.encode n.size n.links → m = n) ∧
    (∀ (ds es : List Tree.Entry) (b : Bytes), Tree.Sized ds → Tree.Sized es →
      Tree.encode ds = .ok b → Tree.encode es = .ok b → ds = es) ∧
    (∀ (d e : Journal.Entry) (b : Bytes), d.Typed → e.Typed →
      d.encode = .ok b → e.encode = .ok b → d = e) := by
  have accepted : ∀ {α : Type} {x : Except Dag.Error α}, x.isOk → ∃ a, x = .ok a := by
    intro α x h
    cases x with
    | ok a => exact ⟨a, rfl⟩
    | error e => cases h
  refine ⟨fun b _ => ⟨fun _ => Dag.decode_iff, fun _ => Tree.decode_iff, fun _ => Journal.decode_iff,
    ?_, ?_, ?_⟩, ?_, ?_, ?_⟩
  · rintro ⟨hd, ht⟩
    obtain ⟨n, hd⟩ := accepted hd
    obtain ⟨es, ht⟩ := accepted ht
    exact absurd (keys_unique (Dag.decode_keys hd) (Tree.decode_keys ht)) (by decide)
  · rintro ⟨hd, hj⟩
    obtain ⟨n, hd⟩ := accepted hd
    obtain ⟨e, hj⟩ := accepted hj
    have hk := keys_unique (Dag.decode_keys hd) (Journal.decode_keys hj)
    rcases Journal.keysOf_cases e with h | h <;> omega
  · rintro ⟨ht, hj⟩
    obtain ⟨es, ht⟩ := accepted ht
    obtain ⟨e, hj⟩ := accepted hj
    have hk := keys_unique (Tree.decode_keys ht) (Journal.decode_keys hj)
    rcases Journal.keysOf_cases e with h | h <;> omega
  · intro m n hm hn h
    have h1 := Dag.decode_iff.mpr ⟨hm, rfl⟩
    have h2 := Dag.decode_iff.mpr ⟨hn, rfl⟩
    rw [h, h2] at h1
    exact (Except.ok.inj h1).symm
  · intro ds es b hd he h1 h2
    have h1 := Tree.decode_encode hd h1
    have h2 := Tree.decode_encode he h2
    rw [h1] at h2
    exact Except.ok.inj h2
  · intro d e b hd he h1 h2
    have h1 := Journal.decode_iff.mpr ⟨hd, h1⟩
    have h2 := Journal.decode_iff.mpr ⟨he, h2⟩
    rw [h1] at h2
    exact Except.ok.inj h2

/-- The empty directory is a directory and nothing else. -/
theorem empty_has_one_encoding :
    Tree.decode Tree.empty = .ok [] ∧ ¬((Tree.decode Tree.empty).isOk ∧ (Journal.decode Tree.empty).isOk) := by
  have h := nodes_have_one_encoding.1 Tree.empty (by decide)
  have henc : Tree.encode [] = .ok Tree.empty := by decide
  exact ⟨(h.2.1 []).mpr ⟨by simp [Tree.Sized], henc⟩, h.2.2.2.2.2⟩

end MindCore
