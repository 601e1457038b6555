import MindCore.Libmind.ReleaseCodec

/-!
# A channel file is read back

`parse_channel` gives back the channel whose encoding the file is, exactly when the channel's fields
have their form.
-/

namespace MindCore.Release

open List

/-! ### The cursor -/

namespace Scan

variable {α β : Type} {a : α} {rest text : Bytes} {f : α → Scan β} {x : Scan α} {p : Bool} {o : Option α}

theorem bind_eq (h : x text = some (a, rest)) : (x >>= f) text = f a rest := by
  change (x text).bind (fun p => f p.1 p.2) = _
  rw [h]
  rfl

theorem bind_some {b : β} (h : (x >>= f) text = some (b, rest)) :
    ∃ a mid, x text = some (a, mid) ∧ f a mid = some (b, rest) := by
  obtain ⟨⟨a, mid⟩, hx, hf⟩ := Option.bind_eq_some_iff.mp h
  exact ⟨a, mid, hx, hf⟩

theorem literal_append (s rest : Bytes) : literal s (s ++ rest) = some ((), rest) := by
  rw [literal, if_pos (List.isPrefixOf_iff_prefix.mpr (prefix_append _ _)), drop_left]

theorem check_true (h : p = true) (text : Bytes) : check p text = some ((), text) := if_pos h

theorem check_some {u : Unit} (h : check p text = some (u, rest)) : p = true := by
  unfold check at h
  split at h
  · assumption
  · cases h

theorem ofOption_some (h : o = some a) (text : Bytes) : ofOption o text = some (a, text) := by
  rw [ofOption, h, Option.map_some]

theorem of_ofOption (h : ofOption o text = some (a, rest)) : o = some a := by
  obtain ⟨b, hb, he⟩ := Option.map_eq_some_iff.mp h
  cases he
  exact hb

theorem upTo_append {stop : UInt8} {w : Bytes} (h : stop ∉ w) (hr : rest.head? = some stop) :
    upTo stop (w ++ rest) = some (w, rest) := by
  obtain ⟨tail, rfl⟩ : ∃ tail, rest = stop :: tail := head?_eq_some_iff.mp hr
  have hw : ∀ b ∈ w, (decide (b ≠ stop)) = true := by
    intro b hb
    exact decide_eq_true fun he => h (he ▸ hb)
  rw [upTo, if_pos (by simp), takeWhile_append_of_pos hw, dropWhile_append_of_pos hw]
  simp

theorem digits_append (n : UInt64) {c : UInt8} (hr : rest.head? = some c)
    (hc : digit c = false) : digits (decimalOf n.toNat ++ rest) = some (n, rest) := by
  obtain ⟨tail, rfl⟩ : ∃ tail, rest = c :: tail := head?_eq_some_iff.mp hr
  have hd : ∀ b ∈ decimalOf n.toNat, digit b = true := all_eq_true.mp (decimalOf_all _)
  have hs : ¬ digit c = true := by rw [hc]; simp
  rw [digits, takeWhile_append_of_pos hd, dropWhile_append_of_pos hd,
    takeWhile_cons_of_neg hs, dropWhile_cons_of_neg hs, append_nil, decimal_decimalOf,
    Option.map_some]

theorem passes_append (s rest : Bytes) : passes s (s ++ rest) = some (true, rest) := by
  rw [passes, if_pos (List.isPrefixOf_iff_prefix.mpr (prefix_append _ _)), drop_left]

end Scan

open Scan

/-! ### Names -/

def wordForm (bytes : Bytes) : Bool := bytes ≠ [] && bytes.all wordByte

variable {n : Nat} {t : Fixed 20} {file : Bytes} {s : Signed}

theorem word_append (t : Text n) (h : wordForm t.bytes = true) (rest : Bytes) :
    word n ([quote] ++ (t.bytes ++ ([quote] ++ rest))) = some (t, rest) := by
  have hw : t.bytes.all wordByte = true := (Bool.and_eq_true _ _ ▸ h).2
  unfold wordForm at h
  rw [word, bind_eq (literal_append _ _), bind_eq (upTo_append (not_mem_of_all hw (by decide)) rfl),
    bind_eq (literal_append [quote] rest), bind_eq (check_true h rest)]
  exact ofOption_some t.new_bytes rest

variable {text rest : Bytes}

theorem word_form {t : Text n} (h : word n text = some (t, rest)) : wordForm t.bytes = true := by
  obtain ⟨_, t1, -, h⟩ := bind_some h
  obtain ⟨w, t2, -, h⟩ := bind_some h
  obtain ⟨_, t3, -, h⟩ := bind_some h
  obtain ⟨_, t4, hc, h⟩ := bind_some h
  have hw := of_ofOption h
  have hbytes : t.bytes = w := by
    rw [Text.new] at hw
    split at hw
    · cases hw; rfl
    · cases hw
  rw [hbytes]
  exact check_some hc

/-! ### The architectures -/

/-- Each architecture is a word and comes after the one before it. -/
def ArchForm : Option Bytes → List (Text archMax × Fixed 32) → Prop
  | _, [] => True
  | last, m :: rest => wordForm m.1.bytes = true ∧ (last.all fun l => l < m.1.bytes) = true ∧
      ArchForm (some m.1.bytes) rest

/-- What stands between the name and the comma or brace after it. -/
def refBytes (m : Text archMax × Fixed 32) : Bytes :=
  [quote] ++ (m.1.bytes ++ ([quote] ++ (ascii ":\"" ++ (hexOf m.2.1 ++ [quote]))))

theorem manifestRef_append (before : List (Text archMax × Fixed 32)) (m : Text archMax × Fixed 32)
    (hw : wordForm m.1.bytes = true)
    (hl : (before.getLast?.all fun last => last.1.bytes < m.1.bytes) = true) (rest : Bytes) :
    manifestRef before (refBytes m ++ rest) = some (m, rest) := by
  have hq : quote ∉ hexOf m.2.1 := not_mem_of_all (hexOf_word _) (by decide)
  simp only [refBytes, append_assoc]
  rw [manifestRef, bind_eq (word_append m.1 hw _), bind_eq (check_true hl _),
    bind_eq (literal_append _ _), bind_eq (upTo_append hq rfl),
    bind_eq (ofOption_some (hex_hexOf m.2) _), bind_eq (literal_append [quote] rest)]
  rfl

theorem manifestRef_form {before : List (Text archMax × Fixed 32)} {m : Text archMax × Fixed 32} (h : manifestRef before text = some (m, rest)) :
    wordForm m.1.bytes = true ∧ (before.getLast?.all fun last => last.1.bytes < m.1.bytes) = true := by
  obtain ⟨arch, t1, hw, h⟩ := bind_some h
  obtain ⟨_, t2, hc, h⟩ := bind_some h
  obtain ⟨_, t3, -, h⟩ := bind_some h
  obtain ⟨w, t4, -, h⟩ := bind_some h
  obtain ⟨digest, t5, -, h⟩ := bind_some h
  obtain ⟨_, t6, -, h⟩ := bind_some h
  cases h
  exact ⟨word_form hw, check_some hc⟩

theorem getLast_all (before : List (Text archMax × Fixed 32)) (bytes : Bytes) :
    ((before.getLast?.map fun m => m.1.bytes).all fun l => l < bytes) =
      before.getLast?.all fun last => last.1.bytes < bytes := by
  cases before.getLast? <;> rfl

theorem manifestParts_cons (m m' : Text archMax × Fixed 32) (rest : List (Text archMax × Fixed 32)) :
    (manifestParts (m :: m' :: rest)).flatten =
      refBytes m ++ (ascii "," ++ (manifestParts (m' :: rest)).flatten) := by
  simp only [manifestParts, refBytes, flatten_append, flatten_cons, flatten_nil,
    append_assoc, append_nil]
  rfl

theorem manifestRefs_append (k : Nat) (ms : List (Text archMax × Fixed 32))
    (before : List (Text archMax × Fixed 32)) (hne : ms ≠ []) (hk : ms.length ≤ k)
    (hf : ArchForm (before.getLast?.map fun m => m.1.bytes) ms) (rest : Bytes) :
    manifestRefs k before ((manifestParts ms).flatten ++ (ascii "\x7d" ++ rest)) =
      some (before ++ ms, rest) := by
  induction ms generalizing k before with
  | nil => exact absurd rfl hne
  | cons m tail ih =>
    obtain ⟨hw, hl, hf⟩ := hf
    rw [getLast_all] at hl
    cases k with
    | zero => exact absurd hk (by simp)
    | succ k =>
      rw [manifestRefs]
      cases tail with
      | nil =>
        have hparts : (manifestParts [m]).flatten = refBytes m := by
          rfl
        rw [hparts, bind_eq (manifestRef_append before m hw hl _), bind_eq (passes_append _ _)]
        rfl
      | cons m' tail =>
        have hcomma : ∀ after : Bytes, passes (ascii "\x7d") (ascii "," ++ after) =
            some (false, ascii "," ++ after) := fun _ => rfl
        rw [manifestParts_cons]
        simp only [append_assoc]
        rw [bind_eq (manifestRef_append before m hw hl _), bind_eq (hcomma _)]
        simp only [Bool.false_eq_true, if_false]
        rw [bind_eq (literal_append _ _), ih k (before ++ [m]) (cons_ne_nil _ _) (by
          simp only [length_cons] at hk ⊢
          omega) (by simpa using hf)]
        simp

theorem manifestRefs_form (k : Nat) (before : List (Text archMax × Fixed 32))
    {all : List (Text archMax × Fixed 32)} (h : manifestRefs k before text = some (all, rest)) :
    ∃ ms, all = before ++ ms ∧ ms ≠ [] ∧ ms.length ≤ k ∧
      ArchForm (before.getLast?.map fun m => m.1.bytes) ms := by
  induction k generalizing before text with
  | zero => cases h
  | succ k ih =>
    obtain ⟨m, t1, hm, h⟩ := bind_some h
    obtain ⟨last, t2, -, h⟩ := bind_some h
    obtain ⟨hw, hl⟩ := manifestRef_form hm
    rw [← getLast_all] at hl
    cases last with
    | true =>
      cases h
      exact ⟨[m], rfl, cons_ne_nil _ _, by simp, hw, hl, trivial⟩
    | false =>
      obtain ⟨_, t3, -, h⟩ := bind_some h
      obtain ⟨ms, rfl, -, hlen, hf⟩ := ih _ h
      refine ⟨m :: ms, by simp, cons_ne_nil _ _, by simpa using hlen, hw, hl, ?_⟩
      simpa using hf

/-! ### The file -/

structure ChannelForm (c : Channel) : Prop where
  name : wordForm c.name.bytes = true
  expires : timestamp c.expires.1 = some c.expires
  named : c.manifests ≠ []
  few : c.manifests.length ≤ arches
  ordered : ArchForm none c.manifests
  least : 1 ≤ c.minimum
  most : c.minimum ≤ c.version

theorem timestamp_some {text : Bytes} (h : timestamp text = some t) : text = t.1 ∧
    (∀ i b, text[i]? = some b → if i = 4 ∨ i = 7 then b = 0x2d else if i = 10 then b = 0x54
      else if i = 13 ∨ i = 16 then b = 0x3a else if i = 19 then b = 0x5a else digit b = true) ∧
    ∃ days, daysOf (fieldOf 0 4 t.1) (fieldOf 5 7 t.1) = some days ∧ 1 ≤ fieldOf 8 10 t.1 ∧ fieldOf 8 10 t.1 ≤ days ∧
      fieldOf 11 13 t.1 < 24 ∧ fieldOf 14 16 t.1 < 60 ∧ fieldOf 17 19 t.1 < 60 := by
  obtain ⟨t', ht, h⟩ := Option.bind_eq_some_iff.mp h
  rw [fixed] at ht
  dsimp only at h
  split_ifs at ht
  cases ht
  split at h
  · rename_i hshape
    obtain ⟨days, hdays, h⟩ := Option.bind_eq_some_iff.mp h
    split at h
    · cases h
      refine ⟨rfl, ?_, days, hdays, ‹_›⟩
      intro i b hb
      have := all_eq_true.mp hshape (b, i) (mem_zipIdx_iff_getElem?.mpr hb)
      simpa only [apply_ite (· = true), beq_iff_eq] using this
    · cases h
  · cases h

variable {c : Channel}

theorem channelLine_form (h : channelLine text = some (c, rest)) : ChannelForm c := by
  obtain ⟨_, t1, -, h⟩ := bind_some h
  obtain ⟨name, t2, hname, h⟩ := bind_some h
  obtain ⟨_, t3, -, h⟩ := bind_some h
  obtain ⟨w, t4, -, h⟩ := bind_some h
  obtain ⟨expires, t5, hexp, h⟩ := bind_some h
  obtain ⟨_, t6, -, h⟩ := bind_some h
  obtain ⟨ms, t7, hms, h⟩ := bind_some h
  obtain ⟨_, t8, -, h⟩ := bind_some h
  obtain ⟨minimum, t9, -, h⟩ := bind_some h
  obtain ⟨_, t10, -, h⟩ := bind_some h
  obtain ⟨version, t11, -, h⟩ := bind_some h
  obtain ⟨_, t12, -, h⟩ := bind_some h
  obtain ⟨left, t13, -, h⟩ := bind_some h
  obtain ⟨_, t14, hc, h⟩ := bind_some h
  cases h
  obtain ⟨ms', rfl, hne, hlen, hf⟩ := manifestRefs_form arches [] hms
  have hexp := of_ofOption hexp
  have hc := check_some hc
  simp only [Bool.and_eq_true, decide_eq_true_eq] at hc
  exact ⟨word_form hname, (timestamp_some hexp).1 ▸ hexp, hne, hlen, hf, hc.1.2, hc.2⟩

/-- A timestamp holds digits, `-`, `T`, `:` and `Z`. -/
theorem not_mem_timestamp {text : Bytes} {x : UInt8} (h : timestamp text = some t)
    (hx : x ≠ 0x2d ∧ x ≠ 0x54 ∧ x ≠ 0x3a ∧ x ≠ 0x5a ∧ digit x = false) : x ∉ text := by
  intro hmem
  obtain ⟨i, hi⟩ := mem_iff_getElem?.mp hmem
  have hbad := (timestamp_some h).2.1 i x hi
  obtain ⟨h1, h2, h3, h4, h5⟩ := hx
  simp only [h1, h2, h3, h4, h5, Bool.false_eq_true, ite_self] at hbad

theorem channelLine_read (h : ChannelForm c) : channelLine (channelParts c).flatten = some (c, []) := by
  have hq : quote ∉ c.expires.1 := not_mem_timestamp h.expires (by decide)
  have htake : c.manifests.take arches = c.manifests := take_of_length_le h.few
  have hbytes : (channelParts c).flatten = ascii "\x7b\"channel\":" ++ ([quote] ++ (c.name.bytes ++
      ([quote] ++ (ascii ",\"expires\":\"" ++ (c.expires.1 ++ (ascii "\",\"manifests\":\x7b" ++
        ((manifestParts c.manifests).flatten ++ (ascii "\x7d" ++ (ascii ",\"minimum\":" ++
          (decimalOf c.minimum.toNat ++ (ascii ",\"version\":" ++
            (decimalOf c.version.toNat ++ (ascii "\x7d\n" ++ [])))))))))))))  := by
    simp only [channelParts, htake, flatten_append, flatten_cons, flatten_nil,
      append_assoc, append_nil]
    rfl
  have hrefs := manifestRefs_append arches c.manifests [] h.named h.few h.ordered
  have hlast : (decide (([] : Bytes) = []) && decide (1 ≤ c.minimum) && decide (c.minimum ≤ c.version)) =
      true := by simp [h.least, h.most]
  rw [hbytes, channelLine, bind_eq (literal_append _ _), bind_eq (word_append c.name h.name _),
    bind_eq (literal_append _ _), bind_eq (upTo_append hq rfl), bind_eq (ofOption_some h.expires _),
    bind_eq (literal_append _ _), bind_eq (hrefs _), bind_eq (literal_append _ _),
    bind_eq (digits_append c.minimum rfl (by decide)), bind_eq (literal_append _ _),
    bind_eq (digits_append c.version rfl (by decide)), bind_eq (literal_append _ _)]
  have hget : (get : Scan Bytes) [] = some ([], []) := rfl
  rw [bind_eq hget, bind_eq (check_true hlast _)]
  rfl

theorem newline_not_mem_refs (ms : List (Text archMax × Fixed 32)) :
    newline ∉ (manifestParts ms).flatten := by
  induction ms with
  | nil => exact not_mem_nil
  | cons m rest ih =>
    have hname : newline ∉ m.1.bytes := not_mem_of_all m.1.valid.2 (by decide)
    have hhex : newline ∉ hexOf m.2.1 := not_mem_of_all (hexOf_word _) (by decide)
    have hq : newline ∉ [quote] := by decide
    have hc : newline ∉ ascii ":\"" := by decide
    have href : newline ∉ refBytes m := by
      simp only [refBytes, mem_append, not_or]
      exact ⟨hq, hname, hq, hc, hhex, hq⟩
    cases rest with
    | nil =>
      have hparts : (manifestParts [m]).flatten = refBytes m := by
        rfl
      exact href
    | cons m' rest =>
      have hcomma : newline ∉ ascii "," := by decide
      rw [manifestParts_cons, mem_append, mem_append, not_or, not_or]
      exact ⟨href, hcomma, ih⟩

theorem channel_line (h : ChannelForm c) :
    ∃ line, (channelParts c).flatten = line ++ [newline] ∧ newline ∉ line := by
  refine ⟨ascii "\x7b\"channel\":\"" ++ (c.name.bytes ++ (ascii "\",\"expires\":\"" ++ (c.expires.1 ++
    (ascii "\",\"manifests\":\x7b" ++ ((manifestParts (c.manifests.take arches)).flatten ++
      (ascii "\x7d,\"minimum\":" ++ (decimalOf c.minimum.toNat ++ (ascii ",\"version\":" ++
        (decimalOf c.version.toNat ++ ascii "\x7d"))))))))), ?_, ?_⟩
  · simp only [channelParts, flatten_append, flatten_cons, flatten_nil,
      append_assoc, append_nil]
    rfl
  · have hname : newline ∉ c.name.bytes := not_mem_of_all c.name.valid.2 (by decide)
    have hexp : newline ∉ c.expires.1 := not_mem_timestamp h.expires (by decide)
    have hmin : newline ∉ decimalOf c.minimum.toNat := not_mem_of_all (decimalOf_all _) (by decide)
    have hver : newline ∉ decimalOf c.version.toNat := not_mem_of_all (decimalOf_all _) (by decide)
    simp only [mem_append, not_or]
    exact ⟨by decide, hname, by decide, hexp, by decide, newline_not_mem_refs _, by decide, hmin,
      by decide, hver, by decide⟩

theorem channelIs_iff (h : channelIs file c s = true) : s.body = (channelParts c).flatten.length ∧
      file = (channelParts c).flatten ++ (ascii "ed25519 " ++ (hexOf s.signature.1 ++ [newline])) := by
  unfold channelIs at h
  split at h
  · rename_i line tail hline htail
    simp only [Bool.and_eq_true, beq_iff_eq] at h
    obtain ⟨⟨⟨hbody, -⟩, htake⟩, hdrop⟩ := h
    have hl := putAll_some hline
    have ht := putAll_some htail
    refine ⟨hl ▸ hbody.symm, ?_⟩
    rw [← take_append_drop line.length file, htake, hdrop, hl, ht]
    simp
  · cases h

theorem signatureLine_read (s : Fixed 64) :
    signatureLine (ascii "ed25519 " ++ (hexOf s.1 ++ [newline])) = some s := by
  have hp : (ascii "ed25519 ").isPrefixOf (ascii "ed25519 " ++ (hexOf s.1 ++ [newline])) = true :=
    isPrefixOf_iff_prefix.mpr (prefix_append _ _)
  rw [signatureLine]
  simp only [drop_left, hp, getLast?_append, getLast?_singleton, Option.some_or, and_self,
    if_true, dropLast_concat]
  exact hex_hexOf s

/-- A file that is a channel's and a signature's encoding is read as them exactly when the channel's
fields have their form. -/
theorem parseChannel_iff (h : channelIs file c s = true) :
    parseChannel file = some (c, s) ↔ ChannelForm c := by
  obtain ⟨hbody, hfile⟩ := channelIs_iff h
  constructor
  · intro hp
    unfold parseChannel at hp
    split at hp
    · obtain ⟨sig, -, hp⟩ := Option.bind_eq_some_iff.mp hp
      obtain ⟨⟨c', rest⟩, hline, hp⟩ := Option.bind_eq_some_iff.mp hp
      cases hp
      exact channelLine_form hline
    · cases hp
  · intro hf
    obtain ⟨line, hparts, hno⟩ := channel_line hf
    have hnl : ∀ b ∈ line, decide (b ≠ newline) = true := by
      intro b hb
      exact decide_eq_true fun he => hno (he ▸ hb)
    have hwhile : (file.takeWhile (· ≠ newline)).length + 1 = (channelParts c).flatten.length := by
      rw [hfile, hparts, append_assoc, takeWhile_append_of_pos hnl]
      simp
    rw [parseChannel, if_pos (by rw [hfile, hparts]; simp)]
    simp only [hwhile]
    rw [hfile, drop_left, take_left, signatureLine_read, channelLine_read hf, ← hbody]
    rfl

end MindCore.Release
