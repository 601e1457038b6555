import MindCore.Libmind.Release

/-!
# One encoding

What is encoded is read back: decimals, hex digits, a file line and a channel's line. So a text that
the encoding makes is accepted exactly when the values in it have the form the reader asks for.
-/

namespace MindCore.Release

open List

/-! ### Digits -/

theorem forall_byte {P : UInt8 → Prop} (h : ∀ n < 256, P (UInt8.ofNat n)) (b : UInt8) : P b := by
  have hb := h b.toNat b.toNat_lt
  rwa [UInt8.ofNat_toNat] at hb

theorem hexDigits (b : UInt8) : hexValue (hexDigit (b >>> 4)) = some (b >>> 4) ∧
    hexValue (hexDigit (b &&& 15)) = some (b &&& 15) ∧ (b >>> 4) <<< 4 ||| (b &&& 15) = b ∧
    wordByte (hexDigit (b >>> 4)) = true ∧ wordByte (hexDigit (b &&& 15)) = true := by
  revert b
  exact forall_byte (by decide +kernel)

theorem hexPairs_hexOf (bytes : Bytes) : hexPairs (hexOf bytes) = some bytes := by
  induction bytes with
  | nil => rfl
  | cons b rest ih =>
    have hcons : hexOf (b :: rest) = hexDigit (b >>> 4) :: hexDigit (b &&& 15) :: hexOf rest := rfl
    obtain ⟨hhigh, hlow, hboth, -⟩ := hexDigits b
    rw [hcons, hexPairs, hhigh, hlow, ih]
    simp only [Option.bind_eq_bind, Option.bind_some, hboth]

theorem length_hexOf (bytes : Bytes) : (hexOf bytes).length = 2 * bytes.length := by
  induction bytes with
  | nil => rfl
  | cons b rest ih =>
    have hcons : hexOf (b :: rest) = hexDigit (b >>> 4) :: hexDigit (b &&& 15) :: hexOf rest := rfl
    rw [hcons, length_cons, length_cons, ih, length_cons]
    omega

variable {n : Nat} {text : Bytes} {x : UInt8}

theorem hex_hexOf (bytes : Fixed n) : hex n (hexOf bytes.1) = some bytes := by
  have hlen : (hexOf bytes.1).length = 2 * n := by rw [length_hexOf, bytes.2]
  rw [hex, if_neg (not_not.mpr hlen), hexPairs_hexOf, Option.bind_some, fixed, dif_pos bytes.2]

theorem hexOf_word (bytes : Bytes) : (hexOf bytes).all wordByte = true := by
  rw [hexOf, all_flatMap, all_eq_true]
  intro b _
  simp [(hexDigits b).2.2.2]

theorem digit_ofNat : ∀ d < 10,
    digit (UInt8.ofNat (0x30 + d)) = true ∧ (UInt8.ofNat (0x30 + d)).toNat - 0x30 = d := by
  decide

def value (n : Nat) (text : Bytes) : Nat := text.foldl (fun n d => n * 10 + (d.toNat - 0x30)) n

theorem value_cons (n : Nat) (d : UInt8) (rest : Bytes) :
    value n (d :: rest) = value (n * 10 + (d.toNat - 0x30)) rest := by
  rw [value, foldl_cons, value]

theorem le_value (n : Nat) (text : Bytes) : n ≤ value n text := by
  induction text generalizing n with
  | nil => exact Nat.le_refl n
  | cons d rest ih =>
    have h := ih (n * 10 + (d.toNat - 0x30))
    rw [value_cons]
    omega

theorem foldlM_decimalStep (h : value n text < 2 ^ 64) : text.foldlM decimalStep n = some (value n text) := by
  induction text generalizing n with
  | nil => rfl
  | cons d rest ih =>
    have hle := le_value (n * 10 + (d.toNat - 0x30)) rest
    rw [value_cons] at h ⊢
    rw [foldlM_cons, decimalStep, if_neg (by omega), if_neg (by omega)]
    exact ih h

theorem value_digitsOf (k n : Nat) (after : Bytes) (h : n < 10 ^ (k + 1)) :
    value 0 (digitsOf (k + 1) n after) = value n after := by
  induction k generalizing n after with
  | zero =>
    have hn : n / 10 = 0 := by omega
    have hmod : n % 10 = n := by omega
    have hd := (digit_ofNat (n % 10) (by omega)).2
    rw [hmod] at hd
    simp only [digitsOf, hn, if_true, value, foldl_cons, Nat.zero_mul, Nat.zero_add, hmod, hd]
  | succ k ih =>
    have hd := (digit_ofNat (n % 10) (by omega)).2
    have hstep : value (n / 10) (UInt8.ofNat (0x30 + n % 10) :: after) = value n after := by
      have hn : n / 10 * 10 + n % 10 = n := by omega
      simp only [value, foldl_cons, hd, hn]
    rw [digitsOf]
    split
    · rename_i hz
      rw [← hstep, hz]
    · rw [ih (n / 10) _ (by rw [Nat.pow_succ] at h; omega), hstep]

theorem digitsOf_all (k n : Nat) {after : Bytes} (h : after.all digit = true) :
    (digitsOf k n after).all digit = true := by
  induction k generalizing n after with
  | zero => exact h
  | succ k ih =>
    have hd := (digit_ofNat (n % 10) (by omega)).1
    have hall : (UInt8.ofNat (0x30 + n % 10) :: after).all digit = true := by
      rw [all_cons, hd, h, Bool.and_self]
    rw [digitsOf]
    split
    · exact hall
    · exact ih (n / 10) hall

theorem length_digitsOf (k n : Nat) (after : Bytes) : (digitsOf k n after).length ≤ k + after.length := by
  induction k generalizing n after with
  | zero => exact Nat.le_add_left _ _
  | succ k ih =>
    rw [digitsOf]
    split
    · simp only [length_cons]
      omega
    · have h := ih (n / 10) (UInt8.ofNat (0x30 + n % 10) :: after)
      rw [length_cons] at h
      omega

theorem head_digitsOf (k n : Nat) (after : Bytes) (h : n < 10 ^ (k + 1)) (h0 : 0 < n) :
    (digitsOf (k + 1) n after).head? ≠ some 0x30 := by
  induction k generalizing n after with
  | zero =>
    have hn : n / 10 = 0 := by omega
    have hd : ∀ d < 10, 0 < d → some (UInt8.ofNat (0x30 + d)) ≠ some 0x30 := by decide
    rw [digitsOf, if_pos hn]
    exact hd (n % 10) (by omega) (by omega)
  | succ k ih =>
    rw [digitsOf]
    split
    · have hd : ∀ d < 10, 0 < d → some (UInt8.ofNat (0x30 + d)) ≠ some 0x30 := by decide
      exact hd (n % 10) (by omega) (by omega)
    · exact ih (n / 10) _ (by rw [Nat.pow_succ] at h; omega) (by omega)

theorem decimalOf_all (n : Nat) : (decimalOf n).all digit = true := digitsOf_all 20 n rfl

theorem decimalOf_ne_nil (n : Nat) : decimalOf n ≠ [] := by
  have hne : ∀ (k n : Nat) (after : Bytes), after ≠ [] → digitsOf k n after ≠ [] := by
    intro k
    induction k with
    | zero => exact fun _ _ h => h
    | succ k ih =>
      intro n after h
      rw [digitsOf]
      split
      · exact cons_ne_nil _ _
      · exact ih _ _ (cons_ne_nil _ _)
  rw [decimalOf, digitsOf]
  split
  · exact cons_ne_nil _ _
  · exact hne 19 _ _ (cons_ne_nil _ _)

theorem decimal_decimalOf (n : UInt64) : decimal (decimalOf n.toNat) = some n := by
  have hlt : n.toNat < 2 ^ 64 := n.toNat_lt
  have hval : value 0 (decimalOf n.toNat) = n.toNat := value_digitsOf 19 n.toNat [] (by omega)
  have hlen : (decimalOf n.toNat).length ≤ 20 := length_digitsOf 20 n.toNat []
  have hlead : ¬ (1 < (decimalOf n.toNat).length ∧ (decimalOf n.toNat).head? = some 0x30) := by
    rintro ⟨hl, hh⟩
    rcases Nat.eq_zero_or_pos n.toNat with h0 | h0
    · rw [h0] at hl
      exact absurd hl (by decide)
    · exact head_digitsOf 19 n.toNat [] (by omega) h0 hh
  rw [decimal, if_neg, foldlM_decimalStep (by rw [hval]; exact hlt), hval, Option.map_some,
    UInt64.ofNat_toNat]
  rintro (h | h | h | h)
  · exact decimalOf_ne_nil _ h
  · omega
  · exact hlead h
  · rw [decimalOf_all] at h
    cases h

/-! ### Buffers -/

theorem foldlM_put (room : Nat) (parts : List Bytes) (out : Bytes) (h : out.length ≤ room) :
    parts.foldlM (put room) out =
      if (out ++ parts.flatten).length ≤ room then some (out ++ parts.flatten) else none := by
  induction parts generalizing out with
  | nil => simp [h]
  | cons p rest ih =>
    rw [foldlM_cons, put]
    by_cases hp : (out ++ p).length ≤ room
    · rw [if_pos hp]
      simp only [Option.bind_eq_bind, Option.bind_some, ih _ hp, flatten_cons, append_assoc]
    · rw [if_neg hp, if_neg]
      · rfl
      · rw [length_append] at hp
        simp only [flatten_cons, length_append]
        omega

theorem putAll_eq (room : Nat) (parts : List Bytes) :
    putAll room parts = if parts.flatten.length ≤ room then some parts.flatten else none := by
  rw [putAll, foldlM_put room parts [] (Nat.zero_le _), nil_append]

theorem putAll_some {room : Nat} {parts : List Bytes} {out : Bytes} (h : putAll room parts = some out) :
    out = parts.flatten := by
  rw [putAll_eq] at h
  split at h
  · exact (Option.some.inj h).symm
  · cases h

/-! ### A file line -/

theorem not_of_mem_splitOnP {α : Type} {p : α → Bool} {xs part : List α} (h : part ∈ xs.splitOnP p) :
    ∀ a ∈ part, p a = false := by
  induction xs generalizing part with
  | nil =>
    rw [splitOnP_nil, mem_singleton] at h
    simp [h]
  | cons a rest ih =>
    rw [splitOnP_cons_eq_if_modifyHead] at h
    split at h
    · rcases mem_cons.mp h with rfl | h
      · simp
      · exact ih h
    · next ha =>
      obtain ⟨q, qs, hqs⟩ := exists_cons_of_ne_nil (splitOnP_ne_nil p rest)
      rw [hqs] at h ih
      rcases mem_cons.mp h with rfl | h
      · exact forall_mem_cons.mpr ⟨by simpa using ha, ih mem_cons_self⟩
      · exact ih (mem_cons_of_mem _ h)

theorem not_mem_of_mem_splitOn {part : Bytes} (h : part ∈ text.splitOn x) : x ∉ part := by
  intro hx
  simpa using not_of_mem_splitOnP h x hx

theorem not_mem_of_all {p : UInt8 → Bool} {bytes : Bytes} (h : bytes.all p = true)
    (hx : p x = false) : x ∉ bytes := by
  intro hm
  have hp := all_eq_true.mp h x hm
  rw [hx] at hp
  cases hp

def fileFields (f : File) : List Bytes :=
  [fileKey, f.path.bytes, decimalOf f.size.toNat, hexOf f.digest.1, hexOf (Bytes.be 4 f.flags.toNat),
    decimalOf f.mib.toNat]

theorem fileFields_avoid (f : File) (hk : x ∉ fileKey) (hg : graphic x = false)
    (hw : wordByte x = false) : ∀ field ∈ fileFields f, x ∉ field := by
  have hd : digit x = false := by
    rw [wordByte] at hw
    simp only [Bool.or_eq_false_iff] at hw
    exact hw.1.1.1.1.1
  intro field hm
  simp only [fileFields, mem_cons, not_mem_nil, or_false] at hm
  rcases hm with rfl | rfl | rfl | rfl | rfl | rfl
  · exact hk
  · exact not_mem_of_all f.path.valid.2 hg
  · exact not_mem_of_all (decimalOf_all _) hd
  · exact not_mem_of_all (hexOf_word _) hw
  · exact not_mem_of_all (hexOf_word _) hw
  · exact not_mem_of_all (decimalOf_all _) hd

theorem encodeFile_some {f : File} {room : Nat} {line : Bytes} (h : encodeFile f room = some line) :
    line = [blank].intercalate (fileFields f) := by
  rw [putAll_some h]
  rfl

section FileLine
variable {f : File} {room : Nat} {line : Bytes}

theorem splitOn_file (h : encodeFile f room = some line) : line.splitOn blank = fileFields f := by
  rw [encodeFile_some h]
  refine splitOn_intercalate blank ?_ (cons_ne_nil _ _)
  exact fileFields_avoid f (by decide) (by decide) (by decide)

theorem flags_read (n : UInt32) : UInt32.ofNat (Bytes.ofBe (Bytes.be 4 n.toNat)) = n := by
  rw [Bytes.ofBe_be 4 _ (by simpa using n.toNat_lt), UInt32.ofNat_toNat]

theorem u32_read (n : UInt32) : u32 (UInt64.ofNat n.toNat) = some n := by
  have hn : n.toNat < 2 ^ 32 := n.toNat_lt
  have h64 : (UInt64.ofNat n.toNat).toNat = n.toNat := by
    rw [UInt64.toNat_ofNat', Nat.mod_eq_of_lt (by omega)]
  rw [u32, h64, if_pos hn, UInt32.ofNat_toNat]

theorem decimal_mib (n : UInt32) : decimal (decimalOf n.toNat) = some (UInt64.ofNat n.toNat) := by
  have hn : n.toNat < 2 ^ 32 := n.toNat_lt
  have h64 : (UInt64.ofNat n.toNat).toNat = n.toNat := by
    rw [UInt64.toNat_ofNat', Nat.mod_eq_of_lt (by omega)]
  have h := decimal_decimalOf (UInt64.ofNat n.toNat)
  rwa [h64] at h

theorem Text.new_bytes (t : Text n) : Text.new t.bytes = some t := dif_pos t.valid

section
variable (h : encodeFile f room = some line)
include h

theorem parseFile_encode : parseFile line = if pathForm f.path.bytes then some f else none := by
  have hflags : hex 4 (hexOf (Bytes.be 4 f.flags.toNat)) =
      some ⟨Bytes.be 4 f.flags.toNat, Bytes.length_be 4 _⟩ := hex_hexOf ⟨_, Bytes.length_be 4 _⟩
  rw [parseFile, splitOn_file h, fileFields]
  by_cases hp : pathForm f.path.bytes = true
  · simp only [hp, ne_eq, not_true_eq_false, Bool.true_eq_false, or_self, if_false, if_true,
      Text.new_bytes, decimal_decimalOf, hex_hexOf, hflags, decimal_mib, u32_read, flags_read,
      Option.bind_eq_bind, Option.bind_some, Option.pure_def]
  · simp [hp]

theorem file_line_eq : ∃ rest, line = ascii "file " ++ (f.path.bytes ++ blank :: rest) := by
  rw [putAll_some h]
  exact ⟨_, rfl⟩

theorem filePath_encode : filePath line = f.path.bytes := by
  obtain ⟨rest, rfl⟩ := file_line_eq h
  have hdrop : (ascii "file " ++ (f.path.bytes ++ blank :: rest)).drop 5 =
      f.path.bytes ++ blank :: rest := rfl
  have hpath : f.path.bytes.splitOn blank = [f.path.bytes] :=
    splitOn_eq_singleton (not_mem_of_all f.path.valid.2 (by decide))
  rw [filePath, hdrop, List.splitOn, splitOnP_append_cons _ _ (by simp), ← List.splitOn, hpath]
  rfl

theorem isFile_encode : isFile line = true := by
  obtain ⟨rest, rfl⟩ := file_line_eq h
  exact isPrefixOf_iff_prefix.mpr (prefix_append _ _)

theorem newline_not_mem : newline ∉ line := by
  rw [putAll_some h]
  have hf := fileFields_avoid (x := newline) f (by decide) (by decide) (by decide)
  have hb : newline ∉ [blank] := by decide
  have hk : newline ∉ ascii "file " := by decide
  simp only [fileFields, mem_cons, not_mem_nil, or_false, forall_eq_or_imp, forall_eq] at hf
  obtain ⟨-, hp, hs, hd, hfl, hm⟩ := hf
  simp only [mem_flatten, mem_cons, not_mem_nil, or_false, not_exists, not_and]
  rintro part (rfl | rfl | rfl | rfl | rfl | rfl | rfl | rfl | rfl | rfl) <;> assumption

end

end FileLine

end MindCore.Release
