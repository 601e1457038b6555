import Mathlib.Logic.Relation
import MindCore.Lib.Ascii

/-!
# Who answers a name query

`netstack/src/dns.rs` asks for the address of a name and reads what comes back. Who sent a datagram, what it was
asked and whose record it holds are told apart here, and not in the code.
-/

namespace MindCore.Netstack

/-! ### The parser

An index past the end of a datagram panics: the outer `none`. -/

def labelByte (b : UInt8) : Bool := lowercase (asciiLower b) || digit b || b == 0x2d || b == 0x5f

def trimmed (name : Bytes) : Bytes := (name.reverse.dropWhile (· == 0x2e)).reverse

def labels (name : Bytes) : List Bytes := (trimmed name).splitOn 0x2e

def query (name : Bytes) (id : Nat) : Option Bytes :=
  if trimmed name = [] ∨ 253 < (trimmed name).length ∨
      (labels name).any fun l => l == [] || 63 < l.length || !l.all labelByte then none
  else some (Bytes.be 2 id ++ [1, 0, 0, 1, 0, 0, 0, 0, 0, 0] ++
    ((labels name).flatMap fun l => UInt8.ofNat l.length :: l) ++ [0, 0, 1, 0, 1])

def u16 (data : Bytes) (i : Nat) : Option Nat :=
  data[i]?.bind fun a => data[i + 1]?.map fun b => a.toNat * 256 + b.toNat

def u32 (data : Bytes) (i : Nat) : Option Nat :=
  (u16 data i).bind fun a => (u16 data (i + 2)).map fun b => a * 65536 + b

def skipName (data : Bytes) : Nat → Nat → Option Nat
  | 0, _ => none
  | rounds + 1, i => data[i]?.bind fun len =>
    if len = 0 then some (i + 1)
    else if len &&& 0xc0 = 0xc0 then data[i + 1]?.map fun _ => i + 2
    else if 63 < len then none
    else skipName data rounds (i + 1 + len.toNat)

def skipQuestions (data : Bytes) : Nat → Nat → Option Nat
  | 0, i => some i
  | n + 1, i => (skipName data 128 i).bind fun next =>
    if next + 4 ≤ data.length then skipQuestions data n (next + 4) else none

structure Record where
  owner : Nat
  kind : Nat
  class_ : Nat
  body : Nat
  len : Nat
  deriving DecidableEq

def recordAt (data : Bytes) (owner next : Nat) : Option Record :=
  (u16 data next).bind fun kind => (u16 data (next + 2)).bind fun class_ =>
    (u16 data (next + 8)).map fun len => ⟨owner, kind, class_, next + 10, len⟩

def Record.address (r : Record) : Bool := r.kind == 1 && r.class_ == 1 && r.len == 4

def firstAddress (data : Bytes) : Nat → Nat → Option (Except Bool Nat)
  | 0, _ => some (.error false)
  | n + 1, i => match skipName data 128 i with
    | none => some (.error false)
    | some next =>
      if data.length < next + 10 then some (.error false)
      else (recordAt data i next).bind fun r =>
        if data.length < r.body + r.len then some (.error false)
        else if r.address then (u32 data r.body).map .ok
        else firstAddress data n (r.body + r.len)

/-- `answer`: `none` inside for what is not a response to `id`, `true` for a name that does not exist. -/
def answer (data : Bytes) (id : Nat) : Option (Option (Except Bool Nat)) :=
  if data.length < 12 then some none
  else (u16 data 0).bind fun got => data[2]?.bind fun flags =>
    if got ≠ id ∨ flags &&& 0x80 = 0 then some none
    else data[3]?.bind fun code =>
      if code &&& 0x0f = 3 then some (some (.error true))
      else if code &&& 0x0f ≠ 0 then some (some (.error false))
      else (u16 data 4).bind fun questions => (u16 data 6).bind fun answers =>
        (skipQuestions data questions 12).elim (some (some (.error false))) fun i =>
          (firstAddress data answers i).map some

structure Datagram where
  source : Nat × Nat
  data : Bytes

/-- `check` of a waiting resolve, over all that its socket gets until it is answered. -/
def check (id : Nat) : List Datagram → Option (Option (Except Bool Nat))
  | [] => some none
  | d :: ds => (answer d.data id).bind fun a => a.elim (check id ds) fun r => some (some r)

/-! ### What an answer should be -/

structure Asked where
  name : Bytes
  id : Nat
  server : Nat
  port : Nat

/-- The labels of the name at an offset, where case does not tell names apart. -/
def nameAt (data : Bytes) : Nat → Nat → Option (List Bytes)
  | 0, _ => none
  | rounds + 1, i => data[i]?.bind fun len =>
    if len = 0 then some []
    else if len &&& 0xc0 = 0xc0 then
      data[i + 1]?.bind fun low => nameAt data rounds (len.toNat % 64 * 256 + low.toNat)
    else (nameAt data rounds (i + 1 + len.toNat)).map ((Bytes.slice (i + 1) (i + 1 + len.toNat) data).map asciiLower :: ·)

def Record.ownerName (data : Bytes) (r : Record) : Option (List Bytes) := nameAt data 128 r.owner

def records (data : Bytes) : Nat → Nat → List Record
  | 0, _ => []
  | n + 1, i => ((skipName data 128 i).bind (recordAt data i)).elim [] fun r =>
    if data.length < r.body + r.len then [] else r :: records data n (r.body + r.len)

def answers (data : Bytes) : List Record :=
  ((u16 data 4).bind fun questions => skipQuestions data questions 12).elim [] fun i =>
    records data ((u16 data 6).getD 0) i

def Leads (data : Bytes) (a b : List Bytes) : Prop :=
  ∃ r ∈ answers data, r.kind = 5 ∧ r.class_ = 1 ∧ r.ownerName data = some a ∧ nameAt data 128 r.body = some b

def asked (q : Asked) : List Bytes := (labels q.name).map (·.map asciiLower)

/-- A record of the asked name, or of the end of the chain that leads from it. -/
def Owned (q : Asked) (data : Bytes) (r : Record) : Prop :=
  r.ownerName data = some (asked q) ∨ ∃ b, Relation.ReflTransGen (Leads data) (asked q) b ∧
    (¬∃ c, Leads data b c) ∧ r.ownerName data = some b

def Repeats (q : Asked) (data : Bytes) : Prop :=
  ∃ sent, query q.name q.id = some sent ∧ u16 data 4 = some 1 ∧ sent.drop 12 <+: data.drop 12

/-- The datagram is the server's, to this question, with the address in the name's own record. -/
structure Genuine (q : Asked) (d : Datagram) (a : Nat) : Prop where
  source : d.source = (q.server, q.port)
  question : Repeats q d.data
  record : ∃ r ∈ answers d.data, r.address ∧ u32 d.data r.body = some a ∧ Owned q d.data r

/-- By its header a response to `id`, without an error. -/
structure Response (data : Bytes) (id : Nat) : Prop where
  header : 12 ≤ data.length
  id : u16 data 0 = some id
  flag : ∃ flags, data[2]? = some flags ∧ flags &&& 0x80 ≠ 0
  code : ∃ code, data[3]? = some code ∧ code &&& 0x0f = 0

/-- If the header is that of a response and one of the records holds an address, then the asked server sent it, it
repeats the question, and what the first such record holds is in a record of the name's own. -/
def Honest (q : Asked) (d : Datagram) : Prop :=
  Response d.data q.id → ∀ r, (answers d.data).find? Record.address = some r →
    d.source = (q.server, q.port) ∧ Repeats q d.data ∧
      ∃ own ∈ answers d.data, own.address ∧ u32 d.data own.body = u32 d.data r.body ∧ Owned q d.data own

variable {data : Bytes} {i n : Nat}

/-! ### No datagram stops the parser -/

theorem u16_some (h : i + 1 < data.length) : ∃ v, u16 data i = some v := by
  have hi : i < data.length := by omega
  simp [u16, List.getElem?_eq_getElem h, List.getElem?_eq_getElem hi]

theorem firstAddress_some (data : Bytes) (n i : Nat) : ∃ r, firstAddress data n i = some r := by
  induction n generalizing i with
  | zero => exact ⟨_, rfl⟩
  | succ n ih =>
    rw [firstAddress]
    cases skipName data 128 i with
    | none => exact ⟨_, rfl⟩
    | some next =>
      dsimp only
      split
      · exact ⟨_, rfl⟩
      · next hfits =>
        obtain ⟨kind, hk⟩ := u16_some (show next + 1 < data.length by omega)
        obtain ⟨class_, hc⟩ := u16_some (show next + 2 + 1 < data.length by omega)
        obtain ⟨len, hl⟩ := u16_some (show next + 8 + 1 < data.length by omega)
        have hr : recordAt data i next = some ⟨i, kind, class_, next + 10, len⟩ := by simp [recordAt, hk, hc, hl]
        rw [hr, Option.bind_some]
        split
        · exact ⟨_, rfl⟩
        · next hbody =>
          split
          · next haddress =>
            have hlen : len = 4 := by simp_all [Record.address]
            dsimp only at hbody
            obtain ⟨high, hh⟩ := u16_some (show next + 10 + 1 < data.length by omega)
            obtain ⟨low, hw⟩ := u16_some (show next + 10 + 2 + 1 < data.length by omega)
            simp [u32, hh, hw]
          · exact ih _

theorem answer_some (data : Bytes) (id : Nat) : ∃ r, answer data id = some r := by
  unfold answer
  split
  · exact ⟨_, rfl⟩
  · next hlen =>
    have hbyte : ∀ k, k < 12 → ∃ b, data[k]? = some b := fun k hk => ⟨_, List.getElem?_eq_getElem (by omega)⟩
    obtain ⟨got, hgot⟩ := u16_some (show 0 + 1 < data.length by omega)
    obtain ⟨flags, hflags⟩ := hbyte 2 (by omega)
    obtain ⟨code, hcode⟩ := hbyte 3 (by omega)
    obtain ⟨questions, hq⟩ := u16_some (show 4 + 1 < data.length by omega)
    obtain ⟨answers, ha⟩ := u16_some (show 6 + 1 < data.length by omega)
    simp only [hgot, hflags, hcode, hq, ha, Option.bind_some]
    split
    · exact ⟨_, rfl⟩
    split
    · exact ⟨_, rfl⟩
    split
    · exact ⟨_, rfl⟩
    cases skipQuestions data questions 12 with
    | none => exact ⟨_, rfl⟩
    | some i =>
      obtain ⟨r, hr⟩ := firstAddress_some data answers i
      exact ⟨some r, by simp [hr]⟩

/-! ### Which bytes are read as an address -/

theorem firstAddress_ok {a : Nat} : firstAddress data n i = some (.ok a) ↔
    ∃ r, (records data n i).find? Record.address = some r ∧ u32 data r.body = some a := by
  induction n generalizing i with
  | zero => simp [firstAddress, records]
  | succ n ih =>
    rw [firstAddress, records]
    cases skipName data 128 i with
    | none => simp
    | some next =>
      dsimp only [Option.bind_some]
      cases hr : recordAt data i next with
      | none => simp
      | some r =>
        -- A record that is read at all has its ten bytes.
        have hten : ¬data.length < next + 10 := by
          obtain ⟨kind, -, hr⟩ := Option.bind_eq_some_iff.mp hr
          obtain ⟨class_, -, hr⟩ := Option.bind_eq_some_iff.mp hr
          obtain ⟨len, hlen, -⟩ := Option.map_eq_some_iff.mp hr
          obtain ⟨high, -, hlow⟩ := Option.bind_eq_some_iff.mp hlen
          obtain ⟨low, hlow, -⟩ := Option.map_eq_some_iff.mp hlow
          have := (List.getElem?_eq_some_iff.mp hlow).1
          omega
        rw [if_neg hten, Option.bind_some, Option.elim_some]
        by_cases hfits : data.length < r.body + r.len
        · simp [hfits]
        · cases haddress : r.address with
          | true => simp [hfits, haddress]
          | false => simpa [hfits, haddress] using ih

theorem answer_ok {id a : Nat} : answer data id = some (some (.ok a)) ↔
    Response data id ∧ ∃ r, (answers data).find? Record.address = some r ∧ u32 data r.body = some a := by
  unfold answer answers
  by_cases hlen : data.length < 12
  · refine iff_of_false (by simp [hlen]) fun h => ?_
    have := h.1.header
    omega
  obtain ⟨got, hgot⟩ := u16_some (show 0 + 1 < data.length by omega)
  obtain ⟨questions, hq⟩ := u16_some (show 4 + 1 < data.length by omega)
  obtain ⟨count, ha⟩ := u16_some (show 6 + 1 < data.length by omega)
  have hflags : data[2]? = some data[2] := List.getElem?_eq_getElem (by omega)
  have hcode : data[3]? = some data[3] := List.getElem?_eq_getElem (by omega)
  have hresponse : Response data id ↔ got = id ∧ data[2] &&& 0x80 ≠ 0 ∧ data[3] &&& 0x0f = 0 := by
    constructor
    · rintro ⟨-, hid, ⟨flags, hf, hbit⟩, code, hc, hnone⟩
      rw [hgot] at hid
      rw [hflags] at hf
      rw [hcode] at hc
      cases hid
      cases hf
      cases hc
      exact ⟨rfl, hbit, hnone⟩
    · rintro ⟨rfl, hbit, hnone⟩
      exact ⟨by omega, hgot, ⟨_, hflags, hbit⟩, _, hcode, hnone⟩
  rw [hresponse]
  simp only [hlen, if_false, hgot, hflags, hcode, hq, ha, Option.bind_some, Option.getD_some]
  by_cases hother : got ≠ id ∨ data[2] &&& 0x80 = 0
  · simp only [hother, if_true]
    grind
  by_cases hnone : data[3] &&& 0x0f = 0
  · have hthree : ¬(0 : UInt8) = 3 := by decide
    simp only [hother, hthree, hnone, if_false, ne_eq, not_true]
    cases skipQuestions data questions 12 with
    | none => simp
    | some i =>
      rw [Option.elim_some, Option.elim_some, Option.map_eq_some_iff, ← firstAddress_ok]
      grind
  · simp only [hother, hnone, if_false]
    grind

/-- The body of a record that is listed lies inside the datagram. -/
theorem records_fit {r : Record} (hr : r ∈ records data n i) : r.body + r.len ≤ data.length := by
  induction n generalizing i with
  | zero => cases hr
  | succ n ih =>
    rw [records] at hr
    cases h : (skipName data 128 i).bind (recordAt data i) with
    | none => simp [h] at hr
    | some r' =>
      rw [h, Option.elim_some] at hr
      split at hr
      · cases hr
      · next hfits =>
        rcases List.mem_cons.mp hr with rfl | hr
        · omega
        · exact ih hr

theorem address_read {r : Record} (hr : (answers data).find? Record.address = some r) :
    ∃ a, u32 data r.body = some a := by
  have haddress := List.find?_some hr
  have hmem := List.mem_of_find?_eq_some hr
  unfold answers at hmem
  cases h : (u16 data 4).bind fun questions => skipQuestions data questions 12 with
  | none => simp [h] at hmem
  | some i =>
    rw [h, Option.elim_some] at hmem
    have hfits := records_fit hmem
    have hlen : r.len = 4 := by simp_all [Record.address]
    obtain ⟨high, hh⟩ := u16_some (show r.body + 1 < data.length by omega)
    obtain ⟨low, hw⟩ := u16_some (show r.body + 2 + 1 < data.length by omega)
    simp [u32, hh, hw]

theorem check_answer {id a : Nat} {ds : List Datagram} (h : check id ds = some (some (.ok a))) :
    ∃ d ∈ ds, answer d.data id = some (some (.ok a)) := by
  induction ds with
  | nil => cases h
  | cons d ds ih =>
    obtain ⟨r, hr, h⟩ := Option.bind_eq_some_iff.mp h
    cases r with
    | none =>
      obtain ⟨d', hd', ha⟩ := ih h
      exact ⟨d', List.mem_cons_of_mem _ hd', ha⟩
    | some r =>
      refine ⟨d, List.mem_cons_self, ?_⟩
      rw [hr]
      exact h

/-- Names are answered by whom they were asked, whatever arrives in whatever order, exactly when each datagram
that can arrive is honest; and no datagram makes the parser panic. -/
theorem answered_by_asked_iff (q : Asked) (arrives : Datagram → Prop) :
    ((∀ ds, (∀ d ∈ ds, arrives d) → ∀ a, check q.id ds = some (some (.ok a)) →
        ∃ d ∈ ds, u16 d.data 0 = some q.id ∧ Genuine q d a) ↔ ∀ d, arrives d → Honest q d) ∧
    ∀ data id, (answer data id).isSome := by
  refine ⟨⟨?_, ?_⟩, ?_⟩
  · intro h d hd hresponse r hr
    obtain ⟨a, ha⟩ := address_read hr
    have hcheck : check q.id [d] = some (some (.ok a)) := by simp [check, answer_ok.mpr ⟨hresponse, r, hr, ha⟩]
    obtain ⟨d', hd', -, hg⟩ := h [d] (by simpa using hd) a hcheck
    rw [List.mem_singleton.mp hd'] at hg
    obtain ⟨own, hown, haddress, hbody, howned⟩ := hg.record
    exact ⟨hg.source, hg.question, own, hown, haddress, hbody.trans ha.symm, howned⟩
  · intro h ds hds a ha
    obtain ⟨d, hd, ha⟩ := check_answer ha
    obtain ⟨hresponse, r, hr, ha⟩ := answer_ok.mp ha
    obtain ⟨hsource, hquestion, own, hown, haddress, hbody, howned⟩ := h d (hds d hd) hresponse r hr
    exact ⟨d, hd, hresponse.id, hsource, hquestion, own, hown, haddress, hbody.trans ha, howned⟩
  · intro data id
    obtain ⟨r, hr⟩ := answer_some data id
    rw [hr]
    rfl

def queryA : Asked := ⟨[0x61], 1, 8, 53⟩

def response : Datagram where
  source := (8, 53)
  data := [0, 1, 0x81, 0x80, 0, 1, 0, 1, 0, 0, 0, 0, 1, 0x61, 0, 0, 1, 0, 1] ++
    [0xc0, 12, 0, 1, 0, 1, 0, 0, 0, 9, 0, 4, 1, 2, 3, 4]

theorem response_answers : ∃ d ∈ [response], u16 d.data 0 = some 1 ∧ Genuine queryA d 0x01020304 := by
  refine (answered_by_asked_iff queryA (· = response)).1.mpr ?_ [response] (by simp) _ (by decide)
  rintro d rfl - r hr
  have hrecord : answers response.data = [⟨19, 1, 1, 31, 4⟩] := by decide
  have hfirst : r = ⟨19, 1, 1, 31, 4⟩ := by
    rw [hrecord] at hr
    exact (Option.some.inj hr).symm
  refine ⟨rfl, ⟨_, rfl, by decide, by decide⟩, r, ?_, ?_, rfl, .inl ?_⟩
  · simp [hrecord, hfirst]
  · rw [hfirst]; rfl
  · rw [hfirst]; decide

def forged : Datagram where
  source := (7, 53)
  data := [0, 1, 0x80, 0, 0, 0, 0, 1, 0, 0, 0, 0] ++ [0, 0, 1, 0, 1, 0, 0, 0, 0, 0, 4, 6, 6, 6, 6]

theorem forged_answers :
    ∃ (q : Asked) (a : Nat), check q.id [forged] = some (some (.ok a)) ∧ ¬∃ d ∈ [forged], Genuine q d a := by
  refine ⟨queryA, 0x06060606, by decide, ?_⟩
  rintro ⟨d, hd, hg⟩
  have hsource := hg.source
  rw [List.mem_singleton.mp hd] at hsource
  cases hsource

end MindCore.Netstack
