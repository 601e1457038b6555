import Mathlib.Data.List.Induction
import MindCore.Lib.Proc
import MindCore.Lib.Utf8
import MindCore.Libmind.Release

/-!
# The owner's policy

The policy's text as it is parsed, whole or not at all, and what it decides (`policy.rs`). The paths it
compares byte by byte are opened by a volume that matches names ignoring case or by a short alias:
which paths lead into a protected tree all the same.
-/

namespace MindCore.Gateway

open List
open MindCore.Release (hex decimal Fixed)

def protectedServices : List Bytes := ["init", "shell", "effector", "effector_gw"].map ascii

def protectedTrees : List Bytes := ["data/effector/", "data/apps/", "system/"].map ascii

def forbiddenGrants : List Bytes := ["firmware", "authority", "tls", "ssh"].map ascii

def knownGrants : List Bytes :=
  ["sysinfo", "file", "files", "log", "lifecycle", "network", "authority", "display", "window-manager",
    "gpio", "camera", "blockstore", "firmware", "parse", "tls", "battery", "wifi", "ssh"].map ascii

def bytesLimit : Nat := 2 ^ 30

inductive Kind where
  | tooLarge | notText | version | lineTooLong | unknownKey | malformed | duplicate | tooMany
  | protectedName
  deriving DecidableEq

/-- Lines count from 1; 0 is the whole file. -/
structure Error where
  line : Nat
  kind : Kind
  deriving DecidableEq

inductive Action where
  | start | stop | restart
  deriving DecidableEq

inductive Deny where
  | agentOff | notNamed | protectedName | path | tooLarge
  deriving DecidableEq

inductive Ask where
  | service (name : Bytes) (action : Action)
  | log (source : Bytes)
  | collect (p : Bytes) (size : Nat)
  | deliver (p : Bytes) (size : Nat)
  | package (name : Bytes) (size : Nat)
  | update (step : Nat)
  | reboot
  | screen
  | test (wanted : List Bytes)

structure Policy where
  agent : Bool := false
  services : List (Bytes × List Action) := []
  logs : List Bytes := []
  collect : List Bytes := []
  deliver : Option Bytes := none
  packages : Bool := false
  /-- A key without a name is for every application. -/
  keys : List (Option Bytes × Fixed 32) := []
  /-- `off`, `check`, `fetch` and `apply`, from 0. -/
  update : Nat := 0
  reboot : Bool := false
  screen : Bool := false
  test : Option (List Bytes) := none
  maxBytes : Nat := 2 ^ 24
  rules : Nat := 0

/-! ### Names and paths -/

def comma : UInt8 := 0x2c

def nameOk (s : Bytes) (max : Nat) : Bool :=
  s != [] && s.length ≤ max && s.all fun c =>
    (0x61 ≤ c && c ≤ 0x7a) || (0x30 ≤ c && c ≤ 0x39) || c == 0x5f || c == 0x2d

def pathRest (s : Bytes) : Option Bytes :=
  let rest := if s = ascii "log:" ∨ s = ascii "log:/" then some []
    else if (ascii "log:/").isPrefixOf s then some (s.drop 5)
    else if (ascii "data/").isPrefixOf s then some s
    else none
  rest.map fun r => if r.getLast? = some slash then r.dropLast else r

def path (s : Bytes) : Option Bytes :=
  if s = [] ∨ 255 < s.length ∨ (s.all fun c => 0x21 ≤ c && c < 0x7f && c != 0x5c) = false then none
  else match pathRest s with
    | none => none
    | some rest => if rest ≠ [] ∧ (rest.splitOn slash).any badPart then none else some s

/-- `log:` stands for `log:/`. -/
def fullRoot (s : Bytes) : Bytes := if s = ascii "log:" then ascii "log:/" else s

def root (s : Bytes) : Option Bytes :=
  if (fullRoot s).getLast? ≠ some slash ∨ 128 < (fullRoot s).length then none else path (fullRoot s)

def isProtected (p : Bytes) : Bool :=
  protectedTrees.any fun t => t.isPrefixOf p || (p.length + 1 = t.length && p.isPrefixOf t)

def under (p root : Bytes) : Bool := root.length < p.length && root.isPrefixOf p

/-! ### Parsing -/

structure State where
  policy : Policy := {}
  version : Bool := false
  seen : List Nat := []

def refuse (p : Prop) [Decidable p] (k : Kind) : Except Kind Unit := if p then .error k else .ok ()

def once (s : State) (slot : Nat) : Except Kind State := do
  refuse (slot ∈ s.seen) .duplicate
  .ok { s with seen := slot :: s.seen }

def switch (v : Bytes) : Except Kind Bool :=
  if v = ascii "on" then .ok true else if v = ascii "off" then .ok false else .error .malformed

def orMalformed {α : Type} : Option α → Except Kind α
  | some a => .ok a
  | none => .error .malformed

def actionOf (a : Bytes) : Option Action :=
  if a = ascii "start" then some .start
  else if a = ascii "stop" then some .stop
  else if a = ascii "restart" then some .restart
  else none

def addGrant (grants : List Bytes) (g : Bytes) : Except Kind (List Bytes) := do
  refuse (g ∉ knownGrants) .malformed
  refuse (g ∈ forbiddenGrants) .protectedName
  refuse (g ∈ grants) .duplicate
  refuse (grants.length = 8) .tooMany
  .ok (grants ++ [g])

def grantsOf (a : Bytes) : Except Kind (List Bytes) :=
  if a = ascii "none" then .ok [] else (a.splitOn comma).foldlM addGrant []

def only (args : List Bytes) (n : Nat) : Except Kind Unit := refuse (¬args.length = n) .malformed

def arg (args : List Bytes) (i : Nat) : Bytes := args.getD i []

def switchLine (slot : Nat) (put : Bool → Policy → Policy) (s : State) (args : List Bytes) :
    Except Kind State := do
  only args 1
  let s ← once s slot
  let v ← switch (arg args 0)
  .ok { s with policy := put v s.policy }

def serviceLine (s : State) (args : List Bytes) : Except Kind State := do
  only args 2
  refuse (nameOk (arg args 0) 16 = false) .malformed
  refuse (arg args 0 ∈ protectedServices) .protectedName
  let actions ← orMalformed (((arg args 1).splitOn comma).mapM actionOf)
  refuse (arg args 0 ∈ s.policy.services.map (·.1)) .duplicate
  refuse (s.policy.services.length = 16) .tooMany
  .ok { s with policy := { s.policy with services := s.policy.services ++ [(arg args 0, actions)] } }

def logLine (s : State) (args : List Bytes) : Except Kind State := do
  only args 1
  refuse (arg args 0 ≠ ascii "ring" ∧ arg args 0 ≠ ascii "boot") .malformed
  refuse (arg args 0 ∈ s.policy.logs) .duplicate
  .ok { s with policy := { s.policy with logs := arg args 0 :: s.policy.logs } }

def collectLine (s : State) (args : List Bytes) : Except Kind State := do
  only args 1
  let r ← orMalformed (root (arg args 0))
  refuse (isProtected r = true) .protectedName
  refuse (r ∈ s.policy.collect) .duplicate
  refuse (s.policy.collect.length = 8) .tooMany
  .ok { s with policy := { s.policy with collect := s.policy.collect ++ [r] } }

def deliverLine (s : State) (args : List Bytes) : Except Kind State := do
  only args 1
  let s ← once s 1
  let r ← orMalformed (root (arg args 0))
  refuse ((ascii "data/").isPrefixOf r = false ∨ r = ascii "data/") .malformed
  refuse (isProtected r = true) .protectedName
  .ok { s with policy := { s.policy with deliver := some r } }

def keyLine (s : State) (args : List Bytes) : Except Kind State := do
  only args 2
  refuse (arg args 0 ≠ ascii "*" ∧ nameOk (arg args 0) 32 = false) .malformed
  let name := if arg args 0 = ascii "*" then none else some (arg args 0)
  let key ← orMalformed (hex 32 (arg args 1))
  refuse ((name, key) ∈ s.policy.keys) .duplicate
  refuse (s.policy.keys.length = 8) .tooMany
  .ok { s with policy := { s.policy with keys := s.policy.keys ++ [(name, key)] } }

def updateLine (s : State) (args : List Bytes) : Except Kind State := do
  only args 1
  let s ← once s 3
  let update ← orMalformed ((["off", "check", "fetch", "apply"].map ascii).findIdx? (· = arg args 0))
  .ok { s with policy := { s.policy with update } }

def testLine (s : State) (args : List Bytes) : Except Kind State := do
  let s ← once s 6
  refuse (arg args 1 ≠ []) .malformed
  let test ← grantsOf (arg args 0)
  .ok { s with policy := { s.policy with test := some test } }

def maxBytesLine (s : State) (args : List Bytes) : Except Kind State := do
  only args 1
  let s ← once s 7
  let n ← orMalformed (decimal (arg args 0))
  refuse (n.toNat = 0 ∨ bytesLimit < n.toNat) .malformed
  .ok { s with policy := { s.policy with maxBytes := n.toNat } }

def handlers : List (Bytes × (State → List Bytes → Except Kind State)) :=
  [(ascii "agent", switchLine 0 fun v p => { p with agent := v }), (ascii "service", serviceLine),
    (ascii "log", logLine), (ascii "collect", collectLine), (ascii "deliver", deliverLine),
    (ascii "packages", switchLine 2 fun v p => { p with packages := v }), (ascii "package-key", keyLine),
    (ascii "update", updateLine), (ascii "reboot", switchLine 4 fun v p => { p with reboot := v }),
    (ascii "screen", switchLine 5 fun v p => { p with screen := v }), (ascii "test", testLine),
    (ascii "max-bytes", maxBytesLine)]

def rule (s : State) (key : Bytes) (args : List Bytes) : Except Kind State :=
  match handlers.find? (·.1 = key) with
  | some handler => handler.2 s args
  | none => .error .unknownKey

def spaces : List Bytes :=
  [[0x09], [0x0a], [0x0b], [0x0c], [0x0d], [0x20], [0xc2, 0x85], [0xc2, 0xa0], [0xe1, 0x9a, 0x80],
    [0xe2, 0x80, 0xa8], [0xe2, 0x80, 0xa9], [0xe2, 0x80, 0xaf], [0xe2, 0x81, 0x9f], [0xe3, 0x80, 0x80]] ++
    (List.range 11).map fun i => [0xe2, 0x80, 0x80 + UInt8.ofNat i]

def strip (ws : List Bytes) : Nat → Bytes → Bytes
  | 0, l => l
  | n + 1, l => match ws.find? (·.isPrefixOf l) with
    | some w => strip ws n (l.drop w.length)
    | none => l

def trim (l : Bytes) : Bytes :=
  let l := strip spaces l.length l
  (strip (spaces.map List.reverse) l.length l.reverse).reverse

def words (line : Bytes) : List Bytes :=
  (line.splitOnP fun b => b == 0x20 || (0x09 ≤ b && b ≤ 0x0d && b != 0x0b)).filter (· ≠ [])

def parseLine (s : State) (raw : Bytes) : Except Kind State := do
  let line := withoutReturn 0x0d raw
  refuse (200 < line.length) .lineTooLong
  refuse ((line.any fun c => (c < 0x20 && c != 0x09) || c == 0x7f) = true) .notText
  let line := trim line
  if line = [] ∨ line.head? = some 0x23 then .ok s
  else
    let key := (words line).headD []
    let args := (words line).drop 1
    refuse (3 < args.length) .malformed
    if s.version = false then
      refuse (key ≠ ascii "effector-policy" ∨ args.getD 0 [] ≠ ascii "1" ∨ args.getD 1 [] ≠ []) .version
      .ok { s with version := true }
    else
      refuse (64 ≤ s.policy.rules) .tooMany
      rule { s with policy := { s.policy with rules := s.policy.rules + 1 } } key args

def parseLines : Nat → State → List Bytes → Except Error State
  | _, s, [] => .ok s
  | n, s, raw :: rest => match parseLine s raw with
    | .error kind => .error ⟨min n 65535, kind⟩
    | .ok s => parseLines (n + 1) s rest

def parse (bytes : Bytes) : Except Error Policy :=
  if 4096 < bytes.length then .error ⟨0, .tooLarge⟩
  else if utf8 bytes = false then .error ⟨0, .notText⟩
  else match parseLines 1 {} (bytes.splitOn newline) with
    | .error e => .error e
    | .ok s => if s.version then .ok s.policy else .error ⟨0, .version⟩

/-! ### Deciding -/

namespace Policy

def size (policy : Policy) (n : Nat) : Except Deny Unit :=
  if policy.maxBytes < n then .error .tooLarge else .ok ()

def file (policy : Policy) (roots : List Bytes) (p : Bytes) (n : Nat) : Except Deny Unit :=
  if path p = none ∨ p.getLast? = some slash then .error .path
  else if isProtected p then .error .protectedName
  else if roots.any (under p) then policy.size n
  else .error .notNamed

def named (b : Bool) : Except Deny Unit := if b then .ok () else .error .notNamed

def keysFor (policy : Policy) (name : Bytes) : List (Option Bytes × Fixed 32) :=
  policy.keys.filter fun k => k.1.all (· = name)

def decide (policy : Policy) (ask : Ask) : Except Deny Unit :=
  if !policy.agent then .error .agentOff
  else match ask with
    | .service name action =>
      if name ∈ protectedServices then .error .protectedName
      else named ((policy.services.find? (·.1 = name)).any (action ∈ ·.2))
    | .log source => named (source ∈ policy.logs)
    | .collect p n => policy.file policy.collect p n
    | .deliver p n => policy.file policy.deliver.toList p n
    | .package name n =>
      if policy.packages && nameOk name 32 && policy.keysFor name != [] then policy.size n
      else .error .notNamed
    | .update step => named (step != 0 && step ≤ policy.update)
    | .reboot => named policy.reboot
    | .screen => named policy.screen
    | .test wanted => named (policy.test.any fun grants => wanted.all (· ∈ grants))

end Policy

/-! ### The roots a text names -/

def Says (lines : List Bytes) (key r : Bytes) : Prop :=
  ∃ l ∈ lines, ∃ w, words (trim (withoutReturn 0x0d l)) = [key, w] ∧ root w = some r

theorem refuse_ok {p : Prop} [Decidable p] {k : Kind} {u : Unit} (h : refuse (¬p) k = .ok u) : p := by
  by_contra hn
  rw [refuse, if_pos hn] at h
  cases h

theorem orMalformed_ok {α : Type} {o : Option α} {a : α} (h : orMalformed o = .ok a) : o = some a := by
  cases o with
  | none => cases h
  | some b =>
    cases h
    rfl

variable {slot d : Nat} {policy : Policy} {text : Bytes}

theorem once_ok {s s' : State} (h : once s slot = .ok s') : s'.policy = s.policy := by
  obtain ⟨_, _, h⟩ := ok_of_bind h
  cases h
  rfl

/-- What a line may do to the roots: those that are not about them leave both as they are. -/
inductive Rooted (s s' : State) (key : Bytes) (args : List Bytes) : Prop
  | none (hc : s'.policy.collect = s.policy.collect) (hd : s'.policy.deliver = s.policy.deliver)
  | collect {w r : Bytes} (hk : key = ascii "collect") (ha : args = [w]) (hr : root w = some r)
      (hc : s'.policy.collect = s.policy.collect ++ [r]) (hd : s'.policy.deliver = s.policy.deliver)
  | deliver {w r : Bytes} (hk : key = ascii "deliver") (ha : args = [w]) (hr : root w = some r)
      (hc : s'.policy.collect = s.policy.collect) (hd : s'.policy.deliver = some r)

section Lines

variable {s s' : State} {key : Bytes} {args : List Bytes}

theorem switchLine_rooted {put : Bool → Policy → Policy} (h : switchLine slot put s args = .ok s')
    (hp : ∀ v p, (put v p).collect = p.collect ∧ (put v p).deliver = p.deliver) : Rooted s s' key args := by
  obtain ⟨_, _, h⟩ := ok_of_bind h
  obtain ⟨t, ht, h⟩ := ok_of_bind h
  obtain ⟨v, _, h⟩ := ok_of_bind h
  cases h
  rw [once_ok ht]
  exact .none (hp v _).1 (hp v _).2

theorem collectLine_rooted (h : collectLine s args = .ok s') : Rooted s s' (ascii "collect") args := by
  obtain ⟨_, hlen, h⟩ := ok_of_bind h
  obtain ⟨r, hr, h⟩ := ok_of_bind h
  repeat obtain ⟨_, _, h⟩ := ok_of_bind h
  cases h
  obtain ⟨w, rfl⟩ := length_eq_one_iff.mp (refuse_ok hlen)
  exact .collect rfl rfl (orMalformed_ok hr) rfl rfl

theorem deliverLine_rooted (h : deliverLine s args = .ok s') : Rooted s s' (ascii "deliver") args := by
  obtain ⟨_, hlen, h⟩ := ok_of_bind h
  obtain ⟨t, ht, h⟩ := ok_of_bind h
  obtain ⟨r, hr, h⟩ := ok_of_bind h
  repeat obtain ⟨_, _, h⟩ := ok_of_bind h
  cases h
  obtain ⟨w, rfl⟩ := length_eq_one_iff.mp (refuse_ok hlen)
  exact .deliver rfl rfl (orMalformed_ok hr) (by rw [once_ok ht]) rfl

theorem handlers_rooted : ∀ handler ∈ handlers, ∀ s args s', handler.2 s args = .ok s' →
    Rooted s s' handler.1 args := by
  simp only [handlers, forall_mem_cons, not_mem_nil, IsEmpty.forall_iff, implies_true, and_true]
  refine ⟨?_, ?_, ?_, ?_, ?_, ?_, ?_, ?_, ?_, ?_, ?_, ?_⟩ <;> intro s args s' h
  · exact switchLine_rooted h fun _ _ => ⟨rfl, rfl⟩
  · repeat obtain ⟨_, _, h⟩ := ok_of_bind h
    cases h
    exact .none rfl rfl
  · repeat obtain ⟨_, _, h⟩ := ok_of_bind h
    cases h
    exact .none rfl rfl
  · exact collectLine_rooted h
  · exact deliverLine_rooted h
  · exact switchLine_rooted h fun _ _ => ⟨rfl, rfl⟩
  · repeat obtain ⟨_, _, h⟩ := ok_of_bind h
    cases h
    exact .none rfl rfl
  · obtain ⟨_, _, h⟩ := ok_of_bind h
    obtain ⟨t, ht, h⟩ := ok_of_bind h
    repeat obtain ⟨_, _, h⟩ := ok_of_bind h
    cases h
    rw [once_ok ht]
    exact .none rfl rfl
  · exact switchLine_rooted h fun _ _ => ⟨rfl, rfl⟩
  · exact switchLine_rooted h fun _ _ => ⟨rfl, rfl⟩
  · obtain ⟨t, ht, h⟩ := ok_of_bind h
    repeat obtain ⟨_, _, h⟩ := ok_of_bind h
    cases h
    rw [once_ok ht]
    exact .none rfl rfl
  · obtain ⟨_, _, h⟩ := ok_of_bind h
    obtain ⟨t, ht, h⟩ := ok_of_bind h
    repeat obtain ⟨_, _, h⟩ := ok_of_bind h
    cases h
    rw [once_ok ht]
    exact .none rfl rfl

theorem rule_rooted (h : rule s key args = .ok s') : Rooted s s' key args := by
  rw [rule] at h
  cases hf : handlers.find? (·.1 = key) with
  | none => rw [hf] at h; cases h
  | some handler =>
    rw [hf] at h
    have hkey : handler.1 = key := by simpa using find?_some hf
    exact hkey ▸ handlers_rooted handler (mem_of_find?_eq_some hf) s args s' h

/-- The roots are those the policy had, and those the lines name. -/
structure Grown (lines : List Bytes) (p p' : Policy) : Prop where
  collect : ∀ r ∈ p'.collect, r ∈ p.collect ∨ Says lines (ascii "collect") r
  deliver : ∀ r, p'.deliver = some r → p.deliver = some r ∨ Says lines (ascii "deliver") r

theorem Grown.refl (lines : List Bytes) (p : Policy) : Grown lines p p :=
  ⟨fun _ hr => .inl hr, fun _ hr => .inl hr⟩

variable {l : Bytes} {lines : List Bytes}

theorem words_eq {w : Bytes} (hk : l ≠ []) {ws : List Bytes} (h : ws.headD [] = l)
    (ha : ws.drop 1 = [w]) : ws = [l, w] := by
  cases ws with
  | nil => exact absurd h.symm hk
  | cons a rest => rw [← h, ← ha]; rfl

theorem parseLine_grown {raw : Bytes} (h : parseLine s raw = .ok s') : Grown [raw] s.policy s'.policy := by
  obtain ⟨_, _, h⟩ := ok_of_bind h
  obtain ⟨_, _, h⟩ := ok_of_bind h
  dsimp only at h
  split at h
  · cases h
    exact .refl _ _
  obtain ⟨_, _, h⟩ := ok_of_bind h
  split at h
  · obtain ⟨_, _, h⟩ := ok_of_bind h
    cases h
    exact .refl _ _
  obtain ⟨_, _, h⟩ := ok_of_bind h
  cases rule_rooted h with
  | none hc hd => exact ⟨fun r hr => .inl (hc ▸ hr), fun r hr => .inl (hd ▸ hr)⟩
  | collect hk ha hr hc hd =>
    refine ⟨fun x hx => ?_, fun x hx => .inl (hd ▸ hx)⟩
    rw [hc, mem_append, mem_singleton] at hx
    obtain hx | rfl := hx
    · exact .inl hx
    · exact .inr ⟨raw, mem_singleton_self _, _, words_eq (by decide) hk ha, hr⟩
  | deliver hk ha hr hc hd =>
    refine ⟨fun x hx => .inl (hc ▸ hx), fun x hx => ?_⟩
    rw [hd] at hx
    cases hx
    exact .inr ⟨raw, mem_singleton_self _, _, words_eq (by decide) hk ha, hr⟩

theorem Grown.trans {p p' p'' : Policy} (h : Grown [l] p p')
    (h' : Grown lines p' p'') : Grown (l :: lines) p p'' := by
  have hfirst : ∀ {key r}, Says [l] key r → Says (l :: lines) key r := by
    rintro key r ⟨x, hx, hs⟩
    exact ⟨x, by rw [mem_singleton.mp hx]; exact mem_cons_self, hs⟩
  have hrest : ∀ {key r}, Says lines key r → Says (l :: lines) key r := by
    rintro key r ⟨x, hx, hs⟩
    exact ⟨x, mem_cons_of_mem _ hx, hs⟩
  refine ⟨fun r hr => ?_, fun r hr => ?_⟩
  · obtain hr | hs := h'.collect r hr
    · exact (h.collect r hr).imp id hfirst
    · exact .inr (hrest hs)
  · obtain hr | hs := h'.deliver r hr
    · exact (h.deliver r hr).imp id hfirst
    · exact .inr (hrest hs)

theorem parseLines_grown {n : Nat} (h : parseLines n s lines = .ok s') : Grown lines s.policy s'.policy := by
  induction lines generalizing n s with
  | nil =>
    cases h
    exact .refl _ _
  | cons l rest ih =>
    rw [parseLines] at h
    split at h
    · cases h
    · rename_i hl
      exact (parseLine_grown hl).trans (ih h)

theorem parse_says (h : parse text = .ok policy) :
    (∀ r ∈ policy.collect, Says (text.splitOn newline) (ascii "collect") r) ∧
      ∀ r, policy.deliver = some r → Says (text.splitOn newline) (ascii "deliver") r := by
  unfold parse at h
  split at h
  · cases h
  split at h
  · cases h
  split at h
  · cases h
  rename_i s hs
  split at h
  · cases h
    have hg := parseLines_grown hs
    refine ⟨fun r hr => ?_, fun r hr => ?_⟩
    · exact (hg.collect r hr).resolve_left not_mem_nil
    · exact (hg.deliver r hr).resolve_left nofun
  · cases h

end Lines

/-! ### The volume -/

structure Entry where
  name : Bytes
  short : Bytes
  node : Nat
  deriving DecidableEq

abbrev Volume := Nat → List Entry

/-- No two entries lead to one place, and none to the root. -/
structure Tree (v : Volume) : Prop where
  once : ∀ d d' e e', e ∈ v d → e' ∈ v d' → e.node = e'.node → d = d' ∧ e = e'
  root : ∀ d, ∀ e ∈ v d, e.node ≠ 0

section Names

variable (lower : Bytes → Bytes)

/-- `lower` is the text in Unicode's lower case. -/
def sameName (a b : Bytes) : Bool :=
  (a.length = b.length && a.map asciiLower = b.map asciiLower) || lower a = lower b

def find (v : Volume) (dir : Nat) (name : Bytes) : Option Nat :=
  ((v dir).find? fun e => sameName lower e.name name || sameName lower e.short name).map (·.node)

def resolve (v : Volume) (parts : List Bytes) : Option Nat := parts.foldlM (find lower v) 0

def partsOf (p : Bytes) : List Bytes := ((pathRest p).getD []).splitOn slash

def way (p : Bytes) : List Bytes := if (ascii "data/").isPrefixOf p then partsOf p else []

def trees : List (List Bytes) := [["data", "effector"], ["data", "apps"], ["system"]].map (·.map ascii)

def Enters (v : Volume) (p : Bytes) : Prop :=
  ∃ t ∈ trees, ∃ k node, resolve lower v ((way p).take k) = some node ∧ resolve lower v t = some node

/-- A name of `p` finds a protected directory, and is not its name. -/
def Misspelt (v : Volume) (p : Bytes) : Prop :=
  way p ≠ [] ∧ ((∃ d, find lower v 0 (ascii "data") = some d ∧ find lower v 0 (ascii "system") = some d) ∨
    ∃ d b name n, find lower v 0 (ascii "data") = some d ∧ (way p)[1]? = some b ∧
      (name = ascii "effector" ∨ name = ascii "apps") ∧ b ≠ name ∧ find lower v d b = some n ∧
      find lower v d name = some n)

variable {lower} {v : Volume}

theorem resolve_snoc (parts : List Bytes) (x : Bytes) :
    resolve lower v (parts ++ [x]) = (resolve lower v parts).bind fun d => find lower v d x := by
  simp [resolve, foldlM_append]

variable {n : Nat} {r p w q : Bytes}

theorem find_mem {x : Bytes} (h : find lower v d x = some n) : ∃ e ∈ v d, e.node = n := by
  obtain ⟨e, he, hn⟩ := Option.map_eq_some_iff.mp h
  exact ⟨e, mem_of_find?_eq_some he, hn⟩

theorem Tree.same_way (ht : Tree v) {a b : List Bytes} (ha : resolve lower v a = some n)
    (hb : resolve lower v b = some n) :
    a.length = b.length ∧ ∀ k, resolve lower v (a.take k) = resolve lower v (b.take k) := by
  induction a using List.reverseRecOn generalizing b n with
  | nil =>
    cases ha
    cases b using List.reverseRecOn with
    | nil => exact ⟨rfl, fun _ => rfl⟩
    | append_singleton b y =>
      rw [resolve_snoc] at hb
      obtain ⟨d, -, hd⟩ := Option.bind_eq_some_iff.mp hb
      obtain ⟨e, he, hn⟩ := find_mem hd
      exact absurd hn (ht.root d e he)
  | append_singleton a x ih =>
    have ha' := ha
    rw [resolve_snoc] at ha
    obtain ⟨d, hd, hx⟩ := Option.bind_eq_some_iff.mp ha
    obtain ⟨e, he, hn⟩ := find_mem hx
    cases b using List.reverseRecOn with
    | nil =>
      cases hb
      exact absurd hn (ht.root d e he)
    | append_singleton b y =>
      have hb' := hb
      rw [resolve_snoc] at hb
      obtain ⟨d', hd', hy⟩ := Option.bind_eq_some_iff.mp hb
      obtain ⟨e', he', hn'⟩ := find_mem hy
      obtain ⟨rfl, -⟩ := ht.once d d' e e' he he' (hn.trans hn'.symm)
      obtain ⟨hlen, hway⟩ := ih hd hd'
      refine ⟨by simp [hlen], fun k => ?_⟩
      by_cases hk : k ≤ a.length
      · rw [take_append_of_le_length hk, take_append_of_le_length (hlen ▸ hk)]
        exact hway k
      · rw [take_of_length_le (by simp; omega), take_of_length_le (by simp; omega)]
        exact ha'.trans hb'.symm

/-! ### What is let through -/

theorem path_eq {s : Bytes} (h : path s = some r) :
    r = s ∧ ∃ rest, pathRest s = some rest ∧ (rest = [] ∨ ∀ part ∈ rest.splitOn slash, badPart part = false) := by
  unfold path at h
  split at h
  · cases h
  split at h
  · cases h
  rename_i rest hrest
  split at h
  · cases h
  rename_i hbad
  cases h
  refine ⟨rfl, rest, hrest, ?_⟩
  rw [not_and_or, not_not] at hbad
  simpa using hbad

theorem file_ok {roots : List Bytes} (h : policy.file roots p n = .ok ()) :
    path p = some p ∧ p.getLast? ≠ some slash ∧ isProtected p = false ∧ ∃ r ∈ roots, under p r = true := by
  unfold Policy.file at h
  split at h
  · cases h
  rename_i hpath
  split at h
  · cases h
  rename_i hprot
  split at h
  · rename_i hroot
    rw [not_or] at hpath
    obtain ⟨r, hr⟩ := Option.ne_none_iff_exists'.mp hpath.1
    obtain rfl := (path_eq hr).1
    exact ⟨hr, hpath.2, by simpa using hprot, any_eq_true.mp hroot⟩
  · cases h

theorem pathRest_data (q : Bytes) (hlast : (ascii "data/" ++ q).getLast? ≠ some slash) :
    pathRest (ascii "data/" ++ q) = some (ascii "data/" ++ q) := by
  have hlog : ¬(ascii "data/" ++ q = ascii "log:" ∨ ascii "data/" ++ q = ascii "log:/") := by
    simp [ascii]
  have hno : (ascii "log:/").isPrefixOf (ascii "data/" ++ q) = false := rfl
  have hyes : (ascii "data/").isPrefixOf (ascii "data/" ++ q) = true :=
    isPrefixOf_iff_prefix.mpr (prefix_append _ _)
  simp only [pathRest, if_neg hlog, hno, hyes, Bool.false_eq_true, if_false, if_true, Option.map_some,
    if_neg hlast]

theorem root_length (h : root w = some r) : 5 ≤ r.length := by
  unfold root at h
  split at h
  · cases h
  rename_i hform
  rw [not_or, not_not] at hform
  obtain ⟨rfl, rest, hrest, -⟩ := path_eq h
  simp only [pathRest, Option.map_eq_some_iff] at hrest
  obtain ⟨r, hr, -⟩ := hrest
  split at hr
  · rename_i hlog
    obtain hlog | hlog := hlog
    · rw [hlog] at hform
      exact absurd hform.1 (by decide)
    · rw [hlog]
      decide
  split at hr
  · rename_i hp
    exact (List.isPrefixOf_iff_prefix.mp hp).length_le
  split at hr
  · rename_i hp
    exact (List.isPrefixOf_iff_prefix.mp hp).length_le
  · cases hr

theorem pathRest_below (hr : root w = some r) (hu : under p r = true)
    (hlast : p.getLast? ≠ some slash) : pathRest p ≠ some [] := by
  simp only [under, Bool.and_eq_true, decide_eq_true_eq] at hu
  have hlen : 5 < p.length := Nat.lt_of_le_of_lt (root_length hr) hu.1
  intro h
  simp only [pathRest, Option.map_eq_some_iff] at h
  obtain ⟨rest, hrest, hnil⟩ := h
  split at hrest
  · rename_i hlog
    obtain rfl | rfl := hlog
    · exact absurd hlen (by decide)
    · exact absurd hlen (by decide)
  have hne : rest ≠ [] ∧ rest.getLast? = p.getLast? := by
    split at hrest
    · cases hrest
      have hd : p.drop 5 ≠ [] := by
        rw [Ne, drop_eq_nil_iff]
        omega
      refine ⟨hd, ?_⟩
      rw [getLast?_drop, if_neg (by omega)]
    split at hrest
    · cases hrest
      refine ⟨?_, rfl⟩
      rintro rfl
      exact absurd hlen (by decide)
    · cases hrest
  rw [if_neg (hne.2 ▸ hlast)] at hnil
  exact hne.1 hnil

theorem way_data (hp : (ascii "data/").isPrefixOf p = true) (hlast : p.getLast? ≠ some slash) :
    ∃ q, p = ascii "data" ++ slash :: q ∧ way p = ascii "data" :: q.splitOn slash := by
  obtain ⟨q, rfl⟩ := isPrefixOf_iff_prefix.mp hp
  refine ⟨q, rfl, ?_⟩
  rw [way, if_pos hp, partsOf, pathRest_data q hlast, Option.getD_some]
  rfl

theorem splitOn_head {b : Bytes} (h : (q.splitOn slash).head? = some b) :
    q = b ∨ ∃ rest, q = b ++ slash :: rest := by
  have hq : [slash].intercalate (q.splitOn slash) = q := intercalate_splitOn slash
  cases hs : q.splitOn slash with
  | nil => rw [hs] at h; cases h
  | cons a rest =>
    rw [hs] at h hq
    obtain rfl : a = b := by simpa using h
    cases rest with
    | nil => exact .inl (by simpa using hq.symm)
    | cons c rest =>
      exact .inr ⟨[slash].intercalate (c :: rest), by rw [← hq]; simp⟩

theorem protected_named {name : Bytes} (hn : name = ascii "effector" ∨ name = ascii "apps")
    (hq : q = name ∨ ∃ rest, q = name ++ slash :: rest) : isProtected (ascii "data" ++ slash :: q) = true := by
  obtain rfl | ⟨rest, rfl⟩ := hq
  · obtain rfl | rfl := hn
    · decide
    · decide
  · have hin : ascii "data" ++ slash :: (name ++ [slash]) ∈ protectedTrees := by
      obtain rfl | rfl := hn
      · decide
      · decide
    refine any_eq_true.mpr ⟨_, hin, Bool.or_eq_true_iff.mpr (.inl ?_)⟩
    exact isPrefixOf_iff_prefix.mpr ⟨rest, by simp⟩

theorem resolve_one (x : Bytes) : resolve lower v [x] = find lower v 0 x := by
  simp [resolve]

theorem resolve_two (x y : Bytes) :
    resolve lower v [x, y] = (find lower v 0 x).bind fun d => find lower v d y := by
  have h : resolve lower v ([x] ++ [y]) = _ := resolve_snoc [x] y
  rwa [resolve_one] at h

theorem way_cases (hlast : p.getLast? ≠ some slash) (h : way p ≠ []) :
    ∃ q b rest, p = ascii "data" ++ slash :: q ∧ way p = ascii "data" :: b :: rest ∧
      (q = b ∨ ∃ r, q = b ++ slash :: r) := by
  have hp : (ascii "data/").isPrefixOf p = true := by
    by_contra hno
    exact h (if_neg hno)
  obtain ⟨q, hq, hway⟩ := way_data hp hlast
  cases hs : q.splitOn slash with
  | nil => exact absurd hs (splitOn_ne_nil _ _)
  | cons b rest =>
    rw [hs] at hway
    exact ⟨q, b, rest, hq, hway, splitOn_head (by rw [hs]; rfl)⟩

/-- A path the text of which is not protected enters a protected directory by another spelling only. -/
theorem enters_iff (ht : Tree v) (hlast : p.getLast? ≠ some slash)
    (hprot : isProtected p = false) : Enters lower v p ↔ Misspelt lower v p := by
  have htrees : ∀ t, t ∈ trees ↔ t = [ascii "system"] ∨
      ∃ name, (name = ascii "effector" ∨ name = ascii "apps") ∧ t = [ascii "data", name] := by
    intro t
    simp only [trees, map_cons, map_nil, mem_cons, not_mem_nil, or_false]
    constructor
    · rintro (rfl | rfl | rfl)
      · exact .inr ⟨_, .inl rfl, rfl⟩
      · exact .inr ⟨_, .inr rfl, rfl⟩
      · exact .inl rfl
    · rintro (rfl | ⟨_, rfl | rfl, rfl⟩)
      · exact .inr (.inr rfl)
      · exact .inl rfl
      · exact .inr (.inl rfl)
  constructor
  · rintro ⟨t, hin, k, n, hk, hn⟩
    obtain ⟨hlen, -⟩ := ht.same_way hk hn
    have hway : way p ≠ [] := by
      intro hnil
      rw [hnil, take_nil] at hlen
      obtain rfl | ⟨_, -, rfl⟩ := (htrees t).mp hin
      · cases hlen
      · cases hlen
    obtain ⟨q, b, rest, rfl, hway', hq⟩ := way_cases hlast hway
    refine ⟨hway, ?_⟩
    rw [hway'] at hk hlen ⊢
    obtain rfl | ⟨name, hname, rfl⟩ := (htrees t).mp hin
    · obtain rfl : k = 1 := by
        rw [length_take, length_cons, length_cons, length_singleton] at hlen
        omega
      rw [take_succ_cons, take_zero, resolve_one] at hk
      rw [resolve_one] at hn
      exact .inl ⟨n, hk, hn⟩
    · have htake : (ascii "data" :: b :: rest).take k = [ascii "data", b] := by
        match k with
        | 0 => cases hlen
        | 1 => cases hlen
        | k + 2 =>
          have : (rest.take k).length = 0 := by simpa using hlen
          rw [take_succ_cons, take_succ_cons, length_eq_zero_iff.mp this]
      rw [htake, resolve_two] at hk
      rw [resolve_two] at hn
      obtain ⟨d, hd, hfb⟩ := Option.bind_eq_some_iff.mp hk
      rw [hd, Option.bind_some] at hn
      refine .inr ⟨d, b, name, n, hd, rfl, hname, ?_, hfb, hn⟩
      rintro rfl
      rw [protected_named hname hq] at hprot
      cases hprot
  · rintro ⟨hway, hcase⟩
    obtain ⟨q, b, rest, -, hway', -⟩ := way_cases hlast hway
    rw [hway'] at hcase
    obtain ⟨d, hd, hs⟩ | ⟨d, b', name, n, hd, hb, hname, -, hfb, hfn⟩ := hcase
    · refine ⟨_, (htrees _).mpr (.inl rfl), 1, d, ?_, by rw [resolve_one, hs]⟩
      rw [hway', take_succ_cons, take_zero, resolve_one, hd]
    · obtain rfl : b = b' := by simpa using hb
      refine ⟨_, (htrees _).mpr (.inr ⟨name, hname, rfl⟩), 2, n, ?_, by rw [resolve_two, hd]; exact hfn⟩
      rw [hway', take_succ_cons, take_succ_cons, take_zero, resolve_two, hd]
      exact hfb

/-- A path a policy lets an agent collect or deliver stays below a root its text names, without an empty
part or a dot for one; and it stays out of the protected trees unless the volume takes another spelling
for their names. -/
theorem protected_kept_iff (ht : Tree v) {text p : Bytes} {policy : Policy} {n : Nat} {ask : Ask} {key : Bytes}
    (hparse : parse text = .ok policy)
    (hask : (ask = .collect p n ∧ key = ascii "collect") ∨ (ask = .deliver p n ∧ key = ascii "deliver"))
    (hd : policy.decide ask = .ok ()) :
    (∃ r, Says (text.splitOn newline) key r ∧ under p r = true) ∧
      (∀ part ∈ partsOf p, badPart part = false) ∧ (¬Enters lower v p ↔ ¬Misspelt lower v p) := by
  obtain ⟨hcollect, hdeliver⟩ := parse_says hparse
  obtain ⟨roots, hfile, hroots⟩ : ∃ roots, policy.file roots p n = .ok () ∧
      ∀ r ∈ roots, Says (text.splitOn newline) key r := by
    unfold Policy.decide at hd
    split at hd
    · cases hd
    obtain ⟨rfl, rfl⟩ | ⟨rfl, rfl⟩ := hask
    · exact ⟨_, hd, hcollect⟩
    · exact ⟨_, hd, fun r hr => hdeliver r (Option.mem_toList.mp hr)⟩
  obtain ⟨hpath, hlast, hprot, r, hr, hu⟩ := file_ok hfile
  obtain ⟨-, rest, hrest, hparts⟩ := path_eq hpath
  have hsays := hroots r hr
  refine ⟨⟨r, hsays, hu⟩, ?_, not_congr (enters_iff ht hlast hprot)⟩
  obtain ⟨l, -, w, -, hw⟩ := hsays
  rw [partsOf, hrest, Option.getD_some]
  refine hparts.resolve_left fun hnil => ?_
  exact pathRest_below hw hu hlast (hnil ▸ hrest)

end Names

def allows (text : Bytes) (ask : Ask) : Bool :=
  match parse text with
  | .ok policy => (policy.decide ask).isOk
  | .error _ => false

theorem allows_iff {ask : Ask} :
    allows text ask = true ↔ ∃ policy, parse text = .ok policy ∧ policy.decide ask = .ok () := by
  unfold allows
  cases parse text with
  | error e => simp
  | ok policy => cases hd : policy.decide ask <;> simp [Except.isOk, Except.toBool, hd]

def allData : Bytes := ascii "effector-policy 1\nagent on\ncollect data/\n"

def tokenVolume : Volume
  | 0 => [⟨ascii "data", ascii "DATA", 1⟩]
  | 1 => [⟨ascii "effector", ascii "EFFECTOR", 2⟩]
  | 2 => [⟨ascii "token", ascii "TOKEN", 3⟩]
  | _ => []

theorem tokenVolume_mem {e : Entry} (h : e ∈ tokenVolume d) : e.node = d + 1 := by
  match d with
  | 0 => rw [mem_singleton.mp h]
  | 1 => rw [mem_singleton.mp h]
  | 2 => rw [mem_singleton.mp h]
  | _ + 3 => cases h

theorem tokenVolume_tree : Tree tokenVolume := by
  refine ⟨fun d d' e e' he he' hn => ?_, fun d e he => by rw [tokenVolume_mem he]; omega⟩
  obtain rfl : d = d' := by
    have := tokenVolume_mem he
    have := tokenVolume_mem he'
    omega
  refine ⟨rfl, ?_⟩
  match d with
  | 0 => rw [mem_singleton.mp he, mem_singleton.mp he']
  | 1 => rw [mem_singleton.mp he, mem_singleton.mp he']
  | 2 => rw [mem_singleton.mp he, mem_singleton.mp he']
  | _ + 3 => cases he

theorem notes_kept_iff : ¬Enters (List.map asciiLower) tokenVolume (ascii "data/notes") ↔
    ¬Misspelt (List.map asciiLower) tokenVolume (ascii "data/notes") := by
  obtain ⟨policy, hp, hd⟩ := allows_iff.mp
    (show allows allData (.collect (ascii "data/notes") 5) = true by decide)
  exact (protected_kept_iff tokenVolume_tree hp (.inl ⟨rfl, rfl⟩) hd).2.2

/-- A policy that lets the agent collect from `data/` lets it collect its own token in capitals. -/
theorem token_in_capitals :
    allows allData (.collect (ascii "data/EFFECTOR/token") 5) = true ∧ Tree tokenVolume ∧
      Enters (List.map asciiLower) tokenVolume (ascii "data/EFFECTOR/token") :=
  ⟨by decide, tokenVolume_tree, _, mem_cons_self, 2, 2, by decide, by decide⟩

end MindCore.Gateway
