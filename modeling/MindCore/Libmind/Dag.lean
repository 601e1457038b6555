import MindCore.Lib.Pieces
import MindCore.Libmind.Cbor

/-!
# Objects larger than a block

`libmind/src/dag.rs`: the bytes of an object are cut into chunks, each a `raw` block, and
nodes of up to `fanout` links stand above them. A builder writes the blocks while the bytes
come; the readers derive the height of the tree and the span of each link from the size
in the root alone.
-/

namespace MindCore.Dag

def chunk : Nat := 16384
def fanout : Nat := 256
def version : Nat := 1
def linkBytes : Nat := 2 + 2 + 1 + Cid.bytes
def levels : Nat := 8

/-- What the readers need of where blocks are kept. `get` copies into a buffer of the given
length. -/
class BlockSource (B : Type) where
  get : Cid → Nat → Proc Error B Bytes
  has : Cid → Proc Error B Bool

class Blocks (B : Type) extends BlockSource B where
  put : Codec → Bytes → Proc Error B Cid

def heightFrom (size : Nat) : Nat → Nat → Nat → Nat
  | 0, h, _ => h
  | rounds + 1, h, capacity =>
    if size > capacity then heightFrom size rounds (h + 1) (capacity * fanout) else h

def height (size : Nat) : Nat := heightFrom size levels 0 chunk

/-- Bytes under one child of a node of height `h`, at least 1. -/
def capacity (h : Nat) : Nat := chunk * fanout ^ (h - 1)

structure Node where
  size : Nat
  links : List Cid
deriving DecidableEq

instance : Inhabited Cid := ⟨⟨.raw, .sha2_256, ⟨List.replicate 32 0, by simp⟩⟩⟩

/-- Link `i`; past the last one the source would panic. -/
def Node.link (n : Node) (i : Nat) : Cid := n.links.getD i default

/-- Whether the node fits a place of height `h` holding `size` bytes. -/
def Node.check (n : Node) (h size : Nat) : Except Error PUnit :=
  let codec : Codec := if h = 1 then .raw else .dagCbor
  ensure (n.size = size ∧ n.links.length = divCeil size (capacity h) ∧
    ∀ cid ∈ n.links, cid.codec = codec) .shape

def keyV : Bytes := [0x76]
def keySize : Bytes := [0x73, 0x69, 0x7a, 0x65]
def keyLinks : Bytes := [0x6c, 0x69, 0x6e, 0x6b, 0x73]

def encode (size : Nat) (links : List Cid) : Bytes :=
  Sink.head 5 3 ++ Sink.text keyV ++ Sink.head 0 version ++ Sink.text keySize ++
    Sink.head 0 size ++ Sink.text keyLinks ++ Sink.head 4 links.length ++ links.flatMap Sink.link

def readLinks : Nat → Bytes → Except Error (List Cid × Bytes)
  | 0, i => .ok ([], i)
  | count + 1, i => do
    let (cid, i) ← In.link i
    let (cids, i) ← readLinks count i
    .ok (cid :: cids, i)

def decode (bytes : Bytes) : Except Error Node := do
  let (entries, i) ← In.expect 5 bytes
  let i ← In.key keyV i
  let (v, i) ← In.expect 0 i
  ensure (v = version) .version
  ensure (entries = 3) .format
  let i ← In.key keySize i
  let (size, i) ← In.expect 0 i
  let i ← In.key keyLinks i
  let (count, i) ← In.expect 4 i
  ensure (count ≠ 0 ∧ count ≤ fanout) .format
  let (links, rest) ← readLinks count i
  ensure (rest = [] ∧ i.length - rest.length = count * linkBytes) .format
  -- Shortest integer forms: the encoding of what was read must be the bytes themselves.
  ensure (encode size links = bytes) .format
  .ok ⟨size, links⟩

section Readers
variable [Sha256] {B : Type} [BlockSource B]

def fetch (cid : Cid) : Proc Error B Bytes := do
  let data ← BlockSource.get cid chunk
  ensure (cid.Matches data) .corrupt
  return data

def node (cid : Cid) : Proc Error B Node := do
  ensure (cid.codec = .dagCbor) .shape
  let data ← fetch cid
  Proc.ofExcept (decode data)

def size (root : Cid) : Proc Error B Nat :=
  match root.codec with
  | .raw => do
    let data ← fetch root
    return data.length
  | .dagCbor => do
    let n ← node root
    ensure (height n.size ≠ 0) .shape
    Proc.ofExcept (n.check (height n.size) n.size)
    return n.size

/-- Down from a node of height `h` holding `held` bytes to the chunk over byte `within` of
it: the chunk's CID, the bytes it holds and the place in it. -/
def leaf : Nat → Cid → Nat → Nat → Proc Error B (Cid × Nat × Nat)
  | 0, cid, held, within => pure (cid, held, within)
  | h + 1, cid, held, within => do
    let n ← node cid
    Proc.ofExcept (n.check (h + 1) held)
    let c := capacity (h + 1)
    let child := within / c
    leaf h (n.link child) (min c (held - child * c)) (within - child * c)

/-- The loop of `read_at`, with what it has read so far; a round reads a byte at least, so
`len` rounds are enough. -/
def readFrom (root : Cid) (total offset len : Nat) : Nat → Bytes → Proc Error B Bytes
  | 0, out => pure out
  | rounds + 1, out =>
    if out.length < len ∧ offset + out.length < total then do
      let (cid, held, within) ← leaf (height total) root total (offset + out.length)
      let data ← fetch cid
      ensure (cid.codec = .raw ∧ data.length = held) .shape
      let taken := min (data.length - within) (len - out.length)
      readFrom root total offset len rounds (out ++ (data.drop within).take taken)
    else pure out

def readAt (root : Cid) (offset len : Nat) : Proc Error B Bytes := do
  let total ← size root
  ensure (offset ≤ total) .tooLarge
  readFrom root total offset len len []

/-- Down from a node of height `k + 1` to the node of height 1 over byte `within`, each node
on the way below the first visited: that node and the bytes it holds. -/
def lowest (visit : Cid → Proc Error B PUnit) : Nat → Cid → Nat → Nat → Proc Error B (Node × Nat)
  | 0, cid, held, _ => do
    let n ← node cid
    Proc.ofExcept (n.check 1 held)
    return (n, held)
  | k + 1, cid, held, within => do
    let n ← node cid
    Proc.ofExcept (n.check (k + 2) held)
    let c := capacity (k + 2)
    let child := within / c
    visit (n.link child)
    lowest visit k (n.link child) (min c (held - child * c)) (within - child * c)

def span : Nat := capacity 2

def chunkOf (each : Nat → Bytes → Proc Error B PUnit) (offset held i : Nat) (link : Cid) :
    Proc Error B PUnit := do
  let data ← fetch link
  ensure (link.codec = .raw ∧ data.length = min chunk (held - i * chunk)) .shape
  each (offset + i * chunk) data

def chunksUnder (each : Nat → Bytes → Proc Error B PUnit) (root : Cid) (total under : Nat) :
    Proc Error B PUnit := do
  let low ← lowest (fun _ => pure ⟨⟩) (height total - 1) root total (under * span)
  Proc.each (fun p => chunkOf each (under * span) low.2 p.2 p.1) low.1.links.zipIdx

/-- Reads the object `root` in order, a chunk at a time, with the chunk's offset. -/
def eachChunk (root : Cid) (each : Nat → Bytes → Proc Error B PUnit) : Proc Error B Nat := do
  let total ← size root
  if root.codec = .raw then do
    let data ← fetch root
    each 0 data
    return total
  else do
    Proc.each (chunksUnder each root total) (List.range (divCeil total span))
    return total

/-- The way down to one node of height 1 of the object `root`, and that node's chunks. -/
def walkUnder (visit : Cid → Proc Error B PUnit) (root : Cid) (total under : Nat) : Proc Error B PUnit := do
  let low ← lowest visit (height total - 1) root total (under * span)
  Proc.each visit low.1.links

/-- Visits every block of the object `root`: each node, then read and checked, and each chunk. -/
def walk (root : Cid) (visit : Cid → Proc Error B PUnit) : Proc Error B Nat := do
  visit root
  let total ← size root
  if root.codec = .raw then return total
  else do
    Proc.each (walkUnder visit root total) (List.range (divCeil total span))
    return total

def complete (root : Cid) : Proc Error B Nat :=
  walk root fun cid => do
    let held ← BlockSource.has cid
    ensure (held = true) .notFound

end Readers

structure Entry where
  cid : Cid
  size : Nat
deriving DecidableEq

/-- The bytes of a chunk not yet written, the total, and the finished subtrees of each height. -/
structure Builder where
  chunk : Bytes
  total : Nat
  levels : List (List Entry)

namespace Builder

def new : Builder := ⟨[], 0, List.replicate Dag.levels []⟩

section
variable [Sha256] {B : Type} [Blocks B]

def put (codec : Codec) (data : Bytes) : Proc Error B Cid := do
  let cid ← Blocks.put codec data
  ensure (cid = Cid.of codec data) .corrupt
  return cid

def wrap (entries : List Entry) : Proc Error B Entry := do
  let size := (entries.map Entry.size).sum
  let cid ← put .dagCbor (encode size (entries.map Entry.cid))
  return ⟨cid, size⟩

/-- Adds a subtree to the lowest of `levels`; a full level becomes a node one higher. Past the
last level the source would panic. -/
def push (entry : Entry) : List (List Entry) → Proc Error B (List (List Entry))
  | [] => throw .tooLarge
  | level :: higher =>
    let level := level ++ [entry]
    if level.length = fanout then do
      let up ← wrap level
      let higher ← push up higher
      return [] :: higher
    else pure (level :: higher)

def flushChunk (b : Builder) : Proc Error B Builder := do
  let cid ← put .raw b.chunk
  let levels ← push ⟨cid, b.chunk.length⟩ b.levels
  return { b with chunk := [], levels := levels }

/-- The loop of `write`: fills the chunk, writes it when it is full and more comes. A round
takes a byte at least, so as many rounds as bytes are enough. -/
def fill : Nat → Builder → Bytes → Proc Error B Builder
  | 0, b, _ => pure b
  | rounds + 1, b, data =>
    if data = [] then pure b
    else do
      let b ← (if b.chunk.length = Dag.chunk then flushChunk b else pure b)
      let taken := min data.length (Dag.chunk - b.chunk.length)
      fill rounds { b with chunk := b.chunk ++ data.take taken } (data.drop taken)

/-- Takes more of the bytes of the object; `total` is a `u64`. -/
def write (b : Builder) (data : Bytes) : Proc Error B Builder := do
  ensure (b.total + data.length < 2 ^ 64) .tooLarge
  fill data.length { b with total := b.total + data.length } data

/-- The loop of `finish` over the levels: what is left at each is wrapped, up to the one
subtree that is the root. -/
def top : Nat → List (List Entry) → Proc Error B Entry
  | 0, _ => throw .tooLarge
  | _, [] => throw .tooLarge
  | rounds + 1, level :: higher =>
    if level = [] then top rounds higher
    else if h : level.length = 1 ∧ ∀ l ∈ higher, l = [] then
      pure (level.head (List.ne_nil_of_length_pos (by omega)))
    else do
      let up ← wrap level
      let higher ← push up higher
      top rounds higher

/-- Writes what is left and the nodes above it: the root and the size of the object. -/
def finish (b : Builder) : Proc Error B (Cid × Nat) := do
  let b ← (if b.chunk ≠ [] ∨ b.total = 0 then flushChunk b else pure b)
  let entry ← top Dag.levels b.levels
  return (entry.cid, b.total)

def writeAll : Builder → List Bytes → Proc Error B Builder
  | b, [] => pure b
  | b, part :: parts => do
    let b ← write b part
    writeAll b parts

end

end Builder

end MindCore.Dag
