/-!
# BLAKE3

The 256-bit BLAKE3 digest. An input is cut into chunks of 1024 bytes and each chunk into blocks of
64 bytes; the chunks are the leaves of a binary tree whose left subtrees are complete. Every leaf and
every inner node is a `Node`: its last block, not compressed yet, because the root of the tree is
compressed with a flag of its own.
-/

namespace Callflow
namespace Blake3

/-- The first words of the square roots of the first eight primes. -/
def initialWords : Vector UInt32 8 :=
  #v[0x6A09E667, 0xBB67AE85, 0x3C6EF372, 0xA54FF53A, 0x510E527F, 0x9B05688C, 0x1F83D9AB, 0x5BE0CD19]

/-- Where the words of a block go from one round to the next. -/
def schedule : Vector (Fin 16) 16 := #v[2, 6, 3, 10, 7, 0, 4, 13, 1, 11, 12, 5, 9, 14, 15, 8]

/-- The flag of a chunk's first block. -/
def chunkStart : UInt32 := 1

/-- The flag of a chunk's last block. -/
def chunkEnd : UInt32 := 2

/-- The flag of an inner node. -/
def parent : UInt32 := 4

/-- The flag of the root. -/
def root : UInt32 := 8

def rotate (w n : UInt32) : UInt32 := (w >>> n) ||| (w <<< (32 - n))

/-- Mixes two words of a block into four words of the state. -/
def mix (s : Vector UInt32 16) (a b c d : Fin 16) (x y : UInt32) : Vector UInt32 16 :=
  let va := s[a] + s[b] + x
  let vd := rotate (s[d] ^^^ va) 16
  let vc := s[c] + vd
  let vb := rotate (s[b] ^^^ vc) 12
  let va := va + vb + y
  let vd := rotate (vd ^^^ va) 8
  let vc := vc + vd
  let vb := rotate (vb ^^^ vc) 7
  (((s.set a va).set b vb).set c vc).set d vd

/-- One round: the columns of the state, then its diagonals. -/
def round (s m : Vector UInt32 16) : Vector UInt32 16 :=
  let s := mix s 0 4 8 12 m[0] m[1]
  let s := mix s 1 5 9 13 m[2] m[3]
  let s := mix s 2 6 10 14 m[4] m[5]
  let s := mix s 3 7 11 15 m[6] m[7]
  let s := mix s 0 5 10 15 m[8] m[9]
  let s := mix s 1 6 11 12 m[10] m[11]
  let s := mix s 2 7 8 13 m[12] m[13]
  mix s 3 4 9 14 m[14] m[15]

/-- Some rounds in a row; the block is rearranged after each. -/
def rounds : Nat → Vector UInt32 16 → Vector UInt32 16 → Vector UInt32 16
  | 0, s, _ => s
  | n + 1, s, m => rounds n (round s m) (schedule.map fun i => m[i])

/-- A block with everything that its compression depends on. -/
structure Node where
  chain : Vector UInt32 8
  block : Vector UInt32 16
  counter : UInt64
  length : UInt32
  flags : UInt32

/-- The chaining value of a node. -/
def Node.compress (n : Node) (flags : UInt32) : Vector UInt32 8 :=
  let h := n.chain
  let i := initialWords
  let s := rounds 7 #v[h[0], h[1], h[2], h[3], h[4], h[5], h[6], h[7], i[0], i[1], i[2], i[3],
    n.counter.toUInt32, (n.counter >>> 32).toUInt32, n.length, n.flags ||| flags] n.block
  #v[s[0] ^^^ s[8], s[1] ^^^ s[9], s[2] ^^^ s[10], s[3] ^^^ s[11], s[4] ^^^ s[12], s[5] ^^^ s[13],
    s[6] ^^^ s[14], s[7] ^^^ s[15]]

/-- A byte of the input, zero past its end. -/
def byteAt (bytes : ByteArray) (i : Nat) : UInt32 :=
  if h : i < bytes.size then bytes[i].toUInt32 else 0

/-- Four bytes as a word, the lowest first. -/
def wordAt (bytes : ByteArray) (i : Nat) : UInt32 :=
  byteAt bytes i ||| (byteAt bytes (i + 1) <<< 8) ||| (byteAt bytes (i + 2) <<< 16) |||
    (byteAt bytes (i + 3) <<< 24)

/-- The block that begins at a byte. -/
def blockAt (bytes : ByteArray) (i : Nat) : Vector UInt32 16 :=
  Vector.ofFn fun k => wordAt bytes (i + 4 * k.val)

/-- The blocks of a chunk, from the one at byte `start` on; `size` bytes of the chunk are left. -/
def chunkFrom (bytes : ByteArray) (counter : UInt64) (chain : Vector UInt32 8) (flags : UInt32)
    (start size : Nat) : Node :=
  if size ≤ 64 then
    ⟨chain, blockAt bytes start, counter, size.toUInt32, flags ||| chunkEnd⟩
  else
    let node : Node := ⟨chain, blockAt bytes start, counter, 64, flags⟩
    chunkFrom bytes counter (node.compress 0) 0 (start + 64) (size - 64)
termination_by size

/-- The chunk with the given number. -/
def chunk (bytes : ByteArray) (number : Nat) : Node :=
  let start := 1024 * number
  chunkFrom bytes number.toUInt64 initialWords chunkStart start (min 1024 (bytes.size - start))

/-- The inner node above two nodes. -/
def join (left right : Node) : Node :=
  let l := left.compress 0
  let r := right.compress 0
  ⟨initialWords, #v[l[0], l[1], l[2], l[3], l[4], l[5], l[6], l[7], r[0], r[1], r[2], r[3], r[4],
    r[5], r[6], r[7]], 0, 64, parent⟩

/-- How many of `count` chunks go into the left subtree: the greatest power of two below. -/
def leftSize (count : Nat) : Nat := Nat.pow 2 (Nat.log2 (count - 1))

theorem leftSize_lt {count : Nat} (h : 1 < count) : leftSize count < count := by
  have hne : count - 1 ≠ 0 := by omega
  have half : leftSize count ≤ count - 1 := (Nat.le_log2 hne).1 (Nat.le_refl (Nat.log2 (count - 1)))
  omega

theorem leftSize_pos (count : Nat) : 0 < leftSize count := Nat.two_pow_pos _

/-- The tree over `count` chunks. -/
def tree (bytes : ByteArray) (first count : Nat) : Node :=
  if h : 1 < count then
    -- both subtrees are smaller than the whole
    have : leftSize count < count := leftSize_lt h
    have : count - leftSize count < count :=
      Nat.sub_lt (Nat.lt_trans Nat.zero_lt_one h) (leftSize_pos count)
    join (tree bytes first (leftSize count))
      (tree bytes (first + leftSize count) (count - leftSize count))
  else chunk bytes first
termination_by count
decreasing_by
  · assumption
  · assumption

/-- The digest as eight words. -/
def digest (bytes : ByteArray) : Vector UInt32 8 :=
  (tree bytes 0 ((bytes.size + 1023) / 1024)).compress root

def hexByte (b : UInt32) : List Char :=
  let n := b.toNat % 256
  [Nat.digitChar (n / 16), Nat.digitChar (n % 16)]

def hex (bytes : ByteArray) : String :=
  String.ofList <| (digest bytes).toList.flatMap fun w =>
    hexByte w ++ hexByte (w >>> 8) ++ hexByte (w >>> 16) ++ hexByte (w >>> 24)

end Blake3
end Callflow
