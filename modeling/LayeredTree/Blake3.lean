import LayeredTree.Bytes

/-!
The BLAKE3 hash with 32 bytes of output: blocks of 64 bytes, chunks of 1024 bytes, and a binary
tree over the chunks whose left part is always a full power of two.
-/

set_option autoImplicit false

namespace LayeredTree.Blake3

def initialWords : Array UInt32 :=
  #[0x6A09E667, 0xBB67AE85, 0x3C6EF372, 0xA54FF53A, 0x510E527F, 0x9B05688C, 0x1F83D9AB, 0x5BE0CD19]

def permutation : Array Nat := #[2, 6, 3, 10, 7, 0, 4, 13, 1, 11, 12, 5, 9, 14, 15, 8]

def chunkStart : UInt32 := 1
def chunkEnd : UInt32 := 2
def parentNode : UInt32 := 4
def rootNode : UInt32 := 8

def rotate (w n : UInt32) : UInt32 := (w >>> n) ||| (w <<< (32 - n))

def mix (s : Array UInt32) (a b c d : Nat) (x y : UInt32) : Array UInt32 :=
  let at' (s : Array UInt32) (i : Nat) := s.getD i 0
  let s := s.setIfInBounds a (at' s a + at' s b + x)
  let s := s.setIfInBounds d (rotate (at' s d ^^^ at' s a) 16)
  let s := s.setIfInBounds c (at' s c + at' s d)
  let s := s.setIfInBounds b (rotate (at' s b ^^^ at' s c) 12)
  let s := s.setIfInBounds a (at' s a + at' s b + y)
  let s := s.setIfInBounds d (rotate (at' s d ^^^ at' s a) 8)
  let s := s.setIfInBounds c (at' s c + at' s d)
  s.setIfInBounds b (rotate (at' s b ^^^ at' s c) 7)

def round (s m : Array UInt32) : Array UInt32 :=
  let w (i : Nat) := m.getD i 0
  let s := mix s 0 4 8 12 (w 0) (w 1)
  let s := mix s 1 5 9 13 (w 2) (w 3)
  let s := mix s 2 6 10 14 (w 4) (w 5)
  let s := mix s 3 7 11 15 (w 6) (w 7)
  let s := mix s 0 5 10 15 (w 8) (w 9)
  let s := mix s 1 6 11 12 (w 10) (w 11)
  let s := mix s 2 7 8 13 (w 12) (w 13)
  mix s 3 4 9 14 (w 14) (w 15)

def permute (m : Array UInt32) : Array UInt32 := permutation.map fun i => m.getD i 0

def rounds : Nat → Array UInt32 → Array UInt32 → Array UInt32
  | 0, s, _ => s
  | n + 1, s, m => rounds n (round s m) (permute m)

/-- Words of a block, each from four bytes with the low byte first; missing bytes are zero. -/
def words : Nat → Bytes → List UInt32
  | 0, _ => []
  | n + 1, b =>
    let byte (i : Nat) : UInt32 := (b.getD i 0).toUInt32
    (byte 0 ||| (byte 1 <<< 8) ||| (byte 2 <<< 16) ||| (byte 3 <<< 24)) :: words n (b.drop 4)

def wordBytes (w : UInt32) : Bytes :=
  [w.toUInt8, (w >>> 8).toUInt8, (w >>> 16).toUInt8, (w >>> 24).toUInt8]

/-- The chaining value after one block. -/
def compress (cv block : Array UInt32) (counter : Nat) (length flags : UInt32) : Array UInt32 :=
  let s := cv ++ initialWords.extract 0 4 ++
    #[UInt32.ofNat (counter % 2 ^ 32), UInt32.ofNat (counter / 2 ^ 32 % 2 ^ 32), length, flags]
  let s := rounds 7 s block
  (Array.range 8).map fun i => s.getD i 0 ^^^ s.getD (i + 8) 0

structure Output where
  cv : Array UInt32
  block : Array UInt32
  counter : Nat
  length : UInt32
  flags : UInt32

def Output.chaining (o : Output) : Array UInt32 :=
  compress o.cv o.block o.counter o.length o.flags

def Output.hash (o : Output) : Bytes :=
  (compress o.cv o.block 0 o.length (o.flags ||| rootNode)).toList.flatMap wordBytes

/-- Blocks of one chunk; the last block is left as output. The count bounds the blocks. -/
def chunkBlocks (counter : Nat) : Nat → Array UInt32 → UInt32 → Bytes → Output
  | 0, cv, flags, b => ⟨cv, (words 16 b).toArray, counter, UInt32.ofNat b.length, flags ||| chunkEnd⟩
  | n + 1, cv, flags, b =>
    let block := b.take 64
    let rest := b.drop 64
    if rest.isEmpty then
      ⟨cv, (words 16 block).toArray, counter, UInt32.ofNat block.length, flags ||| chunkEnd⟩
    else
      chunkBlocks counter n (compress cv (words 16 block).toArray counter 64 flags) 0 rest

def chunk (counter : Nat) (b : Bytes) : Output := chunkBlocks counter 15 initialWords chunkStart b

def parent (left right : Array UInt32) : Output :=
  ⟨initialWords, left ++ right, 0, 64, parentNode⟩

/-- The input cut into chunks; an empty input is one empty chunk. The count bounds the chunks. -/
def chunks : Nat → Bytes → List Bytes
  | 0, b => [b]
  | n + 1, b =>
    let rest := b.drop 1024
    if rest.isEmpty then [b] else b.take 1024 :: chunks n rest

/-- The greatest power of two below a number, starting from a given power. -/
def leftSize : Nat → Nat → Nat → Nat
  | 0, power, _ => power
  | fuel + 1, power, n => if 2 * power < n then leftSize fuel (2 * power) n else power

/-- The node over a list of chunk nodes. The count bounds the depth of the tree. -/
def subtree : Nat → List Output → Output
  | _, [] => chunk 0 []
  | _, [o] => o
  | 0, o :: _ => o
  | depth + 1, os =>
    let size := leftSize os.length 1 os.length
    parent (subtree depth (os.take size)).chaining (subtree depth (os.drop size)).chaining

def hash (b : Bytes) : Bytes :=
  let pieces := chunks b.length b
  (subtree pieces.length (pieces.zipIdx.map fun (piece, i) => chunk i piece)).hash

theorem wordBytes_length (w : UInt32) : (wordBytes w).length = 4 := rfl

theorem compress_size (cv block : Array UInt32) (counter : Nat) (length flags : UInt32) :
    (compress cv block counter length flags).size = 8 := by
  simp [compress]

theorem flatMap_wordBytes_length (ws : List UInt32) :
    (ws.flatMap wordBytes).length = 4 * ws.length := by
  induction ws with
  | nil => rfl
  | cons w ws ih => simp [wordBytes_length, ih]; omega

theorem hash_length (b : Bytes) : (hash b).length = 32 := by
  rw [hash, Output.hash, flatMap_wordBytes_length, Array.length_toList, compress_size]

end LayeredTree.Blake3
