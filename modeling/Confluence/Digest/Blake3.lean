/-!
# BLAKE3

The unkeyed hash with an output of 32 bytes. The input is cut into chunks of 1024 bytes, each
chunk into blocks of 64. The chunks are the leaves of a binary tree whose left subtrees are
perfect; every inner node compresses the chaining values of its two children, and the root is
compressed with a flag of its own.
-/

namespace Confluence.Blake3

/-- The eight words of a chaining value. -/
abbrev Chain := Vector UInt32 8

/-- The sixteen words of a block, and of the state of a compression. -/
abbrev Block := Vector UInt32 16

def iv : Chain :=
  #v[0x6a09e667, 0xbb67ae85, 0x3c6ef372, 0xa54ff53a, 0x510e527f, 0x9b05688c, 0x1f83d9ab,
    0x5be0cd19]

/-- The order in which a round leaves the words of the block to the next one. -/
def permutation : Vector (Fin 16) 16 :=
  #v[2, 6, 3, 10, 7, 0, 4, 13, 1, 11, 12, 5, 9, 14, 15, 8]

def chunkStart : UInt32 := 1

def chunkEnd : UInt32 := 2

def parentNode : UInt32 := 4

def rootNode : UInt32 := 8

def chunkLength : Nat := 1024

def blockLength : Nat := 64

/-- Turns a word to the right. -/
def rotate (w n : UInt32) : UInt32 := (w >>> n) ||| (w <<< (32 - n))

/-- Mixes two words of the block into four words of the state. -/
def mix (v : Block) (a b c d : Fin 16) (x y : UInt32) : Block :=
  let v := v.set a (v[a] + v[b] + x)
  let v := v.set d (rotate (v[d] ^^^ v[a]) 16)
  let v := v.set c (v[c] + v[d])
  let v := v.set b (rotate (v[b] ^^^ v[c]) 12)
  let v := v.set a (v[a] + v[b] + y)
  let v := v.set d (rotate (v[d] ^^^ v[a]) 8)
  let v := v.set c (v[c] + v[d])
  v.set b (rotate (v[b] ^^^ v[c]) 7)

/-- Mixes the columns of the state, then its diagonals. -/
def round (v m : Block) : Block :=
  let v := mix v 0 4 8 12 m[0] m[1]
  let v := mix v 1 5 9 13 m[2] m[3]
  let v := mix v 2 6 10 14 m[4] m[5]
  let v := mix v 3 7 11 15 m[6] m[7]
  let v := mix v 0 5 10 15 m[8] m[9]
  let v := mix v 1 6 11 12 m[10] m[11]
  let v := mix v 2 7 8 13 m[12] m[13]
  mix v 3 4 9 14 m[14] m[15]

/-- A number of rounds, each with the block permuted once more. -/
def rounds : Nat → Block → Block → Block
  | 0, v, _ => v
  | n + 1, v, m => rounds n (round v m) (permutation.map fun i => m[i])

/-- What a compression takes in, kept until it is known whether it is the last one. -/
structure Node where
  chain : Chain
  block : Block
  /-- The place of the chunk; zero for inner nodes. -/
  counter : UInt64
  /-- The bytes of the block that belong to the input. -/
  length : UInt32
  flags : UInt32

namespace Node

/-- The chaining value of a node, with further flags. -/
def compress (n : Node) (flags : UInt32) : Chain :=
  let start : Block :=
    (n.chain ++ #v[iv[0], iv[1], iv[2], iv[3], n.counter.toUInt32,
      (n.counter >>> 32).toUInt32, n.length, n.flags ||| flags]).cast rfl
  let v := rounds 7 start n.block
  Vector.ofFn fun i : Fin 8 =>
    v.get ⟨i.val, by omega⟩ ^^^ v.get ⟨i.val + 8, by omega⟩

/-- The chaining value that a node hands to its parent. -/
def chaining (n : Node) : Chain := n.compress 0

/-- The inner node over two chaining values. -/
def parent (left right : Chain) : Node :=
  ⟨iv, (left ++ right).cast rfl, 0, 64, parentNode⟩

end Node

/-- The word of four bytes, the lowest first. -/
def word (a b c d : UInt8) : UInt32 :=
  a.toUInt32 ||| (b.toUInt32 <<< 8) ||| (c.toUInt32 <<< 16) ||| (d.toUInt32 <<< 24)

/-- The bytes of a word, the lowest first. -/
def wordBytes (w : UInt32) : List UInt8 :=
  [w.toUInt8, (w >>> 8).toUInt8, (w >>> 16).toUInt8, (w >>> 24).toUInt8]

/-- At most 64 bytes as a block, filled up with zeros. -/
def blockOf (bytes : List UInt8) : Block :=
  let a := bytes.toArray
  Vector.ofFn fun i : Fin 16 =>
    word (a.getD (4 * i.val) 0) (a.getD (4 * i.val + 1) 0) (a.getD (4 * i.val + 2) 0)
      (a.getD (4 * i.val + 3) 0)

/-- Cuts a list into pieces of a length, the last of which may be shorter. The empty list is one
empty piece. -/
def pieces (length : Nat) (l : List UInt8) : List (List UInt8) :=
  if _ : 0 < length ∧ length < l.length then
    l.take length :: pieces length (l.drop length)
  else [l]
termination_by l.length
decreasing_by simp only [List.length_drop]; omega

/-- The last block of a chunk as a node; the blocks before it are compressed into its chaining
value. -/
def chunkBlocks (counter : UInt64) : Chain → UInt32 → List (List UInt8) → Node
  | chain, flags, [] => ⟨chain, blockOf [], counter, 0, flags ||| chunkEnd⟩
  | chain, flags, [b] =>
    ⟨chain, blockOf b, counter, UInt32.ofNat b.length, flags ||| chunkEnd⟩
  | chain, flags, b :: l =>
    let node : Node := ⟨chain, blockOf b, counter, UInt32.ofNat b.length, flags⟩
    chunkBlocks counter node.chaining 0 l

/-- The node of a chunk. -/
def chunk (counter : UInt64) (bytes : List UInt8) : Node :=
  chunkBlocks counter iv chunkStart (pieces blockLength bytes)

/-- A perfect subtree: its height and its chaining value. -/
abbrev Subtree := Nat × Chain

/-- Puts a subtree to the right of others, whose heights descend towards it; two of one height
become one that is higher. -/
def attach (t : Subtree) : List Subtree → List Subtree
  | [] => [t]
  | s :: l =>
    if s.1 = t.1 then attach (t.1 + 1, (Node.parent s.2 t.2).chaining) l else t :: s :: l

/-- The root over the chunks from a place on, with perfect subtrees to the left of them. -/
def root : List Subtree → Nat → List (List UInt8) → Node
  | left, counter, [] => finish (chunk (UInt64.ofNat counter) []) left
  | left, counter, [c] => finish (chunk (UInt64.ofNat counter) c) left
  | left, counter, c :: l =>
    root (attach (0, (chunk (UInt64.ofNat counter) c).chaining) left) (counter + 1) l
where
  /-- Joins the last node with the subtrees to the left of it, the nearest first. -/
  finish (n : Node) (left : List Subtree) : Node :=
    left.foldl (fun n s => Node.parent s.2 n.chaining) n

def hash (bytes : List UInt8) : List UInt8 :=
  ((root [] 0 (pieces chunkLength bytes)).compress rootNode).toList.flatMap wordBytes

theorem length_hash (bytes : List UInt8) : (hash bytes).length = 32 := by
  have h : ∀ l : List UInt32, (l.flatMap wordBytes).length = 4 * l.length := by
    intro l
    induction l with
    | nil => rfl
    | cons w l ih =>
      rw [List.flatMap_cons, List.length_append, ih]
      simp only [wordBytes, List.length_cons, List.length_nil]
      omega
  rw [hash, h]
  simp

end Confluence.Blake3
