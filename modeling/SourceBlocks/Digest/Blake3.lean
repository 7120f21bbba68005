/-! # BLAKE3-256

The hash of a byte string: chunks of 1024 bytes are hashed block by block, and their chaining values
are joined in pairs, level by level, until one root is left. -/

namespace SourceBlocks.Digest

/-- Eight words that summarise a chunk or a subtree. -/
abbrev ChainingValue := Array UInt32

def initialValue : ChainingValue :=
  #[0x6A09E667, 0xBB67AE85, 0x3C6EF372, 0xA54FF53A, 0x510E527F, 0x9B05688C, 0x1F83D9AB, 0x5BE0CD19]

def messagePermutation : List Nat :=
  [2, 6, 3, 10, 7, 0, 4, 13, 1, 11, 12, 5, 9, 14, 15, 8]

namespace Flag

def chunkStart : UInt32 := 1
def chunkEnd : UInt32 := 2
def parent : UInt32 := 4
def root : UInt32 := 8

end Flag

def rotateRight (w : UInt32) (n : UInt32) : UInt32 :=
  (w >>> n) ||| (w <<< (32 - n))

/-- Mixes four words of the state with two words of the message. -/
def mix (v : Array UInt32) (a b c d : Nat) (x y : UInt32) : Array UInt32 :=
  let va := v.getD a 0 + v.getD b 0 + x
  let vd := rotateRight (v.getD d 0 ^^^ va) 16
  let vc := v.getD c 0 + vd
  let vb := rotateRight (v.getD b 0 ^^^ vc) 12
  let va := va + vb + y
  let vd := rotateRight (vd ^^^ va) 8
  let vc := vc + vd
  let vb := rotateRight (vb ^^^ vc) 7
  (((v.setIfInBounds a va).setIfInBounds b vb).setIfInBounds c vc).setIfInBounds d vd

/-- One round: four columns, then four diagonals. -/
def mixRound (v m : Array UInt32) : Array UInt32 :=
  [(0, 4, 8, 12), (1, 5, 9, 13), (2, 6, 10, 14), (3, 7, 11, 15),
   (0, 5, 10, 15), (1, 6, 11, 12), (2, 7, 8, 13), (3, 4, 9, 14)].zipIdx.foldl
    (fun v ((a, b, c, d), i) => mix v a b c d (m.getD (2 * i) 0) (m.getD (2 * i + 1) 0)) v

def laterRounds : Nat → Array UInt32 → Array UInt32 → Array UInt32
  | 0, v, _ => v
  | n + 1, v, m =>
    let m := (messagePermutation.map (m.getD · 0)).toArray
    laterRounds n (mixRound v m) m

/-- The compression function, cut to its chaining value. -/
def compress (cv : ChainingValue) (block : Array UInt32) (counter : Nat) (length flags : UInt32) :
    ChainingValue :=
  let v := cv ++ initialValue.take 4 ++
    #[counter.toUInt32, (counter / Nat.pow 2 32).toUInt32, length, flags]
  let v := laterRounds 6 (mixRound v block) block
  ((List.range 8).map fun i => v.getD i 0 ^^^ v.getD (i + 8) 0).toArray

/-- Sixteen little-endian words of at most 64 bytes, filled up with zeros. -/
def blockWords (bytes : List UInt8) : Array UInt32 :=
  let b := bytes.toArray
  ((List.range 16).map fun i =>
    (b.getD (4 * i) 0).toUInt32 ||| ((b.getD (4 * i + 1) 0).toUInt32 <<< 8) |||
      ((b.getD (4 * i + 2) 0).toUInt32 <<< 16) ||| ((b.getD (4 * i + 3) 0).toUInt32 <<< 24)).toArray

/-- Cuts a list into pieces of `n` members, the last one possibly shorter; at least one piece. -/
def pieces (n : Nat) (xs : List UInt8) : List (List UInt8) :=
  go ((xs.length + n - 1) / n) xs
where
  go : Nat → List UInt8 → List (List UInt8)
    | 0, _ => [[]]
    | 1, xs => [xs]
    | k + 2, xs => xs.take n :: go (k + 1) (xs.drop n)

/-- The chaining value of one chunk; `final` is added to the flags of its last block. -/
def hashChunk (index : Nat) (final : UInt32) (chunk : List UInt8) : ChainingValue :=
  go initialValue Flag.chunkStart (pieces 64 chunk)
where
  go : ChainingValue → UInt32 → List (List UInt8) → ChainingValue
    | cv, _, [] => cv
    | cv, start, [block] =>
      compress cv (blockWords block) index block.length.toUInt32 (start ||| Flag.chunkEnd ||| final)
    | cv, start, block :: rest =>
      go (compress cv (blockWords block) index 64 start) 0 rest

def joinPair (final : UInt32) (left right : ChainingValue) : ChainingValue :=
  compress initialValue (left ++ right) 0 64 (Flag.parent ||| final)

/-- One level up: neighbours are joined and an odd one at the end stays. -/
def joinLevel : List ChainingValue → List ChainingValue
  | a :: b :: rest => joinPair 0 a b :: joinLevel rest
  | cvs => cvs

theorem length_joinLevel (cvs : List ChainingValue) :
    (joinLevel cvs).length = (cvs.length + 1) / 2 := by
  fun_induction joinLevel cvs with
  | case1 a b rest ih => simp [ih]; omega
  | case2 cvs h =>
    match cvs, h with
    | [], _ => rfl
    | [_], _ => simp
    | a :: b :: rest, h => exact absurd rfl (h a b rest)

/-- Joins levels until two subtrees are left; these make the root. -/
def joinAll : List ChainingValue → ChainingValue
  | [] => initialValue
  | [cv] => cv
  | [a, b] => joinPair Flag.root a b
  | a :: b :: c :: rest => joinAll (joinLevel (a :: b :: c :: rest))
termination_by cvs => cvs.length
decreasing_by
  rw [length_joinLevel]
  simp only [List.length_cons]
  omega

def hashWords (bytes : List UInt8) : ChainingValue :=
  match pieces 1024 bytes with
  | [chunk] => hashChunk 0 Flag.root chunk
  | chunks => joinAll (chunks.zipIdx.map fun (chunk, i) => hashChunk i 0 chunk)

def hexByte (b : UInt8) : String :=
  String.ofList [Nat.digitChar (b.toNat / 16), Nat.digitChar (b.toNat % 16)]

def hashHex (bytes : List UInt8) : String :=
  String.join ((hashWords bytes).toList.flatMap fun (w : UInt32) =>
    [hexByte w.toUInt8, hexByte (w >>> 8).toUInt8, hexByte (w >>> 16).toUInt8,
      hexByte (w >>> 24).toUInt8])

def hashText (s : String) : String :=
  hashHex s.toUTF8.toList

end SourceBlocks.Digest
