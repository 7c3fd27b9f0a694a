import SwitchSynth.Text.Quoted

/-!
# MD5 digests

The MD5 digest of a sequence of bytes: the message is padded to whole blocks of 64 bytes, and each block
is mixed into a state of four words.
-/

namespace SwitchSynth.Digest

structure Words where
  a : UInt32
  b : UInt32
  c : UInt32
  d : UInt32
  deriving DecidableEq, Repr

def Words.initial : Words := ⟨0x67452301, 0xefcdab89, 0x98badcfe, 0x10325476⟩

def Words.add (x y : Words) : Words := ⟨x.a + y.a, x.b + y.b, x.c + y.c, x.d + y.d⟩

/-- The whole part of 2^32 times the sine of 1 to 64 radians, without its sign. -/
def sines : Array UInt32 :=
  #[0xd76aa478, 0xe8c7b756, 0x242070db, 0xc1bdceee, 0xf57c0faf, 0x4787c62a,
   0xa8304613, 0xfd469501, 0x698098d8, 0x8b44f7af, 0xffff5bb1, 0x895cd7be,
   0x6b901122, 0xfd987193, 0xa679438e, 0x49b40821, 0xf61e2562, 0xc040b340,
   0x265e5a51, 0xe9b6c7aa, 0xd62f105d, 0x02441453, 0xd8a1e681, 0xe7d3fbc8,
   0x21e1cde6, 0xc33707d6, 0xf4d50d87, 0x455a14ed, 0xa9e3e905, 0xfcefa3f8,
   0x676f02d9, 0x8d2a4c8a, 0xfffa3942, 0x8771f681, 0x6d9d6122, 0xfde5380c,
   0xa4beea44, 0x4bdecfa9, 0xf6bb4b60, 0xbebfbc70, 0x289b7ec6, 0xeaa127fa,
   0xd4ef3085, 0x04881d05, 0xd9d4d039, 0xe6db99e5, 0x1fa27cf8, 0xc4ac5665,
   0xf4292244, 0x432aff97, 0xab9423a7, 0xfc93a039, 0x655b59c3, 0x8f0ccc92,
   0xffeff47d, 0x85845dd1, 0x6fa87e4f, 0xfe2ce6e0, 0xa3014314, 0x4e0811a1,
   0xf7537e82, 0xbd3af235, 0x2ad7d2bb, 0xeb86d391]

/-- How far each step rotates: four distances in each of the four rounds. -/
def distances : Array (Array UInt32) :=
  #[#[7, 12, 17, 22], #[5, 9, 14, 20], #[4, 11, 16, 23], #[6, 10, 15, 21]]

def rotateLeft (x distance : UInt32) : UInt32 :=
  (x <<< distance) ||| (x >>> (32 - distance))

def mixStep (block : Array UInt32) (w : Words) (i : Nat) : Words :=
  let (f, place) :=
    match i / 16 with
    | 0 => ((w.b &&& w.c) ||| (~~~w.b &&& w.d), i)
    | 1 => ((w.d &&& w.b) ||| (~~~w.d &&& w.c), (5 * i + 1) % 16)
    | 2 => (w.b ^^^ w.c ^^^ w.d, (3 * i + 5) % 16)
    | _ => (w.c ^^^ (w.b ||| ~~~w.d), 7 * i % 16)
  let sum := w.a + f + sines.getD i 0 + block.getD place 0
  let distance := (distances.getD (i / 16) #[]).getD (i % 4) 0
  ⟨w.d, w.b + rotateLeft sum distance, w.b, w.c⟩

def mix (w : Words) (block : Array UInt32) : Words :=
  w.add ((List.range 64).foldl (mixStep block) w)

/-- The low bytes of a number, lowest first. -/
def lowBytes (count n : Nat) : List UInt8 :=
  (List.range count).map fun i => (n / Nat.pow 256 i).toUInt8

/-- The number of some bytes, lowest first. -/
def ofLowBytes (bytes : List UInt8) : Nat :=
  bytes.foldr (fun b n => b.toNat + 256 * n) 0

/-- A message with its padding: a one bit, zeros up to eight bytes before a whole block, and the length in
bits. -/
def padded (message : List UInt8) : List UInt8 :=
  let zeros := (119 - message.length % 64) % 64
  message ++ 0x80 :: List.replicate zeros 0 ++ lowBytes 8 (8 * message.length)

def block (message : List UInt8) (number : Nat) : Array UInt32 :=
  ((List.range 16).map fun i =>
    (ofLowBytes ((message.drop (64 * number + 4 * i)).take 4)).toUInt32).toArray

def md5 (message : List UInt8) : List UInt8 :=
  let whole := padded message
  let w := (List.range (whole.length / 64)).foldl (fun w i => mix w (block whole i)) Words.initial
  [w.a, w.b, w.c, w.d].flatMap fun x => lowBytes 4 x.toNat

def hexText (bytes : List UInt8) : String :=
  String.join (bytes.map fun b => Text.hex 2 b.toNat)

end SwitchSynth.Digest
