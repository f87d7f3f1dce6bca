/-
# Home buckets

`MurmurHash2A` over a buffer of bytes: the 4-byte blocks are mixed in one after
the other, then up to three remaining bytes, then the length. The home bucket
of a key is the hash of its four bytes modulo `TotalBuckets`.
-/
import LFHash.Word

namespace LFHash

def TotalBuckets : ℕ := 1024 * 1024 * 31

/-- `HOP`, which the member `H` holds too: a key lives at most this far above
its home. -/
def HOP : ℕ := 16

def ADD_RANGE : ℕ := 256

def murmurM : BitVec 32 := 0x5bd1e995#32

/-- `mmix(h, k)`, with `r = 24`: the new `h`. -/
def mmix (h k : BitVec 32) : BitVec 32 :=
  let k := k * murmurM
  let k := k ^^^ (k >>> 24)
  let k := k * murmurM
  (h * murmurM) ^^^ k

/-- The block loop: the hash so far and the bytes left. A block is read
little-endian. -/
def mixBlocks (h : BitVec 32) : List (BitVec 8) → BitVec 32 × List (BitVec 8)
  | b0 :: b1 :: b2 :: b3 :: rest => mixBlocks (mmix h (b3 ++ b2 ++ b1 ++ b0)) rest
  | tail => (h, tail)

/-- `t` after the switch: each case breaks, so it reads one byte. -/
def tailWord : List (BitVec 8) → BitVec 32
  | [_, _, d2] => d2.setWidth 32 <<< 16
  | [_, d1] => d1.setWidth 32 <<< 8
  | [d0] => d0.setWidth 32
  | _ => 0#32

/-- `h` of `MurmurHash2A` just before `% tabsize`. -/
def murmur (seed : BitVec 32) (data : List (BitVec 8)) : BitVec 32 :=
  let (h, tail) := mixBlocks seed data
  let h := mmix h (tailWord tail)
  let h := mmix h (BitVec.ofNat 32 data.length)
  let h := h ^^^ (h >>> 13)
  let h := h * murmurM
  h ^^^ (h >>> 15)

/-- `MurmurHash2A(data, len, tabsize)`. -/
def murmurHash2A (seed : BitVec 32) (data : List (BitVec 8)) (tabsize : ℕ) : ℕ :=
  (murmur seed data).toNat % tabsize

def keyBytes (key : Key) : List (BitVec 8) :=
  [key.extractLsb' 0 8, key.extractLsb' 8 8, key.extractLsb' 16 8, key.extractLsb' 24 8]

/-- `MurmurHash2A(&key, 4, TotalBuckets)`: the home bucket of a key. -/
def home (seed : BitVec 32) (key : Key) : ℕ := murmurHash2A seed (keyBytes key) TotalBuckets

theorem home_lt (seed : BitVec 32) (key : Key) : home seed key < TotalBuckets :=
  Nat.mod_lt _ (by decide)

/-- Unsigned subtraction of indices. -/
def sub32 (a b : ℕ) : ℕ := (a + (2 ^ 32 - b)) % 2 ^ 32

end LFHash
