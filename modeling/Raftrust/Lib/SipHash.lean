import Raftrust.Lib.Bytes

/-!
# SipHash

The SipHash family of keyed hash functions, with the numbers of compression and finalization
rounds as parameters.
-/

namespace Raftrust.Lib.SipHash

structure State where
  v0 : UInt64
  v1 : UInt64
  v2 : UInt64
  v3 : UInt64

def rotl (x n : UInt64) : UInt64 :=
  (x <<< n) ||| (x >>> (64 - n))

def round (s : State) : State :=
  let v0 := s.v0 + s.v1
  let v1 := rotl s.v1 13 ^^^ v0
  let v0 := rotl v0 32
  let v2 := s.v2 + s.v3
  let v3 := rotl s.v3 16 ^^^ v2
  let v0 := v0 + v3
  let v3 := rotl v3 21 ^^^ v0
  let v2 := v2 + v1
  let v1 := rotl v1 17 ^^^ v2
  let v2 := rotl v2 32
  ⟨v0, v1, v2, v3⟩

def init (k0 k1 : UInt64) : State where
  v0 := k0 ^^^ 0x736f6d6570736575
  v1 := k1 ^^^ 0x646f72616e646f6d
  v2 := k0 ^^^ 0x6c7967656e657261
  v3 := k1 ^^^ 0x7465646279746573

/-- The 64-bit words of a message. The last one ends with the length of the message. -/
def words (msg : Bytes) : List UInt64 :=
  let n := msg.length / 8
  (List.range n).map (fun i => UInt64.ofNat (fromLe ((msg.drop (8 * i)).take 8))) ++
    [UInt64.ofNat (fromLe (msg.drop (8 * n)) + msg.length % 256 * 2 ^ 56)]

def compress (c : ℕ) (s : State) (m : UInt64) : State :=
  let s := round^[c] { s with v3 := s.v3 ^^^ m }
  { s with v0 := s.v0 ^^^ m }

def hash (c d : ℕ) (k0 k1 : UInt64) (msg : Bytes) : UInt64 :=
  let s := (words msg).foldl (compress c) (init k0 k1)
  let s := round^[d] { s with v2 := s.v2 ^^^ 0xff }
  s.v0 ^^^ s.v1 ^^^ s.v2 ^^^ s.v3

-- the published test vector of SipHash-2-4
example : hash 2 4 0x0706050403020100 0x0f0e0d0c0b0a0908
    [0, 1, 2, 3, 4, 5, 6, 7, 8, 9, 10, 11, 12, 13, 14] = 0xa129ca6149be45e5 := by decide +kernel

end Raftrust.Lib.SipHash
