import Tarantula.ByteBuffer

/-! The 32-bit hash `murmur3.Sum32`, with seed 0. -/

namespace Tarantula.Murmur3

def rotl (x : UInt32) (r : UInt32) : UInt32 := (x <<< r) ||| (x >>> (32 - r))

def scramble (k : UInt32) : UInt32 := rotl (k * 0xcc9e2d51) 15 * 0x1b873593

def word (bytes : Bytes) : UInt32 := bytes.foldr (fun b n => (n <<< 8) ||| b.toUInt32) 0

def mix (h : UInt32) (k : UInt32) : UInt32 := rotl (h ^^^ scramble k) 13 * 5 + 0xe6546b64

def body (h : UInt32) : Bytes → UInt32
  | b₀ :: b₁ :: b₂ :: b₃ :: rest => body (mix h (word [b₀, b₁, b₂, b₃])) rest
  | tail => h ^^^ scramble (word tail)

def final (h : UInt32) : UInt32 :=
  let h := (h ^^^ (h >>> 16)) * 0x85ebca6b
  let h := (h ^^^ (h >>> 13)) * 0xc2b2ae35
  h ^^^ (h >>> 16)

def sum32 (data : Bytes) : UInt32 := final (body 0 data ^^^ UInt32.ofNat data.length)

example : sum32 [104, 101, 108, 108, 111] = 0x248bfa47 := by decide

end Tarantula.Murmur3
