/-!
A fingerprint of 64 bits for byte strings: two words of state absorb the bytes sixteen at a time,
and a full multiplication folded in half mixes them. Distinct byte strings can share a fingerprint.
-/

namespace Monkey.Text.Fingerprint

/-- The product in 128 bits, its two halves laid over each other. -/
def mix (x y : UInt64) : UInt64 :=
  let product := x.toNat * y.toNat
  UInt64.ofNat product ^^^ UInt64.ofNat (product >>> 64)

/-- The word whose bytes are given, least significant first. -/
def word (bytes : List UInt8) : UInt64 :=
  bytes.foldr (fun b high => (high <<< 8) ||| b.toUInt64) 0

def rotateLeft (x : UInt64) (bits : UInt64) : UInt64 := (x <<< bits) ||| (x >>> (64 - bits))

/-- The two words of state. -/
structure State where
  first : UInt64
  second : UInt64
  deriving DecidableEq, Repr

def State.initial : State := ⟨0x243f6a8885a308d3, 0x13198a2e03707344⟩

def State.overlay (s : State) (x y : UInt64) : State := ⟨s.first ^^^ x, s.second ^^^ y⟩

/-- Absorbs a chunk of sixteen bytes. -/
def State.absorb (s : State) (chunk : List UInt8) : State :=
  ⟨s.second, mix (s.first ^^^ word (chunk.take 8)) (0xa4093822299f31d0 ^^^ word (chunk.drop 8))⟩

/-- Absorbs a number of chunks off the front. -/
def State.absorbChunks (s : State) (bytes : List UInt8) : Nat → State
  | 0 => s
  | n + 1 => (s.absorb (bytes.take 16)).absorbChunks (bytes.drop 16) n

/-- The state after all bytes: the first and the last bytes of a short string, which may overlap;
of a long one all full chunks that leave at least one byte, and then the last sixteen bytes. -/
def State.ofBytes (bytes : List UInt8) : State :=
  let n := bytes.length
  let last (k : Nat) := word ((bytes.drop (n - k)).take 8)
  if n > 16 then (State.initial.absorbChunks bytes ((n - 1) / 16)).overlay (last 16) (last 8)
  else if n ≥ 8 then State.initial.overlay (word (bytes.take 8)) (last 8)
  else if n ≥ 4 then State.initial.overlay (word (bytes.take 4)) (last 4)
  else
    match bytes with
    | [] => State.initial
    | b :: _ =>
      State.initial.overlay b.toUInt64
        ((word (bytes.drop (n - 1)) <<< 8) ||| word ((bytes.drop (n / 2)).take 1))

def ofBytes (bytes : List UInt8) : UInt64 :=
  let s := State.ofBytes bytes
  rotateLeft ((mix s.first s.second ^^^ UInt64.ofNat bytes.length) * 0xf1357aea2e62a9c5) 26

/-- The fingerprint of the UTF-8 form of a text. -/
def ofString (s : String) : UInt64 := ofBytes s.toUTF8.data.toList

end Monkey.Text.Fingerprint
