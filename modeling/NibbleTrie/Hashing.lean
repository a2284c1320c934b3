/-
Hash functions for maps.

A key has a word of 64 bits.  A mix turns the word into a hash: it multiplies,
keeps some bits, and flips some.  With a constant, a narrow mask or a shifted
factor a mix brings about every pattern of collisions that a trie can meet.
-/
import NibbleTrie.Nibble

namespace NibbleTrie

/-- A way to turn a word into a hash.  The mix with no field given is the identity. -/
structure Mix where
  /-- The factor. -/
  factor : UInt64 := 1
  /-- The bits that are kept. -/
  mask : UInt64 := 0xffffffffffffffff
  /-- The bits that are flipped. -/
  flips : UInt64 := 0

/-- The hash of a word. -/
def Mix.apply (m : Mix) (word : UInt64) : UInt64 :=
  ((word * m.factor) &&& m.mask) ^^^ m.flips

/-- One step of the FNV-1a hash: flip, then multiply. -/
def fnvStep (h : UInt64) (byte : UInt8) : UInt64 :=
  (h ^^^ byte.toUInt64) * 0x100000001b3

/-- The FNV-1a hash of some bytes, from the usual offset basis. -/
def fnv (bytes : List UInt8) : UInt64 :=
  bytes.foldl fnvStep 0xcbf29ce484222325

/-- The word of a text: the hash of its UTF-8 bytes and an end mark. -/
def textWord (s : String) : UInt64 :=
  fnv (s.toUTF8.toList ++ [0xff])

end NibbleTrie
