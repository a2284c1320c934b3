/-
Kinds of keys.

A map needs of its keys a word to hash and a test for equality; a report needs
their text.  Nothing ties the word to the test: tagged keys are equal when
their numbers are, whatever word they carry, so they can break the rule that
equal keys have equal hashes.
-/
import NibbleTrie.Hashing
import NibbleTrie.Text.Quoted

namespace NibbleTrie

/-- What a kind of keys provides. -/
class Key (κ : Type u) extends BEq κ where
  /-- The word that is mixed into a hash. -/
  word : κ → UInt64
  /-- The text of a key in reports. -/
  render : κ → String

/-- The hash function of a mix. -/
def Mix.hash {κ : Type u} [Key κ] (m : Mix) (k : κ) : UInt64 := m.apply (Key.word k)

instance : Key UInt64 where
  word k := k
  render k := toString k.toNat

instance : Key String where
  word := textWord
  render := quoted

/-- A key that carries its word, and a tag that tells equal keys apart. -/
structure TaggedKey where
  /-- What the key is compared by. -/
  id : Int
  /-- The word, free of the number. -/
  word : UInt64
  /-- A mark that no operation looks at. -/
  tag : String

instance : Key TaggedKey where
  beq a b := a.id == b.id
  word k := k.word
  render k := "k" ++ toString k.id ++ "/" ++ quoted k.tag

end NibbleTrie
