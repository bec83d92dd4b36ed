import Outbox.Text.Hex

namespace Outbox

/-- 160 bits, written in full and in lower case. -/
structure Address where
  bits : BitVec 160
deriving DecidableEq

/-- The low 160 bits count, so that of a longer byte string the last twenty bytes are kept. -/
def Address.ofBytes (bs : Bytes) : Address := ⟨BitVec.ofNat 160 (BigEndian.toNat bs)⟩

def Address.ofNat (n : Nat) : Address := ⟨BitVec.ofNat 160 n⟩

def Address.bytes (a : Address) : Bytes := BigEndian.ofNat 20 a.bits.toNat

def Address.text (a : Address) : String := Hex.text a.bytes

/-- Of a transaction, in 256 bits. -/
structure Hash where
  bits : BitVec 256
deriving DecidableEq

def Hash.ofBytes (bs : Bytes) : Hash := ⟨BitVec.ofNat 256 (BigEndian.toNat bs)⟩

def Hash.bytes (h : Hash) : Bytes := BigEndian.ofNat 32 h.bits.toNat

def Hash.text (h : Hash) : String := Hex.text h.bytes

end Outbox
