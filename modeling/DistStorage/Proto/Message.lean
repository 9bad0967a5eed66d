import DistStorage.Cpp.Bytes

/-!
# The messages of the message service

A `SignedMessage` carries its payload as bytes;
`MessageData` is what these bytes parse to.
-/

namespace DistStorage

namespace Proto

structure SignedMessage where
  senderId : Bytes
  signature : Bytes
  senderCert : Bytes
  data : Bytes
  ttl : ℤ
  deriving DecidableEq, Repr

/-- A message object with no field set. -/
instance : Inhabited SignedMessage :=
  ⟨{ senderId := [], signature := [], senderCert := [], data := [], ttl := 0 }⟩

/-- The parsed payload, with the part that delivery reads. -/
structure MessageData where
  recipientId : Bytes
  deriving DecidableEq, Repr

end Proto

end DistStorage
