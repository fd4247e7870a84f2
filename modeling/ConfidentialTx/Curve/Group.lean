import ConfidentialTx.Hex
import ConfidentialTx.Curve.Point
import ConfidentialTx.Group
import ConfidentialTx.Hash.Blake
import ConfidentialTx.Hash.Keccak

/-! # The Ristretto group as scalars and points

Hashes under a domain tag are BLAKE2b digests of the tag followed by the data, mapped to a scalar or
to a point. -/

namespace ConfidentialTx

/-- Sixty-four bytes from a domain tag and data. -/
def domainHash (tag data : Bytes) : Bytes := blake (tag ++ data)

instance : ScalarEncoding Scalar := ⟨Scalar.encode, Scalar.decode, Scalar.ofBytes⟩
instance : PointEncoding Point := ⟨Point.encode, Point.decode, Point.ofUniform⟩
instance : BasePoint Point := ⟨Point.base⟩
instance : MultiScalar Scalar Point := ⟨Point.combination⟩
instance : ScalarHash Scalar := ⟨fun tag data => .ofBytes (domainHash (.ofString tag) data)⟩
instance : PointHash Point := ⟨fun tag data => .ofUniform (domainHash (.ofString tag) data)⟩

namespace Point

/-- The point of a byte string by its SHA3 digest, without a tag. -/
def ofDigest (data : Bytes) : Point := ofUniform (sha3 data)

/-- Reads the hexadecimal text of a point. -/
def ofHex (digits : String) : Except HexError (Option Point) :=
  (Hex.decodeText digits).map decode

end Point
end ConfidentialTx
