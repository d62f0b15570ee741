import ShardingSim.BatchMessage
import ShardingSim.Benchmark
import ShardingSim.Blake3.FlagDomains
import ShardingSim.Blake3.HasherBounds
import ShardingSim.CommandLine
import ShardingSim.DigestExtension
import ShardingSim.DigestPrefix
import ShardingSim.Expiry
import ShardingSim.HexBounds
import ShardingSim.HexCodec
import ShardingSim.HexStrings
import ShardingSim.KeyBuffer
import ShardingSim.LeadingZeros
import ShardingSim.LoopRefinement
import ShardingSim.MainResources
import ShardingSim.NamedWallets
import ShardingSim.ReceiverLoop
import ShardingSim.ReceiverResources
import ShardingSim.ReplyBuffer
import ShardingSim.Schedule
import ShardingSim.Session
import ShardingSim.SignatureEffect
import ShardingSim.Signing
import ShardingSim.TransactionCodec
import ShardingSim.TransactionId
import ShardingSim.TransactionIds
import ShardingSim.Trimming
import ShardingSim.WalletAddress
import ShardingSim.WalletNonces
import ShardingSim.WalletReload
import ShardingSim.WalletSigning
