import MFCoin.Lib.AdjacentSwap
import MFCoin.Lib.ExceptRun
import MFCoin.Lib.KeyedFold
import MFCoin.Lib.ByteCodec
import MFCoin.Lib.UndoLog
import MFCoin.Kernel.SwapSort
import MFCoin.Primitives.ArithUint256
import MFCoin.Kernel.Pow
import MFCoin.Kernel.StakeKernel
import MFCoin.Kernel.StakeReward
import MFCoin.Kernel.StakeModifier
import MFCoin.Primitives.Transaction
import MFCoin.Primitives.Serialize
import MFCoin.Script.Core
import MFCoin.Script.NameScript
import MFCoin.Script.Interpreter
import MFCoin.Script.Prefix
import MFCoin.Script.NameRoundTrip
import MFCoin.Script.Verify
import MFCoin.Names.Record
import MFCoin.Names.Hooks
import MFCoin.Names.Specs
import MFCoin.Names.ChainShape
import MFCoin.Names.Undo
import MFCoin.Names.Ownership
import MFCoin.Names.Pending
import MFCoin.Coins.Coins
import MFCoin.Coins.Cache
import MFCoin.Coins.Refinement
import MFCoin.Coins.Compressor
import MFCoin.Coins.UndoData
import MFCoin.Coins.Disconnect
import MFCoin.Coins.CoinsCodec
import MFCoin.Dns.Buffer
import MFCoin.Dns.Query
import MFCoin.Dns.Packet
import MFCoin.Dns.Answer
import MFCoin.Dns.Server
import MFCoin.Dns.SuffixTable
import MFCoin.Net.BlockEncodings
import MFCoin.Primitives.TxSerialize
import MFCoin.Net.CompactBlock
import MFCoin.Lib.Radix
import MFCoin.Encoding.Base58
import MFCoin.Encoding.Base64
import MFCoin.Encoding.FixedPoint
import MFCoin.Names.Fee
import MFCoin.Wallet.SelectCoins
import MFCoin.Consensus.Merkle
import MFCoin.Consensus.MerkleRefinement
import MFCoin.Mtp.OrderedMerkleTree
import MFCoin.Kernel.AuxPow
import MFCoin.Names.PoolConflicts
