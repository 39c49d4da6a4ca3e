import Nexa.Proofs.AdaptiveBlockSize
import Nexa.Proofs.BatchWrite
import Nexa.Proofs.BestDag
import Nexa.Proofs.BlockMerkle
import Nexa.Proofs.Capd
import Nexa.Proofs.CashAddr
import Nexa.Proofs.CoinbaseTx
import Nexa.Proofs.CoinsRun
import Nexa.Proofs.Covenant
import Nexa.Proofs.DeferredSubblock
import Nexa.Proofs.DisconnectBlock
import Nexa.Proofs.DoubleSpendProof
import Nexa.Proofs.HeaderChain
import Nexa.Proofs.LinkedBlocks
import Nexa.Proofs.MerkleAdjacency
import Nexa.Proofs.MerkleErrors
import Nexa.Proofs.MinerData
import Nexa.Proofs.MoneyStr
import Nexa.Proofs.MoneySupply
import Nexa.Proofs.MostWorkChain
import Nexa.Proofs.OrphanPool
import Nexa.Proofs.ScriptBytes
import Nexa.Proofs.ScriptItems
import Nexa.Proofs.ScriptLimits
import Nexa.Proofs.ScriptPushes
import Nexa.Proofs.ScriptSigChecks
import Nexa.Proofs.ScriptTemplate
import Nexa.Proofs.SequenceLocks
import Nexa.Proofs.SigHash
import Nexa.Proofs.SkipList
import Nexa.Proofs.StackOpcodes
import Nexa.Proofs.SummaryDag
import Nexa.Proofs.TokenAuthorities
import Nexa.Proofs.TokenMintIndex
import Nexa.Proofs.TransactionId
import Nexa.Proofs.VerifyScript
