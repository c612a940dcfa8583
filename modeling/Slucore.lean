import Slucore.Common.MachineInt
import Slucore.Common.Checked
import Slucore.Common.UndoLog
import Slucore.Common.Books
import Slucore.Common.OrderedMap
import Slucore.Common.Along
import Slucore.Primitives.Script
import Slucore.Primitives.ScriptNum
import Slucore.Primitives.VarInt
import Slucore.Primitives.Transaction
import Slucore.Primitives.Block
import Slucore.Primitives.Failure
import Slucore.Coins.View
import Slucore.Coins.Content
import Slucore.Evm.State
import Slucore.Evm.Executive
import Slucore.Evm.Rollback
import Slucore.Evm.Payment
import Slucore.Evm.Frames
import Slucore.Aal.Condensing
import Slucore.Aal.Execute
import Slucore.Aal.ByteCodeExec
import Slucore.Aal.TopFrame
import Slucore.Aal.Netting
import Slucore.Aal.Commit
import Slucore.Aal.Solvency
import Slucore.Aal.Spending
import Slucore.Validation.Node
import Slucore.Validation.TxVerify
import Slucore.Validation.CheckBlock
import Slucore.Validation.Reward
import Slucore.Validation.ConnectBlock
import Slucore.Validation.Turns
import Slucore.Validation.ShadowBlock
import Slucore.Validation.Issuance
import Slucore.Validation.Refunds
import Slucore.Validation.Supply
import Slucore.Validation.DisconnectBlock
import Slucore.Validation.Undo
import Slucore.Validation.AcceptBlock
import Slucore.Validation.Unique
import Slucore.Validation.Binding
import Slucore.Primitives.Merkle
import Slucore.Validation.Contextual
import Slucore.Validation.WitnessBinding
import Slucore.Common.Failures
import Slucore.Validation.Activate
import Slucore.Validation.NoAbort
import Slucore.Validation.Delivery
import Slucore.Validation.Verdict
import Slucore.Validation.InRange
import Slucore.Validation.ActiveRules
import Slucore.Validation.MainNode
import Slucore.Coins.Stack
import Slucore.Coins.Database
import Slucore.Common.Overwrite
import Slucore.Validation.Replay
import Slucore.Validation.Dgp
import Slucore.Validation.Governance
import Slucore.Validation.GasSchedule
import Slucore.Validation.CallContract
import Slucore.Evm.OldLog
import Slucore.Aal.OldLog
import Slucore.Aal.Attempt
import Slucore.Mining.Assembler
import Slucore.Mining.Sequential
import Slucore.Mining.Template
import Slucore.Validation.VersionBits
import Slucore.Validation.Deployments
import Slucore.Mining.Version
import Slucore.Wallet.CoinStake
import Slucore.Wallet.ScriptCache
import Slucore.Wallet.StakeReward
import Slucore.Effects.Results
import Slucore.Effects.Trial
import Slucore.Effects.FullNode
import Slucore.Effects.NoTrace
import Slucore.Common.Layers
import Slucore.Common.Reach
import Slucore.Effects.Receipts
import Slucore.Effects.Follow
import Slucore.Chain.Activation
import Slucore.Chain.Order
import Slucore.Chain.Consistent
import Slucore.Chain.Marking
import Slucore.Chain.Arrivals
import Slucore.Chain.Linking
import Slucore.Chain.Connecting
import Slucore.Chain.Turns
import Slucore.Chain.Checks
import Slucore.Chain.BestChain
import Slucore.Chain.Growth
import Slucore.Chain.Finality
import Slucore.Store.StakeIndex
import Slucore.Store.HeightIndex
import Slucore.Common.Limbs
import Slucore.Pos.Kernel
import Slucore.Pos.StakeCache
import Slucore.Store.AddressIndex
import Slucore.Store.AddressUndo
import Slucore.Encoding.Address
import Slucore.Encoding.Key
import Slucore.Encoding.KeyIO
import Slucore.Common.BitGroups
import Slucore.Aal.Bookkeeping
import Slucore.Evm.CodeKept
import Slucore.Aal.Outcomes
import Slucore.Aal.Survival
import Slucore.Aal.Atomic
import Slucore.Primitives.Serialize
import Slucore.Net.CompactBlock
import Slucore.Script.Converter
import Slucore.Script.Pushes
import Slucore.Script.Canonical
import Slucore.Script.Solver
import Slucore.Script.Extraction
import Slucore.Script.Interpreter
import Slucore.Script.RoundTrip
import Slucore.Mining.Order
