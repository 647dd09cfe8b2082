import SubstrateFabric.Lib.Interaction
import SubstrateFabric.Lib.Triples
import SubstrateFabric.Lib.JsonText
import SubstrateFabric.Lib.EncodingJson
import SubstrateFabric.Lib.Runs
import SubstrateFabric.Lib.Utf8
import SubstrateFabric.Lib.Machine
import SubstrateFabric.Lib.Mvcc
import SubstrateFabric.Lib.Conflicts
import SubstrateFabric.Chaincode.Stub
import SubstrateFabric.Chaincode.Contract
import SubstrateFabric.Chaincode.AssetJson
import SubstrateFabric.Chaincode.Calls
import SubstrateFabric.Chaincode.Faults
import SubstrateFabric.Chaincode.Attempts
import SubstrateFabric.Chaincode.Transactions
import SubstrateFabric.Chaincode.Conflicts
import SubstrateFabric.Chaincode.AssetMap
import SubstrateFabric.Chaincode.AnyStrings
import SubstrateFabric.Chaincode.MemberOrder
import SubstrateFabric.Chaincode.Listing
import SubstrateFabric.Chaincode.Ledger
import SubstrateFabric.Chaincode.History
import SubstrateFabric.Pallet.Template
import SubstrateFabric.Pallet.Weights
import SubstrateFabric.Runtime.CheckEra
import SubstrateFabric.Node.Benchmarking
import SubstrateFabric.Node.Builders
import SubstrateFabric.Install.Arguments
import SubstrateFabric.Install.Script
import SubstrateFabric.Install.Stages
import SubstrateFabric.Install.Directories
