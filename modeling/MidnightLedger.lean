import MidnightLedger.Ledger.Payouts
import MidnightLedger.Ledger.WalletTrees
import MidnightLedger.Ledger.Merge
import MidnightLedger.Storage.Slicing
import MidnightLedger.Storage.Accounts
import MidnightLedger.Ledger.Maintenance
import MidnightLedger.Ledger.Attribution
import MidnightLedger.Zkir.V3.Synthesis
import MidnightLedger.Ledger.Fees
import MidnightLedger.Zswap.Receipts
import MidnightLedger.Zswap.Filter
import MidnightLedger.Crypto.FixedPoint
import MidnightLedger.Ledger.CalleeOrder
import MidnightLedger.Ledger.Replays
import MidnightLedger.Storage.TrieRuns
