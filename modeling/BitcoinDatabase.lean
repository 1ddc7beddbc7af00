import BitcoinDatabase.Bytes
import BitcoinDatabase.Layout
import BitcoinDatabase.RecordRow
import BitcoinDatabase.RecordHashTable
import BitcoinDatabase.Run
import BitcoinDatabase.Chain
import BitcoinDatabase.Invariant
import BitcoinDatabase.Refinement
import BitcoinDatabase.CellFormat
import BitcoinDatabase.Frame
import BitcoinDatabase.Termination
import BitcoinDatabase.Reachability
import BitcoinDatabase.Concurrent.Reader
import BitcoinDatabase.Concurrent.SingleWriter
import BitcoinDatabase.Concurrent.Stores
import BitcoinDatabase.Store
