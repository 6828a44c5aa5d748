import Cyberway.ChaindbObject
import Cyberway.ChaindbJournal
import Cyberway.ChaindbUndoState
import Cyberway.ChaindbUndoStack
import Cyberway.ChaindbUndoSession
import Cyberway.ChaindbUndoRun
import Cyberway.UndoLog
import Cyberway.ChaindbUndoEntry
import Cyberway.ChaindbUndoSquash
import Cyberway.OrderStat
import Cyberway.FlatMap
import Cyberway.HeaderState
import Cyberway.DposLib
import Cyberway.AuthorityChecker
import Cyberway.AuthoritySat
import Cyberway.AuthorityCheckerSound
import Cyberway.AuthorityCheckerExact
import Cyberway.ChaindbStorage
import Cyberway.ChaindbJournalMerge
import Cyberway.ConfirmWindow
import Cyberway.ProducerRound
import Cyberway.BlockNumWrap
import Cyberway.BigEndian
import Cyberway.MongoBigint
import Cyberway.ChaindbTypedName
import Cyberway.MongoServiceDoc
import Cyberway.ResourceLimits
import Cyberway.ChaindbNames
import Cyberway.CppInt
import Cyberway.CompilerBuiltins
import Cyberway.TrxResources
import Cyberway.StakeLedger
import Cyberway.StakeConservation
import Cyberway.Transactions
import Cyberway.StakeActions
import Cyberway.MerkleTree
import Cyberway.BitSmear
import Cyberway.IncrementalMerkle
import Cyberway.ResourceUsage
