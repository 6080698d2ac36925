import Mathlib.Data.Int.Notation

/-!
The messages of the peer protocol, with the fields that the handlers of the net
plugin read.  Times are numbers of nanoseconds.
-/

namespace Xidata.Net

abbrev Bytes := List UInt8
abbrev Sha256 := BitVec 256
abbrev BlockId := Sha256
abbrev TransactionId := Sha256

theorem lawfulBEq_sha256 : LawfulBEq Sha256 := inferInstance

structure PublicKey where
  data : Bytes := []
  deriving DecidableEq

structure Signature where
  data : Bytes := []
  deriving DecidableEq

structure ChainSizeMessage where
  lastIrreversibleBlockNum : UInt32 := 0
  lastIrreversibleBlockId : BlockId := 0
  headNum : UInt32 := 0
  headId : BlockId := 0
  deriving DecidableEq

structure HandshakeMessage where
  networkVersion : UInt16 := 0
  chainId : Sha256 := 0
  nodeId : Sha256 := 0
  key : PublicKey := {}
  time : ℤ := 0
  token : Sha256 := 0
  sig : Signature := {}
  p2pAddress : String := ""
  lastIrreversibleBlockNum : UInt32 := 0
  lastIrreversibleBlockId : BlockId := 0
  headNum : UInt32 := 0
  headId : BlockId := 0
  os : String := ""
  agent : String := ""
  generation : Int16 := 0
  deriving DecidableEq

inductive GoAwayReason
  | noReason | self | duplicate | wrongChain | wrongVersion | forked | unlinkable
  | badTransaction | validation | benignOther | fatalOther | authentication
  deriving DecidableEq

structure GoAwayMessage where
  reason : GoAwayReason := .noReason
  nodeId : Sha256 := 0
  deriving DecidableEq

structure TimeMessage where
  org : ℤ
  rec_ : ℤ
  xmt : ℤ
  dst : ℤ
  deriving DecidableEq

/-- `other` is a value off the wire that no name stands for. -/
inductive IdListModes
  | none | catchUp | lastIrrCatchUp | normal
  | other (value : UInt32)
  deriving DecidableEq

structure SelectIds where
  mode : IdListModes := .none
  pending : UInt32 := 0
  ids : List Sha256 := []
  deriving DecidableEq

structure NoticeMessage where
  knownTrx : SelectIds := {}
  knownBlocks : SelectIds := {}
  deriving DecidableEq

structure RequestMessage where
  reqTrx : SelectIds := {}
  reqBlocks : SelectIds := {}
  deriving DecidableEq

structure SyncRequestMessage where
  startBlock : UInt32
  endBlock : UInt32
  deriving DecidableEq

structure SignedBlock where
  id : BlockId
  blockNum : UInt32
  deriving DecidableEq

structure PackedTransaction where
  id : TransactionId
  deriving DecidableEq

inductive NetMessage
  | handshake (msg : HandshakeMessage)
  | chainSize (msg : ChainSizeMessage)
  | goAway (msg : GoAwayMessage)
  | time (msg : TimeMessage)
  | notice (msg : NoticeMessage)
  | request (msg : RequestMessage)
  | syncRequest (msg : SyncRequestMessage)
  | signedBlock (msg : SignedBlock)
  | packedTransaction (msg : PackedTransaction)
  deriving DecidableEq

/-- Why a connection is to be closed once the message has been sent. -/
def NetMessage.closeAfterSend : NetMessage → GoAwayReason
  | .goAway msg => msg.reason
  | _ => .noReason

end Xidata.Net
