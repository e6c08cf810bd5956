import MultiVac.Wire.Types

/-!
# Consensus messages

The messages a consensus executor signs and receives. A signed message keeps
the key and the signature of its signer next to the signed content.
-/

namespace MultiVac.Consensus

/-- `wire.ByzAgreementValue`: the block hash and the leader a vote is for. -/
structure ByzAgreementValue where
  blockHash : Hash
  leader : GoString
deriving DecidableEq

/-- `wire.ByzAgreementValue{}`, the value that stands for the empty block. -/
def ByzAgreementValue.empty : ByzAgreementValue where
  blockHash := Bytes32.zero
  leader := []

instance : Inhabited ByzAgreementValue := ⟨ByzAgreementValue.empty⟩

/-- `wire.Credential`. -/
structure Credential where
  round : Int
  step : Int
deriving DecidableEq

/-- `wire.CredentialWithBA`. -/
structure CredentialWithBA where
  shardIndex : Wire.ShardIndex
  round : Int
  step : Int
  b : UInt8
  v : ByzAgreementValue
deriving DecidableEq

/-- `wire.SignedMsg`, for one kind of signed content. -/
structure SignedMsg (content : Type) where
  pk : PkKey
  signature : Bytes
  message : content
deriving DecidableEq

/-- `wire.MsgBinaryBA`. -/
structure MsgBinaryBA where
  inShardProof : Bytes
  signedCredentialWithBA : SignedMsg CredentialWithBA
deriving DecidableEq

namespace MsgBinaryBA

/-- The signer of the vote. -/
def pk (message : MsgBinaryBA) : PkKey :=
  message.signedCredentialWithBA.pk

/-- `GetRound`. -/
def round (message : MsgBinaryBA) : Int :=
  message.signedCredentialWithBA.message.round

/-- `GetStep`. -/
def step (message : MsgBinaryBA) : Int :=
  message.signedCredentialWithBA.message.step

/-- `GetBValue`. -/
def b (message : MsgBinaryBA) : UInt8 :=
  message.signedCredentialWithBA.message.b

/-- `GetByzAgreementValue`. -/
def v (message : MsgBinaryBA) : ByzAgreementValue :=
  message.signedCredentialWithBA.message.v

end MsgBinaryBA

/-- `wire.LeaderProposalMessage`. -/
structure LeaderProposalMessage where
  shardIndex : Wire.ShardIndex
  inShardProof : Bytes
  block : Wire.MsgBlock
  blockHash : Hash
  signedHash : Bytes
  lastSeedSig : Bytes
  signedCredential : SignedMsg Credential
deriving DecidableEq

/-- `wire.LeaderVoteMessage`. -/
structure LeaderVoteMessage where
  shardIndex : Wire.ShardIndex
  inShardProof : Bytes
  signedVal : SignedMsg ByzAgreementValue
  signedCredential : SignedMsg Credential
deriving DecidableEq

/-- `wire.GCMessage`. -/
structure GCMessage where
  shardIndex : Wire.ShardIndex
  inShardProof : Bytes
  signedVal : SignedMsg ByzAgreementValue
  signedCredential : SignedMsg Credential
deriving DecidableEq

/-- `wire.MsgSeed`. -/
structure MsgSeed where
  shardIndex : Wire.ShardIndex
  signedCredential : SignedMsg Credential
  lastSeedSig : Bytes
  inShardProof : Bytes
deriving DecidableEq

/-- `wire.MsgBlockConfirmation`. -/
structure MsgBlockConfirmation where
  shardIndex : Wire.ShardIndex
  round : Int
  step : Int
  v : ByzAgreementValue
  header : Wire.BlockHeader
  confirms : List MsgBinaryBA
deriving DecidableEq

/-- The messages on the channels that an executor registers. -/
inductive Message where
  | leaderProposal (message : LeaderProposalMessage)
  | leaderVote (message : LeaderVoteMessage)
  | gc (message : GCMessage)
  | binaryBA (message : MsgBinaryBA)
  | seed (message : MsgSeed)
  | blockConfirmation (message : MsgBlockConfirmation)
deriving DecidableEq

/-- `GetRound` of the `consensusMsg` interface. -/
def Message.round : Message → Int
  | leaderProposal message => message.signedCredential.message.round
  | leaderVote message => message.signedCredential.message.round
  | gc message => message.signedCredential.message.round
  | binaryBA message => message.round
  | seed message => message.signedCredential.message.round
  | blockConfirmation message => message.round

/-- `GetStep` of the `consensusMsg` interface. -/
def Message.step : Message → Int
  | leaderProposal message => message.signedCredential.message.step
  | leaderVote message => message.signedCredential.message.step
  | gc message => message.signedCredential.message.step
  | binaryBA message => message.step
  | seed message => message.signedCredential.message.step
  | blockConfirmation message => message.step

/-- What an executor hands to the gossip node. Final votes and block headers
travel under commands of their own, which no executor subscribes to. -/
inductive Outgoing where
  | message (message : Message)
  | binaryBAFin (message : MsgBinaryBA)
  | blockHeader (header : Wire.BlockHeader)
deriving DecidableEq

end MultiVac.Consensus
