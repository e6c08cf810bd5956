import MultiVac.Consensus.State

/-!
# The consensus executor

The message handlers and timeouts of `consensus_executor.go`, each run to its
end before the next one. What the executor asks of other components (the
block chain, the sortition, signatures, the order of a map loop) is answered by
a record passed to each handler, so that every answer is possible.
-/

namespace MultiVac.Consensus

/-- What the executor has signed. -/
inductive SignedContent where
  | credential (credential : Credential)
  | credentialWithBA (credential : CredentialWithBA)
  | value (value : ByzAgreementValue)
  | seed (seed : Hash)
  | headerHash (hash : Hash)

/-- The verdict of `AcceptBlock`. An error that says the block may have been
accepted before is told apart by the executor. -/
inductive AcceptVerdict where
  | accepted
  | mayHaveBeenAccepted
  | failed
deriving DecidableEq

/-- The answers of the other components during one handler call. -/
structure Answers where
  /-- `isInShard(message) && isValidated(message)`. -/
  passesFilter : Bool
  /-- `isCommitteeVerifier` for the executor's own proof. -/
  isCommitteeVerifier : Bool
  /-- `isPotentialLeader`. -/
  isPotentialLeader : Bool
  /-- `VerifyBlock(block) == nil`. -/
  verifyBlock : Bool
  acceptBlock : AcceptVerdict
  /-- `ProposeAndAcceptEmptyBlock(height)`; a returned header has that height. -/
  proposeAndAcceptEmptyBlock :
    (height : Int) → Option {header : Wire.BlockHeader // header.height = height}
  proposeBlock : Option Wire.MsgBlock
  /-- `vrf.Generate` with the executor's own key. -/
  sign : SignedContent → Option Bytes
  /-- The threshold that `setThreshold` computes from the heartbeat list. -/
  threshold : Int
  /-- `rand.Int() % 2`. -/
  coin : Bool
  order : MapOrder
  isOneOfFirstMiners : Bool

/-- The hash functions the executor calls. -/
structure Hashing where
  sha256 : Bytes → Hash
  blockHeaderHash : Wire.BlockHeader → Hash

/-- A registered timeout. -/
inductive Timer where
  /-- A tick of the round's ticker, for `onTimeout`. -/
  | gcStep (round step : Int)
  | gcLastStep (round step : Int)
  | bbaNextStep (round step : Int)
deriving DecidableEq

/-- A block that the executor made its block chain accept. -/
inductive AcceptedBlock where
  | leader (block : Wire.MsgBlock)
  | empty (header : Wire.BlockHeader)
deriving DecidableEq

/-- What the executor tells the rest of the node. -/
inductive Effect where
  | broadcast (message : Outgoing)
  /-- `EvtLedgerFallBehind`. -/
  | ledgerFallBehind
  /-- `OnShardDisabled` of the registered listeners. -/
  | shardDisabled
deriving DecidableEq

/-- `executor`, with the timeouts it has registered, the messages it has put
back on its own queue, what it has sent, and the blocks it has accepted by
round. -/
structure Executor where
  shardIndex : Wire.ShardIndex
  pk : PkKey
  state : ConsensusState
  gcPreVoter : PbftVoter
  gcCommitVoter : PbftVoter
  bbaVoter : BinaryBAVoter
  recvData : ReceivedData
  pendData : PendingData
  timers : List Timer
  msgQueue : List Message
  effects : List Effect
  accepted : List (Int × AcceptedBlock)

/-- `bbaMaxStep`. -/
def bbaMaxStep : Int := 50

/-- One hexadecimal digit. -/
def hexDigit (nibble : UInt8) : UInt8 :=
  if nibble < 10 then 48 + nibble else 87 + nibble

/-- `hex.EncodeToString`. -/
def hexEncode (bytes : Bytes) : GoString :=
  bytes.flatMap fun byte => [hexDigit (byte / 16), hexDigit (byte % 16)]

/-- `binary.PutUvarint`; ten bytes hold every 64-bit number. -/
def putUvarint : (fuel : Nat) → Nat → Bytes
  | 0, _ => []
  | fuel + 1, number =>
    if number < 128 then [UInt8.ofNat number]
    else UInt8.ofNat (number % 128 + 128) :: putUvarint fuel (number / 128)

/-- `binary.PutVarint`. -/
def putVarint (number : Int) : Bytes :=
  putUvarint 10
    (if number < 0 then (-2 * number - 1).toNat else (2 * number).toNat)

/-- `calcRoundSeed`: the signature and eight bytes that hold the round. -/
def calcRoundSeed (hashing : Hashing) (lastSeedSig : Bytes) (round : Int) :
    Hash :=
  let buffer := putVarint round
  hashing.sha256
    (lastSeedSig ++ buffer ++ List.replicate (8 - buffer.length) 0)

namespace Executor

/-- `newExecutor`. -/
def new (shardIndex : Wire.ShardIndex) (pk : PkKey) (voteThreshold : Int) :
    Executor where
  shardIndex := shardIndex
  pk := pk
  state := ConsensusState.new
  gcPreVoter := PbftVoter.new 1 voteThreshold
  gcCommitVoter := PbftVoter.new 1 voteThreshold
  bbaVoter := BinaryBAVoter.new 1 voteThreshold
  recvData := ReceivedData.new
  pendData := PendingData.new
  timers := []
  msgQueue := []
  effects := []
  accepted := []

variable (hashing : Hashing) (a : Answers) (ce : Executor)

/-- `broadcastMessage`; a message that could not be built is not sent. -/
def broadcastMessage (message : Option Outgoing) : Executor :=
  match message with
  | some message => { ce with effects := ce.effects ++ [.broadcast message] }
  | none => ce

/-- Start a goroutine that waits for a timeout. -/
def onTimeOut (timer : Timer) : Executor :=
  { ce with timers := ce.timers ++ [timer] }

/-- `state.setStepInRound`. -/
def setStepInRound (round step : Int) : Executor :=
  { ce with state := ce.state.setStepInRound round step }

/-- `state.setNextStepInRound`. -/
def setNextStepInRound (round step : Int) : Executor :=
  { ce with state := ce.state.setNextStepInRound round step }

/-- `state.setRoundSeed`. A panic there ends the process of the source. The model goes on
without the seed, so the runs of the source are among its runs. -/
def setRoundSeed (round : Int) (seed : Hash) : Executor :=
  match ce.state.setRoundSeed round seed with
  | .ok state => { ce with state }
  | .error _ => ce

/-- `bbaVoter.setResultValue`. -/
def setResultValue (round : Int) (value : ByzAgreementValue) : Executor :=
  { ce with bbaVoter := ce.bbaVoter.setResultValue round value }

/-- `updateShardStatus`. -/
def updateShardStatus (status : ShardStatus) : Executor :=
  { ce with state := ce.state.updateShardStatus status }

/-- `setCurrentRound`, which ends with `setThreshold`. -/
def setCurrentRound (round : Int) : Executor :=
  { ce with
    gcPreVoter := (ce.gcPreVoter.setCurrentRound round).setThreshold a.threshold
    gcCommitVoter := (ce.gcCommitVoter.setCurrentRound round).setThreshold a.threshold
    bbaVoter := (ce.bbaVoter.setCurrentRound round).setThreshold a.threshold
    state := ce.state.setRound round }

/-- `shouldSkipProposal`. -/
def shouldSkipProposal (seed : Hash) : Bool :=
  decide (ce.state.smallestCred ≠ ConsensusState.maxCred) && ce.state.smallestCred.lessThan seed

/-- `maybeBehind`. -/
def maybeBehind : Executor :=
  if ce.state.shardStatus = .shardEnabled then
    { ce with effects := ce.effects ++ [.ledgerFallBehind] }
  else ce

/-- `checkVerifierAndGenerateSignedMessage`: a member of the committee signs a vote. Only a
vote for a negative step is wrapped as a final one. -/
def checkVerifierAndGenerateSignedMessage (b : UInt8) (v : ByzAgreementValue) (curRound finStep : Int) :
    Option Outgoing :=
  let credential : CredentialWithBA := ⟨ce.shardIndex, curRound, finStep, b, v⟩
  if a.isCommitteeVerifier then
    (a.sign (.credentialWithBA credential)).map fun signature =>
      let bbaMsg : MsgBinaryBA := ⟨ce.state.inShardProof, ⟨ce.pk, signature, credential⟩⟩
      if finStep < 0 then .binaryBAFin bbaMsg else .message (.binaryBA bbaMsg)
  else none

/-- Sign a vote and broadcast it. -/
def broadcastVote (b : UInt8) (v : ByzAgreementValue) (curRound finStep : Int) : Executor :=
  ce.broadcastMessage (ce.checkVerifierAndGenerateSignedMessage a b v curRound finStep)

/-- `SignedCredential` or `SignedVal` of a message, signed by the executor. -/
def signed {content : Type} (a : Answers) (ce : Executor)
    (wrap : content → SignedContent) (value : content) :
    Option (SignedMsg content) :=
  (a.sign (wrap value)).map fun signature => ⟨ce.pk, signature, value⟩

/-- Build, sign and broadcast a gradecast message. -/
def broadcastGC (val : ByzAgreementValue) (round : Int) : Executor :=
  ce.broadcastMessage do
    let signedCredential ← ce.signed a .credential ⟨round, 3⟩
    let signedVal ← ce.signed a .value val
    return .message (.gc ⟨ce.shardIndex, ce.state.inShardProof, signedVal, signedCredential⟩)

/-- Build, sign and broadcast a leader vote. -/
def broadcastLeaderVote (val : ByzAgreementValue) (round : Int) : Executor :=
  ce.broadcastMessage do
    let signedCredential ← ce.signed a .credential ⟨round, 2⟩
    let signedVal ← ce.signed a .value val
    return .message (.leaderVote
      ⟨ce.shardIndex, ce.state.inShardProof, signedVal, signedCredential⟩)

/-- `signBlock`: the block keeps its old signature if signing fails. -/
def signBlock (block : Wire.MsgBlock) : Wire.MsgBlock :=
  let header := { block.header with pk := ce.pk.bytes }
  match a.sign (.headerHash (hashing.blockHeaderHash header)) with
  | some signature =>
    { block with header := { header with headerSig := signature } }
  | none => { block with header := header }

/-- The end of `startAtRound` for a leader whose block has the right height:
the seed message and the proposal, unless a smaller credential is known. -/
def broadcastProposal (round : Int) (lastSeedSig : Bytes) (seed : Hash)
    (block : Wire.MsgBlock) (signedHash : Bytes) : Executor :=
  if ce.shouldSkipProposal seed then ce
  else
    let ce := { ce with state := ce.state.setSmallestCredInRound round seed }
    let ce := ce.broadcastMessage do
      let signedCredential ← ce.signed a .credential ⟨round, 1⟩
      return .message (.seed ⟨ce.shardIndex, signedCredential, lastSeedSig, ce.state.inShardProof⟩)
    ce.broadcastMessage do
      let signedCredential ← ce.signed a .credential ⟨round, 1⟩
      return .message (.leaderProposal ⟨ce.shardIndex, ce.state.inShardProof, block,
          hashing.blockHeaderHash block.header, signedHash, lastSeedSig,
          signedCredential⟩)

/-- The part of `startAtRound` that a potential leader runs. -/
def propose (round : Int) (lastSeedSig : Bytes) (seed : Hash) : Executor :=
  match a.proposeBlock with
  | none => ce.setNextStepInRound round 2
  | some proposed =>
    let block := ce.signBlock hashing a
      { proposed with
        header := { proposed.header with lastSeedSig := lastSeedSig, seed := seed } }
    if block.header.height ≠ round + 2 then ce.setNextStepInRound round 2
    else
      match a.sign (.headerHash (hashing.blockHeaderHash block.header)) with
      | none => ce
      | some signedHash =>
        (ce.broadcastProposal hashing a round lastSeedSig seed block
          signedHash).setNextStepInRound round 2

/-- The body of `startAtRound`. -/
def enterRound (round : Int) : Executor :=
  if round = ce.state.shardStopRound then
    let ce := ce.setCurrentRound a round
    { ce with
      state := { ce.state with shardStatus := .shardDisabled }
      effects := ce.effects ++ [.shardDisabled] }
  else if ce.state.shardStatus ≠ .shardEnabled then ce.setCurrentRound a round
  else
    let ce := (ce.onTimeOut (.gcStep round 1)).setCurrentRound a round
    match a.sign (.seed (ce.state.getRoundSeed (round - 1))) with
    | none => ce
    | some lastSeedSig =>
      if a.isPotentialLeader then
        ce.propose hashing a round lastSeedSig (calcRoundSeed hashing lastSeedSig round)
      else ce.setNextStepInRound round 2

/-- `replayPendingMessage` and `cleanUnusedData`, which `startAtRound` defers. -/
def replayAndClean (round : Int) : Executor :=
  { ce with
    msgQueue := ce.msgQueue ++ ce.pendData.replay round
    pendData := ce.pendData.deletePendingMsg round
    recvData := ce.recvData.cleanUnusedData round }

/-- `startAtRound`. -/
def startAtRound (round : Int) : Executor :=
  (ce.enterRound hashing a round).replayAndClean round

/-- `startNewRound`. -/
def startNewRound (header : Wire.BlockHeader) : Executor :=
  let round := header.height - 2
  (ce.setRoundSeed round header.seed).startAtRound hashing a (round + 1)

/-- `Start`. -/
def start : Executor :=
  let ce := ce.updateShardStatus .shardEnabled
  if ce.state.round = ConsensusState.initialRound then
    ce.startAtRound hashing a ConsensusState.startRound
  else ce

/-- `onInitFinished` of the subscriber to the block chain's initialisation. -/
def onInitFinished (shardHeight : Int) : Executor :=
  if ce.state.shardStatus = .shardDisabled then
    if a.isOneOfFirstMiners ∧ shardHeight = 1 then
      ce.updateShardStatus .shardEnabled
    else if shardHeight - 1 < ce.state.round then ce
    else
      (ce.updateShardStatus .shardPreparation).setCurrentRound a (shardHeight - 1)
  else ce

/-- `onTimeout`. -/
def onTimeout (round step : Int) : Executor :=
  if round ≠ ce.state.round then ce
  else if step = 1 then
    let val := match ce.gcPreVoter.generatePreVoteResult with
      | some vote => ⟨vote.blockHash, hexEncode vote.votePublicKey.bytes⟩
      | none => ByzAgreementValue.empty
    ce.broadcastLeaderVote a val round
  else if step = 2 then
    if 3 < ce.state.step then ce
    else
      let ce := ce.broadcastGC a .empty round
      (ce.setStepInRound round 4).onTimeOut (.gcLastStep round 4)
  else ce

/-- `onReceiveLeaderProposal`. -/
def onReceiveLeaderProposal (curRound : Int) (message : LeaderProposalMessage) : Executor :=
  if 2 < ce.state.step then ce
  else if a.verifyBlock = false ∧ message.block.header.height < curRound + 2 then ce
  else
    let round := message.signedCredential.message.round
    let ce := { ce with
      recvData := ce.recvData.saveBlock round message.blockHash message.block }
    let seed := calcRoundSeed hashing message.lastSeedSig round
    if ce.shouldSkipProposal seed then ce
    else
      let ce := { ce with state := ce.state.setSmallestCredInRound curRound seed }
      if a.isCommitteeVerifier then
        { ce with
          gcPreVoter := ce.gcPreVoter.addPreVote
            { round := round
              voteSignature := message.signedCredential.signature
              votePublicKey := message.signedCredential.pk
              blockHash := message.blockHash
              seed := seed
              leader := [] } }
      else ce

/-- `cacheLeaderProposal`. -/
def cacheLeaderProposal (message : LeaderProposalMessage) : Executor :=
  { ce with
    recvData := (ce.recvData.cacheBlock message.blockHash message.block).saveBlock
        message.signedCredential.message.round message.blockHash message.block }

/-- `onReceiveLeaderVote`. -/
def onReceiveLeaderVote (curRound : Int) (message : LeaderVoteMessage) : Executor :=
  if 3 < ce.state.step then ce
  else if a.isCommitteeVerifier then
    let ce := { ce with
      gcCommitVoter := ce.gcCommitVoter.addPreCommit
        { round := message.signedCredential.message.round
          voteSignature := message.signedCredential.signature
          votePublicKey := message.signedCredential.pk
          blockHash := message.signedVal.message.blockHash
          seed := Bytes32.zero
          leader := message.signedVal.message.leader } }
    if ce.state.shardStatus = .shardPreparation then ce
    else
      match ce.gcCommitVoter.generatePreCommitResult a.order with
      | some val =>
        let ce := ce.broadcastGC a val curRound
        (ce.setStepInRound curRound 4).onTimeOut (.gcLastStep curRound 4)
      | none => ce
  else ce

/-- `onGCMessage`. -/
def onGCMessage (curRound : Int) (message : GCMessage) : Executor :=
  let curStep := ce.state.step
  let v := message.signedVal.message
  let msgRound := message.signedCredential.message.round
  if 4 < curStep then ce
  else
    let (voter, report) := ce.bbaVoter.addGCVote msgRound
      message.signedCredential.message.step 0 v message.signedCredential.pk
    let ce := { ce with bbaVoter := voter }
    if report.agreeType = .totalAgreeOnZero ∧ report.haveBroadcast = false then
      let nextB : UInt8 := if v.blockHash ≠ Bytes32.zero then 0 else 1
      let ce := (ce.setResultValue msgRound v).setStepInRound curRound 4
      -- the step moves on only if it already was 4 before this message
      let ce := (ce.setNextStepInRound curRound (curStep + 1)).broadcastVote a nextB v curRound 4
      ce.onTimeOut (.bbaNextStep curRound (curStep + 1))
    else ce

/-- `cacheSeed`. -/
def cacheSeed (message : MsgSeed) : Executor :=
  let round := message.signedCredential.message.round
  { ce with
    recvData := ce.recvData.saveSeed round (hexEncode message.signedCredential.pk.bytes)
      (calcRoundSeed hashing message.lastSeedSig round) }

/-- `onSeed`. -/
def onSeed (curRound : Int) (message : MsgSeed) : Executor :=
  let seed := calcRoundSeed hashing message.lastSeedSig message.signedCredential.message.round
  let ce := ce.cacheSeed hashing message
  if ce.shouldSkipProposal seed then ce
  else { ce with state := ce.state.setSmallestCredInRound curRound seed }

/-- `onGCLastStepTimeout`. -/
def onGCLastStepTimeout (round step : Int) : Executor :=
  if ce.state.round = round ∧ ce.state.step = step then
    let voteValue := (ce.bbaVoter.getVoteKeyWithHalfThreshold a.order).getD .empty
    let ce := ce.setResultValue round voteValue
    let ce := (ce.setNextStepInRound round (step + 1)).broadcastVote a 1 voteValue round step
    ce.onTimeOut (.bbaNextStep round (step + 1))
  else ce

/-- The bit that `onBBATimeoutForNextStep` votes for. -/
def fixValue (a : Answers) (step : Int) : UInt8 :=
  if (step - 1).tmod 3 = 0 then 0
  else if (step - 1).tmod 3 = 1 then 1
  else if a.coin then 1 else 0

/-- `onBBATimeoutForNextStep`. -/
def onBBATimeoutForNextStep (round step : Int) : Executor :=
  if ce.state.round = round ∧ ce.state.step = step then
    match ce.bbaVoter.getResultValue round with
    | none => ce
    | some bbaValue =>
      let ce := (ce.setNextStepInRound round (step + 1)).broadcastVote a
        (fixValue a step) bbaValue round step
      ce.onTimeOut (.bbaNextStep round (step + 1))
  else ce

/-- `broadcastBBAFinMsg`: the vote for step `-step` tells that the round ended at `step`. It
is a plain vote when `step` is not positive. -/
def broadcastBBAFinMsg (round step : Int) (b : UInt8) (blockHeader : Wire.BlockHeader) : Executor :=
  let v := if b = 1 then some ByzAgreementValue.empty
    else ce.bbaVoter.getResultValue round
  match v with
  | none => ce
  | some v =>
    let msg := ce.checkVerifierAndGenerateSignedMessage a b v round (-step)
    let ce := ce.setNextStepInRound round (step + 1)
    (ce.broadcastMessage (some (.blockHeader blockHeader))).broadcastMessage msg

/-- The block chain has accepted a block for a round. -/
def accept (round : Int) (block : AcceptedBlock) : Executor :=
  { ce with accepted := ce.accepted ++ [(round, block)] }

/-- Ending condition 0 of `onBinaryBA`: accept the leader's block. -/
def endWithBlock (curRound step : Int) (v : ByzAgreementValue) : Executor :=
  if (ce.recvData.receivedSeed curRound v.leader).isSome ∨ v.blockHash = Bytes32.zero then
    match ce.recvData.receivedBlock curRound v.blockHash with
    | some block =>
      match a.acceptBlock with
      | .accepted =>
        let ce := ce.accept curRound (.leader block)
        (ce.broadcastBBAFinMsg a curRound step 0 block.header).startNewRound hashing a block.header
      | .mayHaveBeenAccepted => ce
      | .failed => ce.maybeBehind
    | none => ce.maybeBehind
  else ce.maybeBehind

/-- Ending condition 1 of `onBinaryBA`, and the end after too many steps:
accept the empty block. -/
def endWithEmptyBlock (curRound step : Int) : Executor :=
  match a.proposeAndAcceptEmptyBlock (curRound + 2) with
  | none => ce
  | some ⟨header, _⟩ =>
    let ce := ce.accept curRound (.empty header)
    (ce.broadcastBBAFinMsg a curRound step 1 header).startNewRound hashing a header

/-- The last part of `onBinaryBA`: vote for the next step. Whether the step
could be moved on is only logged. -/
def voteForNextStep (curRound step : Int) (agreeType : ResultType) : Executor :=
  let newB : UInt8 := if agreeType = .agreeOnOne then 1 else 0
  match ce.bbaVoter.getResultValue curRound with
  | none => ce
  | some bbaValue =>
    let ce := (ce.setNextStepInRound curRound (step + 1)).broadcastVote a
      newB bbaValue curRound (step + 1)
    ce.onTimeOut (.bbaNextStep curRound (step + 1))

/-- The vote value that `onBinaryBA` counts: none is told apart for a one. -/
def countedValue (message : MsgBinaryBA) : ByzAgreementValue :=
  if message.b = 1 then .empty else message.v

/-- `onBinaryBA`. -/
def onBinaryBA (curRound : Int) (message : MsgBinaryBA) : Executor :=
  let curStep := ce.state.step
  let v := countedValue message
  let (voter, report) := ce.bbaVoter.addVoteWithBBAMsg message.round
    message.step message.b v message
  let ce := { ce with bbaVoter := voter }
  match report.key with
  | none => ce
  | some voteKey =>
    if report.haveBroadcast then ce
    else if (voteKey.step - 1).tmod 3 = 0 ∧ report.agreeType = .totalAgreeOnZero then
      ce.endWithBlock hashing a curRound message.step v
    else if bbaMaxStep < curStep ∨
        (voteKey.step - 1).tmod 3 = 1 ∧ report.agreeType = .agreeOnOne then
      ce.endWithEmptyBlock hashing a curRound message.step
    else if voteKey.step < 0 then ce
    else ce.voteForNextStep a curRound message.step report.agreeType

/-- `onMsgBlockConfirmationInShardPreparation`. -/
def onMsgBlockConfirmationInShardPreparation (hashing : Hashing) (a : Answers)
    (ce : Executor) (curRound : Int) (message : MsgBlockConfirmation) :
    Executor :=
  let height := message.header.height
  if curRound = height - 1 then ce
  else
    let accepted : Option AcceptedBlock :=
      if message.header.isEmptyBlock then
        (a.proposeAndAcceptEmptyBlock height).map fun header => .empty header.1
      else
        match ce.recvData.cacheBlockForPrep (hashing.blockHeaderHash message.header) with
        | some block =>
          if a.acceptBlock = .accepted then some (.leader block) else none
        | none => none
    let nextRound := height - 1
    let ce := ce.setCurrentRound a (nextRound - 1)
    match accepted with
    | none => ce
    | some block =>
      let ce := ce.accept (nextRound - 1) block
      if ce.state.shardStartRound ≤ nextRound then
        let ce := ce.updateShardStatus .shardEnabled
        let ce := { ce with recvData := ce.recvData.cleanCacheBlock }
        ce.startNewRound hashing a message.header
      else ce

/-- `handleNewMessage`. -/
def handleNewMessage (curRound : Int) : Message → Executor
  | .leaderProposal message =>
    ce.onReceiveLeaderProposal hashing a curRound message
  | .leaderVote message => ce.onReceiveLeaderVote a curRound message
  | .gc message => ce.onGCMessage a curRound message
  | .binaryBA message => ce.onBinaryBA hashing a curRound message
  | .seed message => ce.onSeed hashing curRound message
  | .blockConfirmation _ => ce

/-- `handleOtherStateMessage`. -/
def handleOtherStateMessage (curRound : Int) (message : Message) : Executor :=
  match message with
  | .blockConfirmation confirmation =>
    ce.onMsgBlockConfirmationInShardPreparation hashing a curRound confirmation
  | .seed seed => ce.cacheSeed hashing seed
  | .leaderProposal proposal => ce.cacheLeaderProposal proposal
  | .leaderVote _ | .gc _ | .binaryBA _ =>
    { ce with
      pendData := ce.pendData.saveMsg message.round message.step message }

/-- `handleType`. -/
inductive HandleType where
  | ignore
  | handleMsg
  | handleOtherStateMsg

/-- `isStateValid`. -/
def isStateValid (message : Message) : HandleType :=
  if message.round < ce.state.round ∨ ce.state.shardStatus = .shardDisabled then
    .ignore
  else if ce.state.round < message.round ∨ ce.state.shardStatus = .shardPreparation then
    .handleOtherStateMsg
  else .handleMsg

/-- `msgFilter`. -/
def msgFilter (message : Message) : HandleType :=
  if a.passesFilter then ce.isStateValid message else .ignore

/-- `dispatchHandleMessage`. -/
def dispatchHandleMessage (message : Message) : Executor :=
  match ce.msgFilter a message with
  | .ignore => ce
  | .handleMsg => ce.handleNewMessage hashing a ce.state.round message
  | .handleOtherStateMsg =>
    ce.handleOtherStateMessage hashing a ce.state.round message

/-- The callback of a timeout. The ticker of a round ticks for its first and
then for its second step. -/
def fire : Timer → Executor
  | .gcStep round step =>
    let ce := ce.onTimeout a round step
    if step + 1 < 3 then ce.onTimeOut (.gcStep round (step + 1)) else ce
  | .gcLastStep round step => ce.onGCLastStepTimeout a round step
  | .bbaNextStep round step => ce.onBBATimeoutForNextStep a round step

/-- What may happen to an executor. -/
inductive Event where
  | start
  | updateInShardProof (proof : Bytes)
  | startConsensusAtRound (round : Int)
  | stopConsensusAtRound (round : Int)
  | initFinished (shardHeight : Int)
  | receive (message : Message)
  | timeout (timer : Timer)

/-- One event, handled to its end. -/
def handle : Event → Executor
  | .start => ce.start hashing a
  | .updateInShardProof proof =>
    { ce with state := { ce.state with inShardProof := proof } }
  | .startConsensusAtRound round =>
    { ce with state := { ce.state with shardStartRound := round } }
  | .stopConsensusAtRound round =>
    { ce with state := { ce.state with shardStopRound := round } }
  | .initFinished shardHeight => ce.onInitFinished a shardHeight
  | .receive message => ce.dispatchHandleMessage hashing a message
  | .timeout timer =>
    { ce with timers := ce.timers.erase timer }.fire a timer

/-- Only a registered timeout can fire. -/
def Enabled (ce : Executor) : Event → Prop
  | .timeout timer => timer ∈ ce.timers
  | _ => True

instance (ce : Executor) (event : Event) : Decidable (ce.Enabled event) :=
  match event with
  | .timeout timer => inferInstanceAs (Decidable (timer ∈ ce.timers))
  | .start | .updateInShardProof _ | .startConsensusAtRound _
  | .stopConsensusAtRound _ | .initFinished _ | .receive _ =>
    inferInstanceAs (Decidable True)

/-- One step of an executor, with any answers. -/
def Moves (hashing : Hashing) (before after : Executor) : Prop :=
  ∃ a event, before.Enabled event ∧ after = before.handle hashing a event

/-- Handle a list of events in turn. -/
def handleAll (hashing : Hashing) (ce : Executor)
    (events : List (Answers × Event)) : Executor :=
  events.foldl (fun ce event => ce.handle hashing event.1 event.2) ce

/-- Every event of a list is enabled when its turn comes. -/
def AllEnabled (hashing : Hashing) (ce : Executor) :
    List (Answers × Event) → Prop
  | [] => True
  | event :: rest =>
    ce.Enabled event.2 ∧ AllEnabled hashing (ce.handle hashing event.1 event.2) rest

instance decidableAllEnabled (hashing : Hashing) (ce : Executor) (events : List (Answers × Event)) :
    Decidable (ce.AllEnabled hashing events) :=
  match events with
  | [] => inferInstanceAs (Decidable True)
  | event :: rest =>
    have := decidableAllEnabled hashing (ce.handle hashing event.1 event.2) rest
    inferInstanceAs (Decidable (_ ∧ _))

theorem reflTransGen_handleAll (hashing : Hashing) (ce : Executor)
    (events : List (Answers × Event)) (allEnabled : ce.AllEnabled hashing events) :
    Relation.ReflTransGen (Moves hashing) ce (ce.handleAll hashing events) := by
  induction events generalizing ce with
  | nil => exact .refl
  | cons event rest ih =>
    exact .head ⟨event.1, event.2, allEnabled.1, rfl⟩ (ih _ allEnabled.2)

end Executor

namespace Example

/-- Answers that let everything pass, for runs on fixed inputs. -/
def answers (threshold : Int) : Answers where
  passesFilter := true
  isCommitteeVerifier := true
  isPotentialLeader := false
  verifyBlock := true
  acceptBlock := .accepted
  proposeAndAcceptEmptyBlock := fun height =>
    some ⟨{ (default : Wire.BlockHeader) with height := height }, rfl⟩
  proposeBlock := none
  sign := fun _ => some []
  threshold := threshold
  coin := false
  order := MapOrder.listed
  isOneOfFirstMiners := false

/-- Constant hash functions, for runs on fixed inputs. -/
def hashing : Hashing where
  sha256 := fun _ => Bytes32.zero
  blockHeaderHash := fun _ => Bytes32.fill 9

/-- A vote message, for runs on fixed inputs. -/
def vote (signer : UInt8) (round step : Int) (b : UInt8)
    (v : ByzAgreementValue) : Message :=
  .binaryBA ⟨[], ⟨Bytes32.fill signer, [], ⟨0, round, step, b, v⟩⟩⟩

end Example

end MultiVac.Consensus
