import MultiVac.Base.Vrf
import MultiVac.Consensus.Executor
import MultiVac.Ledger.State

/-!
# Validation of a block confirmation

`MsgBlockConfirmation.IsValidated`, for a message as the decoder builds it. A pointer
with the tag `nil` may be `nil` in such a message, and its keys and signatures may have
any length, so the check can panic. It ties the votes to the shard, the round and the
value of the message, but not the value to the header, and it looks at no vote if the
header is that of an empty block.
-/

namespace MultiVac

namespace Wire
namespace Codec

open Lib
open Lib.Rlp (Item)

/-- A pointer with the tag `nil`, to a struct that never has the encoding of `nil`. -/
def nilable {α : Type} (codec : Codec α)
    (nonempty : ∀ value, codec.write value ≠ .ok (.list []) ∧ codec.write value ≠ .ok (.str [])) :
    Codec (Option α) where
  write := fun value =>
    match value with
    | none => .ok (.list [])
    | some value => codec.write value
  read := fun item =>
    match item with
    | .list [] | .str [] => some none
    | item => (codec.read item).map some
  decoded := Option.map codec.decoded
  decoded_decoded := by
    intro value
    cases value with
    | none => rfl
    | some value => exact congrArg some (codec.decoded_decoded value)
  write_decoded := by
    intro value
    cases value with
    | none => rfl
    | some value => exact codec.write_decoded value
  read_of_write := by
    intro value item wrote result inRead
    cases value with
    | none =>
      obtain rfl := Except.ok.inj wrote
      exact (Option.some.inj inRead).symm
    | some value =>
      split at inRead
      · exact absurd wrote (nonempty value).1
      · exact absurd wrote (nonempty value).2
      · obtain ⟨read, inCodec, rfl⟩ := Option.map_eq_some_iff.mp inRead
        exact congrArg some (codec.read_of_write wrote read inCodec)
  decoded_of_write := by
    intro first second item wroteFirst wroteSecond
    cases first with
    | none =>
      cases second with
      | none => rfl
      | some second =>
        obtain rfl := Except.ok.inj wroteFirst
        exact absurd wroteSecond (nonempty second).1
    | some first =>
      cases second with
      | none =>
        obtain rfl := Except.ok.inj wroteSecond
        exact absurd wroteFirst (nonempty first).1
      | some second => exact congrArg some (codec.decoded_of_write wroteFirst wroteSecond)

/-- A struct with a field is not written like `nil`. -/
theorem struct_field_nonempty {α β γ : Type} {first : Codec β} {others : Fields γ}
    {view : α → β × γ} {back : β × γ → α} (view_back : ∀ shown, view (back shown) = shown)
    (value : α) :
    (struct (first.field others) view back view_back).write value ≠ .ok (.list []) ∧
      (struct (first.field others) view back view_back).write value ≠ .ok (.str []) := by
  have form {item : Item}
      (wrote : (struct (first.field others) view back view_back).write value = .ok item) :
      ∃ head tail, item = .list (head :: tail) := by
    obtain ⟨items, wroteFields, wroteItem⟩ := bind_eq_ok.mp wrote
    obtain ⟨head, _, rest⟩ := bind_eq_ok.mp wroteFields
    obtain ⟨tail, _, isItems⟩ := bind_eq_ok.mp rest
    obtain rfl := pure_eq_ok.mp isItems
    exact ⟨head, tail, (Except.ok.inj wroteItem).symm⟩
  constructor
  · intro wrote
    obtain ⟨_, _, isItem⟩ := form wrote
    cases isItem
  · intro wrote
    obtain ⟨_, _, isItem⟩ := form wrote
    cases isItem

end Codec
end Wire

namespace Consensus

open Lib
open Wire (BlockHeader ShardIndex Codec encodeToBytes decodeBytes)
open Ledger (HeaderStore)

/-- `wire.ConsensusMsg`. -/
structure ConsensusMsg where
  credential : Option Credential
  credentialWithBA : Option CredentialWithBA
  byzAgreementValue : Option ByzAgreementValue
deriving DecidableEq

/-- `wire.SignedMsg`, as it is read. -/
structure ReadSignedMsg where
  pk : Bytes
  signature : Bytes
  message : ConsensusMsg
deriving DecidableEq

/-- `wire.MsgBinaryBAFin`, as it is read. -/
structure ReadBinaryBAFin where
  inShardProof : Bytes
  signedCredentialWithBA : Option ReadSignedMsg
deriving DecidableEq

/-- `wire.MsgBlockConfirmation`, as it is read. -/
structure ReadBlockConfirmation where
  shardIndex : ShardIndex
  round : Int
  step : Int
  v : ByzAgreementValue
  header : Option BlockHeader
  confirms : List ReadBinaryBAFin
deriving DecidableEq

namespace Codec

open Wire.Codec
open Lib.Format (field noFields)

/-- `wire.ByzAgreementValue`. -/
def byzAgreementValue : Codec ByzAgreementValue :=
  struct (field byteArray <| field string <| noFields)
    (fun value => (value.blockHash, value.leader, ()))
    (fun (blockHash, leader, _) => { blockHash, leader }) (fun _ => rfl)

/-- `wire.Credential`. -/
def credential : Codec Credential :=
  struct (field int32 <| field int32 <| noFields)
    (fun value => (value.round, value.step, ()))
    (fun (round, step, _) => { round, step }) (fun _ => rfl)

/-- `wire.CredentialWithBA`. -/
def credentialWithBA : Codec CredentialWithBA :=
  struct (field uint32 <| field int32 <| field int32 <| field uint8 <| field byzAgreementValue <|
      noFields)
    (fun value => (value.shardIndex, value.round, value.step, value.b, value.v, ()))
    (fun (shardIndex, round, step, b, v, _) => { shardIndex, round, step, b, v }) (fun _ => rfl)

/-- `wire.ConsensusMsg`. -/
def consensusMsg : Codec ConsensusMsg :=
  struct (field (nilable credential (struct_field_nonempty _)) <|
      field (nilable credentialWithBA (struct_field_nonempty _)) <|
      field (nilable byzAgreementValue (struct_field_nonempty _)) <| noFields)
    (fun value => (value.credential, value.credentialWithBA, value.byzAgreementValue, ()))
    (fun (credential, credentialWithBA, byzAgreementValue, _) =>
      { credential, credentialWithBA, byzAgreementValue })
    (fun _ => rfl)

/-- `wire.SignedMsg`. -/
def signedMsg : Codec ReadSignedMsg :=
  struct (field string <| field string <| field consensusMsg <| noFields)
    (fun value => (value.pk, value.signature, value.message, ()))
    (fun (pk, signature, message, _) => { pk, signature, message }) (fun _ => rfl)

/-- `wire.MsgBinaryBAFin`, a struct with a `wire.MsgBinaryBA` as its one field. -/
def msgBinaryBAFin : Codec ReadBinaryBAFin :=
  struct (field (struct (field string <| field (nilable signedMsg (struct_field_nonempty _)) <|
          noFields)
        (fun value : ReadBinaryBAFin => (value.inShardProof, value.signedCredentialWithBA, ()))
        (fun (inShardProof, signedCredentialWithBA, _) =>
          { inShardProof, signedCredentialWithBA })
        (fun _ => rfl)) <|
      noFields)
    (fun value => (value, ())) (fun (value, _) => value) (fun _ => rfl)

/-- `wire.MsgBlockConfirmation`. -/
def msgBlockConfirmation : Codec ReadBlockConfirmation :=
  struct (field uint32 <| field int32 <| field int32 <| field byzAgreementValue <|
      field (nilable blockHeader (struct_field_nonempty _)) <| field (list msgBinaryBAFin) <|
      noFields)
    (fun value => (value.shardIndex, value.round, value.step, value.v, value.header,
      value.confirms, ()))
    (fun (shardIndex, round, step, v, header, confirms, _) =>
      { shardIndex, round, step, v, header, confirms })
    (fun _ => rfl)

end Codec

/-- The field of a pointer. -/
def deref {α : Type} (pointer : Option α) : Go α :=
  match pointer with
  | some value => .ok value
  | none => Go.panic

@[simp]
theorem deref_eq_ok {α : Type} (pointer : Option α) (value : α) :
    deref pointer = .ok value ↔ pointer = some value := by
  cases pointer <;> simp [deref]

theorem deref_eq_panic {α : Type} (pointer : Option α) : deref pointer = Go.panic ↔ pointer = none := by
  cases pointer <;> simp [deref, Go.ok_ne_panic]

/-- Seven bits of a number go into each byte. -/
theorem length_putUvarint_le_iff {size fuel number : Nat} (enough : size + 1 < fuel) :
    (putUvarint fuel number).length ≤ size + 1 ↔ number < 128 ^ (size + 1) := by
  induction size generalizing fuel number with
  | zero =>
    obtain ⟨fuel, rfl⟩ := Nat.exists_eq_add_of_lt enough
    rw [show 0 + 1 + fuel + 1 = fuel + 1 + 1 by omega, putUvarint]
    split
    next small => simpa using small
    next large =>
      have more : 0 < (putUvarint (fuel + 1) (number / 128)).length := by
        rw [putUvarint]
        split <;> simp
      simp only [List.length_cons]
      omega
  | succ size ih =>
    obtain ⟨fuel, rfl⟩ := Nat.exists_eq_add_of_lt enough
    rw [putUvarint]
    split
    next small =>
      have large : 128 ≤ 128 ^ (size + 1 + 1) := Nat.le_self_pow (by omega) 128
      simp only [List.length_singleton]
      omega
    next large =>
      rw [List.length_cons, Nat.add_le_add_iff_right, ih (by omega),
        Nat.div_lt_iff_lt_mul (by decide), ← Nat.pow_succ]

theorem length_putVarint_le_iff (number : Int) :
    (putVarint number).length ≤ 8 ↔ -2 ^ 55 ≤ number ∧ number < 2 ^ 55 := by
  rw [putVarint, length_putUvarint_le_iff (by decide : 7 + 1 < 10)]
  split <;> omega

namespace ReadBlockConfirmation

variable (curve : Curve) (msg : ReadBlockConfirmation)

/-- One round of the loop over the confirms in `IsValidated`. -/
def checkConfirm (b : UInt8) (bbaMsg : ReadBinaryBAFin) : Go Unit := do
  let signed ← deref bbaMsg.signedCredentialWithBA
  let signedCredential ← deref signed.message.credentialWithBA
  let cred := { signedCredential with b := b }
  match ← Go.attempt (encodeToBytes Codec.credentialWithBA cred) with
  | none => Go.fail "verify confirms failed, cred serialize failed"
  | some buf =>
    Go.require (← curve.verifyProof signed.pk signed.signature buf)
      "verify confirms failed, bba proof wrong"
    Go.require (cred.shardIndex = msg.shardIndex)
      "verify confirms failed, confirmation.Index, bbaMsg.Index"
    Go.require (cred.round = msg.round) "verify confirms failed, confirmation.round, bbaMsg.round"
    Go.require (cred.step ≤ msg.step) "verify confirms failed, confirmation.round, bbaMsg.round"
    Go.require (cred.v = msg.v) "verify confirms failed, bba ByzAgreementValue wrong"

/-- `IsValidated`. -/
def isValidated : Go Unit := do
  let header ← deref msg.header
  let blockHeaderHash ← HeaderStore.blockHeaderHash header
  if header.isEmptyBlock then return ()
  Go.require (← curve.verifyProof header.pk header.headerSig blockHeaderHash.bytes)
    "verify header failed"
  let round := putVarint (header.height - 2)
  -- `PutVarint` writes into the eight bytes after the signature
  Go.assert (round.length ≤ 8)
  let curSeed := sha256 (header.lastSeedSig ++ round ++ List.replicate (8 - round.length) 0)
  Go.require (header.seed = curSeed) "verify seed failed"
  Go.require (hexEncode header.pk = msg.v.leader)
    "verify Header.Pk and ByzAgreementValue.Leader failed"
  let b := if blockHeaderHash = Bytes32.zero then 1 else 0
  msg.confirms.forM (msg.checkConfirm curve b)

/-- The signature, the height and the seed of the header are right, and its key is the
leader of the value. -/
def HeaderChecked (header : BlockHeader) (hash : Hash) : Prop :=
  curve.verifyProof header.pk header.headerSig hash.bytes = .ok true ∧
    (-2 ^ 55 ≤ header.height - 2 ∧ header.height - 2 < 2 ^ 55) ∧
    header.seed = sha256 (header.lastSeedSig ++ putVarint (header.height - 2) ++
      List.replicate (8 - (putVarint (header.height - 2)).length) 0) ∧
    hexEncode header.pk = msg.v.leader

/-- A confirm has signed a vote for the shard, the round and the value of the message, with
the bit that belongs to the header. -/
def Votes (b : UInt8) (bbaMsg : ReadBinaryBAFin) : Prop :=
  ∃ signed step sent buf, bbaMsg.signedCredentialWithBA = some signed ∧
    signed.message.credentialWithBA = some ⟨msg.shardIndex, msg.round, step, sent, msg.v⟩ ∧
    step ≤ msg.step ∧
    encodeToBytes Codec.credentialWithBA ⟨msg.shardIndex, msg.round, step, b, msg.v⟩ = .ok buf ∧
    curve.verifyProof signed.pk signed.signature buf = .ok true

/-- A confirm without a vote, or with one that cannot be encoded or verified. -/
def ConfirmPanics (b : UInt8) (bbaMsg : ReadBinaryBAFin) : Prop :=
  bbaMsg.signedCredentialWithBA = none ∨ ∃ signed, bbaMsg.signedCredentialWithBA = some signed ∧
    (signed.message.credentialWithBA = none ∨
      ∃ credential, signed.message.credentialWithBA = some credential ∧
        (encodeToBytes Codec.credentialWithBA { credential with b } = Go.panic ∨
          ∃ buf, encodeToBytes Codec.credentialWithBA { credential with b } = .ok buf ∧
            curve.ProofPanics signed.pk signed.signature buf))

/-- The bit of the votes under a header. -/
def bitOf (hash : Hash) : UInt8 := if hash = Bytes32.zero then 1 else 0

/-- The message has no header, or one that cannot be hashed. Under a header that is not empty,
the check of its signature panics, or it succeeds and the height does not fit into eight bytes,
or all is right up to a confirm that cannot be checked. -/
def Panics : Prop :=
  msg.header = none ∨ ∃ header, msg.header = some header ∧
    (HeaderStore.blockHeaderHash header = Go.panic ∨
      ∃ hash, HeaderStore.blockHeaderHash header = .ok hash ∧ header.isEmptyBlock = false ∧
        (curve.ProofPanics header.pk header.headerSig hash.bytes ∨
          curve.verifyProof header.pk header.headerSig hash.bytes = .ok true ∧
            ¬ (-2 ^ 55 ≤ header.height - 2 ∧ header.height - 2 < 2 ^ 55) ∨
          msg.HeaderChecked curve header hash ∧ ∃ before bbaMsg after,
            msg.confirms = before ++ bbaMsg :: after ∧
            (∀ earlier ∈ before, msg.Votes curve (bitOf hash) earlier) ∧
            ConfirmPanics curve (bitOf hash) bbaMsg))

/-- The message has the header of an empty block, or a header that is checked and whose
confirms are votes for the message. -/
def Accepted : Prop :=
  ∃ header hash, msg.header = some header ∧ HeaderStore.blockHeaderHash header = .ok hash ∧
    (header.isEmptyBlock = true ∨ msg.HeaderChecked curve header hash ∧
      ∀ bbaMsg ∈ msg.confirms, msg.Votes curve (bitOf hash) bbaMsg)

/-- A confirm is signed over the shard, the round and the value of the message. -/
def Signs (bbaMsg : ReadBinaryBAFin) : Prop :=
  ∃ signed step b buf, bbaMsg.signedCredentialWithBA = some signed ∧
      encodeToBytes Codec.credentialWithBA ⟨msg.shardIndex, msg.round, step, b, msg.v⟩ = .ok buf ∧
      curve.verifyProof signed.pk signed.signature buf = .ok true

/-- The value, the shard and the round of the message are those of its header. -/
def Bound : Prop :=
  ∃ header hash, msg.header = some header ∧ HeaderStore.blockHeaderHash header = .ok hash ∧
      msg.v.blockHash = (if header.isEmptyBlock then Bytes32.zero else hash) ∧
      header.shardIndex = msg.shardIndex ∧
      msg.round = header.height - 2

/-- The message confirms its header. -/
def Sound : Prop :=
  msg.Bound ∧ ∀ bbaMsg ∈ msg.confirms, msg.Signs curve bbaMsg

variable {curve : Curve} {msg : ReadBlockConfirmation} {b : UInt8} {bbaMsg : ReadBinaryBAFin}

theorem checkConfirm_eq_ok_iff :
    msg.checkConfirm curve b bbaMsg = .ok () ↔ msg.Votes curve b bbaMsg := by
  simp only [checkConfirm, bind_eq_ok, deref_eq_ok]
  constructor
  · rintro ⟨signed, isSigned, ⟨_, _, step, sent, _⟩, isCredential, written, wrote, checked⟩
    cases written with
    | none => cases checked
    | some buf =>
      simp only [bind_eq_ok, Go.require_eq_ok, decide_eq_true_eq] at checked
      obtain ⟨_, verified, _, rfl, _, rfl, _, rfl, _, early, rfl⟩ := checked
      rw [Go.attempt_eq_ok_some] at wrote
      exact ⟨signed, step, sent, buf, isSigned, isCredential, early, wrote, verified⟩
  · rintro ⟨signed, step, sent, buf, isSigned, isCredential, early, wrote, verified⟩
    refine ⟨signed, isSigned, _, isCredential, some buf, (Go.attempt_eq_ok_some _ _).mpr wrote, ?_⟩
    simp only [bind_eq_ok, Go.require_eq_ok, decide_eq_true_eq]
    exact ⟨true, verified, (), rfl, (), trivial, (), trivial, (), early, trivial⟩

theorem checkConfirm_eq_panic_iff :
    msg.checkConfirm curve b bbaMsg = Go.panic ↔ ConfirmPanics curve b bbaMsg := by
  simp only [checkConfirm, ConfirmPanics, Go.bind_eq_panic, deref_eq_ok, deref_eq_panic,
    Go.attempt_eq_panic]
  refine or_congr Iff.rfl (exists_congr fun signed => and_congr Iff.rfl (or_congr Iff.rfl
    (exists_congr fun credential => and_congr Iff.rfl (or_congr Iff.rfl ⟨?_, ?_⟩))))
  · rintro ⟨written, wrote, panics⟩
    cases written with
    | none => cases panics
    | some buf =>
      simp only [Go.bind_eq_panic, Go.require_ne_panic, or_false, and_false, exists_false] at panics
      exact ⟨buf, (Go.attempt_eq_ok_some _ _).mp wrote, Curve.verifyProof_eq_panic_iff.mp panics⟩
  · rintro ⟨buf, wrote, panics⟩
    exact ⟨some buf, (Go.attempt_eq_ok_some _ _).mpr wrote,
      Go.bind_eq_panic.mpr (.inl (Curve.verifyProof_eq_panic_iff.mpr panics))⟩

theorem isValidated_eq_ok_iff : msg.isValidated curve = .ok () ↔ msg.Accepted curve := by
  simp only [isValidated, Accepted, bind_eq_ok, deref_eq_ok, ← exists_and_left]
  refine exists_congr fun header => exists_congr fun hash => and_congr Iff.rfl (and_congr Iff.rfl ?_)
  cases isEmpty : header.isEmptyBlock with
  | true => simp
  | false =>
    simp only [Bool.false_eq_true, if_false, false_or, bind_eq_ok, Go.require_eq_ok,
      Go.assert_eq_ok, decide_eq_true_eq, length_putVarint_le_iff, forM_eq_ok_iff,
      checkConfirm_eq_ok_iff, HeaderChecked, exists_const]
    constructor
    · rintro ⟨_, verified, rfl, fits, seeded, led, votes⟩
      exact ⟨⟨verified, fits, seeded, led⟩, votes⟩
    · rintro ⟨⟨verified, fits, seeded, led⟩, votes⟩
      exact ⟨true, verified, rfl, fits, seeded, led, votes⟩

theorem isValidated_eq_panic_iff : msg.isValidated curve = Go.panic ↔ msg.Panics curve := by
  simp only [isValidated, Panics, Go.bind_eq_panic, deref_eq_ok, deref_eq_panic]
  refine or_congr Iff.rfl (exists_congr fun header => and_congr Iff.rfl (or_congr Iff.rfl
    (exists_congr fun hash => and_congr Iff.rfl ?_)))
  cases isEmpty : header.isEmptyBlock with
  | true => simp [Go.pure_ne_panic]
  | false =>
    simp only [Bool.false_eq_true, if_false, true_and, Go.bind_eq_panic, Go.require_ne_panic,
      Go.require_eq_ok, Go.assert_eq_panic, Go.assert_eq_ok, decide_eq_true_eq,
      decide_eq_false_iff_not, length_putVarint_le_iff, Go.forM_eq_panic, checkConfirm_eq_ok_iff,
      checkConfirm_eq_panic_iff, Curve.verifyProof_eq_panic_iff, HeaderChecked, exists_const,
      false_or]
    refine or_congr Iff.rfl ⟨?_, ?_⟩
    · rintro ⟨_, verified, rfl, unfit | ⟨fits, seeded, led, confirms⟩⟩
      · exact .inl ⟨verified, unfit⟩
      · exact .inr ⟨⟨verified, fits, seeded, led⟩, confirms⟩
    · rintro (⟨verified, unfit⟩ | ⟨⟨verified, fits, seeded, led⟩, confirms⟩)
      · exact ⟨true, verified, rfl, .inl unfit⟩
      · exact ⟨true, verified, rfl, .inr ⟨fits, seeded, led, confirms⟩⟩

theorem signs_of_votes (votes : msg.Votes curve b bbaMsg) : msg.Signs curve bbaMsg := by
  obtain ⟨signed, step, -, buf, isSigned, -, -, wrote, verified⟩ := votes
  exact ⟨signed, step, b, buf, isSigned, wrote, verified⟩

/-- When the check panics and when it accepts a message; an accepted message confirms its
header exactly when its value, shard and round are those of the header, which are not looked
at, and, under the header of an empty block, its votes are signed. -/
theorem sound_of_isValidated_iff (curve : Curve) (msg : ReadBlockConfirmation) :
    (msg.isValidated curve = Go.panic ↔ msg.Panics curve) ∧
      (msg.isValidated curve = .ok () ↔ msg.Accepted curve) ∧
      (msg.isValidated curve = .ok () → (msg.Sound curve ↔
        msg.Bound ∧ ∀ header, msg.header = some header → header.isEmptyBlock = true →
          ∀ bbaMsg ∈ msg.confirms, msg.Signs curve bbaMsg)) := by
  refine ⟨isValidated_eq_panic_iff, isValidated_eq_ok_iff, fun accepted => ?_⟩
  obtain ⟨header, _, isHeader, -, isEmpty | ⟨-, votes⟩⟩ := isValidated_eq_ok_iff.mp accepted
  · exact ⟨fun sound => ⟨sound.1, fun _ _ _ => sound.2⟩, fun ⟨bound, ofEmpty⟩ =>
      ⟨bound, ofEmpty header isHeader isEmpty⟩⟩
  · exact ⟨fun sound => ⟨sound.1, fun _ _ _ => sound.2⟩, fun ⟨bound, _⟩ =>
      ⟨bound, fun bbaMsg inConfirms => signs_of_votes (votes bbaMsg inConfirms)⟩⟩

/-! ### Messages -/

/-- The group of the multiples of a base of order 256. -/
def byteCurve : Curve where
  Point := UInt8
  fromBytes := fun bytes => some (bytes.bytes.getD 0 0)
  toBytes := fun point => .copy [point]
  base := 1
  geDouble := fun point => point + point
  geAdd := (· + ·)
  geScalarMult := fun point scalar => scalar.bytes.getD 0 0 * point
  geDoubleScalarMultVartime := fun scalar point other =>
    scalar.bytes.getD 0 0 * point + other.bytes.getD 0 0

/-- The key of a scalar. -/
def byteKey (x : UInt8) : Bytes := (Bytes32.copy [x]).bytes

/-- `Generate` in this group: the proof of a message with the scalar of a key and a nonce. -/
def byteProof (x k : UInt8) (msg : Bytes) : Bytes :=
  match byteCurve.hashToCurve msg (byteKey x) with
  | .error _ => []
  | .ok h =>
    let h : UInt8 := h
    let os := fun point : UInt8 => byteCurve.ecp2os point
    let c := (sha256 [os 1, os h, Curve.s2os (byteKey x), os (x * h), os k,
      os (k * h)].flatten).bytes.take 16
    os (x * h) ++ c ++ List.replicate 31 0 ++ [k - c.getLastD 0 * x]

/-- A header of height three, to be signed. -/
def plainHeader : BlockHeader :=
  { (default : BlockHeader) with
    height := 3
    pk := byteKey 5
    lastSeedSig := [7]
    seed := sha256 ([7] ++ putVarint 1 ++ List.replicate 7 0) }

/-- The hash of the header, which leaves the signature out. -/
def signedHeaderHash : Hash :=
  ((HeaderStore.blockHeaderHash plainHeader).toOption).getD Bytes32.zero

/-- The signed header. -/
def signedHeader : BlockHeader :=
  { plainHeader with headerSig := byteProof 5 9 signedHeaderHash.bytes }

/-- The value for the signed header. -/
def signedValue : ByzAgreementValue := ⟨signedHeaderHash, hexEncode (byteKey 5)⟩

/-- A confirm of the signed header by the key of a scalar. -/
def signedConfirm (x : UInt8) : ReadBinaryBAFin :=
  let credential : CredentialWithBA := ⟨0, 1, 4, 0, signedValue⟩
  let buf := ((encodeToBytes Codec.credentialWithBA credential).toOption).getD []
  ⟨[], some ⟨byteKey x, byteProof x 11 buf, ⟨none, some credential, none⟩⟩⟩

/-- A confirmation of the signed header by two votes. -/
def signedConfirmation : ReadBlockConfirmation where
  shardIndex := 0
  round := 1
  step := 4
  v := signedValue
  header := some signedHeader
  confirms := [signedConfirm 2, signedConfirm 3]

/-- A signed confirmation. -/
theorem sound_signedConfirmation :
    signedConfirmation.isValidated byteCurve = .ok () ∧ signedConfirmation.Sound byteCurve := by
  have facts : HeaderStore.blockHeaderHash signedHeader = .ok signedHeaderHash ∧
      signedConfirmation.isValidated byteCurve = .ok () := by
    decide +kernel
  obtain ⟨hashed, accepted⟩ := facts
  have nonempty : signedHeader.isEmptyBlock = false := rfl
  have bound : signedConfirmation.Bound := by
    refine ⟨signedHeader, signedHeaderHash, rfl, hashed, ?_, rfl, rfl⟩
    simp only [nonempty, Bool.false_eq_true, if_false, signedConfirmation, signedValue]
  refine ⟨accepted, ((sound_of_isValidated_iff byteCurve _).2.2 accepted).mpr ⟨bound, ?_⟩⟩
  intro header isHeader isEmpty
  cases isHeader
  cases isEmpty

/-- The header of an empty block. -/
def emptyHeader : BlockHeader :=
  { (default : BlockHeader) with shardIndex := 1, height := 2, isEmptyBlock := true }

/-- A message under the header of an empty block of another shard and round, with a vote
that nobody signed. -/
def unsignedConfirmation : ReadBlockConfirmation where
  shardIndex := 0
  round := 9
  step := 4
  v := ⟨Bytes32.fill 1, []⟩
  header := some emptyHeader
  confirms := [⟨[], none⟩]

/-- A message without a header. -/
def headerlessConfirmation : ReadBlockConfirmation :=
  { unsignedConfirmation with header := none }

/-- The first message can be read and is accepted, though its value, shard and round are
not those of its header and its vote is not signed. The second can be read and makes the
check panic. -/
theorem isValidated_unsignedConfirmation :
    (∃ bytes, decodeBytes Codec.msgBlockConfirmation bytes = some unsignedConfirmation) ∧
      (∃ bytes, decodeBytes Codec.msgBlockConfirmation bytes = some headerlessConfirmation) ∧
      ∀ curve : Curve, unsignedConfirmation.isValidated curve = .ok () ∧
          ¬unsignedConfirmation.Bound ∧
          (∀ bbaMsg ∈ unsignedConfirmation.confirms, ¬unsignedConfirmation.Signs curve bbaMsg) ∧
          headerlessConfirmation.isValidated curve = Go.panic := by
  have readable : decodeBytes Codec.msgBlockConfirmation <$>
          encodeToBytes Codec.msgBlockConfirmation unsignedConfirmation =
        .ok (some unsignedConfirmation) ∧
      decodeBytes Codec.msgBlockConfirmation <$>
          encodeToBytes Codec.msgBlockConfirmation headerlessConfirmation =
        .ok (some headerlessConfirmation) ∧
      (fun _ => ()) <$> HeaderStore.blockHeaderHash emptyHeader = .ok () := by
    decide +kernel
  obtain ⟨first, second, hashed⟩ := readable
  obtain ⟨hash, hashed, _⟩ := map_eq_ok.mp hashed
  obtain ⟨firstBytes, _, firstRead⟩ := map_eq_ok.mp first
  obtain ⟨secondBytes, _, secondRead⟩ := map_eq_ok.mp second
  refine ⟨⟨firstBytes, firstRead⟩, ⟨secondBytes, secondRead⟩, fun curve => ⟨?_, ?_, ?_, ?_⟩⟩
  · exact isValidated_eq_ok_iff.mpr ⟨emptyHeader, hash, rfl, hashed, .inl rfl⟩
  · rintro ⟨header, _, isHeader, _, _, _, sameRound⟩
    cases isHeader
    exact absurd sameRound (by decide)
  · intro bbaMsg inConfirms
    obtain rfl := List.mem_singleton.mp inConfirms
    rintro ⟨_, _, _, _, isSigned, _⟩
    cases isSigned
  · unfold isValidated
    rfl

end ReadBlockConfirmation

end Consensus
end MultiVac
