import MultiVac.Wire.Out

/-!
# Transactions

`MsgTx` and `MsgTxWithProofs`: the hash and the signature of a transaction, the
value of its inputs, and the checks a node makes before it uses one.
-/

namespace MultiVac.Wire

open Lib

/-- The last 32 bytes of `reducekey.ReducePrivateKey`. -/
def reducePublicKey : Bytes := [
  45, 89, 120, 152, 41, 6, 10, 73, 40, 94, 5, 169, 144, 164, 55, 171,
  141, 246, 2, 205, 223, 55, 200, 116, 122, 243, 232, 176, 135, 90, 67, 122]

/-- `reducekey.ReducePrivateKey`. -/
def reducePrivateKey : Bytes := [
  255, 255, 43, 85, 60, 46, 148, 248, 168, 237, 186, 87, 135, 113, 87, 80,
  53, 64, 172, 200, 43, 244, 45, 32, 204, 179, 235, 117, 248, 232, 62, 47] ++ reducePublicKey

/-- `wire.TxVersion`. -/
def txVersion : Int := 1

namespace SysAPI

/-- Send coins. -/
def transfer : GoString := ascii ['t', 'r', 'a', 'n', 's', 'f', 'e', 'r']
/-- Lock coins as a deposit. -/
def deposit : GoString := ascii ['d', 'e', 'p', 'o', 's', 'i', 't']
/-- End a deposit. -/
def withdraw : GoString := ascii ['w', 'i', 't', 'h', 'd', 'r', 'a', 'w']
/-- Reward a proposer. -/
def reward : GoString := ascii ['r', 'e', 'w', 'a', 'r', 'd']
/-- Deploy a contract. -/
def deploy : GoString := ascii ['d', 'e', 'p', 'l', 'o', 'y']
/-- Change the binding of a deposit. -/
def binding : GoString := ascii ['b', 'i', 'n', 'd', 'i', 'n', 'g']

end SysAPI

/-- The loop that refuses an out that occurs twice; `seen` holds the hashes of the
outs before. -/
def refuseDuplicates (text : String) (seen : List MerkleHash) : List OutPoint → Go Unit
  | [] => .ok ()
  | out :: rest => do
    let hash ← out.unspentOutHash
    Go.require (hash ∉ seen) text
    refuseDuplicates text (hash :: seen) rest

/-- The loop succeeds exactly when all hashes are new and different. -/
theorem refuseDuplicates_eq_ok_iff (text : String) (seen : List MerkleHash) (outs : List OutPoint)
    (result : Unit) :
    refuseDuplicates text seen outs = .ok result ↔
      ∃ hashes, outs.mapM OutPoint.unspentOutHash = .ok hashes ∧ hashes.Nodup ∧
        ∀ hash ∈ hashes, hash ∉ seen := by
  induction outs generalizing seen with
  | nil => simp [refuseDuplicates]
  | cons out rest ih =>
    simp only [refuseDuplicates, bind_eq_ok, Go.require_eq_ok, decide_eq_true_eq,
      ih, List.mapM_cons, pure_eq_ok]
    constructor
    · rintro ⟨hash, hashed, _, fresh, hashes, hashedRest, distinct, freshRest⟩
      refine ⟨hash :: hashes, ⟨hash, hashed, hashes, hashedRest, rfl⟩, ?_, ?_⟩
      · refine List.nodup_cons.mpr ⟨fun repeated => ?_, distinct⟩
        exact freshRest hash repeated List.mem_cons_self
      · intro other inHashes
        rcases List.mem_cons.mp inHashes with rfl | inRest
        · exact fresh
        · exact fun old => freshRest other inRest (List.mem_cons_of_mem _ old)
    · rintro ⟨_, ⟨hash, hashed, hashes, hashedRest, rfl⟩, distinct, fresh⟩
      obtain ⟨notRepeated, distinctRest⟩ := List.nodup_cons.mp distinct
      refine ⟨hash, hashed, (), fresh hash List.mem_cons_self, hashes, hashedRest,
        distinctRest, fun other inHashes old => ?_⟩
      rcases List.mem_cons.mp old with rfl | old
      · exact notRepeated inHashes
      · exact fresh other (List.mem_cons_of_mem _ inHashes) old

namespace MsgTx

/-- The hash that identifies a transaction. -/
def txHash (tx : MsgTx) : Go Hash := hashOf Codec.msgTx tx

/-- `doubleSha256WithoutSignatureAndPubKey`. -/
def signedHash (tx : MsgTx) : Go Hash := do
  let unsigned := { tx with signatureScript := .of [], publicKey := .of [] }
  return doubleSha256 (← encodeToBytes Codec.msgTx unsigned)

/-- The outs a transaction spends. -/
def inputs (tx : MsgTx) : List OutPoint := tx.txIn.elems.map TxIn.previousOutPoint

/-- A reduce transaction has the reduce key. -/
def isReduceTx (tx : MsgTx) : Bool := tx.publicKey.elems = reducePublicKey

/-- The transaction calls the reward API. -/
def isRewardTx (tx : MsgTx) : Bool := tx.api = SysAPI.reward

/-- The transaction belongs to a shard. -/
def isTxInShard (tx : MsgTx) (shardIndex : ShardIndex) : Bool := shardIndex = tx.shard

variable (primitives : Primitives)

/-- The transaction calls a contract that users deployed. -/
def isSmartContractTx (tx : MsgTx) : Bool :=
  !Address.isEqual tx.contractAddress (sysAPIAddress primitives)

/-- `TotalMtvValue`: only outs of the system contract count. -/
def totalMtvValue (tx : MsgTx) : Go Int :=
  tx.inputs.foldlM (fun value out => do
    if Address.isEqual out.contractAddress (sysAPIAddress primitives) then
      return value + (← out.getMtvValueFromOut)
    else
      return value) 0

/-- `Sign` with `reducekey.ReducePrivateKey`. -/
def signReduce (tx : MsgTx) : Go MsgTx := do
  let message := (← tx.signedHash).bytes
  return { tx with
    publicKey := .of reducePublicKey
    signatureScript := .of (primitives.ed25519Sign reducePrivateKey message) }

/-- `signature.Verify`, which panics on a public key of the wrong size. -/
def verifyWith (publicKey message sig : Bytes) : Go Bool :=
  if publicKey.length = 32 then
    .ok (primitives.ed25519Verify publicKey message sig)
  else
    Go.panic

/-- The addresses of the spent outs match the key of the transaction. An error
of the address check makes the answer `false`. -/
def ownsInputs (tx : MsgTx) : Go Bool :=
  let matchesKey (addrType : AddressType) (out : OutPoint) : Go Bool := do
    let checked ← Go.attempt
      (Address.verifyPublicKey primitives out.userAddress tx.publicKey.elems addrType)
    return checked.isSome
  if tx.isReduceTx then
    match tx.inputs with
    | [out] => matchesKey .smartContractAddress out
    | _ => .ok false
  else
    tx.inputs.allM (matchesKey .userAddress)

/-- The signature is that of the owner of the inputs. -/
def verifySignature (tx : MsgTx) : Go Bool := do
  if tx.signatureScript.length = 0 then return false
  if !(← tx.ownsInputs primitives) then return false
  let data ← tx.signedHash
  verifyWith primitives tx.publicKey.elems data.bytes tx.signatureScript.elems

/-- `VerifyTransaction`, with the storage reward off. -/
def verifyTransaction (tx : MsgTx) : Go Unit := do
  Go.require (← tx.verifySignature primitives) "Invalid Signature"
  Go.require (tx.inputs.all fun out => out.shard = tx.shard) "invalid TxIn shard"
  refuseDuplicates "Verify block body: Transactions have duplicate txin" [] tx.inputs
  Go.require (!tx.inputs.isEmpty) "there is no txin"

variable {primitives} in
/-- What is known of a verified transaction that is not a reduce transaction: its
inputs belong to the key that signed it. -/
theorem of_verifyTransaction {tx : MsgTx} (verified : tx.verifyTransaction primitives = .ok ())
    (ordinary : tx.isReduceTx = false) :
    (∃ message, tx.signedHash = .ok message ∧ primitives.ed25519Verify tx.publicKey.elems
      message.bytes tx.signatureScript.elems = true) ∧
    ∀ out ∈ tx.inputs, out.shard = tx.shard ∧
      Address.verifyPublicKey primitives out.userAddress tx.publicKey.elems .userAddress =
        .ok () := by
  simp only [verifyTransaction, bind_eq_ok, Go.require_eq_ok, List.all_eq_true,
    decide_eq_true_eq] at verified
  obtain ⟨_, signed, _, rfl, _, inShard, _⟩ := verified
  unfold verifySignature at signed
  split at signed
  · cases signed
  · obtain ⟨owns, ownsInputs, signed⟩ := bind_eq_ok.mp signed
    cases owns with
    | false => cases signed
    | true =>
      obtain ⟨message, hashed, checked⟩ := bind_eq_ok.mp signed
      refine ⟨⟨message, hashed, ?_⟩, fun out inInputs => ⟨inShard out inInputs, ?_⟩⟩
      · unfold verifyWith at checked
        split at checked
        · exact Except.ok.inj checked
        · exact absurd checked (Go.panic_ne_ok _)
      · simp only [MsgTx.ownsInputs, ordinary, Bool.false_eq_true, if_false,
          allM_eq_ok_true_iff, bind_eq_ok, pure_eq_ok] at ownsInputs
        obtain ⟨_ | ⟨⟩, attempted, present⟩ := ownsInputs out inInputs
        · cases present
        · exact (Go.attempt_eq_ok_some _ _).mp attempted

end MsgTx

end MultiVac.Wire
