import MultiVac.Consensus.Confirmation

/-!
# The signer of a vote

`IsValidated` of a leader vote and of a gradecast message. The credential and the value
are signed one by one, and the handlers count the value under the key and the round of
the credential. Nothing ties the two signatures together, so the parts of different
messages can be mixed.
-/

namespace MultiVac.Consensus

open Lib
open Wire (Codec encodeToBytes)
open ReadBlockConfirmation (byteCurve byteKey byteProof)

/-- `isValidSignedCredential`. -/
def isValidSignedCredential {α : Type} (curve : Curve) (codec : Codec α) (cred : Option α)
    (sc : ReadSignedMsg) : Go Unit := do
  let cred ← deref cred
  match ← Go.attempt (encodeToBytes codec cred) with
  | none => Go.fail "cant't serialize ByzAgreementValue message"
  | some s =>
    Go.require (← curve.verifyProof sc.pk sc.signature s) "invalid ByzAgreementValue message"

theorem isValidSignedCredential_eq_ok {α : Type} {curve : Curve} {codec : Codec α} {cred : Option α}
    {sc : ReadSignedMsg} :
    isValidSignedCredential curve codec cred sc = .ok () ↔
      ∃ value s, cred = some value ∧ encodeToBytes codec value = .ok s ∧
        curve.verifyProof sc.pk sc.signature s = .ok true := by
  simp only [isValidSignedCredential, bind_eq_ok, deref_eq_ok]
  constructor
  · rintro ⟨value, isValue, written, wrote, checked⟩
    cases written with
    | none => cases checked
    | some s =>
      obtain ⟨verdict, verified, isTrue⟩ := bind_eq_ok.mp checked
      rw [Go.require_eq_ok] at isTrue
      exact ⟨value, s, isValue, (Go.attempt_eq_ok_some _ _).mp wrote, isTrue ▸ verified⟩
  · rintro ⟨value, s, isValue, wrote, verified⟩
    refine ⟨value, isValue, some s, (Go.attempt_eq_ok_some _ _).mpr wrote, ?_⟩
    exact bind_eq_ok.mpr ⟨true, verified, rfl⟩

/-- The signed parts of `wire.LeaderVoteMessage` and of `wire.GCMessage`, as they are
read. -/
structure ReadVote where
  signedCredential : Option ReadSignedMsg
  signedVal : Option ReadSignedMsg

namespace ReadVote

/-- `IsValidated`, which is the same for both kinds of messages. -/
def isValidated (curve : Curve) (m : ReadVote) : Go Unit := do
  let signedCredential ← deref m.signedCredential
  isValidSignedCredential curve Codec.credential signedCredential.message.credential
    signedCredential
  let signedVal ← deref m.signedVal
  isValidSignedCredential curve Codec.byzAgreementValue signedVal.message.byzAgreementValue
    signedVal

/-- `GetRound`, if the credential is present. -/
def round (sc : ReadSignedMsg) : Option Int := sc.message.credential.map Credential.round

/-- The key of the credential signed the value, and the signature of the value is accepted
with no credential of another key or of another round. -/
def Bound (curve : Curve) (signed : Bytes → Bytes → Prop) (m : ReadVote) : Prop :=
  ∃ cred val value s, m.signedCredential = some cred ∧ m.signedVal = some val ∧
      val.message.byzAgreementValue = some value ∧
      encodeToBytes Codec.byzAgreementValue value = .ok s ∧ cred.pk = val.pk ∧ signed cred.pk s ∧
      ∀ other, isValidated curve ⟨some other, some val⟩ = .ok () →
        other.pk = cred.pk ∧ round other = round cred

/-- Both parts have the same key, which has signed credentials of this round only, and no
other key has signed a credential. -/
def OnlySigner (signed : Bytes → Bytes → Prop) (m : ReadVote) : Prop :=
  ∃ cred val, m.signedCredential = some cred ∧ m.signedVal = some val ∧ cred.pk = val.pk ∧
      ∀ pk credential s, encodeToBytes Codec.credential credential = .ok s → signed pk s →
        pk = cred.pk ∧ some credential.round = round cred

theorem isValidated_eq_ok {curve : Curve} {m : ReadVote} :
    m.isValidated curve = .ok () ↔
      ∃ cred val, m.signedCredential = some cred ∧ m.signedVal = some val ∧
        isValidSignedCredential curve Codec.credential cred.message.credential cred = .ok () ∧
        isValidSignedCredential curve Codec.byzAgreementValue val.message.byzAgreementValue val =
          .ok () := by
  simp only [isValidated, bind_eq_ok, deref_eq_ok]
  constructor
  · rintro ⟨cred, isCred, _, credValid, val, isVal, valValid⟩
    exact ⟨cred, val, isCred, isVal, credValid, valValid⟩
  · rintro ⟨cred, val, isCred, isVal, credValid, valValid⟩
    exact ⟨cred, isCred, (), credValid, val, isVal, valValid⟩

/-- With unforgeable signatures, an accepted vote is bound to its signer exactly if no
other credential has been signed. -/
theorem bound_of_isValidated_iff {curve : Curve} {signed : Bytes → Bytes → Prop}
    (unforgeable : ∀ pk s, (∃ signature, curve.verifyProof pk signature s = .ok true) ↔ signed pk s)
    {m : ReadVote} (validated : m.isValidated curve = .ok ()) :
    m.Bound curve signed ↔ m.OnlySigner signed := by
  obtain ⟨cred, val, isCred, isVal, credValid, valValid⟩ := isValidated_eq_ok.mp validated
  obtain ⟨value, s, isValue, wrote, verified⟩ := isValidSignedCredential_eq_ok.mp valValid
  constructor
  · rintro ⟨cred', val', -, -, isCred', isVal', -, -, sameKey, -, alone⟩
    refine ⟨cred', val', isCred', isVal', sameKey, fun pk credential t wroteOther isSigned => ?_⟩
    obtain ⟨signature, accepted⟩ := (unforgeable pk t).mpr isSigned
    rw [isVal] at isVal'
    obtain rfl := Option.some.inj isVal'
    -- The credential of the other signer goes together with the value of this message.
    have otherValid : isValidated curve
        ⟨some ⟨pk, signature, ⟨some credential, none, none⟩⟩, some val⟩ = .ok () :=
      isValidated_eq_ok.mpr ⟨_, _, rfl, rfl,
        isValidSignedCredential_eq_ok.mpr ⟨credential, t, rfl, wroteOther, accepted⟩, valValid⟩
    exact alone _ otherValid
  · rintro ⟨cred', val', isCred', isVal', sameKey, alone⟩
    rw [isVal] at isVal'
    obtain rfl := Option.some.inj isVal'
    refine ⟨cred', val, value, s, isCred', isVal, isValue, wrote, sameKey, ?_, ?_⟩
    · rw [sameKey]
      exact (unforgeable _ _).mp ⟨_, verified⟩
    · intro other otherValid
      obtain ⟨_, _, isOther, -, validOther, -⟩ := isValidated_eq_ok.mp otherValid
      obtain rfl := Option.some.inj isOther
      obtain ⟨credential, t, isCredential, wroteOther, accepted⟩ :=
        isValidSignedCredential_eq_ok.mp validOther
      obtain ⟨key, sameRound⟩ := alone _ credential t wroteOther
        ((unforgeable _ _).mp ⟨_, accepted⟩)
      refine ⟨key, ?_⟩
      rw [← sameRound, round, isCredential]
      rfl

/-- The vote of a key in a round, signed in the group of bytes. -/
def voteOf (x : UInt8) (round : Int) : ReadVote :=
  let sign := fun bytes : Go Bytes => byteProof x 7 (bytes.toOption.getD [])
  ⟨some ⟨byteKey x, sign (encodeToBytes Codec.credential ⟨round, 3⟩), ⟨some ⟨round, 3⟩, none, none⟩⟩,
    some ⟨byteKey x, sign (encodeToBytes Codec.byzAgreementValue .empty), ⟨none, none, some .empty⟩⟩⟩

/-- A vote whose parts have one signer. -/
theorem bound_of_isValidated_voteOf :
    (voteOf 1 1).isValidated byteCurve = .ok () ∧
      let signed := fun pk s => ∃ signature, byteCurve.verifyProof pk signature s = .ok true
      ((voteOf 1 1).Bound byteCurve signed ↔ (voteOf 1 1).OnlySigner signed) := by
  have validated : (voteOf 1 1).isValidated byteCurve = .ok () := by decide +kernel
  exact ⟨validated, bound_of_isValidated_iff (fun _ _ => Iff.rfl) validated⟩

/-- The credential of one vote and the value of another are accepted as a vote. -/
theorem isValidated_mixedVote :
    let signed := fun pk s => ∃ signature, byteCurve.verifyProof pk signature s = .ok true
    let mixed : ReadVote := ⟨(voteOf 1 1).signedCredential, (voteOf 2 2).signedVal⟩
    (voteOf 1 1).isValidated byteCurve = .ok () ∧ (voteOf 2 2).isValidated byteCurve = .ok () ∧
      mixed.isValidated byteCurve = .ok () ∧ ¬mixed.Bound byteCurve signed := by
  refine ⟨by decide +kernel, by decide +kernel, by decide +kernel, ?_⟩
  rintro ⟨cred, val, -, -, isCred, isVal, -, -, sameKey, -⟩
  obtain rfl := Option.some.inj isCred
  obtain rfl := Option.some.inj isVal
  exact absurd sameKey (by decide)

end ReadVote
end MultiVac.Consensus
